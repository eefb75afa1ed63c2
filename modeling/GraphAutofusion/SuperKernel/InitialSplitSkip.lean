import GraphAutofusion.SuperKernel.SplitPositions

/-!
# SuperKernel.InitialSplitSkip — skipping unfusible nodes

A skipped NOTIFY resumes the streams that wait for it, and these skip on before
the NOTIFY's own stream does. During such a nest of calls the NOTIFY nodes under
way are `pending` and their streams `busy`: a busy stream is not suspended, so no
inner call touches it. Every call terminates, keeps `SkipOk`, and leaves its
stream settled.
-/

namespace GraphAutofusion.SuperKernel

open Relation Lib SuperKernelGraph List Option SplitState

variable (g : SuperKernelGraph)

/-- Where a stream rests after skipping: at its end, at a fusible node, or
suspended on an unfusible WAIT. The NOTIFY of that WAIT is not visited yet, or the
WAIT is among the `woken` ones whose stream is about to be resumed. -/
inductive Settled (woken : Set NodeId) (st : SplitState) (j : StreamIdx) : Prop where
  | ended (hc : st.cur j = none)
  | fusible {c : NodeId} {n : SuperKernelBaseNode} (hc : st.cur j = some c)
      (hn : g.getNodeById c = some n) (hf : n.isFusible = true) (hs : st.isSuspended j = false)
  | blocked {c y : NodeId} {n yn : SuperKernelBaseNode} (hc : st.cur j = some c)
      (hn : g.getNodeById c = some n) (hwait : n.nodeType = .nodeWait)
      (hf : n.isFusible = false)
      (hnotify : n.syncInfos.correspondingNotifyNodeId = some y) (hy : g.getNodeById y = some yn)
      (hs : st.isSuspended j = true) (hfor : st.waitingFor j = yn.syncInfos.eventId)
      (hnot : y ∉ st.visitedNotifies ∨ c ∈ woken)

/-- The invariant of the skip phase. -/
structure SkipOk (pending : List NodeId) (busy : Set StreamIdx) (woken : Set NodeId)
    (st : SplitState) : Prop where
  tracks : Tracks g pending st
  pending_busy : ∀ x ∈ pending, ∀ n, g.getNodeById x = some n → n.streamIdxInGraph ∈ busy
  unsuspended : ∀ j ∈ busy, st.isSuspended j = false
  no_scope : st.currentScope = none
  waiting : ∀ j, st.waitingFor j ≠ none → st.isSuspended j = true
  settled : ∀ j, j ∉ busy → Settled g woken st j

/-- A handled NOTIFY counts as visited until all its WAITs are handled. -/
def Signalled (pending : List NodeId) (st : SplitState) : Prop :=
  ∀ x ∈ doneSet g pending st, ∀ n, g.getNodeById x = some n → n.nodeType = .nodeNotify →
    x ∈ st.visitedNotifies ∨ ∀ w ∈ n.syncInfos.correspondingWaitNodeIds, w ∈ doneSet g pending st

/-- What a call of the skip phase does: scheduler steps outside of any scope. -/
structure SkipRel (pending pending' : List NodeId) (st st' : SplitState) : Prop where
  steps : ∀ closed, BatchSteps g.HbEdge (Fusible g) (batchState g pending closed st)
    (batchState g pending' closed st')
  signalled : Signalled g pending st → Signalled g pending' st'
  terminated : ∀ j, (st'.streamStates j).isTerminated = (st.streamStates j).isTerminated

variable {g} {pending pending' pending'' : List NodeId} {busy : Set StreamIdx}
  {woken : Set NodeId} {st st' st'' : SplitState} {i : StreamIdx} {c : NodeId}
  {n : SuperKernelBaseNode}

theorem SkipRel.refl : SkipRel g pending pending st st :=
  ⟨fun _ => .refl, id, fun _ => rfl⟩

theorem SkipRel.trans (h : SkipRel g pending pending' st st')
    (h' : SkipRel g pending' pending'' st' st'') : SkipRel g pending pending'' st st'' :=
  ⟨fun closed => (h.steps closed).trans (h'.steps closed), h'.signalled ∘ h.signalled,
    fun j => (h'.terminated j).trans (h.terminated j)⟩

/-- A call that handles no node. -/
theorem SkipRel.of_doneSet (hdone : doneSet g pending' st' = doneSet g pending st)
    (hvisited : st'.visitedNotifies = st.visitedNotifies)
    (hscope : st'.currentScope = st.currentScope)
    (hterm : ∀ j, (st'.streamStates j).isTerminated = (st.streamStates j).isTerminated) :
    SkipRel g pending pending' st st' := by
  refine ⟨fun closed => ?_, ?_, hterm⟩
  · have heq : batchState g pending' closed st' = batchState g pending closed st := by
      unfold batchState
      rw [hdone, hscope]
    rw [heq]
  · intro hs
    unfold Signalled
    rw [hdone, hvisited]
    exact hs

theorem terminated_setStream (s : StreamState)
    (hs : s.isTerminated = (st.streamStates i).isTerminated) (j : StreamIdx) :
    ((st.setStream i s).streamStates j).isTerminated = (st.streamStates j).isTerminated := by
  rw [streamStates_setStream]
  split
  · next h => rw [h, hs]
  · rfl

theorem Settled.congr (hs : Settled g woken st i) (hcur : st'.cur i = st.cur i)
    (hsusp : st'.isSuspended i = st.isSuspended i) (hfor : st'.waitingFor i = st.waitingFor i)
    (hvisited : st'.visitedNotifies = st.visitedNotifies) : Settled g woken st' i := by
  cases hs with
  | ended hc => exact .ended (hcur.trans hc)
  | fusible hc hn hf hs => exact .fusible (hcur.trans hc) hn hf (hsusp.trans hs)
  | blocked hc hn hwait hf hnotify hy hs hfor' hnot =>
    exact .blocked (hcur.trans hc) hn hwait hf hnotify hy (hsusp.trans hs) (hfor.trans hfor')
      (hvisited ▸ hnot)

/-! ## Handling the head of a stream -/

/-- An unfusible head that is ready is marked as handled; its stream still stands
at it. -/
theorem Tracks.mark (hg : g.WellFormed) (ht : Tracks g pending st) (hc : st.cur i = some c)
    (hn : g.getNodeById c = some n) (hi : n.streamIdxInGraph = i) (hfree : FreeStream g pending i)
    (hscope : st.currentScope = none) (hf : n.isFusible = false)
    (hwait : n.nodeType = .nodeWait → ∀ y ∈ n.syncInfos.correspondingNotifyNodeId,
      y ∈ doneSet g pending st)
    (hstreams : st'.streamStates = st.streamStates) (hscope' : st'.currentScope = none)
    (hvisited : ∀ x, x ∈ st'.visitedNotifies ↔
      x ∈ st.visitedNotifies ∨ x = c ∧ n.nodeType = .nodeNotify)
    (hprocessed : ∀ x ∈ st'.processedNodes, x = c ∨ x ∈ st.processedNodes) :
    Tracks g (c :: pending) st' ∧ SkipRel g pending (c :: pending) st st' := by
  have hnot : c ∉ pending := fun hmem => hfree c hmem n hn hi
  have hcur : ∀ j, st'.cur j = st.cur j := fun j => by unfold cur; rw [hstreams]
  have hcons : doneSet g (c :: pending) st' = insert c (doneSet g pending st) := by
    rw [doneSet_congr hcur, doneSet_cons hn]
  refine ⟨⟨?_, ?_, ?_, ?_⟩, ⟨?_, ?_, fun j => by rw [hstreams]⟩⟩
  · intro j d hd
    exact ht.cur_valid j d (hcur j ▸ hd)
  · intro x hx
    rcases mem_cons.mp hx with rfl | hx
    · exact ⟨n, hn, by rw [hcur, hi, hc]⟩
    · rcases ht.head x hx with ⟨m, hm, hmc⟩
      exact ⟨m, hm, (hcur _).trans hmc⟩
  · intro x hx
    rw [hcons]
    rcases (hvisited x).mp hx with hx | ⟨rfl, _⟩
    · exact .inr (ht.visited x hx)
    · exact .inl rfl
  · intro x hx
    rw [hcons]
    rcases hprocessed x hx with rfl | hx
    · exact .inl rfl
    · exact .inr (ht.processed x hx)
  · intro closed
    refine .single ?_
    have hunfusible : ¬ Fusible g c := by
      intro hfusible
      rcases hfusible with ⟨m, hm, hmf⟩
      have heq : n = m := some.inj (hn.symm.trans hm)
      rw [← heq, hf] at hmf
      exact Bool.false_ne_true hmf
    have hstep : BatchStep g.HbEdge (Fusible g) (batchState g pending closed st)
        { batchState g pending closed st with done := insert c (doneSet g pending st) } :=
      BatchStep.skip (by simp [batchState, hscope]) (not_mem_doneSet_cur hc hn hi hnot) hunfusible
        fun y hedge => ready_of_cur hg hc hn hi hwait hedge
    have heq : batchState g (c :: pending) closed st'
        = { batchState g pending closed st with done := insert c (doneSet g pending st) } := by
      unfold batchState
      rw [hcons, hscope', hscope]
    rw [heq]
    exact hstep
  · intro hs x hx m hm htype
    rw [hcons] at hx
    rcases hx with rfl | hx
    · have heq : n = m := some.inj (hn.symm.trans hm)
      exact .inl ((hvisited x).mpr (.inr ⟨rfl, heq ▸ htype⟩))
    · rcases hs x hx m hm htype with hv | hall
      · exact .inl ((hvisited x).mpr (.inl hv))
      · refine .inr fun w hw => ?_
        rw [hcons]
        exact .inr (hall w hw)

/-- The stream of a marked head moves on. -/
theorem SkipOk.advance (hg : g.WellFormed) (hok : SkipOk g (c :: pending) (insert i busy) woken st)
    (hn : g.getNodeById c = some n) (hi : n.streamIdxInGraph = i) (hfree : FreeStream g pending i) :
    SkipOk g pending (insert i busy) woken (st.setCurrentNodeId i n.nextNodeId) ∧
      SkipRel g (c :: pending) pending st (st.setCurrentNodeId i n.nextNodeId) ∧
      skipPotential g (st.setCurrentNodeId i n.nextNodeId) + 1 = skipPotential g st := by
  rcases hok.tracks.advance hg hn hi hfree with ⟨ht, hdone⟩
  refine ⟨⟨ht, ?_, ?_, hok.no_scope, ?_, ?_⟩, ?_, ?_⟩
  · intro x hx
    exact hok.pending_busy x (mem_cons_of_mem _ hx)
  · intro j hj
    rw [isSuspended_setCurrentNodeId]
    exact hok.unsuspended j hj
  · intro j hj
    rw [waitingFor_setCurrentNodeId] at hj
    rw [isSuspended_setCurrentNodeId]
    exact hok.waiting j hj
  · intro j hj
    have hne : j ≠ i := fun h => hj (.inl h)
    exact (hok.settled j hj).congr (by rw [cur_setCurrentNodeId, if_neg hne])
      (by simp) (by simp) rfl
  · exact SkipRel.of_doneSet hdone rfl rfl (terminated_setStream _ rfl)
  · rcases hok.tracks.head c (mem_cons_self ..) with ⟨m, hm, hmc⟩
    have heq : n = m := some.inj (hn.symm.trans hm)
    rw [← heq, hi] at hmc
    have hundone := ncard_undoneNodes_advance hg hmc hn hi
    have hsusp : suspendedStreams g (st.setCurrentNodeId i n.nextNodeId) = suspendedStreams g st :=
      suspendedStreams_congr (by simp)
    unfold skipPotential
    rw [hsusp]
    omega

/-! ## The nested calls -/

variable (g) in
/-- The specification of `skipUnfusibleNodesForStream`. -/
def SkipSpec (skip : SplitState → StreamIdx → Option SplitState) : Prop :=
  ∀ pending busy woken i st st', SkipOk g pending (insert i busy) woken st →
    FreeStream g pending i → i ∉ busy → skip st i = some st' →
    SkipOk g pending busy woken st' ∧ SkipRel g pending pending st st' ∧
      skipPotential g st' ≤ skipPotential g st + 1

/-- Resuming a suspended stream makes it busy. -/
theorem SkipOk.resume (hok : SkipOk g pending busy woken st) (hlt : i < g.streamNum)
    (hs : st.isSuspended i = true) :
    SkipOk g pending (insert i busy) woken (st.resume i) ∧
      SkipRel g pending pending st (st.resume i) ∧ FreeStream g pending i ∧ i ∉ busy ∧
      skipPotential g (st.resume i) + 1 = skipPotential g st := by
  have hcur : ∀ j, (st.resume i).cur j = st.cur j := fun j => cur_resume ..
  have hbusy : i ∉ busy := fun h => by simp [hok.unsuspended i h] at hs
  refine ⟨⟨hok.tracks.congr hcur hok.tracks.visited hok.tracks.processed, ?_, ?_, hok.no_scope,
    ?_, ?_⟩, SkipRel.of_doneSet (doneSet_congr hcur) rfl rfl (terminated_setStream _ rfl), ?_,
    hbusy, ?_⟩
  · intro x hx m hm
    exact .inr (hok.pending_busy x hx m hm)
  · rintro j (rfl | hj)
    · simp
    · rw [isSuspended_resume]
      split
      · rfl
      · exact hok.unsuspended j hj
  · intro j hj
    rw [waitingFor_resume] at hj
    rw [isSuspended_resume]
    split at hj
    · exact absurd rfl hj
    · next hne =>
      rw [if_neg hne]
      exact hok.waiting j hj
  · intro j hj
    have hne : j ≠ i := fun h => hj (.inl h)
    exact (hok.settled j fun h => hj (.inr h)).congr (hcur j) (by simp [hne]) (by simp [hne]) rfl
  · intro x hx m hm heq
    exact hbusy (heq ▸ hok.pending_busy x hx m hm)
  · have hsusp := ncard_suspendedStreams_resume (g := g) hlt hs
    have hundone : undoneNodes g (st.resume i) = undoneNodes g st := undoneNodes_congr hcur
    unfold skipPotential
    rw [hundone]
    omega

/-- A woken WAIT is dropped once no stream outside the busy ones is blocked at it. -/
theorem SkipOk.drop_woken {ws : Set NodeId} {w : NodeId} (hok : SkipOk g pending busy (insert w ws) st)
    (hw : ∀ j, j ∉ busy → st.cur j = some w → st.isSuspended j = true →
      ∀ m y yn, g.getNodeById w = some m → m.syncInfos.correspondingNotifyNodeId = some y →
        g.getNodeById y = some yn → st.waitingFor j ≠ yn.syncInfos.eventId) :
    SkipOk g pending busy ws st := by
  refine ⟨hok.tracks, hok.pending_busy, hok.unsuspended, hok.no_scope, hok.waiting, fun j hj => ?_⟩
  cases hok.settled j hj with
  | ended hc => exact .ended hc
  | fusible hc hn hf hs => exact .fusible hc hn hf hs
  | blocked hc hn hwait hf hnotify hy hs hfor hnot =>
    rcases hnot with hnot | rfl | hmem
    · exact .blocked hc hn hwait hf hnotify hy hs hfor (.inl hnot)
    · exact absurd hfor (hw j hj hc hs _ _ _ hn hnotify hy)
    · exact .blocked hc hn hwait hf hnotify hy hs hfor (.inr hmem)

/-- One iteration of the resume loop, at a WAIT `w` of the visited NOTIFY `n`: the
stream waiting at `w` becomes busy, or no stream waits there. -/
theorem SkipOk.wake (hg : g.WellFormed) {ws : Set NodeId} {w : NodeId} {m : SuperKernelBaseNode}
    (hok : SkipOk g pending busy (insert w ws) st) (hn : n ∈ g.nodes)
    (hm : g.getNodeById w = some m)
    (hcorr : m.syncInfos.correspondingNotifyNodeId = some n.nodeId) :
    (st.isWaitingFor m.streamIdxInGraph n.syncInfos.eventId = true →
      SkipOk g pending (insert m.streamIdxInGraph busy) ws (st.resume m.streamIdxInGraph) ∧
      SkipRel g pending pending st (st.resume m.streamIdxInGraph) ∧
      FreeStream g pending m.streamIdxInGraph ∧ m.streamIdxInGraph ∉ busy ∧
      skipPotential g (st.resume m.streamIdxInGraph) + 1 = skipPotential g st) ∧
    (st.isWaitingFor m.streamIdxInGraph n.syncInfos.eventId = false →
      SkipOk g pending busy ws st) := by
  have hstream : ∀ j, st.cur j = some w → m.streamIdxInGraph = j := by
    intro j hc
    rcases hok.tracks.cur_valid j w hc with ⟨k, hk, hkj⟩
    have heq : m = k := some.inj (hm.symm.trans hk)
    rw [heq, hkj]
  constructor
  · intro hwaiting
    rcases (isWaitingFor_iff ..).mp hwaiting with ⟨hs, _⟩
    have hlt := hg.stream_lt m (getNodeById_some hm).1
    rcases hok.resume hlt hs with ⟨hres, hrest⟩
    refine ⟨hres.drop_woken ?_, hrest⟩
    -- the resumed stream is the only one that can stand at `w`
    intro j hj hc
    rw [cur_resume] at hc
    exact absurd (.inl (hstream j hc).symm) hj
  · intro hwaiting
    refine hok.drop_woken ?_
    intro j _ hc hs k y yn hk hy hyn hfor
    have hkm : m = k := some.inj (hm.symm.trans hk)
    have hyeq : y = n.nodeId := some.inj (hy.symm.trans (hkm ▸ hcorr))
    have hyn' : yn = n := some.inj (hyn.symm.trans (hyeq ▸ hg.getNodeById_of_mem hn))
    apply Bool.false_ne_true
    rw [← hwaiting, isWaitingFor_iff, hstream j hc]
    exact ⟨hs, hyn' ▸ hfor⟩

theorem woken_cons (w : NodeId) (ws : List NodeId) :
    woken ∪ { x | x ∈ w :: ws } = insert w (woken ∪ { x | x ∈ ws }) := by
  ext x
  simp only [mem_cons, Set.mem_union, Set.mem_ofPred_eq, Set.mem_insert_iff]
  tauto

variable {skip : SplitState → StreamIdx → Option SplitState}

/-- The resume loop, for WAITs of the visited NOTIFY `n`. -/
theorem resumeSuspendedWaitStreams_spec (hg : g.WellFormed)
    (hskip : SkipSpec g skip)
    (hn : n ∈ g.nodes) (htype : n.nodeType = .nodeNotify) {ws : List NodeId}
    (hws : ∀ w ∈ ws, w ∈ n.syncInfos.correspondingWaitNodeIds)
    (hok : SkipOk g pending busy (woken ∪ { w | w ∈ ws }) st)
    (hrun : resumeSuspendedWaitStreams g skip n.syncInfos.eventId ws st = some st') :
    SkipOk g pending busy woken st' ∧ SkipRel g pending pending st st' ∧
      skipPotential g st' ≤ skipPotential g st := by
  induction ws generalizing st with
  | nil =>
    obtain rfl : st = st' := by simpa [resumeSuspendedWaitStreams] using hrun
    refine ⟨?_, SkipRel.refl, le_refl _⟩
    simpa using hok
  | cons w ws ih =>
    rcases hg.notify_wait hn htype (hws w (mem_cons_self ..)) with ⟨m, hm, _, hcorr⟩
    rw [woken_cons] at hok
    have hws' := fun x hx => hws x (mem_cons_of_mem _ hx)
    rcases hok.wake hg hn hm hcorr with ⟨hwake, hpass⟩
    simp only [resumeSuspendedWaitStreams, hm] at hrun
    split at hrun
    · next hwaiting =>
      rcases hwake hwaiting with ⟨hres, hrel, hfree, hbusy, hpot⟩
      split at hrun
      · simp at hrun
      · next st₁ hcall =>
        rcases hskip _ _ _ _ _ _ hres hfree hbusy hcall with ⟨hok₁, hrel₁, hpot₁⟩
        rcases ih hws' hok₁ hrun with ⟨hok₂, hrel₂, hpot₂⟩
        exact ⟨hok₂, (hrel.trans hrel₁).trans hrel₂, by omega⟩
    · next hwaiting => exact ih hws' (hpass (Bool.not_eq_true _ ▸ hwaiting)) hrun

/-! ## One stream -/

section

variable (hok : SkipOk g pending (insert i busy) woken st)
include hok

/-- An unfusible WAIT whose NOTIFY is not visited suspends its stream. -/
theorem SkipOk.suspend (hbusy : i ∉ busy)
    (hfree : FreeStream g pending i) (hc : st.cur i = some c) (hn : g.getNodeById c = some n)
    (hwait : n.nodeType = .nodeWait) (hf : n.isFusible = false) {y : NodeId}
    {yn : SuperKernelBaseNode} (hnotify : n.syncInfos.correspondingNotifyNodeId = some y)
    (hy : g.getNodeById y = some yn) (hnot : y ∉ st.visitedNotifies) :
    SkipOk g pending busy woken (st.suspend i yn.syncInfos.eventId) ∧
      SkipRel g pending pending st (st.suspend i yn.syncInfos.eventId) ∧
      skipPotential g (st.suspend i yn.syncInfos.eventId) ≤ skipPotential g st + 1 := by
  have hcur : ∀ j, (st.suspend i yn.syncInfos.eventId).cur j = st.cur j :=
    fun j => cur_suspend ..
  refine ⟨⟨hok.tracks.congr hcur hok.tracks.visited hok.tracks.processed, ?_, ?_, hok.no_scope,
    ?_, ?_⟩, SkipRel.of_doneSet (doneSet_congr hcur) rfl rfl (terminated_setStream _ rfl), ?_⟩
  · intro x hx m hm
    rcases hok.pending_busy x hx m hm with heq | hmem
    · exact absurd heq (hfree x hx m hm)
    · exact hmem
  · intro j hj
    have hne : j ≠ i := fun h => hbusy (h ▸ hj)
    rw [isSuspended_suspend, if_neg hne]
    exact hok.unsuspended j (.inr hj)
  · intro j hj
    rw [waitingFor_suspend] at hj
    rw [isSuspended_suspend]
    split
    · rfl
    · next hne =>
      rw [if_neg hne] at hj
      exact hok.waiting j hj
  · intro j hj
    by_cases hji : j = i
    · subst hji
      exact .blocked ((hcur j).trans hc) hn hwait hf hnotify hy (by simp) (by simp) (.inl hnot)
    · have hmem : j ∉ insert i busy := by
        rintro (h | h)
        · exact hji h
        · exact hj h
      exact (hok.settled j hmem).congr (hcur j) (by simp [hji]) (by simp [hji]) rfl
  · have hsusp : (suspendedStreams g (st.suspend i yn.syncInfos.eventId)).ncard
        ≤ (suspendedStreams g st).ncard + 1 := ncard_suspendedStreams_suspend _
    have hundone : undoneNodes g (st.suspend i yn.syncInfos.eventId) = undoneNodes g st :=
      undoneNodes_congr hcur
    unfold skipPotential
    rw [hundone]
    omega

/-- A stream that needs no step is settled. -/
theorem SkipOk.settle (hfree : FreeStream g pending i) (hset : Settled g woken st i) :
    SkipOk g pending busy woken st := by
  refine ⟨hok.tracks, ?_, fun j hj => hok.unsuspended j (.inr hj), hok.no_scope, hok.waiting, ?_⟩
  · intro x hx m hm
    rcases hok.pending_busy x hx m hm with heq | hmem
    · exact absurd heq (hfree x hx m hm)
    · exact hmem
  · intro j hj
    by_cases hji : j = i
    · exact hji ▸ hset
    · refine hok.settled j ?_
      rintro (h | h)
      · exact hji h
      · exact hj h

/-- A marked head other than a NOTIFY keeps the invariant. -/
theorem SkipOk.of_mark
    (hn : g.getNodeById c = some n) (hi : n.streamIdxInGraph = i)
    (ht : Tracks g (c :: pending) st') (hstreams : st'.streamStates = st.streamStates)
    (hscope' : st'.currentScope = none) {woken' : Set NodeId}
    (hvisited : ∀ x y, x ∈ woken ∨ y ∉ st.visitedNotifies → (∃ m, g.getNodeById x = some m ∧
      m.nodeType = .nodeWait ∧ m.syncInfos.correspondingNotifyNodeId = some y) →
      x ∈ woken' ∨ y ∉ st'.visitedNotifies) :
    SkipOk g (c :: pending) (insert i busy) woken' st' := by
  have hcur : ∀ j, st'.cur j = st.cur j := fun j => by unfold cur; rw [hstreams]
  have hsusp : ∀ j, st'.isSuspended j = st.isSuspended j := fun j => by
    unfold isSuspended; rw [hstreams]
  have hfor : ∀ j, st'.waitingFor j = st.waitingFor j := fun j => by
    unfold waitingFor; rw [hstreams]
  refine ⟨ht, ?_, fun j hj => (hsusp j).trans (hok.unsuspended j hj), hscope',
    fun j hj => (hsusp j).trans (hok.waiting j (hfor j ▸ hj)), fun j hj => ?_⟩
  · intro x hx m hm
    rcases mem_cons.mp hx with rfl | hx
    · have heq : n = m := some.inj (hn.symm.trans hm)
      exact .inl (heq ▸ hi)
    · exact hok.pending_busy x hx m hm
  · cases hok.settled j hj with
    | ended hc => exact .ended ((hcur j).trans hc)
    | fusible hc hn hf hs => exact .fusible ((hcur j).trans hc) hn hf ((hsusp j).trans hs)
    | blocked hc hn hwait hf hnotify hy hs hfor' hnot =>
      exact .blocked ((hcur j).trans hc) hn hwait hf hnotify hy ((hsusp j).trans hs)
        ((hfor j).trans hfor') (hvisited _ _ hnot.symm ⟨_, hn, hwait, hnotify⟩).symm

end

section

variable (hg : g.WellFormed)
include hg

/-- A NOTIFY is marked as visited before the streams waiting for it are resumed. -/
theorem SkipOk.mark_notify (hok : SkipOk g pending (insert i busy) woken st)
    (hfree : FreeStream g pending i) (hc : st.cur i = some c) (hn : g.getNodeById c = some n)
    (hi : n.streamIdxInGraph = i) (hf : n.isFusible = false) (htype : n.nodeType = .nodeNotify) :
    let st₁ := { st with
      visitedNotifies := n.nodeId :: st.visitedNotifies
      processedNodes := n.nodeId :: st.processedNodes }
    SkipOk g (c :: pending) (insert i busy)
        (woken ∪ { w | w ∈ n.syncInfos.correspondingWaitNodeIds }) st₁ ∧
      SkipRel g pending (c :: pending) st st₁ ∧ skipPotential g st₁ = skipPotential g st := by
  intro st₁
  have hid := (getNodeById_some hn).2
  have hmark : Tracks g (c :: pending) st₁ ∧ SkipRel g pending (c :: pending) st st₁ :=
    hok.tracks.mark hg hc hn hi hfree hok.no_scope hf (fun h => by simp [htype] at h) rfl
      hok.no_scope (fun x => by simp [st₁, hid, htype, or_comm])
      (fun x hx => by simpa [st₁, hid] using hx)
  rcases hmark with ⟨ht, hrel⟩
  refine ⟨hok.of_mark hn hi ht rfl hok.no_scope ?_, hrel,
    skipPotential_congr (fun _ => rfl) (fun _ => rfl)⟩
  -- the WAITs of the NOTIFY are the only ones it unblocks
  rintro x y hnot ⟨m, hm, hwait, hnotify⟩
  by_cases hyc : y = c
  · subst hyc
    rcases hg.wait_notify (getNodeById_some hm).1 hwait hnotify with ⟨k, hk, _, _, hmem⟩
    have hkn : n = k := some.inj (hn.symm.trans hk)
    have hxm := (getNodeById_some hm).2
    exact .inl (.inr (by rw [← hxm, hkn]; exact hmem))
  · rcases hnot with hx | hy
    · exact .inl (.inl hx)
    · refine .inr ?_
      simp [st₁, hid, hyc, hy]

/-- A skipped NOTIFY: it is marked, and the streams waiting for it skip on. -/
theorem handleUnfusibleNotifyNode_spec (hskip : SkipSpec g skip)
    (hok : SkipOk g pending (insert i busy) woken st) (hfree : FreeStream g pending i)
    (hc : st.cur i = some c) (hn : g.getNodeById c = some n) (hi : n.streamIdxInGraph = i)
    (hf : n.isFusible = false) (htype : n.nodeType = .nodeNotify)
    (hrun : handleUnfusibleNotifyNode g skip st n = some st') :
    SkipOk g (c :: pending) (insert i busy) woken st' ∧ SkipRel g pending (c :: pending) st st' ∧
      skipPotential g st' ≤ skipPotential g st := by
  rcases hok.mark_notify hg hfree hc hn hi hf htype with ⟨hok₁, hrel₁, hpot₁⟩
  rcases resumeSuspendedWaitStreams_spec hg hskip (getNodeById_some hn).1 htype
    (fun w hw => hw) hok₁ hrun with ⟨hok₂, hrel₂, hpot₂⟩
  exact ⟨hok₂, hrel₁.trans hrel₂, by omega⟩

/-- Handling an unfusible head: either its stream is suspended, or the head is
marked and the stream is about to move on. -/
theorem processUnfusibleNodeForSkip_spec (hskip : SkipSpec g skip)
    (hok : SkipOk g pending (insert i busy) woken st) (hfree : FreeStream g pending i)
    (hbusy : i ∉ busy) (hc : st.cur i = some c) (hn : g.getNodeById c = some n)
    (hi : n.streamIdxInGraph = i) (hf : n.isFusible = false) {b : Bool}
    (hrun : processUnfusibleNodeForSkip g skip st i n = some (b, st')) :
    (b = true → SkipOk g (c :: pending) (insert i busy) woken st' ∧
      SkipRel g pending (c :: pending) st st' ∧ skipPotential g st' ≤ skipPotential g st) ∧
    (b = false → SkipOk g pending busy woken st' ∧ SkipRel g pending pending st st' ∧
      skipPotential g st' ≤ skipPotential g st + 1 ∧ n.nodeType = .nodeWait) := by
  have hid := (getNodeById_some hn).2
  -- marking a head that is not a NOTIFY, with or without recording it
  have hmark : ∀ st₁ : SplitState, st₁.streamStates = st.streamStates →
      st₁.currentScope = none → st₁.visitedNotifies = st.visitedNotifies →
      (∀ x ∈ st₁.processedNodes, x = c ∨ x ∈ st.processedNodes) → n.nodeType ≠ .nodeNotify →
      (n.nodeType = .nodeWait → ∀ y ∈ n.syncInfos.correspondingNotifyNodeId,
        y ∈ doneSet g pending st) →
      SkipOk g (c :: pending) (insert i busy) woken st₁ ∧
        SkipRel g pending (c :: pending) st st₁ ∧ skipPotential g st₁ ≤ skipPotential g st := by
    intro st₁ hstreams hscope hvisited hprocessed htype hready
    rcases hok.tracks.mark hg hc hn hi hfree hok.no_scope hf hready hstreams hscope
      (fun x => by simp [hvisited, htype]) hprocessed with ⟨ht, hrel⟩
    refine ⟨hok.of_mark hn hi ht hstreams hscope (fun x y h _ => hvisited ▸ h), hrel, ?_⟩
    apply le_of_eq
    apply skipPotential_congr
    · intro j
      unfold cur
      rw [hstreams]
    · intro j
      unfold isSuspended
      rw [hstreams]
  unfold processUnfusibleNodeForSkip at hrun
  split at hrun
  · next htype =>
    have hne : n.nodeType ≠ .nodeNotify := by simp [htype]
    unfold processUnfusibleWaitNode at hrun
    split at hrun
    · next hnotify =>
      obtain ⟨rfl, rfl⟩ : true = b ∧ st = st' := by simpa using hrun
      refine ⟨fun _ => hmark st rfl hok.no_scope rfl (fun x hx => .inr hx) hne ?_, by simp⟩
      intro _ y hy
      simp [hnotify] at hy
    · next y hnotify =>
      rcases hg.wait_notify (getNodeById_some hn).1 htype hnotify with ⟨yn, hyn, _⟩
      rw [hyn] at hrun
      dsimp only at hrun
      split at hrun
      · next hvisited =>
        obtain ⟨rfl, rfl⟩ : true = b ∧ _ = st' := by simpa using hrun
        refine ⟨fun _ => hmark _ rfl hok.no_scope rfl (fun x hx => by simpa [hid] using hx) hne ?_,
          by simp⟩
        intro _ z hz
        obtain rfl : y = z := some.inj (hnotify.symm.trans hz)
        exact hok.tracks.visited y hvisited
      · next hvisited =>
        obtain ⟨rfl, rfl⟩ : false = b ∧ _ = st' := by simpa using hrun
        refine ⟨by simp, fun _ => ?_⟩
        rcases hok.suspend hbusy hfree hc hn htype hf hnotify hyn hvisited with ⟨h₁, h₂, h₃⟩
        exact ⟨h₁, h₂, h₃, htype⟩
  · next htype =>
    rcases map_eq_some_iff.mp hrun with ⟨st₁, hcall, heq⟩
    obtain ⟨rfl, rfl⟩ : true = b ∧ st₁ = st' := by simpa using heq
    exact ⟨fun _ => handleUnfusibleNotifyNode_spec hg hskip hok hfree hc hn hi hf htype hcall,
      by simp⟩
  · next hnw hnn =>
    obtain ⟨rfl, rfl⟩ : true = b ∧ _ = st' := by simpa using hrun
    refine ⟨fun _ => hmark _ rfl hok.no_scope rfl (fun x hx => by simpa [hid] using hx) hnn ?_,
      by simp⟩
    exact fun h => absurd h hnw

theorem skipUnfusibleNodesForStream_spec (fuel : ℕ) :
    SkipSpec g (skipUnfusibleNodesForStream g fuel) := by
  induction fuel with
  | zero =>
    intro pending busy woken i st st' _ _ _ hrun
    simp [skipUnfusibleNodesForStream] at hrun
  | succ fuel ih =>
    intro pending busy woken i st st' hok hfree hbusy hrun
    rw [skipUnfusibleNodesForStream] at hrun
    split at hrun
    · next hc =>
      obtain rfl : st = st' := by simpa using hrun
      exact ⟨hok.settle hfree (.ended hc), SkipRel.refl, by omega⟩
    · next c hc =>
      rcases hok.tracks.cur_valid i c hc with ⟨n, hn, hi⟩
      rw [hn] at hrun
      dsimp only at hrun
      split at hrun
      · next hf =>
        obtain rfl : st = st' := by simpa using hrun
        refine ⟨hok.settle hfree (.fusible hc hn hf ?_), SkipRel.refl, by omega⟩
        exact hok.unsuspended i (.inl rfl)
      · next hf =>
        have hf' : n.isFusible = false := by simpa using hf
        split at hrun
        · simp at hrun
        · next st₁ hcall =>
          have hspec := (processUnfusibleNodeForSkip_spec hg ih hok hfree hbusy hc hn hi hf'
            hcall).2 rfl
          rw [if_pos hspec.2.2.2] at hrun
          obtain rfl : st₁ = st' := by simpa using hrun
          exact ⟨hspec.1, hspec.2.1, hspec.2.2.1⟩
        · next st₁ hcall =>
          rcases (processUnfusibleNodeForSkip_spec hg ih hok hfree hbusy hc hn hi hf'
            hcall).1 rfl with ⟨hok₁, hrel₁, hpot₁⟩
          rcases hok₁.advance hg hn hi hfree with ⟨hok₂, hrel₂, hpot₂⟩
          rcases ih _ _ _ _ _ _ hok₂ hfree hbusy hrun with ⟨hok₃, hrel₃, hpot₃⟩
          exact ⟨hok₃, (hrel₁.trans hrel₂).trans hrel₃, by omega⟩

end

/-! ## Termination -/

variable (g) in
/-- The call returns when its fuel exceeds the potential. -/
def SkipTotal (fuel : ℕ) (skip : SplitState → StreamIdx → Option SplitState) : Prop :=
  ∀ pending busy woken i st, SkipOk g pending (insert i busy) woken st →
    FreeStream g pending i → i ∉ busy → skipPotential g st < fuel → (skip st i).isSome

variable {fuel : ℕ}

/-- Each resumed stream pays for its own call. -/
theorem resumeSuspendedWaitStreams_isSome (hg : g.WellFormed) (hskip : SkipSpec g skip)
    (htotal : SkipTotal g fuel skip) (hn : n ∈ g.nodes) (htype : n.nodeType = .nodeNotify)
    {ws : List NodeId} (hws : ∀ w ∈ ws, w ∈ n.syncInfos.correspondingWaitNodeIds)
    (hok : SkipOk g pending busy (woken ∪ { w | w ∈ ws }) st) (hpot : skipPotential g st ≤ fuel) :
    (resumeSuspendedWaitStreams g skip n.syncInfos.eventId ws st).isSome := by
  induction ws generalizing st with
  | nil => rfl
  | cons w ws ih =>
    rcases hg.notify_wait hn htype (hws w (mem_cons_self ..)) with ⟨m, hm, _, hcorr⟩
    rw [woken_cons] at hok
    have hws' := fun x hx => hws x (mem_cons_of_mem _ hx)
    rcases hok.wake hg hn hm hcorr with ⟨hwake, hpass⟩
    simp only [resumeSuspendedWaitStreams, hm]
    split
    · next hwaiting =>
      rcases hwake hwaiting with ⟨hres, hrel, hfree, hbusy, hpot'⟩
      have hsome := htotal _ _ _ _ _ hres hfree hbusy (by omega)
      rcases isSome_iff_exists.mp hsome with ⟨st₁, hcall⟩
      rcases hskip _ _ _ _ _ _ hres hfree hbusy hcall with ⟨hok₁, _, hpot₁⟩
      rw [hcall]
      exact ih hws' hok₁ (by omega)
    · next hwaiting => exact ih hws' (hpass (Bool.not_eq_true _ ▸ hwaiting)) hpot

theorem skipUnfusibleNodesForStream_isSome (hg : g.WellFormed) (fuel : ℕ) :
    SkipTotal g fuel (skipUnfusibleNodesForStream g fuel) := by
  induction fuel with
  | zero =>
    intro pending busy woken i st _ _ _ hpot
    omega
  | succ fuel ih =>
    intro pending busy woken i st hok hfree hbusy hpot
    have hspec := skipUnfusibleNodesForStream_spec hg fuel
    rw [skipUnfusibleNodesForStream]
    split
    · rfl
    · next c hc =>
      rcases hok.tracks.cur_valid i c hc with ⟨n, hn, hi⟩
      rw [hn]
      dsimp only
      split
      · rfl
      · next hf =>
        have hf' : n.isFusible = false := by simpa using hf
        have hhead : (processUnfusibleNodeForSkip g (skipUnfusibleNodesForStream g fuel) st i
            n).isSome := by
          unfold processUnfusibleNodeForSkip
          split
          · rfl
          · next htype =>
            rcases hok.mark_notify hg hfree hc hn hi hf' htype with ⟨hok₁, _, hpot₁⟩
            rw [isSome_map]
            exact resumeSuspendedWaitStreams_isSome hg hspec ih (getNodeById_some hn).1 htype
              (fun w hw => hw) hok₁ (by omega)
          · rfl
        rcases isSome_iff_exists.mp hhead with ⟨⟨b, st₁⟩, hcall⟩
        have hprocess := processUnfusibleNodeForSkip_spec hg hspec hok hfree hbusy hc hn hi hf' hcall
        rw [hcall]
        cases b with
        | false =>
          dsimp only
          rw [if_pos (hprocess.2 rfl).2.2.2]
          rfl
        | true =>
          rcases hprocess.1 rfl with ⟨hok₁, _, hpot₁⟩
          rcases hok₁.advance hg hn hi hfree with ⟨hok₂, _, hpot₂⟩
          exact ih _ _ _ _ _ hok₂ hfree hbusy (by omega)

/-! ## All streams -/

variable {order : List StreamIdx}

theorem skipUnfusibleNodes_spec (hg : g.WellFormed)
    (hnodup : order.Nodup) (hok : SkipOk g [] { j | j ∈ order } ∅ st)
    (hrun : skipUnfusibleNodes g fuel order st = some st') :
    SkipOk g [] ∅ ∅ st' ∧ SkipRel g [] [] st st' := by
  induction order generalizing st with
  | nil =>
    obtain rfl : st = st' := by simpa [skipUnfusibleNodes] using hrun
    refine ⟨?_, SkipRel.refl⟩
    simpa using hok
  | cons i rest ih =>
    rw [skipUnfusibleNodes] at hrun
    rw [nodup_cons] at hnodup
    have hset : { j | j ∈ i :: rest } = insert i { j | j ∈ rest } := by
      ext j
      simp
    rw [hset] at hok
    split at hrun
    · simp at hrun
    · next st₁ hcall =>
      rcases skipUnfusibleNodesForStream_spec hg fuel _ _ _ _ _ _ hok
        (fun x hx => absurd hx not_mem_nil) hnodup.1 hcall with ⟨hok₁, hrel₁, _⟩
      rcases ih hnodup.2 hok₁ hrun with ⟨hok₂, hrel₂⟩
      exact ⟨hok₂, hrel₁.trans hrel₂⟩

theorem skipUnfusibleNodes_isSome (hg : g.WellFormed) (hfuel : g.nodes.length + g.streamNum < fuel)
    (hnodup : order.Nodup) (hok : SkipOk g [] { j | j ∈ order } ∅ st) :
    (skipUnfusibleNodes g fuel order st).isSome := by
  induction order generalizing st with
  | nil => rfl
  | cons i rest ih =>
    rw [nodup_cons] at hnodup
    have hset : { j | j ∈ i :: rest } = insert i { j | j ∈ rest } := by
      ext j
      simp
    rw [hset] at hok
    have hfree : FreeStream g [] i := fun x hx => absurd hx not_mem_nil
    have hpot := skipPotential_le (g := g) st
    have hsome := skipUnfusibleNodesForStream_isSome hg fuel _ _ _ _ _ hok hfree hnodup.1
      (by omega)
    rcases isSome_iff_exists.mp hsome with ⟨st₁, hcall⟩
    rcases skipUnfusibleNodesForStream_spec hg fuel _ _ _ _ _ _ hok hfree hnodup.1 hcall
      with ⟨hok₁, _, _⟩
    rw [skipUnfusibleNodes, hcall]
    exact ih hnodup.2 hok₁

/-! ## Between two scopes -/

variable (g) in
/-- The state at the top of the main loop: no scope is open and every stream is
settled. -/
structure RoundOk (st : SplitState) : Prop where
  skip : SkipOk g [] ∅ ∅ st
  active : ∀ j, (st.streamStates j).isTerminated = false

/-- With no stream suspended, all streams are ready to skip. -/
theorem Tracks.skipOk (hg : g.WellFormed) (horder : order.Perm (range g.streamNum))
    (ht : Tracks g [] st) (hscope : st.currentScope = none)
    (hsusp : ∀ j, st.isSuspended j = false ∧ st.waitingFor j = none) :
    SkipOk g [] { j | j ∈ order } ∅ st := by
  refine ⟨ht, fun x hx => absurd hx not_mem_nil, fun j _ => (hsusp j).1, hscope,
    fun j hj => absurd (hsusp j).2 hj, fun j hj => ?_⟩
  cases hc : st.cur j with
  | none => exact .ended hc
  | some c =>
    rcases ht.cur_valid j c hc with ⟨n, hn, rfl⟩
    have hlt := hg.stream_lt n (getNodeById_some hn).1
    exact absurd (horder.mem_iff.mpr (mem_range.mpr hlt)) hj

/-- `ResetStreamStates` clears the marks of every stream and skips. -/
def clearStreams (st : SplitState) : SplitState :=
  { st with streamStates := fun i =>
      { st.streamStates i with
        isTerminated := false, isSuspended := false, waitingForNotify := none } }

theorem Tracks.clear (ht : Tracks g [] st) : Tracks g [] (clearStreams st) :=
  ht.congr (fun _ => rfl) ht.visited ht.processed

theorem clearStreams_rel (closed : List (List NodeId)) :
    batchState g [] closed (clearStreams st) = batchState g [] closed st ∧
      (Signalled g [] st → Signalled g [] (clearStreams st)) := by
  have hdone : doneSet g [] (clearStreams st) = doneSet g [] st := doneSet_congr fun _ => rfl
  constructor
  · unfold batchState
    rw [hdone]
    rfl
  · intro hs
    unfold Signalled
    rw [hdone]
    exact hs

theorem resetStreamStates_spec (hg : g.WellFormed)
    (horder : order.Perm (range g.streamNum)) (ht : Tracks g [] st)
    (hscope : st.currentScope = none) (hrun : resetStreamStates g fuel order st = some st') :
    RoundOk g st' ∧ (Signalled g [] st → Signalled g [] st') ∧
      ∀ closed, BatchSteps g.HbEdge (Fusible g) (batchState g [] closed st)
        (batchState g [] closed st') := by
  have hok := ht.clear.skipOk hg horder hscope fun _ => ⟨rfl, rfl⟩
  have hnodup := horder.nodup_iff.mpr nodup_range
  rcases skipUnfusibleNodes_spec hg hnodup hok hrun with ⟨hok', hrel⟩
  refine ⟨⟨hok', fun j => (hrel.terminated j).trans rfl⟩, ?_, fun closed => ?_⟩
  · intro hs
    exact hrel.signalled ((clearStreams_rel []).2 hs)
  · rw [← (clearStreams_rel closed).1]
    exact hrel.steps closed

theorem resetStreamStates_isSome (hg : g.WellFormed) (hfuel : g.nodes.length + g.streamNum < fuel)
    (horder : order.Perm (range g.streamNum)) (ht : Tracks g [] st)
    (hscope : st.currentScope = none) : (resetStreamStates g fuel order st).isSome :=
  skipUnfusibleNodes_isSome hg hfuel (horder.nodup_iff.mpr nodup_range)
    (ht.clear.skipOk hg horder hscope fun _ => ⟨rfl, rfl⟩)

variable (g) in
/-- The state `InitStreamStates` builds. -/
def startState (heapType : SkHeapType) : SplitState where
  streamStates i := if i < g.streamNum then { currentNodeId := g.headNodes[i]? } else {}
  nodeHeap := { heapMode := heapType }

variable {heapType : SkHeapType}

theorem initSplitState_eq
    (hlen : g.streamNum ≤ g.headNodes.length) : initSplitState g heapType fuel order
      = skipUnfusibleNodes g fuel order (startState g heapType) := by
  unfold initSplitState initStreamStates
  rw [if_neg (not_lt.mpr hlen)]
  rfl

theorem initSplitState_none
    (hlen : g.headNodes.length < g.streamNum) : initSplitState g heapType fuel order = none := by
  unfold initSplitState initStreamStates
  rw [if_pos hlen]

theorem cur_startState (heapType : SkHeapType) (j : StreamIdx) :
    (startState g heapType).cur j = if j < g.streamNum then g.headNodes[j]? else none := by
  unfold cur startState
  dsimp only
  split <;> rfl

theorem startState_flags (heapType : SkHeapType) (j : StreamIdx) :
    ((startState g heapType).isSuspended j = false ∧
      (startState g heapType).waitingFor j = none) ∧
      ((startState g heapType).streamStates j).isTerminated = false := by
  unfold isSuspended waitingFor startState
  dsimp only
  split <;> exact ⟨⟨rfl, rfl⟩, rfl⟩

/-- At the start no node is handled. -/
theorem startState_spec (hg : g.WellFormed) (hlen : g.streamNum ≤ g.headNodes.length)
    (heapType : SkHeapType) :
    Tracks g [] (startState g heapType) ∧ doneSet g [] (startState g heapType) = ∅ := by
  constructor
  · refine ⟨?_, fun x hx => absurd hx not_mem_nil, fun x hx => absurd hx not_mem_nil,
      fun x hx => absurd hx not_mem_nil⟩
    intro j c hc
    rw [cur_startState] at hc
    split at hc
    · rcases hg.heads c (mem_of_getElem? hc) with ⟨x, hx, rfl, _⟩
      have hget := hg.getNodeById_of_mem hx
      exact ⟨x, hget, hg.headNodes_stream hlen hc hget⟩
    · simp at hc
  · ext x
    simp only [doneSet, not_mem_nil, or_false, Set.mem_ofPred_eq, Set.mem_empty_iff_false,
      iff_false]
    rintro ⟨n, hn, hpassed⟩
    have hlt := hg.stream_lt n (getNodeById_some hn).1
    have hbound : n.streamIdxInGraph < g.headNodes.length := lt_of_lt_of_le hlt hlen
    rcases hg.head_idx (getElem_mem hbound) with ⟨m, hm, hmid, hidx⟩
    have hc : g.headNodes[n.streamIdxInGraph] ∈ (startState g heapType).cur n.streamIdxInGraph := by
      rw [cur_startState, if_pos hlt]
      exact getElem?_eq_getElem hbound
    have := hpassed _ hc m (hmid ▸ hg.getNodeById_of_mem hm)
    omega

theorem initSplitState_spec (hg : g.WellFormed) (horder : order.Perm (range g.streamNum))
    (hrun : initSplitState g heapType fuel order = some st) :
    g.streamNum ≤ g.headNodes.length ∧ RoundOk g st ∧ Signalled g [] st ∧
      BatchSteps g.HbEdge (Fusible g) { done := ∅ } (batchState g [] [] st) := by
  by_cases hlen : g.streamNum ≤ g.headNodes.length
  · rw [initSplitState_eq hlen] at hrun
    rcases startState_spec hg hlen heapType with ⟨ht, hdone⟩
    rcases skipUnfusibleNodes_spec hg (horder.nodup_iff.mpr nodup_range)
      (ht.skipOk hg horder rfl (fun j => (startState_flags heapType j).1)) hrun with ⟨hok, hrel⟩
    refine ⟨hlen, ⟨hok, fun j => (hrel.terminated j).trans (startState_flags heapType j).2⟩, hrel.signalled ?_, ?_⟩
    · intro x hx
      rw [hdone] at hx
      exact absurd hx (Set.notMem_empty x)
    · have hstart : batchState g [] [] (startState g heapType) = { done := ∅ } := by
        unfold batchState
        rw [hdone]
        rfl
      exact hstart ▸ hrel.steps []
  · rw [initSplitState_none (not_le.mp hlen)] at hrun
    simp at hrun

theorem initSplitState_isSome (hg : g.WellFormed) (hfuel : g.nodes.length + g.streamNum < fuel)
    (horder : order.Perm (range g.streamNum)) (hlen : g.streamNum ≤ g.headNodes.length) :
    (initSplitState g heapType fuel order).isSome := by
  rw [initSplitState_eq hlen]
  exact skipUnfusibleNodes_isSome hg hfuel (horder.nodup_iff.mpr nodup_range)
    ((startState_spec hg hlen heapType).1.skipOk hg horder rfl fun j =>
      (startState_flags heapType j).1)

end GraphAutofusion.SuperKernel
