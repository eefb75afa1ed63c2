import GraphAutofusion.SuperKernel.InitialSplitSkip

/-!
# SuperKernel.InitialSplitBuild — building one scope

While a scope is open no node is skipped: a popped node is the head of its stream
and moves into the scope, every other head is only pushed, suspended on, or
terminates its stream (`TryAdd`). `BuildOk` says that each unprocessed heap entry
is a fusible stream head with the current flags whose NOTIFY, if it waits for
one, is handled.
-/

namespace GraphAutofusion.SuperKernel

open Relation Lib SuperKernelGraph Option List

variable (g : SuperKernelGraph)

/-- A node that may be placed next. -/
structure Candidate (st : SplitState) (n : SuperKernelBaseNode) : Prop where
  get : g.getNodeById n.nodeId = some n
  head : st.cur n.streamIdxInGraph = some n.nodeId
  fusible : n.isFusible = true
  flags : n.scopeBitFlags = st.currentScopeBitFlags
  wait : n.nodeType = .nodeWait → ∀ y ∈ n.syncInfos.correspondingNotifyNodeId,
    y ∈ doneSet g [] st

/-- The invariant of the build phase. -/
structure BuildOk (st : SplitState) : Prop where
  tracks : Tracks g [] st
  heap : ∀ id ∈ st.nodeHeap.ids, id ∈ st.processedNodes ∨ ∃ n, n.nodeId = id ∧ Candidate g st n
  consistent : st.nodeHeap.Consistent g
  waiting : ∀ j, st.waitingFor j ≠ none → st.isSuspended j = true

/-- The head of stream `i` can be pushed: the stream is active, and the head is
fusible, has the current flags, and does not wait for an unvisited NOTIFY. -/
structure ReadyHead (st : SplitState) (i : StreamIdx) (n : SuperKernelBaseNode) : Prop where
  get : g.getNodeById n.nodeId = some n
  head : st.cur i = some n.nodeId
  active : (st.streamStates i).isTerminated = false
  unsuspended : st.isSuspended i = false
  fusible : n.isFusible = true
  flags : n.scopeBitFlags = st.currentScopeBitFlags
  wait : n.nodeType = .nodeWait → ∀ y ∈ n.syncInfos.correspondingNotifyNodeId,
    y ∈ st.visitedNotifies

/-- What `TryAddNodeToHeap` does with the head of stream `i`. -/
inductive TryAdd (st : SplitState) (i : StreamIdx) : SplitState → Prop where
  | idle (h : st.cur i = none ∨ (st.streamStates i).isTerminated = true ∨ st.isSuspended i = true) :
      TryAdd st i st
  | terminate {n : SuperKernelBaseNode} (hn : g.getNodeById n.nodeId = some n)
      (hc : st.cur i = some n.nodeId)
      (h : n.isFusible = false ∨ n.scopeBitFlags ≠ st.currentScopeBitFlags) :
      TryAdd st i (st.terminate i)
  | push {n : SuperKernelBaseNode} (hready : ReadyHead g st i n) :
      TryAdd st i { st with nodeHeap := st.nodeHeap.push g n.nodeId }
  | block {n yn : SuperKernelBaseNode} {y : NodeId} (hn : g.getNodeById n.nodeId = some n)
      (hc : st.cur i = some n.nodeId) (hf : n.isFusible = true)
      (hwait : n.nodeType = .nodeWait)
      (hnotify : n.syncInfos.correspondingNotifyNodeId = some y) (hy : g.getNodeById y = some yn)
      (hnot : y ∉ st.visitedNotifies) : TryAdd st i (st.suspend i yn.syncInfos.eventId)

/-- What the build phase leaves alone unless it places a node. -/
structure BuildFrame (st st' : SplitState) : Prop where
  cur : ∀ i, st'.cur i = st.cur i
  processed : st'.processedNodes = st.processedNodes
  scope : st'.currentScope = st.currentScope
  flags : st'.currentScopeBitFlags = st.currentScopeBitFlags

/-- The potential of the build loop. -/
noncomputable def buildPotential (st : SplitState) : ℕ :=
  2 * (undoneNodes g st).ncard + st.nodeHeap.ids.length + (suspendedStreams g st).ncard

variable {g} {st st' st'' : SplitState} {i : StreamIdx} {c : NodeId} {n : SuperKernelBaseNode}

theorem BuildFrame.refl : BuildFrame st st := ⟨fun _ => rfl, rfl, rfl, rfl⟩

theorem BuildFrame.trans (h : BuildFrame st st') (h' : BuildFrame st' st'') : BuildFrame st st'' :=
  ⟨fun i => (h'.cur i).trans (h.cur i), h'.processed.trans h.processed, h'.scope.trans h.scope,
    h'.flags.trans h.flags⟩

theorem BuildFrame.doneSet_eq (h : BuildFrame st st') : doneSet g [] st' = doneSet g [] st :=
  doneSet_congr h.cur

theorem BuildFrame.batchState_eq (h : BuildFrame st st') (closed : List (List NodeId)) :
    batchState g [] closed st' = batchState g [] closed st := by
  unfold batchState
  rw [h.doneSet_eq, h.scope]

theorem Candidate.congr (hc : Candidate g st n) (h : BuildFrame st st') : Candidate g st' n := by
  refine ⟨hc.get, (h.cur _).trans hc.head, hc.fusible, hc.flags.trans h.flags.symm, ?_⟩
  rw [h.doneSet_eq]
  exact hc.wait

/-- Streams may be suspended and resumed at will. -/
theorem BuildOk.congr (hok : BuildOk g st) (h : BuildFrame st st')
    (hvisited : ∀ x ∈ st'.visitedNotifies, x ∈ doneSet g [] st) (hheap : st'.nodeHeap = st.nodeHeap)
    (hwaiting : ∀ j, st'.waitingFor j ≠ none → st'.isSuspended j = true) : BuildOk g st' := by
  refine ⟨hok.tracks.congr h.cur hvisited ?_, ?_, hheap ▸ hok.consistent, hwaiting⟩
  · rw [h.processed]
    exact hok.tracks.processed
  · intro id hid
    rw [hheap] at hid
    rw [h.processed]
    rcases hok.heap id hid with hp | ⟨n, hn, hcand⟩
    · exact .inl hp
    · exact .inr ⟨n, hn, hcand.congr h⟩

/-! ## Trying one stream -/

/-- The head of a stream has not been processed. -/
theorem Tracks.not_processed (ht : Tracks g [] st) (hc : st.cur i = some c) :
    c ∉ st.processedNodes := by
  intro hmem
  rcases ht.cur_valid i c hc with ⟨n, hn, hi⟩
  exact not_mem_doneSet_cur hc hn hi not_mem_nil (ht.processed c hmem)

theorem ReadyHead.candidate (ht : Tracks g [] st) (hr : ReadyHead g st i n) : Candidate g st n := by
  rcases ht.cur_valid i _ hr.head with ⟨m, hm, hi⟩
  have heq : n = m := some.inj (hr.get.symm.trans hm)
  have hstream : n.streamIdxInGraph = i := heq ▸ hi
  exact ⟨hr.get, hstream ▸ hr.head, hr.fusible, hr.flags,
    fun hwait y hy => ht.visited y (hr.wait hwait y hy)⟩

variable {fuel : ℕ}

theorem tryAddNodeToHeap_cases (hg : g.WellFormed) (ht : Tracks g [] st)
    (hrun : tryAddNodeToHeap g fuel st i = some st') : TryAdd g st i st' := by
  cases fuel with
  | zero => simp [tryAddNodeToHeap] at hrun
  | succ fuel =>
    simp only [tryAddNodeToHeap] at hrun
    split at hrun
    · next hc =>
      obtain rfl : st = st' := by simpa using hrun
      exact .idle (.inl hc)
    · next cur hc =>
      have hcur : st.cur i = some cur := hc
      split at hrun
      · next hflag =>
        obtain rfl : st = st' := by simpa using hrun
        rw [Bool.or_eq_true] at hflag
        exact .idle (.inr hflag)
      · next hflag =>
        rw [Bool.or_eq_true, not_or, Bool.not_eq_true, Bool.not_eq_true] at hflag
        rcases hflag with ⟨hterm, hs⟩
        rcases ht.cur_valid i cur hcur with ⟨n, hn, _⟩
        have hid := (getNodeById_some hn).2
        subst hid
        -- a head is never processed, so the advancing branch is dead
        simp only [hn, if_neg (ht.not_processed hcur)] at hrun
        split at hrun
        · next hf =>
          split at hrun
          · obtain rfl : st.terminate i = st' := by simpa using hrun
            exact .terminate hn hcur (.inl (by simpa using hf))
          · simp at hrun
        · next hf =>
          have hfusible : n.isFusible = true := by simpa using hf
          split at hrun
          · next hflags =>
            obtain rfl : st.terminate i = st' := by simpa using hrun
            exact .terminate hn hcur (.inr hflags)
          · next hflags =>
            have hflags' : n.scopeBitFlags = st.currentScopeBitFlags := by simpa using hflags
            split at hrun
            · next hwait =>
              unfold handleWaitNode at hrun
              split at hrun
              · next hnotify =>
                obtain rfl := some.inj hrun
                refine .push ⟨hn, hcur, hterm, hs, hfusible, hflags', fun _ y hy => ?_⟩
                simp [hnotify] at hy
              · next y hnotify =>
                rcases hg.wait_notify (getNodeById_some hn).1 hwait hnotify with ⟨yn, hyn, _⟩
                rw [hyn] at hrun
                dsimp only at hrun
                split at hrun
                · next hvisited =>
                  obtain rfl := some.inj hrun
                  refine .push ⟨hn, hcur, hterm, hs, hfusible, hflags', fun _ z hz => ?_⟩
                  have hzy : y = z := some.inj (hnotify.symm.trans hz)
                  exact hzy ▸ hvisited
                · next hvisited =>
                  obtain rfl := some.inj hrun
                  exact .block hn hcur hfusible hwait hnotify hyn hvisited
            · next hwait =>
              obtain rfl := some.inj hrun
              exact .push ⟨hn, hcur, hterm, hs, hfusible, hflags', fun h => absurd h hwait⟩

/-- The attempt only fails on an unfusible head while no scope is open. -/
theorem tryAddNodeToHeap_isSome (ht : Tracks g [] st) (hfuel : 0 < fuel)
    (h : st.currentScope.isSome ∨ st.isSuspended i = true ∨
      ∀ n, st.cur i = some n.nodeId → g.getNodeById n.nodeId = some n → n.isFusible = true) :
    (tryAddNodeToHeap g fuel st i).isSome := by
  cases fuel with
  | zero => omega
  | succ fuel =>
    simp only [tryAddNodeToHeap]
    split
    · rfl
    · next cur hc =>
      have hcur : st.cur i = some cur := hc
      split
      · rfl
      · next hflag =>
        rcases ht.cur_valid i cur hcur with ⟨n, hn, hi⟩
        have hid := (getNodeById_some hn).2
        subst hid
        simp only [hn, if_neg (ht.not_processed hcur)]
        split
        · next hf =>
          split
          · rfl
          · next hscope =>
            exfalso
            rw [Bool.or_eq_true, not_or] at hflag
            rcases h with hopen | hs | hall
            · exact hscope hopen
            · exact hflag.2 hs
            · simp [hall n hcur hn] at hf
        · repeat' split
          all_goals rfl

/-- A ready head is pushed. -/
theorem TryAdd.eq_push (h : TryAdd g st i st') (hr : ReadyHead g st i n) :
    st' = { st with nodeHeap := st.nodeHeap.push g n.nodeId } := by
  have hsame : ∀ m : SuperKernelBaseNode, g.getNodeById m.nodeId = some m →
      st.cur i = some m.nodeId → m = n := by
    intro m hm hc
    have hid : m.nodeId = n.nodeId := some.inj (hc.symm.trans hr.head)
    exact some.inj (hm.symm.trans (hid ▸ hr.get))
  cases h with
  | idle h =>
    rcases h with hc | hterm | hs
    · simp [hr.head] at hc
    · simp [hr.active] at hterm
    · simp [hr.unsuspended] at hs
  | @terminate m hm hc h =>
    rw [hsame m hm hc] at h
    rcases h with hf | hflags
    · simp [hr.fusible] at hf
    · exact absurd hr.flags hflags
  | @push m hready => rw [hsame m hready.get hready.head]
  | @block m yn y hm hc hf hwait hnotify hy hnot =>
    rw [hsame m hm hc] at hwait hnotify
    exact absurd (hr.wait hwait y hnotify) hnot

theorem TryAdd.frame (h : TryAdd g st i st') :
    BuildFrame st st' ∧ st'.visitedNotifies = st.visitedNotifies := by
  cases h with
  | idle => exact ⟨BuildFrame.refl, rfl⟩
  | terminate => exact ⟨⟨fun j => SplitState.cur_terminate .., rfl, rfl, rfl⟩, rfl⟩
  | push => exact ⟨⟨fun _ => rfl, rfl, rfl, rfl⟩, rfl⟩
  | block => exact ⟨⟨fun j => SplitState.cur_suspend .., rfl, rfl, rfl⟩, rfl⟩

theorem BuildOk.tryAdd (hok : BuildOk g st) (h : TryAdd g st i st') : BuildOk g st' := by
  have hframe := h.frame.1
  cases h with
  | idle => exact hok
  | terminate =>
    refine hok.congr hframe hok.tracks.visited rfl fun j hj => ?_
    rw [SplitState.waitingFor_terminate] at hj
    rw [SplitState.isSuspended_terminate]
    exact hok.waiting j hj
  | @push n hready =>
    have hcand := hready.candidate hok.tracks
    refine ⟨hok.tracks.congr hframe.cur hok.tracks.visited hok.tracks.processed, ?_,
      hok.consistent.push _, hok.waiting⟩
    intro id hid
    rcases SkCandidateHeap.mem_ids_push _ _ hid with rfl | hid
    · exact .inr ⟨n, rfl, hcand.congr hframe⟩
    · rcases hok.heap id hid with hp | ⟨m, hm, hcand'⟩
      · exact .inl hp
      · exact .inr ⟨m, hm, hcand'.congr hframe⟩
  | block =>
    refine hok.congr hframe hok.tracks.visited rfl fun j hj => ?_
    rw [SplitState.waitingFor_suspend] at hj
    rw [SplitState.isSuspended_suspend]
    split
    · rfl
    · next hne =>
      rw [if_neg hne] at hj
      exact hok.waiting j hj

/-- An attempt adds one heap entry or one suspended stream at most. -/
theorem TryAdd.potential_le (h : TryAdd g st i st') :
    buildPotential g st' ≤ buildPotential g st + 1 := by
  have hundone : undoneNodes g st' = undoneNodes g st := undoneNodes_congr h.frame.1.cur
  unfold buildPotential
  rw [hundone]
  cases h with
  | idle => omega
  | terminate =>
    have hsusp : suspendedStreams g (st.terminate i) = suspendedStreams g st :=
      suspendedStreams_congr fun j => SplitState.isSuspended_terminate ..
    rw [hsusp]
    show _ + st.nodeHeap.ids.length + _ ≤ _
    omega
  | @push n =>
    have hlen := SkCandidateHeap.length_ids_push_le g st.nodeHeap n.nodeId
    have hsusp : suspendedStreams g { st with nodeHeap := st.nodeHeap.push g n.nodeId }
        = suspendedStreams g st := suspendedStreams_congr fun _ => rfl
    rw [hsusp]
    dsimp only
    omega
  | @block n yn =>
    have hsusp : (suspendedStreams g (st.suspend i yn.syncInfos.eventId)).ncard
        ≤ (suspendedStreams g st).ncard + 1 := ncard_suspendedStreams_suspend _
    show _ + st.nodeHeap.ids.length + _ ≤ _
    omega

/-! ## Resuming the streams that wait for a NOTIFY -/

theorem BuildOk.resume (hok : BuildOk g st) (hlt : i < g.streamNum) (hs : st.isSuspended i = true) :
    BuildOk g (st.resume i) ∧ BuildFrame st (st.resume i) ∧
      buildPotential g (st.resume i) + 1 = buildPotential g st := by
  have hframe : BuildFrame st (st.resume i) :=
    ⟨fun j => SplitState.cur_resume .., rfl, rfl, rfl⟩
  refine ⟨hok.congr hframe hok.tracks.visited rfl fun j hj => ?_, hframe, ?_⟩
  · rw [SplitState.waitingFor_resume] at hj
    rw [SplitState.isSuspended_resume]
    split at hj
    · exact absurd rfl hj
    · next hne =>
      rw [if_neg hne]
      exact hok.waiting j hj
  · have hsusp := ncard_suspendedStreams_resume hlt hs
    have hundone : undoneNodes g (st.resume i) = undoneNodes g st := undoneNodes_congr hframe.cur
    unfold buildPotential
    rw [hundone]
    show _ + st.nodeHeap.ids.length + _ + 1 = _
    omega

variable {e : Option EventId}

theorem resumeWaitStreams_spec (hg : g.WellFormed) {ws : List NodeId} (hok : BuildOk g st)
    (hrun : resumeWaitStreams g fuel e ws st = some st') :
    BuildOk g st' ∧ BuildFrame st st' ∧ st'.visitedNotifies = st.visitedNotifies ∧
      buildPotential g st' ≤ buildPotential g st := by
  induction ws generalizing st with
  | nil =>
    obtain rfl : st = st' := by simpa [resumeWaitStreams] using hrun
    exact ⟨hok, BuildFrame.refl, rfl, le_refl _⟩
  | cons w ws ih =>
    rw [resumeWaitStreams] at hrun
    split at hrun
    · exact ih hok hrun
    · next m hm =>
      split at hrun
      · next hwaiting =>
        rcases (SplitState.isWaitingFor_iff ..).mp hwaiting with ⟨hs, _⟩
        have hlt := hg.stream_lt m (getNodeById_some hm).1
        rcases hok.resume hlt hs with ⟨hok₁, hframe₁, hpot₁⟩
        split at hrun
        · simp at hrun
        · next st₂ hcall =>
          have htry := tryAddNodeToHeap_cases hg hok₁.tracks hcall
          have hpot₂ := htry.potential_le
          rcases htry.frame with ⟨hframe₂, hvis₂⟩
          rcases ih (hok₁.tryAdd htry) hrun with ⟨hok₃, hframe₃, hvis₃, hpot₃⟩
          exact ⟨hok₃, (hframe₁.trans hframe₂).trans hframe₃, hvis₃.trans hvis₂, by omega⟩
      · exact ih hok hrun

theorem resumeWaitStreams_isSome (hg : g.WellFormed) (hfuel : 0 < fuel)
    {ws : List NodeId} (hok : BuildOk g st)
    (hopen : st.currentScope.isSome) : (resumeWaitStreams g fuel e ws st).isSome := by
  induction ws generalizing st with
  | nil => rfl
  | cons w ws ih =>
    rw [resumeWaitStreams]
    split
    · exact ih hok hopen
    · next m hm =>
      split
      · next hwaiting =>
        rcases (SplitState.isWaitingFor_iff ..).mp hwaiting with ⟨hs, _⟩
        have hlt := hg.stream_lt m (getNodeById_some hm).1
        rcases hok.resume hlt hs with ⟨hok₁, hframe₁, _⟩
        have hsome := tryAddNodeToHeap_isSome (i := m.streamIdxInGraph) hok₁.tracks hfuel
          (.inl (hframe₁.scope ▸ hopen))
        rcases isSome_iff_exists.mp hsome with ⟨st₂, hcall⟩
        have htry := tryAddNodeToHeap_cases hg hok₁.tracks hcall
        rw [hcall]
        refine ih (hok₁.tryAdd htry) ?_
        rw [htry.frame.1.scope]
        exact hopen
      · exact ih hok hopen

/-- The suspend loop of a RESET finds suspended streams only. -/
theorem suspendWaitStreams_spec (he : e ≠ none) (ws : List NodeId) (hok : BuildOk g st) :
    BuildOk g (suspendWaitStreams g e ws st) ∧ BuildFrame st (suspendWaitStreams g e ws st) ∧
      (suspendWaitStreams g e ws st).visitedNotifies = st.visitedNotifies ∧
      buildPotential g (suspendWaitStreams g e ws st) = buildPotential g st := by
  induction ws generalizing st with
  | nil => exact ⟨hok, BuildFrame.refl, rfl, rfl⟩
  | cons w ws ih =>
    rw [suspendWaitStreams]
    split
    · exact ih hok
    · next m hm =>
      split
      · next hfor =>
        have hs : st.isSuspended m.streamIdxInGraph = true := by
          apply hok.waiting
          unfold SplitState.waitingFor
          rw [hfor]
          exact he
        have hsusp : ∀ j, (st.suspend m.streamIdxInGraph none).isSuspended j = st.isSuspended j := by
          intro j
          rw [SplitState.isSuspended_suspend]
          split
          · next h => rw [h, hs]
          · rfl
        have hframe : BuildFrame st (st.suspend m.streamIdxInGraph none) :=
          ⟨fun j => SplitState.cur_suspend .., rfl, rfl, rfl⟩
        have hok₁ : BuildOk g (st.suspend m.streamIdxInGraph none) := by
          refine hok.congr hframe hok.tracks.visited rfl fun j hj => ?_
          rw [SplitState.waitingFor_suspend] at hj
          rw [hsusp]
          split at hj
          · exact absurd rfl hj
          · exact hok.waiting j hj
        have hpot : buildPotential g (st.suspend m.streamIdxInGraph none) = buildPotential g st := by
          unfold buildPotential
          rw [undoneNodes_congr hframe.cur, suspendedStreams_congr hsusp]
          rfl
        rcases ih hok₁ with ⟨hok₂, hframe₂, hvis₂, hpot₂⟩
        exact ⟨hok₂, hframe.trans hframe₂, hvis₂, hpot₂.trans hpot⟩
      · exact ih hok

/-! ## Placing a node -/

/-- The node moves into the scope and its stream moves on. -/
def placed (st : SplitState) (scope : SuperKernelScopeInfo) (n : SuperKernelBaseNode) : SplitState :=
  SplitState.setCurrentNodeId { st with
    currentScope := some (scope.addNodeWithStreamInfo n)
    processedNodes := n.nodeId :: st.processedNodes } n.streamIdxInGraph n.nextNodeId

variable (g) in
/-- When a RESET is placed, no WAIT on its event is left unprocessed. -/
def ResetSafe (st : SplitState) (n : SuperKernelBaseNode) : Prop :=
  n.nodeType = .nodeReset → ∀ e ∈ n.syncInfos.eventId, ∀ info ∈ g.getEventInfo e,
    ∀ w ∈ info.waitNodeIdList, w ∈ doneSet g [] st

variable {scope : SuperKernelScopeInfo}

theorem cur_placed (j : StreamIdx) :
    (placed st scope n).cur j = if j = n.streamIdxInGraph then n.nextNodeId else st.cur j :=
  SplitState.cur_setCurrentNodeId ..

theorem Tracks.place (hg : g.WellFormed) (ht : Tracks g [] st) (hcand : Candidate g st n)
    (scope : SuperKernelScopeInfo) :
    Tracks g [] (placed st scope n) ∧
      doneSet g [] (placed st scope n) = insert n.nodeId (doneSet g [] st) := by
  -- the node is pending between its entry into the scope and the move of its stream
  have hcons : doneSet g [n.nodeId] st = insert n.nodeId (doneSet g [] st) := doneSet_cons hcand.get
  have hpending : Tracks g [n.nodeId] { st with
      currentScope := some (scope.addNodeWithStreamInfo n)
      processedNodes := n.nodeId :: st.processedNodes } := by
    refine ⟨ht.cur_valid, ?_, fun x hx => ?_, fun x hx => ?_⟩
    · intro x hx
      obtain rfl : x = n.nodeId := by simpa using hx
      exact ⟨n, hcand.get, hcand.head⟩
    · show x ∈ doneSet g [n.nodeId] st
      rw [hcons]
      exact .inr (ht.visited x hx)
    · show x ∈ doneSet g [n.nodeId] st
      rw [hcons]
      rcases mem_cons.mp hx with rfl | hx
      · exact .inl rfl
      · exact .inr (ht.processed x hx)
  have hfree : FreeStream g [] n.streamIdxInGraph := fun x hx => absurd hx not_mem_nil
  rcases hpending.advance hg hcand.get rfl hfree with ⟨hadv, hdone⟩
  exact ⟨hadv, hdone.trans hcons⟩

theorem BuildOk.place (hg : g.WellFormed) (hok : BuildOk g st) (hcand : Candidate g st n)
    (scope : SuperKernelScopeInfo) :
    BuildOk g (placed st scope n) ∧
      doneSet g [] (placed st scope n) = insert n.nodeId (doneSet g [] st) ∧
      buildPotential g (placed st scope n) + 2 = buildPotential g st := by
  rcases hok.tracks.place hg hcand scope with ⟨ht, hdone⟩
  have hsusp : ∀ j, (placed st scope n).isSuspended j = st.isSuspended j := fun j =>
    SplitState.isSuspended_setCurrentNodeId ..
  have hfor : ∀ j, (placed st scope n).waitingFor j = st.waitingFor j := fun j =>
    SplitState.waitingFor_setCurrentNodeId ..
  refine ⟨⟨ht, ?_, hok.consistent, fun j hj => ?_⟩, hdone, ?_⟩
  · intro id hid
    by_cases heq : id = n.nodeId
    · exact .inl (heq ▸ mem_cons_self ..)
    rcases hok.heap id hid with hp | ⟨m, hm, hcand'⟩
    · exact .inl (mem_cons_of_mem _ hp)
    -- another candidate stands on another stream
    refine .inr ⟨m, hm, hcand'.get, ?_, hcand'.fusible, hcand'.flags, fun hwait y hy => ?_⟩
    · have hne : m.streamIdxInGraph ≠ n.streamIdxInGraph := by
        intro hstream
        apply heq
        rw [← hm]
        exact some.inj (hcand'.head.symm.trans (hstream ▸ hcand.head))
      rw [cur_placed, if_neg hne]
      exact hcand'.head
    · rw [hdone]
      exact .inr (hcand'.wait hwait y hy)
  · rw [hfor] at hj
    rw [hsusp]
    exact hok.waiting j hj
  · have hcur : ({ st with
        currentScope := some (scope.addNodeWithStreamInfo n)
        processedNodes := n.nodeId :: st.processedNodes } : SplitState).cur n.streamIdxInGraph
          = some n.nodeId := hcand.head
    have hundone : (undoneNodes g (placed st scope n)).ncard + 1 = (undoneNodes g st).ncard :=
      ncard_undoneNodes_advance hg hcur hcand.get rfl
    unfold buildPotential
    rw [suspendedStreams_congr hsusp]
    show _ + st.nodeHeap.ids.length + _ + 2 = _
    omega

theorem processNotifyNode_eq (hg : g.WellFormed) (hn : n ∈ g.nodes) (htype : n.nodeType = .nodeNotify)
    (fuel : ℕ) (st : SplitState) : ∃ ws, processNotifyNode g fuel st n
      = resumeWaitStreams g fuel n.syncInfos.eventId ws
          { st with visitedNotifies := n.nodeId :: st.visitedNotifies } := by
  rcases hg.notify_info n hn htype with ⟨e, he, info, hinfo, _⟩
  refine ⟨info.waitNodeIdList, ?_⟩
  have hbind : n.syncInfos.eventId.bind g.getEventInfo = some info := by
    rw [he]
    exact hinfo
  unfold processNotifyNode
  rw [hbind]

theorem BuildOk.visit (hok : BuildOk g st) (hn : n.nodeId ∈ doneSet g [] st) :
    BuildOk g { st with visitedNotifies := n.nodeId :: st.visitedNotifies } := by
  refine hok.congr ⟨fun _ => rfl, rfl, rfl, rfl⟩ ?_ rfl hok.waiting
  intro x hx
  rcases mem_cons.mp hx with rfl | hx
  · exact hn
  · exact hok.tracks.visited x hx

theorem Signalled.of_done (hs : Signalled g [] st) {x : NodeId}
    (hdone : doneSet g [] st' = insert x (doneSet g [] st))
    (hvisited : ∀ y ∈ st.visitedNotifies, y ∈ st'.visitedNotifies)
    (hx : ∀ m, g.getNodeById x = some m → m.nodeType = .nodeNotify → x ∈ st'.visitedNotifies) :
    Signalled g [] st' := by
  intro y hy m hm htype
  rw [hdone] at hy ⊢
  rcases hy with rfl | hy
  · exact .inl (hx m hm htype)
  · rcases hs y hy m hm htype with hv | hall
    · exact .inl (hvisited y hv)
    · exact .inr fun w hw => .inr (hall w hw)

theorem Signalled.congr (hs : Signalled g [] st) (hframe : BuildFrame st st')
    (hvisited : st'.visitedNotifies = st.visitedNotifies) : Signalled g [] st' := by
  unfold Signalled
  rw [hframe.doneSet_eq, hvisited]
  exact hs

/-- A placed NOTIFY counts as visited, and the streams waiting for it are retried. -/
theorem processNotifyNode_spec (hg : g.WellFormed) (hok : BuildOk g st)
    (hn : g.getNodeById n.nodeId = some n) (htype : n.nodeType = .nodeNotify)
    (hdone : n.nodeId ∈ doneSet g [] st) (hrun : processNotifyNode g fuel st n = some st') :
    BuildOk g st' ∧ BuildFrame st st' ∧ buildPotential g st' ≤ buildPotential g st ∧
      st'.visitedNotifies = n.nodeId :: st.visitedNotifies := by
  rcases processNotifyNode_eq hg (getNodeById_some hn).1 htype fuel st with ⟨ws, heq⟩
  rw [heq] at hrun
  rcases resumeWaitStreams_spec hg (hok.visit hdone) hrun with ⟨hok', hframe, hvisited, hpot⟩
  exact ⟨hok', ⟨hframe.cur, hframe.processed, hframe.scope, hframe.flags⟩, hpot, hvisited⟩

/-- The NOTIFY marks left by a RESET of the event with the given infos. -/
def resetVisited (st : SplitState) (info : EventInfos) : SplitState :=
  { st with visitedNotifies :=
      match info.notifyNodeId with
      | none => st.visitedNotifies
      | some notifyId => st.visitedNotifies.filter (· ≠ notifyId) }

theorem mem_resetVisited {info : EventInfos} {x : NodeId} :
    x ∈ (resetVisited st info).visitedNotifies ↔
      x ∈ st.visitedNotifies ∧ info.notifyNodeId ≠ some x := by
  unfold resetVisited
  dsimp only
  split
  · next hnone => simp [hnone]
  · next y hy =>
    rw [hy, mem_filter, decide_eq_true_iff, Ne, Ne, some.injEq, eq_comm (a := y)]

/-- A placed RESET takes back the mark of its event's NOTIFY. -/
theorem processResetNode_spec (hg : g.WellFormed) (hok : BuildOk g st)
    (hn : n ∈ g.nodes) (htype : n.nodeType = .nodeReset) :
    BuildOk g (processResetNode g st n) ∧ BuildFrame st (processResetNode g st n) ∧
      buildPotential g (processResetNode g st n) = buildPotential g st ∧
      (Signalled g [] st → ResetSafe g st n → Signalled g [] (processResetNode g st n)) := by
  rcases hg.reset_info n hn htype with ⟨e, he, info, hinfo, _⟩
  have hbind : n.syncInfos.eventId.bind g.getEventInfo = some info := by
    rw [he]
    exact hinfo
  have heq : processResetNode g st n = suspendWaitStreams g n.syncInfos.eventId
      info.waitNodeIdList (resetVisited st info) := by
    unfold processResetNode
    rw [hbind]
    rfl
  have hframe₁ : BuildFrame st (resetVisited st info) := ⟨fun _ => rfl, rfl, rfl, rfl⟩
  have hok₁ : BuildOk g (resetVisited st info) := by
    refine hok.congr hframe₁ (fun x hx => ?_) rfl hok.waiting
    exact hok.tracks.visited x (mem_resetVisited.mp hx).1
  have hne : n.syncInfos.eventId ≠ none := by
    rw [he]
    exact some_ne_none e
  rcases suspendWaitStreams_spec hne info.waitNodeIdList hok₁
    with ⟨hok₂, hframe₂, hvisited, hpot⟩
  rw [heq]
  refine ⟨hok₂, hframe₁.trans hframe₂, hpot, fun hs hsafe => ?_⟩
  intro y hy m hm hnotify
  rw [(hframe₁.trans hframe₂).doneSet_eq] at hy ⊢
  rw [hvisited, mem_resetVisited]
  rcases hs y hy m hm hnotify with hv | hall
  · -- a NOTIFY loses its mark only when it is the one of the reset event
    by_cases hreset : info.notifyNodeId = some y
    · refine .inr fun w hw => hsafe htype e he info hinfo w ?_
      rcases hg.event_notify _ (getEventInfo_mem hinfo) y hreset with ⟨k, hk, rfl, _, hkev⟩
      have hkm : k = m := some.inj ((hg.getNodeById_of_mem hk).symm.trans hm)
      subst hkm
      rcases hg.notify_info k hk hnotify with ⟨e', he', info', hinfo', _, hperm⟩
      have hee : e' = e := some.inj (he'.symm.trans hkev)
      have hii : info' = info := some.inj (hinfo'.symm.trans (hee ▸ hinfo))
      exact hii ▸ hperm.mem_iff.mp hw
    · exact .inl ⟨hv, hreset⟩
  · exact .inr hall

/-- Between placing and the next attempt, a NOTIFY or RESET updates its event. -/
theorem placeEvent_spec (hg : g.WellFormed) (hok : BuildOk g st)
    (hn : g.getNodeById n.nodeId = some n) (hdone : n.nodeId ∈ doneSet g [] st)
    (hrun : (if n.nodeType = .nodeNotify then processNotifyNode g fuel st n
      else if n.nodeType = .nodeReset then some (processResetNode g st n)
      else some st) = some st') :
    BuildOk g st' ∧ BuildFrame st st' ∧ buildPotential g st' ≤ buildPotential g st ∧
      (n.nodeType = .nodeNotify → st'.visitedNotifies = n.nodeId :: st.visitedNotifies) ∧
      (n.nodeType ≠ .nodeNotify → Signalled g [] st → ResetSafe g st n → Signalled g [] st') := by
  split at hrun
  · next htype =>
    rcases processNotifyNode_spec hg hok hn htype hdone hrun with ⟨h₁, h₂, h₃, h₄⟩
    exact ⟨h₁, h₂, h₃, fun _ => h₄, fun hne => absurd htype hne⟩
  · next hnn =>
    split at hrun
    · next htype =>
      obtain rfl := some.inj hrun
      rcases processResetNode_spec hg hok (getNodeById_some hn).1 htype with ⟨h₁, h₂, h₃, h₄⟩
      exact ⟨h₁, h₂, le_of_eq h₃, fun h => absurd h hnn, fun _ => h₄⟩
    · obtain rfl := some.inj hrun
      exact ⟨hok, BuildFrame.refl, le_refl _, fun h => absurd h hnn, fun _ hs _ => hs⟩

/-- The specification of placing a candidate. -/
theorem placeNode_spec (hg : g.WellFormed) (hok : BuildOk g st)
    (hcand : Candidate g st n) (hrun : placeNode g fuel st scope n = some st') :
    BuildOk g st' ∧ BuildFrame (placed st scope n) st' ∧
      buildPotential g st' < buildPotential g st ∧
      (Signalled g [] st → ResetSafe g st n → Signalled g [] st') := by
  rcases hok.place hg hcand scope with ⟨hok₁, hdone₁, hpot₁⟩
  rcases bind_eq_some_iff.mp hrun with ⟨st₂, hmid, hcall⟩
  have hmem : n.nodeId ∈ doneSet g [] (placed st scope n) := hdone₁ ▸ Or.inl rfl
  rcases placeEvent_spec hg hok₁ hcand.get hmem hmid
    with ⟨hok₂, hframe₂, hpot₂, hvisited₂, hsig₂⟩
  have htry := tryAddNodeToHeap_cases hg hok₂.tracks hcall
  have hpot₃ := htry.potential_le
  rcases htry.frame with ⟨hframe₃, hvisited₃⟩
  refine ⟨hok₂.tryAdd htry, hframe₂.trans hframe₃, by omega, fun hs hsafe => ?_⟩
  refine Signalled.congr ?_ hframe₃ hvisited₃
  by_cases htype : n.nodeType = .nodeNotify
  · refine hs.of_done (x := n.nodeId) (hframe₂.doneSet_eq.trans hdone₁) ?_ ?_
    · intro y hy
      rw [hvisited₂ htype]
      exact mem_cons_of_mem _ hy
    · intro m _ _
      rw [hvisited₂ htype]
      exact mem_cons_self ..
  · refine hsig₂ htype (hs.of_done hdone₁ (fun y hy => hy) ?_) ?_
    · intro m hm hnotify
      have heq : n = m := some.inj (hcand.get.symm.trans hm)
      exact absurd (heq ▸ hnotify) htype
    · intro hreset e he info hinfo w hw
      rw [hdone₁]
      exact .inr (hsafe hreset e he info hinfo w hw)

theorem placeNode_isSome (hg : g.WellFormed) (hfuel : 0 < fuel) (hok : BuildOk g st)
    (hcand : Candidate g st n) : (placeNode g fuel st scope n).isSome := by
  rcases hok.place hg hcand scope with ⟨hok₁, hdone₁, _⟩
  have hmem : n.nodeId ∈ doneSet g [] (placed st scope n) := hdone₁ ▸ Or.inl rfl
  have hmid : (if n.nodeType = .nodeNotify then processNotifyNode g fuel (placed st scope n) n
      else if n.nodeType = .nodeReset then some (processResetNode g (placed st scope n) n)
      else some (placed st scope n)).isSome := by
    split
    · next htype =>
      rcases processNotifyNode_eq hg (getNodeById_some hcand.get).1 htype fuel (placed st scope n)
        with ⟨ws, heq⟩
      rw [heq]
      exact resumeWaitStreams_isSome hg hfuel (hok₁.visit hmem) rfl
    · split <;> rfl
  rcases isSome_iff_exists.mp hmid with ⟨st₂, hst₂⟩
  rcases placeEvent_spec hg hok₁ hcand.get hmem hst₂ with ⟨hok₂, hframe₂, _⟩
  have hcall : (tryAddNodeToHeap g fuel st₂ n.streamIdxInGraph).isSome := by
    apply tryAddNodeToHeap_isSome hok₂.tracks hfuel
    rw [hframe₂.scope]
    exact .inl rfl
  show (Option.bind (if n.nodeType = .nodeNotify then processNotifyNode g fuel (placed st scope n) n
      else if n.nodeType = .nodeReset then some (processResetNode g (placed st scope n) n)
      else some (placed st scope n)) fun st => tryAddNodeToHeap g fuel st n.streamIdxInGraph).isSome
  rw [hst₂]
  exact hcall

end GraphAutofusion.SuperKernel
