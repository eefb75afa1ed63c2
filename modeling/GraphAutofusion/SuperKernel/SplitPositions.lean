import GraphAutofusion.Lib.BatchSchedule
import GraphAutofusion.SuperKernel.InitialSplit
import Mathlib.Data.Set.Card

/-!
# SuperKernel.SplitPositions — what the stream positions of the splitter say

The positions of the streams determine which nodes the split pass has handled.
`Tracks` is the invariant all functions of the pass share: stream heads are nodes
of their stream, and only handled nodes are recorded as visited or processed.
The pass as a whole is a batch scheduler over happens-before that emits the
fusible nodes (`batchState`).
-/

namespace GraphAutofusion.SuperKernel

open Relation Lib SuperKernelGraph Option List

/-! ## Stream states -/

variable (e : Option EventId)

namespace SplitState

variable (st : SplitState) (i j : StreamIdx)

def cur : Option NodeId := (st.streamStates i).currentNodeId

def isSuspended : Bool := (st.streamStates i).isSuspended

def waitingFor : Option EventId := (st.streamStates i).waitingForNotify

theorem streamStates_setStream (s : StreamState) :
    (st.setStream i s).streamStates j = if j = i then s else st.streamStates j := rfl

/-- An update of a stream that keeps a field of it keeps the field of every stream. -/
theorem field_setStream {β : Type*} (f : StreamState → β) {s : StreamState}
    (h : f s = f (st.streamStates i)) :
    f ((st.setStream i s).streamStates j) = f (st.streamStates j) := by
  rw [streamStates_setStream]
  split
  · next hji => rw [h, hji]
  · rfl

@[simp] theorem cur_setCurrentNodeId (c : Option NodeId) :
    (st.setCurrentNodeId i c).cur j = if j = i then c else st.cur j := by
  unfold cur setCurrentNodeId
  rw [streamStates_setStream]
  split <;> rfl

@[simp] theorem cur_suspend : (st.suspend i e).cur j = st.cur j :=
  st.field_setStream i j (·.currentNodeId) rfl

@[simp] theorem cur_resume : (st.resume i).cur j = st.cur j :=
  st.field_setStream i j (·.currentNodeId) rfl

@[simp] theorem cur_terminate : (st.terminate i).cur j = st.cur j :=
  st.field_setStream i j (·.currentNodeId) rfl

@[simp] theorem isSuspended_setCurrentNodeId (c : Option NodeId) :
    (st.setCurrentNodeId i c).isSuspended j = st.isSuspended j :=
  st.field_setStream i j (·.isSuspended) rfl

@[simp] theorem isSuspended_suspend :
    (st.suspend i e).isSuspended j = if j = i then true else st.isSuspended j := by
  unfold isSuspended suspend
  rw [streamStates_setStream]
  split <;> rfl

@[simp] theorem isSuspended_resume :
    (st.resume i).isSuspended j = if j = i then false else st.isSuspended j := by
  unfold isSuspended resume
  rw [streamStates_setStream]
  split <;> rfl

@[simp] theorem isSuspended_terminate : (st.terminate i).isSuspended j = st.isSuspended j :=
  st.field_setStream i j (·.isSuspended) rfl

@[simp] theorem waitingFor_setCurrentNodeId (c : Option NodeId) :
    (st.setCurrentNodeId i c).waitingFor j = st.waitingFor j :=
  st.field_setStream i j (·.waitingForNotify) rfl

@[simp] theorem waitingFor_suspend :
    (st.suspend i e).waitingFor j = if j = i then e else st.waitingFor j := by
  unfold waitingFor suspend
  rw [streamStates_setStream]
  split <;> rfl

@[simp] theorem waitingFor_resume :
    (st.resume i).waitingFor j = if j = i then none else st.waitingFor j := by
  unfold waitingFor resume
  rw [streamStates_setStream]
  split <;> rfl

@[simp] theorem waitingFor_terminate : (st.terminate i).waitingFor j = st.waitingFor j :=
  st.field_setStream i j (·.waitingForNotify) rfl

theorem isWaitingFor_iff :
    st.isWaitingFor i e = true ↔ st.isSuspended i = true ∧ st.waitingFor i = e := by
  simp [isWaitingFor, isSuspended, waitingFor]

end SplitState

/-! ## Handled nodes -/

variable (g : SuperKernelGraph)

/-- The stream of `n` has moved past `n`. -/
def Passed (st : SplitState) (n : SuperKernelBaseNode) : Prop :=
  ∀ c ∈ st.cur n.streamIdxInGraph, ∀ m ∈ g.getNodeById c, n.nodeIdxInStream < m.nodeIdxInStream

/-- The handled nodes: the passed ones, and the stream heads in `pending`, which
are handled while their stream still stands at them. -/
def doneSet (pending : List NodeId) (st : SplitState) : Set NodeId :=
  { x | ∃ n, g.getNodeById x = some n ∧ (Passed g st n ∨ x ∈ pending) }

def Fusible (x : NodeId) : Prop := ∃ n, g.getNodeById x = some n ∧ n.isFusible = true

/-- The batch scheduler state of a split state with the given finished scopes. -/
def batchState (pending : List NodeId) (closed : List (List NodeId)) (st : SplitState) :
    BatchState NodeId where
  done := doneSet g pending st
  closed := closed
  current := st.currentScope.map (·.nodeIds)

/-- Stream heads are nodes of their stream, and only handled nodes are recorded. -/
structure Tracks (pending : List NodeId) (st : SplitState) : Prop where
  cur_valid : ∀ i, ∀ c ∈ st.cur i, ∃ n, g.getNodeById c = some n ∧ n.streamIdxInGraph = i
  head : ∀ x ∈ pending, ∃ n, g.getNodeById x = some n ∧ st.cur n.streamIdxInGraph = some x
  visited : ∀ x ∈ st.visitedNotifies, x ∈ doneSet g pending st
  processed : ∀ x ∈ st.processedNodes, x ∈ doneSet g pending st

/-- No pending node lies on stream `i`. -/
def FreeStream (pending : List NodeId) (i : StreamIdx) : Prop :=
  ∀ x ∈ pending, ∀ n, g.getNodeById x = some n → n.streamIdxInGraph ≠ i

variable {g} {pending : List NodeId} {st st' : SplitState} {i : StreamIdx} {c : NodeId}
  {n : SuperKernelBaseNode}

theorem passed_congr (hcur : ∀ i, st'.cur i = st.cur i) (n : SuperKernelBaseNode) :
    Passed g st' n ↔ Passed g st n := by
  unfold Passed
  rw [hcur]

theorem doneSet_congr (hcur : ∀ i, st'.cur i = st.cur i) :
    doneSet g pending st' = doneSet g pending st := by
  unfold doneSet
  simp only [passed_congr hcur]

theorem Tracks.congr (ht : Tracks g pending st) (hcur : ∀ i, st'.cur i = st.cur i)
    (hvisited : ∀ x ∈ st'.visitedNotifies, x ∈ doneSet g pending st)
    (hprocessed : ∀ x ∈ st'.processedNodes, x ∈ doneSet g pending st) : Tracks g pending st' := by
  refine ⟨?_, ?_, ?_, ?_⟩
  · intro i c hc
    exact ht.cur_valid i c (hcur i ▸ hc)
  · intro x hx
    obtain ⟨n, hn, hc⟩ := ht.head x hx
    exact ⟨n, hn, (hcur _).trans hc⟩
  · rw [doneSet_congr hcur]
    exact hvisited
  · rw [doneSet_congr hcur]
    exact hprocessed

/-- The head of a stream is not handled unless it is pending. -/
theorem not_mem_doneSet_cur (hc : st.cur i = some c) (hn : g.getNodeById c = some n)
    (hi : n.streamIdxInGraph = i) (hpending : c ∉ pending) : c ∉ doneSet g pending st := by
  rintro ⟨m, hm, hpassed | hp⟩
  · obtain rfl : n = m := some.inj (hn.symm.trans hm)
    subst hi
    exact absurd (hpassed c hc n hn) (lt_irrefl _)
  · exact hpending hp

theorem doneSet_cons (hn : g.getNodeById c = some n) :
    doneSet g (c :: pending) st = insert c (doneSet g pending st) := by
  ext x
  simp only [doneSet, mem_cons, Set.mem_ofPred_eq, Set.mem_insert_iff]
  constructor
  · rintro ⟨m, hm, hp | rfl | hp⟩
    · exact .inr ⟨m, hm, .inl hp⟩
    · exact .inl rfl
    · exact .inr ⟨m, hm, .inr hp⟩
  · rintro (rfl | ⟨m, hm, hp | hp⟩)
    · exact ⟨n, hn, .inr (.inl rfl)⟩
    · exact ⟨m, hm, .inl hp⟩
    · exact ⟨m, hm, .inr (.inr hp)⟩

variable (hg : g.WellFormed)
include hg

/-- Moving a stream to the next id passes exactly its head. -/
theorem passed_advance (hc : st.cur i = some c) (hn : g.getNodeById c = some n)
    (hi : n.streamIdxInGraph = i) {m : SuperKernelBaseNode} (hm : m ∈ g.nodes) :
    Passed g (st.setCurrentNodeId i n.nextNodeId) m ↔ Passed g st m ∨ m = n := by
  have hnmem := (getNodeById_some hn).1
  unfold Passed
  rw [SplitState.cur_setCurrentNodeId]
  by_cases hs : m.streamIdxInGraph = i
  · have hold : (∀ c' ∈ st.cur m.streamIdxInGraph, ∀ k ∈ g.getNodeById c',
        m.nodeIdxInStream < k.nodeIdxInStream) ↔ m.nodeIdxInStream < n.nodeIdxInStream := by
      rw [hs, hc]
      simp [hn]
    have heq : m = n ↔ m.nodeIdxInStream = n.nodeIdxInStream :=
      ⟨fun h => h ▸ rfl, hg.eq_of_idx hm hnmem (hs.trans hi.symm)⟩
    rw [hold, heq, if_pos hs]
    cases hnext : n.nextNodeId with
    | none =>
      have := hg.le_of_next_none hnmem hm (hs.trans hi.symm) hnext
      simp only [mem_def, reduceCtorEq, false_implies, implies_true, true_iff]
      omega
    | some d =>
      obtain ⟨k, hk, _, hidx⟩ := hg.next_node hnmem hnext
      simp only [mem_def, some.injEq, forall_eq', hk, hidx]
      omega
  · rw [if_neg hs]
    have hne : m ≠ n := fun h => hs (h ▸ hi)
    simp [hne]

/-- Once the head is pending, the stream may move past it. -/
theorem Tracks.advance (ht : Tracks g (c :: pending) st) (hn : g.getNodeById c = some n)
    (hi : n.streamIdxInGraph = i) (hfree : FreeStream g pending i) :
    Tracks g pending (st.setCurrentNodeId i n.nextNodeId) ∧
      doneSet g pending (st.setCurrentNodeId i n.nextNodeId) = doneSet g (c :: pending) st := by
  have hnmem := getNodeById_some hn
  obtain ⟨n', hn', hc⟩ := ht.head c (mem_cons_self ..)
  obtain rfl : n = n' := some.inj (hn.symm.trans hn')
  rw [hi] at hc
  have hdone : doneSet g pending (st.setCurrentNodeId i n.nextNodeId)
      = doneSet g (c :: pending) st := by
    ext x
    simp only [doneSet, mem_cons, Set.mem_ofPred_eq]
    refine exists_congr fun m => and_congr_right fun hm => ?_
    have hmmem := getNodeById_some hm
    rw [passed_advance hg hc hn hi hmmem.1]
    have hid : m = n ↔ x = c := by
      constructor
      · rintro rfl
        exact hmmem.2.symm.trans hnmem.2
      · rintro rfl
        exact some.inj (hm.symm.trans hn)
    rw [hid]
    tauto
  refine ⟨⟨?_, ?_, ?_, ?_⟩, hdone⟩
  · intro j d hd
    rw [SplitState.cur_setCurrentNodeId] at hd
    split at hd
    · next hj =>
      obtain ⟨m, hm, hms, _⟩ := hg.next_node hnmem.1 hd
      exact ⟨m, hm, hms.trans (hi.trans hj.symm)⟩
    · exact ht.cur_valid j d hd
  · intro x hx
    obtain ⟨m, hm, hmc⟩ := ht.head x (mem_cons_of_mem _ hx)
    refine ⟨m, hm, ?_⟩
    rw [SplitState.cur_setCurrentNodeId, if_neg (hfree x hx m hm)]
    exact hmc
  · rw [hdone]
    exact ht.visited
  · rw [hdone]
    exact ht.processed

/-- The head of a stream depends on handled nodes only, once the NOTIFY it waits
for, if any, is handled. -/
theorem ready_of_cur (hc : st.cur i = some c)
    (hn : g.getNodeById c = some n) (hi : n.streamIdxInGraph = i)
    (hwait : n.nodeType = .nodeWait → ∀ y ∈ n.syncInfos.correspondingNotifyNodeId,
      y ∈ doneSet g pending st) {y : NodeId} (hedge : g.HbEdge y c) :
    y ∈ doneSet g pending st := by
  cases hedge with
  | @stream m hm hnext =>
    obtain ⟨k, hk, hks, hidx⟩ := hg.next_node (getNodeById_some hm).1 hnext
    obtain rfl : n = k := some.inj (hn.symm.trans hk)
    refine ⟨m, hm, .inl ?_⟩
    intro d hd l hl
    have hcur : some d = some c := by
      rw [← hks, hi] at hd
      exact hd.symm.trans hc
    obtain rfl : d = c := some.inj hcur
    obtain rfl : n = l := some.inj (hn.symm.trans hl)
    omega
  | @event m hm hw hnotify =>
    obtain rfl : n = m := some.inj (hn.symm.trans hm)
    exact hwait hw y hnotify

/-! ## What is left to do -/

omit hg

variable (g) in
def undoneNodes (st : SplitState) : Set SuperKernelBaseNode := { n | n ∈ g.nodes ∧ ¬ Passed g st n }

variable (g) in
def suspendedStreams (st : SplitState) : Set StreamIdx :=
  { j | j < g.streamNum ∧ st.isSuspended j = true }

variable (g) in
/-- The potential of the skip loops. -/
noncomputable def skipPotential (st : SplitState) : ℕ :=
  (undoneNodes g st).ncard + (suspendedStreams g st).ncard

theorem finite_undoneNodes (st : SplitState) : (undoneNodes g st).Finite :=
  (finite_toSet g.nodes).subset fun _ hn => hn.1

theorem finite_suspendedStreams (st : SplitState) : (suspendedStreams g st).Finite :=
  (Set.finite_lt_nat g.streamNum).subset fun _ hj => hj.1

theorem ncard_undoneNodes_le (st : SplitState) : (undoneNodes g st).ncard ≤ g.nodes.length := by
  classical
  calc (undoneNodes g st).ncard ≤ (g.nodes.toFinset : Set SuperKernelBaseNode).ncard :=
        Set.ncard_le_ncard (fun n hn => by simpa using hn.1) (Finset.finite_toSet _)
    _ = g.nodes.toFinset.card := Set.ncard_coe_finset _
    _ ≤ g.nodes.length := toFinset_card_le _

theorem ncard_suspendedStreams_le (st : SplitState) :
    (suspendedStreams g st).ncard ≤ g.streamNum := by
  calc (suspendedStreams g st).ncard ≤ (Finset.range g.streamNum : Set ℕ).ncard :=
        Set.ncard_le_ncard (fun j hj => by simpa using hj.1) (Finset.finite_toSet _)
    _ = g.streamNum := by rw [Set.ncard_coe_finset, Finset.card_range]

theorem skipPotential_le (st : SplitState) : skipPotential g st ≤ g.nodes.length + g.streamNum :=
  Nat.add_le_add (ncard_undoneNodes_le st) (ncard_suspendedStreams_le st)

theorem undoneNodes_congr (hcur : ∀ i, st'.cur i = st.cur i) :
    undoneNodes g st' = undoneNodes g st := by
  unfold undoneNodes
  simp only [passed_congr hcur]

theorem suspendedStreams_congr (hsusp : ∀ j, st'.isSuspended j = st.isSuspended j) :
    suspendedStreams g st' = suspendedStreams g st := by
  unfold suspendedStreams
  simp only [hsusp]

theorem skipPotential_congr (hcur : ∀ i, st'.cur i = st.cur i)
    (hsusp : ∀ j, st'.isSuspended j = st.isSuspended j) :
    skipPotential g st' = skipPotential g st := by
  unfold skipPotential
  rw [undoneNodes_congr hcur, suspendedStreams_congr hsusp]

/-- Moving a stream past its head leaves one node less to do. -/
theorem ncard_undoneNodes_advance (hg : g.WellFormed) (hc : st.cur i = some c)
    (hn : g.getNodeById c = some n) (hi : n.streamIdxInGraph = i) :
    (undoneNodes g (st.setCurrentNodeId i n.nextNodeId)).ncard + 1 = (undoneNodes g st).ncard := by
  have hmem : n ∈ undoneNodes g st := by
    refine ⟨(getNodeById_some hn).1, fun hpassed => ?_⟩
    subst hi
    exact absurd (hpassed c hc n hn) (lt_irrefl _)
  have hdiff : undoneNodes g (st.setCurrentNodeId i n.nextNodeId) = undoneNodes g st \ {n} := by
    ext m
    simp only [undoneNodes, Set.mem_ofPred_eq, Set.mem_sdiff, Set.mem_singleton_iff]
    constructor
    · rintro ⟨hm, hnot⟩
      rw [passed_advance hg hc hn hi hm, not_or] at hnot
      exact ⟨⟨hm, hnot.1⟩, hnot.2⟩
    · rintro ⟨⟨hm, hnot⟩, hne⟩
      refine ⟨hm, ?_⟩
      rw [passed_advance hg hc hn hi hm, not_or]
      exact ⟨hnot, hne⟩
  rw [hdiff, Set.ncard_sdiff_singleton_add_one hmem (finite_undoneNodes st)]

theorem ncard_suspendedStreams_resume (hj : i < g.streamNum) (hsusp : st.isSuspended i = true) :
    (suspendedStreams g (st.resume i)).ncard + 1 = (suspendedStreams g st).ncard := by
  have hdiff : suspendedStreams g (st.resume i) = suspendedStreams g st \ {i} := by
    ext k
    simp only [suspendedStreams, SplitState.isSuspended_resume, Set.mem_ofPred_eq, Set.mem_sdiff,
      Set.mem_singleton_iff]
    by_cases hk : k = i <;> simp [hk]
  have hmem : i ∈ suspendedStreams g st := ⟨hj, hsusp⟩
  rw [hdiff, Set.ncard_sdiff_singleton_add_one hmem (finite_suspendedStreams st)]

theorem ncard_suspendedStreams_suspend :
    (suspendedStreams g (st.suspend i e)).ncard ≤ (suspendedStreams g st).ncard + 1 := by
  have hsub : suspendedStreams g (st.suspend i e) ⊆ insert i (suspendedStreams g st) := by
    rintro k ⟨hk, hsusp⟩
    rw [SplitState.isSuspended_suspend] at hsusp
    split at hsusp
    · next h => exact .inl h
    · exact .inr ⟨hk, hsusp⟩
  exact (Set.ncard_le_ncard hsub ((finite_suspendedStreams st).insert i)).trans
    (Set.ncard_insert_le _ _)

end GraphAutofusion.SuperKernel
