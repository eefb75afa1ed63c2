import GraphAutofusion.SuperKernel.InitialSplitRefine

/-!
# SuperKernel.InitialSplitRun — whole runs of the split pass

A round of the main loop fills the heap from the stream heads, builds one scope
and skips to the next fusible heads. A run is a sequence of rounds that ends when
no seed is left or the seed's flags leave the heap empty.
-/

namespace GraphAutofusion.SuperKernel

open Relation Lib SuperKernelGraph List Option

variable {g : SuperKernelGraph} {st st' st'' : SplitState} {i j : StreamIdx}
  {n m : SuperKernelBaseNode} {scope : SuperKernelScopeInfo} {order : List StreamIdx} {fuel : ℕ}

/-! ## The seed of a round -/

variable (g) in
/-- An active fusible stream head. -/
structure ActiveHead (st : SplitState) (i : StreamIdx) (n : SuperKernelBaseNode) : Prop where
  get : g.getNodeById n.nodeId = some n
  head : st.cur i = some n.nodeId
  active : (st.streamStates i).isTerminated = false
  unsuspended : st.isSuspended i = false
  fusible : n.isFusible = true

variable (g) in
/-- One step of the scan in `findMinNode`. -/
def minStep (st : SplitState) (minNode : Option SuperKernelBaseNode) (i : StreamIdx) :
    Option SuperKernelBaseNode :=
  let s := st.streamStates i
  match s.currentNodeId with
  | none => minNode
  | some cur =>
    if !s.isTerminated && !s.isSuspended && minNode.all (fun m => cur < m.nodeId) then
      match g.getNodeById cur with
      | none => minNode
      | some node => if node.isFusible then some node else minNode
    else minNode

theorem findMinNode_eq (order : List StreamIdx) (st : SplitState) :
    findMinNode g order st = order.foldl (minStep g st) none := rfl

/-- A scan step keeps the minimum or takes a smaller active head. -/
theorem minStep_cases (st : SplitState) (a : Option SuperKernelBaseNode) (i : StreamIdx) :
    (minStep g st a i = a ∧ ∀ n, ActiveHead g st i n → ∃ m, a = some m ∧ m.nodeId ≤ n.nodeId) ∨
    ∃ n, ActiveHead g st i n ∧ minStep g st a i = some n ∧ ∀ m, a = some m → n.nodeId < m.nodeId := by
  unfold minStep
  dsimp only
  split
  · next hc =>
    refine .inl ⟨rfl, fun n hn => ?_⟩
    have hhead := hn.head
    simp [SplitState.cur, hc] at hhead
  · next cur hc =>
    have hcur : ∀ n, ActiveHead g st i n → cur = n.nodeId := fun n hn =>
      some.inj (hc.symm.trans hn.head)
    split
    · next hflag =>
      simp only [Bool.and_eq_true, Bool.not_eq_true'] at hflag
      rcases hflag with ⟨⟨hterm, hsusp⟩, hlt⟩
      split
      · next hnone =>
        refine .inl ⟨rfl, fun n hn => ?_⟩
        have hget := hn.get
        rw [← hcur n hn, hnone] at hget
        simp at hget
      · next k hk =>
        have hid := (getNodeById_some hk).2
        subst hid
        split
        · next hf =>
          refine .inr ⟨k, ⟨hk, hc, hterm, hsusp, hf⟩, rfl, fun m hm => ?_⟩
          simpa [hm] using hlt
        · next hf =>
          refine .inl ⟨rfl, fun n hn => ?_⟩
          have hget := hn.get
          rw [← hcur n hn, hk] at hget
          have heq : k = n := some.inj hget
          exact absurd (heq ▸ hn.fusible) hf
    · next hflag =>
      refine .inl ⟨rfl, fun n hn => ?_⟩
      have hsusp : (st.streamStates i).isSuspended = false := hn.unsuspended
      simp only [hn.active, hsusp, Bool.not_false, Bool.true_and] at hflag
      cases a with
      | none => simp at hflag
      | some m =>
        refine ⟨m, rfl, ?_⟩
        rw [← hcur n hn]
        simpa using hflag

/-- The scan returns the smallest active head. -/
theorem foldl_minStep_spec (st : SplitState) (order : List StreamIdx)
    (a : Option SuperKernelBaseNode) :
    (∀ m, order.foldl (minStep g st) a = some m → a = some m ∨ ∃ i ∈ order, ActiveHead g st i m) ∧
    (∀ k, a = some k → ∃ m, order.foldl (minStep g st) a = some m ∧ m.nodeId ≤ k.nodeId) ∧
    ∀ i ∈ order, ∀ n, ActiveHead g st i n →
      ∃ m, order.foldl (minStep g st) a = some m ∧ m.nodeId ≤ n.nodeId := by
  induction order generalizing a with
  | nil => exact ⟨fun m h => .inl h, fun k h => ⟨k, h, le_refl _⟩, by simp⟩
  | cons i rest ih =>
    rcases ih (minStep g st a i) with ⟨hfrom, hacc, hall⟩
    rw [foldl_cons]
    rcases minStep_cases (g := g) st a i with ⟨heq, hkeep⟩ | ⟨n, hn, heq, hlt⟩
    · rw [heq] at hfrom hacc hall ⊢
      refine ⟨fun m hm => ?_, hacc, fun k hk p hp => ?_⟩
      · rcases hfrom m hm with h | ⟨k, hk, hact⟩
        · exact .inl h
        · exact .inr ⟨k, mem_cons_of_mem _ hk, hact⟩
      · rcases mem_cons.mp hk with rfl | hk
        · rcases hkeep p hp with ⟨q, hq, hqp⟩
          rcases hacc q hq with ⟨m, hm, hmq⟩
          exact ⟨m, hm, le_trans hmq hqp⟩
        · exact hall k hk p hp
    · rcases hacc n heq with ⟨m, hm, hmn⟩
      refine ⟨fun k hk => ?_, fun k hk => ⟨m, hm, le_trans hmn (le_of_lt (hlt k hk))⟩,
        fun k hk p hp => ?_⟩
      · rcases hfrom k hk with h | ⟨l, hl, hact⟩
        · have hkn : n = k := some.inj (heq.symm.trans h)
          exact .inr ⟨i, mem_cons_self .., hkn ▸ hn⟩
        · exact .inr ⟨l, mem_cons_of_mem _ hl, hact⟩
      · rcases mem_cons.mp hk with rfl | hk
        · have hpn : p.nodeId = n.nodeId := some.inj (hp.head.symm.trans hn.head)
          exact ⟨m, hm, hpn ▸ hmn⟩
        · exact hall k hk p hp

theorem findMinNode_some (h : findMinNode g order st = some m) :
    (∃ i ∈ order, ActiveHead g st i m) ∧
      ∀ i ∈ order, ∀ n, ActiveHead g st i n → m.nodeId ≤ n.nodeId := by
  rw [findMinNode_eq] at h
  rcases foldl_minStep_spec (g := g) st order none with ⟨hfrom, _, hall⟩
  constructor
  · exact (hfrom m h).resolve_left (by simp)
  · intro i hi n hn
    rcases hall i hi n hn with ⟨k, hk, hkn⟩
    have hkm : m = k := some.inj (h.symm.trans hk)
    exact hkm ▸ hkn

theorem findMinNode_none (h : findMinNode g order st = none) (hi : i ∈ order) :
    ¬ ActiveHead g st i n := by
  rw [findMinNode_eq] at h
  intro hn
  rcases (foldl_minStep_spec (g := g) st order none).2.2 i hi n hn with ⟨m, hm, _⟩
  simp [h] at hm

/-! ## Filling the heap -/

section

variable (h : TryAdd g st i st')
include h

theorem TryAdd.mono (hr : ReadyHead g st' j n) : ReadyHead g st j n := by
  rcases h.frame with ⟨hframe, hvisited⟩
  have hactive : (st.streamStates j).isTerminated = false := by
    have ha := hr.active
    cases h with
    | idle => exact ha
    | terminate =>
      unfold SplitState.terminate at ha
      rw [SplitState.streamStates_setStream] at ha
      split at ha
      · simp at ha
      · exact ha
    | push => exact ha
    | block =>
      unfold SplitState.suspend at ha
      rw [SplitState.streamStates_setStream] at ha
      split at ha
      · next hji => exact hji ▸ ha
      · exact ha
  have hsusp : st.isSuspended j = false := by
    have hs := hr.unsuspended
    cases h with
    | idle => exact hs
    | terminate =>
      rw [SplitState.isSuspended_terminate] at hs
      exact hs
    | push => exact hs
    | block =>
      rw [SplitState.isSuspended_suspend] at hs
      split at hs
      · simp at hs
      · exact hs
  refine ⟨hr.get, (hframe.cur j).symm.trans hr.head, hactive, hsusp, hr.fusible,
    hr.flags.trans hframe.flags, ?_⟩
  rw [← hvisited]
  exact hr.wait

theorem TryAdd.other (hne : j ≠ i) (hr : ReadyHead g st j n) : ReadyHead g st' j n := by
  rcases h.frame with ⟨hframe, hvisited⟩
  have hsame : st'.streamStates j = st.streamStates j := by
    cases h with
    | idle => rfl
    | terminate => exact (SplitState.streamStates_setStream ..).trans (if_neg hne)
    | push => rfl
    | block => exact (SplitState.streamStates_setStream ..).trans (if_neg hne)
  refine ⟨hr.get, (hframe.cur j).trans hr.head, hsame ▸ hr.active, ?_, hr.fusible,
    hr.flags.trans hframe.flags.symm, ?_⟩
  · unfold SplitState.isSuspended
    rw [hsame]
    exact hr.unsuspended
  · rw [hvisited]
    exact hr.wait

theorem TryAdd.mem_ids {id : NodeId} (hid : id ∈ st'.nodeHeap.ids) :
    id ∈ st.nodeHeap.ids ∨ ∃ n, n.nodeId = id ∧ ReadyHead g st i n := by
  cases h with
  | idle => exact .inl hid
  | terminate => exact .inl hid
  | @push n hready =>
    rcases SkCandidateHeap.mem_ids_push _ _ hid with rfl | hid
    · exact .inr ⟨n, rfl, hready⟩
    · exact .inl hid
  | block => exact .inl hid

theorem TryAdd.ids_subset {id : NodeId} (hid : id ∈ st.nodeHeap.ids) : id ∈ st'.nodeHeap.ids := by
  cases h with
  | idle => exact hid
  | terminate => exact hid
  | push => exact SkCandidateHeap.mem_ids_push_of_mem _ _ hid
  | block => exact hid

end

/-- The heads pushed over all streams are the ready ones. -/
theorem tryAddNodesToHeap_spec (hg : g.WellFormed) (hok : BuildOk g st)
    (hrun : tryAddNodesToHeap g fuel order st = some st') :
    BuildOk g st' ∧ BuildFrame st st' ∧ st'.visitedNotifies = st.visitedNotifies ∧
      buildPotential g st' ≤ buildPotential g st + order.length ∧
      ∀ id ∈ st'.nodeHeap.ids, id ∈ st.nodeHeap.ids ∨
        ∃ i ∈ order, ∃ n, n.nodeId = id ∧ ReadyHead g st i n := by
  induction order generalizing st with
  | nil =>
    obtain rfl : st = st' := by simpa [tryAddNodesToHeap] using hrun
    exact ⟨hok, BuildFrame.refl, rfl, le_refl _, fun id hid => .inl hid⟩
  | cons i rest ih =>
    rw [tryAddNodesToHeap] at hrun
    split at hrun
    · simp at hrun
    · next st₁ hcall =>
      have htry := tryAddNodeToHeap_cases hg hok.tracks hcall
      have hpot₁ := htry.potential_le
      rcases htry.frame with ⟨hframe₁, hvis₁⟩
      rcases ih (hok.tryAdd htry) hrun with ⟨hok₂, hframe₂, hvis₂, hpot₂, hids₂⟩
      refine ⟨hok₂, hframe₁.trans hframe₂, hvis₂.trans hvis₁, ?_, fun id hid => ?_⟩
      · rw [length_cons]
        omega
      · rcases hids₂ id hid with hid | ⟨k, hk, n, hn, hready⟩
        · rcases htry.mem_ids hid with hid | ⟨n, hn, hready⟩
          · exact .inl hid
          · exact .inr ⟨i, mem_cons_self .., n, hn, hready⟩
        · exact .inr ⟨k, mem_cons_of_mem _ hk, n, hn, htry.mono hready⟩

theorem tryAddNodesToHeap_ids (hg : g.WellFormed) (hok : BuildOk g st)
    (hrun : tryAddNodesToHeap g fuel order st = some st') :
    (∀ id ∈ st.nodeHeap.ids, id ∈ st'.nodeHeap.ids) ∧
      ∀ i ∈ order, ∀ n, ReadyHead g st i n → n.nodeId ∈ st'.nodeHeap.ids := by
  induction order generalizing st with
  | nil =>
    obtain rfl : st = st' := by simpa [tryAddNodesToHeap] using hrun
    exact ⟨fun id hid => hid, by simp⟩
  | cons i rest ih =>
    rw [tryAddNodesToHeap] at hrun
    split at hrun
    · simp at hrun
    · next st₁ hcall =>
      have htry := tryAddNodeToHeap_cases hg hok.tracks hcall
      rcases ih (hok.tryAdd htry) hrun with ⟨hkeep, hpush⟩
      refine ⟨fun id hid => hkeep id (htry.ids_subset hid), fun k hk n hready => ?_⟩
      by_cases hki : k = i
      · subst hki
        apply hkeep
        rw [htry.eq_push hready]
        have hmem := hg.no_memory n (getNodeById_some hready.get).1
        exact SkCandidateHeap.mem_ids_push_self _ _ hready.get hmem.1 hmem.2
      · rcases mem_cons.mp hk with h | hk
        · exact absurd h hki
        · exact hpush k hk n (htry.other hki hready)

/-- Before a scope is open, the attempt needs every unsuspended head to be fusible. -/
theorem tryAddNodesToHeap_isSome (hg : g.WellFormed) (hfuel : 0 < fuel)
    (order : List StreamIdx) (hok : BuildOk g st)
    (hheads : ∀ i, st.isSuspended i = true ∨
      ∀ n, st.cur i = some n.nodeId → g.getNodeById n.nodeId = some n → n.isFusible = true) :
    (tryAddNodesToHeap g fuel order st).isSome := by
  induction order generalizing st with
  | nil => rfl
  | cons i rest ih =>
    have hsome := tryAddNodeToHeap_isSome (i := i) hok.tracks hfuel (.inr (hheads i))
    rcases isSome_iff_exists.mp hsome with ⟨st₁, hcall⟩
    have htry := tryAddNodeToHeap_cases hg hok.tracks hcall
    rw [tryAddNodesToHeap, hcall]
    refine ih (hok.tryAdd htry) fun j => ?_
    rcases hheads j with hs | hf
    · left
      cases htry with
      | idle => exact hs
      | terminate => rw [SplitState.isSuspended_terminate, hs]
      | push => exact hs
      | block =>
        rw [SplitState.isSuspended_suspend, hs]
        split <;> rfl
    · right
      intro n hn
      rw [htry.frame.1.cur] at hn
      exact hf n hn

/-! ## One round -/

/-- `DetermineCurrentScopeBitFlags` and the reset of the heap. -/
def seeded (st : SplitState) (m : SuperKernelBaseNode) : SplitState :=
  { st with currentScopeBitFlags := m.scopeBitFlags, nodeHeap := st.nodeHeap.reset }

variable (g) in
/-- The heap of the round is filled from seed `m`; `st'` is the state after
`InitNodeHeap`. -/
def Filled (fuel : ℕ) (order : List StreamIdx) (st : SplitState) (m : SuperKernelBaseNode)
    (st' : SplitState) : Prop :=
  findMinNode g order st = some m ∧ tryAddNodesToHeap g fuel order (seeded st m) = some st'

variable (g) in
/-- One round of the main loop builds `scope`. -/
def RoundStep (fuel : ℕ) (order : List StreamIdx) (st : SplitState) (scope : SuperKernelScopeInfo)
    (st' : SplitState) : Prop :=
  ∃ m st₁ st₂, Filled g fuel order st m st₁ ∧ st₁.nodeHeap.empty = false ∧
    buildCurrentScope g fuel st₁ = some (scope, st₂) ∧
    resetStreamStates g fuel order st₂ = some st'

variable (g) in
/-- The main loop stops here: there is no seed, or no head is ready. -/
def RunEnds (fuel : ℕ) (order : List StreamIdx) (st : SplitState) : Prop :=
  findMinNode g order st = none ∨ ∃ m st₁, Filled g fuel order st m st₁ ∧ st₁.nodeHeap.empty = true

theorem determine_eq (order : List StreamIdx) (st : SplitState) :
    determineCurrentScopeBitFlags g order st
      = (findMinNode g order st).map fun m => { st with currentScopeBitFlags := m.scopeBitFlags } :=
  rfl

/-- A stream at rest is suspended, or its head is fusible. -/
theorem RoundOk.heads (hr : RoundOk g st) (i : StreamIdx) : st.isSuspended i = true ∨
    ∀ n, st.cur i = some n.nodeId → g.getNodeById n.nodeId = some n → n.isFusible = true := by
  cases hr.skip.settled i (Set.notMem_empty i) with
  | ended hc =>
    refine .inr fun n hn => ?_
    simp [hc] at hn
  | @fusible c k hc hk hf hs =>
    refine .inr fun n hn hget => ?_
    have hid : c = n.nodeId := some.inj (hc.symm.trans hn)
    have hkn : k = n := some.inj ((hid ▸ hk).symm.trans hget)
    exact hkn ▸ hf
  | blocked hc hn hwait hf hnotify hy hs hfor hnot => exact .inl hs

/-- Filling the heap starts the build phase. -/
theorem RoundOk.seeded (hr : RoundOk g st) (m : SuperKernelBaseNode) :
    BuildOk g (seeded st m) ∧ buildPotential g (SuperKernel.seeded st m)
      ≤ 2 * g.nodes.length + g.streamNum := by
  have hframe : ∀ i, (SuperKernel.seeded st m).cur i = st.cur i := fun _ => rfl
  have ht := hr.skip.tracks
  refine ⟨⟨ht.congr hframe ht.visited ht.processed, ?_, SkCandidateHeap.consistent_reset _ _,
    hr.skip.waiting⟩, ?_⟩
  · intro id hid
    exact absurd hid not_mem_nil
  · have hundone := ncard_undoneNodes_le (g := g) (SuperKernel.seeded st m)
    have hsusp := ncard_suspendedStreams_le (g := g) (SuperKernel.seeded st m)
    unfold buildPotential
    show _ + 0 + _ ≤ _
    omega

/-- A filled heap holds exactly the ready heads. -/
theorem Filled.spec (hg : g.WellFormed) (hr : RoundOk g st) (h : Filled g fuel order st m st') :
    BuildOk g st' ∧ BuildFrame (seeded st m) st' ∧
      st'.visitedNotifies = st.visitedNotifies ∧
      buildPotential g st' ≤ 2 * g.nodes.length + g.streamNum + order.length ∧
      (∀ id ∈ st'.nodeHeap.ids, ∃ i ∈ order, ∃ n, n.nodeId = id ∧
        ReadyHead g (seeded st m) i n) ∧
      ∀ i ∈ order, ∀ n, ReadyHead g (seeded st m) i n → n.nodeId ∈ st'.nodeHeap.ids := by
  rcases hr.seeded m with ⟨hok, hpot⟩
  rcases tryAddNodesToHeap_spec hg hok h.2 with ⟨hok', hframe, hvisited, hpot', hids⟩
  refine ⟨hok', hframe, hvisited, by omega, fun id hid => ?_, (tryAddNodesToHeap_ids hg hok h.2).2⟩
  exact (hids id hid).resolve_left not_mem_nil

/-- A seed always fills the heap. -/
theorem exists_filled (hg : g.WellFormed) (hfuel : 0 < fuel) (hr : RoundOk g st)
    (hm : findMinNode g order st = some m) : ∃ st', Filled g fuel order st m st' := by
  have hsome := tryAddNodesToHeap_isSome hg hfuel order (hr.seeded m).1 hr.heads
  rcases isSome_iff_exists.mp hsome with ⟨st', hst'⟩
  exact ⟨st', hm, hst'⟩

/-- The open scope at the start of the build loop is empty. -/
theorem openScope_inv (hok : BuildOk g st) : BuildInv g (openScope st) := by
  have hframe : ∀ i, (openScope st).cur i = st.cur i := fun _ => rfl
  refine ⟨⟨hok.tracks.congr hframe hok.tracks.visited hok.tracks.processed, ?_, hok.consistent,
    hok.waiting⟩, _, ⟨rfl, ⟨by simp, by simp, rfl, fun i => by simp [SuperKernelScopeInfo.nodesOn]⟩,
    rfl, by simp, by simp [SuperKernelScopeInfo.nodesOn]⟩⟩
  intro id hid
  rcases hok.heap id hid with hp | ⟨n, hn, hcand⟩
  · exact .inl hp
  · refine .inr ⟨n, hn, hcand.get, hcand.head, hcand.fusible, hcand.flags, ?_⟩
    rw [doneSet_congr hframe]
    exact hcand.wait

/-- What building a scope amounts to. -/
theorem buildCurrentScope_eq (h : buildCurrentScope g fuel st = some (scope, st')) :
    ∃ s, PopSteps g fuel (openScope st) s ∧ s.nodeHeap.pop g = none ∧
      s.currentScope = some scope ∧ st' = { s with currentScope := none } := by
  unfold buildCurrentScope at h
  split at h
  · simp at h
  · next s hloop =>
    rcases buildLoop_steps hloop with ⟨hsteps, hempty⟩
    rcases map_eq_some_iff.mp h with ⟨sc, hsc, heq⟩
    rw [Prod.mk.injEq] at heq
    exact ⟨s, hsteps, hempty, heq.1 ▸ hsc, heq.2.symm⟩

theorem buildCurrentScope_isSome (hg : g.WellFormed) (hok : BuildOk g st)
    (hfuel : buildPotential g st < fuel) : (buildCurrentScope g fuel st).isSome := by
  have hi := openScope_inv hok
  have hpot : buildPotential g (openScope st) = buildPotential g st := rfl
  have hpos : 0 < fuel := by omega
  have hsome := buildLoop_isSome hg hpos hi (hpot ▸ hfuel)
  rcases isSome_iff_exists.mp hsome with ⟨s, hloop⟩
  rcases (PopSteps.inv hg hi (buildLoop_steps hloop).1).1.built with ⟨scope, hbuilt⟩
  unfold buildCurrentScope
  rw [hloop]
  dsimp only
  rw [hbuilt.is_open]
  rfl

/-- The finished scopes after a round; an empty scope is dropped. -/
def addScope (scopes : List SuperKernelScopeInfo) (scope : SuperKernelScopeInfo) :
    List SuperKernelScopeInfo :=
  if scope.nodes.isEmpty then scopes else scopes ++ [scope]

/-- A round opens a batch, emits the nodes of its scope, closes the batch and skips. -/
theorem RoundStep.spec (hg : g.WellFormed) (horder : order.Perm (range g.streamNum))
    (hr : RoundOk g st) (h : RoundStep g fuel order st scope st') :
    RoundOk g st' ∧ ScopeOk g scope ∧ (∀ n ∈ scope.nodes, n.scopeBitFlags = scope.scopeBitFlags) ∧
      ∀ scopes : List SuperKernelScopeInfo, BatchSteps g.HbEdge (Fusible g)
        (batchState g [] (scopes.map (·.nodeIds)) st)
        (batchState g [] ((addScope scopes scope).map (·.nodeIds)) st') := by
  rcases h with ⟨m, st₁, st₂, hfill, _, hbuild, hreset⟩
  rcases hfill.spec hg hr with ⟨hok₁, hframe₁, _⟩
  rcases buildCurrentScope_eq hbuild with ⟨s, hsteps, _, hscope, rfl⟩
  have hinv := PopSteps.inv hg (openScope_inv hok₁) hsteps
  rcases hinv with ⟨⟨hok₂, scope', hbuilt⟩, _, hbatch⟩
  have hsame : scope' = scope := some.inj (hbuilt.is_open.symm.trans hscope)
  subst hsame
  have hcur : ∀ i, ({ s with currentScope := none } : SplitState).cur i = s.cur i := fun _ => rfl
  have ht : Tracks g [] { s with currentScope := none } :=
    hok₂.tracks.congr hcur hok₂.tracks.visited hok₂.tracks.processed
  rcases resetStreamStates_spec hg horder ht rfl hreset with ⟨hr', _, hskip⟩
  refine ⟨hr', hbuilt.ok, fun n hn => (hbuilt.node_flags n hn).trans hbuilt.flags.symm,
    fun scopes => ?_⟩
  have hdone₁ : doneSet g [] st₁ = doneSet g [] st := hframe₁.doneSet_eq
  have hdone₂ : doneSet g [] ({ s with currentScope := none } : SplitState) = doneSet g [] s :=
    doneSet_congr hcur
  -- open, build, close, skip
  have hstart : BatchStep g.HbEdge (Fusible g) (batchState g [] (scopes.map (·.nodeIds)) st)
      (batchState g [] (scopes.map (·.nodeIds)) (openScope st₁)) := by
    have heq : batchState g [] (scopes.map (·.nodeIds)) (openScope st₁)
        = { batchState g [] (scopes.map (·.nodeIds)) st with current := some [] } := by
      unfold batchState
      rw [← hdone₁]
      rfl
    rw [heq]
    exact .start (by simp [batchState, hr.skip.no_scope])
  have hclose : BatchStep g.HbEdge (Fusible g) (batchState g [] (scopes.map (·.nodeIds)) s)
      (batchState g [] ((addScope scopes scope').map (·.nodeIds))
        { s with currentScope := none }) := by
    have hcurrent : (batchState g [] (scopes.map (·.nodeIds)) s).current = some scope'.nodeIds := by
      simp [batchState, hbuilt.is_open]
    unfold addScope
    split
    · next hempty =>
      have hnil : scope'.nodeIds = [] := by
        simpa [SuperKernelScopeInfo.nodeIds] using hempty
      have heq : batchState g [] (scopes.map (·.nodeIds)) { s with currentScope := none }
          = { batchState g [] (scopes.map (·.nodeIds)) s with current := none } := by
        unfold batchState
        rw [hdone₂]
        rfl
      rw [heq]
      exact .discard (hnil ▸ hcurrent)
    · have heq : batchState g [] ((scopes ++ [scope']).map (·.nodeIds)) { s with currentScope := none }
          = { batchState g [] (scopes.map (·.nodeIds)) s with
              closed := scopes.map (·.nodeIds) ++ [scope'.nodeIds], current := none } := by
        unfold batchState
        rw [hdone₂, map_append]
        rfl
      rw [heq]
      exact .close hcurrent
  exact ((ReflTransGen.single hstart).trans (hbatch _)).trans
    ((ReflTransGen.single hclose).trans (hskip _))

/-! ## The main loop -/

theorem runLoop_succ (k : ℕ) (st : SplitState) (scopes : List SuperKernelScopeInfo)
    {res : List SuperKernelScopeInfo} (hrun : runLoop g fuel order (k + 1) st scopes = some res) :
    (RunEnds g fuel order st ∧ res = scopes) ∨ ∃ scope st', RoundStep g fuel order st scope st' ∧
      runLoop g fuel order k st' (addScope scopes scope) = some res := by
  rw [runLoop, determine_eq] at hrun
  cases hm : findMinNode g order st with
  | none =>
    rw [hm] at hrun
    exact .inl ⟨.inl hm, (some.inj hrun).symm⟩
  | some m =>
    rw [hm] at hrun
    dsimp only [map_some] at hrun
    split at hrun
    · simp at hrun
    · next st₁ hinit =>
      have hfill : Filled g fuel order st m st₁ := ⟨hm, hinit⟩
      split at hrun
      · next hempty => exact .inl ⟨.inr ⟨m, st₁, hfill, hempty⟩, (some.inj hrun).symm⟩
      · next hempty =>
        split at hrun
        · simp at hrun
        · next scope st₂ hbuild =>
          split at hrun
          · simp at hrun
          · next st₃ hreset =>
            exact .inr ⟨scope, st₃, ⟨m, st₁, st₂, hfill, by simpa using hempty, hbuild, hreset⟩,
              hrun⟩

/-- A run of the main loop: rounds from `st` to a state where the loop ends. -/
theorem runLoop_spec (hg : g.WellFormed) (horder : order.Perm (range g.streamNum)) {k : ℕ}
    {scopes res : List SuperKernelScopeInfo} (hr : RoundOk g st)
    (hrun : runLoop g fuel order k st scopes = some res) :
    ∃ st', ReflTransGen (fun s s' => ∃ scope, RoundStep g fuel order s scope s') st st' ∧
      RunEnds g fuel order st' ∧ RoundOk g st' ∧
      BatchSteps g.HbEdge (Fusible g) (batchState g [] (scopes.map (·.nodeIds)) st)
        (batchState g [] (res.map (·.nodeIds)) st') ∧
      ∀ scope ∈ res, scope ∈ scopes ∨
        ScopeOk g scope ∧ ∀ n ∈ scope.nodes, n.scopeBitFlags = scope.scopeBitFlags := by
  induction k generalizing st scopes with
  | zero => simp [runLoop] at hrun
  | succ k ih =>
    rcases runLoop_succ k st scopes hrun with ⟨hends, rfl⟩ | ⟨scope, st₁, hstep, hrest⟩
    · exact ⟨st, .refl, hends, hr, .refl, fun sc hsc => .inl hsc⟩
    rcases hstep.spec hg horder hr with ⟨hr₁, hok, hflags, hbatch₁⟩
    rcases ih hr₁ hrest with ⟨st', hsteps, hends, hr', hbatch, hscopes⟩
    refine ⟨st', hsteps.head ⟨scope, hstep⟩, hends, hr', (hbatch₁ scopes).trans hbatch,
      fun sc hsc => ?_⟩
    rcases hscopes sc hsc with hmem | hgood
    · unfold addScope at hmem
      split at hmem
      · exact .inl hmem
      · rcases mem_append.mp hmem with hmem | hmem
        · exact .inl hmem
        · have heq : sc = scope := by simpa using hmem
          subst heq
          exact .inr ⟨hok, hflags⟩
    · exact .inr hgood

/-! ## The whole pass -/

variable {heapType : SkHeapType} {scopes : List SuperKernelScopeInfo}

/-- A run of the pass is a run of the batch scheduler that emits its scopes. -/
theorem initialScopeSplitPass_spec (hg : g.WellFormed) (horder : order.Perm (range g.streamNum))
    (hrun : initialScopeSplitPass g heapType order fuel = some scopes) :
    ∃ st, BatchSteps g.HbEdge (Fusible g) { done := ∅ }
        (batchState g [] (scopes.map (·.nodeIds)) st) ∧ st.currentScope = none ∧
      ∀ scope ∈ scopes,
        ScopeOk g scope ∧ ∀ n ∈ scope.nodes, n.scopeBitFlags = scope.scopeBitFlags := by
  unfold initialScopeSplitPass at hrun
  split at hrun
  · simp at hrun
  · next st₀ hinit =>
    rcases initSplitState_spec hg horder hinit with ⟨_, hr, _, hsteps⟩
    rcases runLoop_spec hg horder hr hrun with ⟨st, _, _, hr', hsteps', hscopes⟩
    refine ⟨st, hsteps.trans hsteps', hr'.skip.no_scope, fun scope hscope => ?_⟩
    exact (hscopes scope hscope).resolve_left not_mem_nil

theorem initialScopeSplitPass_inv (hg : g.WellFormed) (horder : order.Perm (range g.streamNum))
    (hrun : initialScopeSplitPass g heapType order fuel = some scopes) :
    LinearExtension g.HbEdge (Fusible g) (scopes.map (·.nodeIds)) := by
  rcases initialScopeSplitPass_spec hg horder hrun with ⟨st, hsteps, hclosed, _⟩
  have hlinear := (BatchInv.init.steps hsteps).linear
  have hbatches : (batchState g [] (scopes.map (·.nodeIds)) st).batches
      = scopes.map (·.nodeIds) := by
    simp [BatchState.batches, batchState, hclosed]
  exact hbatches ▸ hlinear

/-- The scopes are a linear extension of happens-before: a node stands in its scope
list after everything that happens before it, in a strictly later scope when an
unfusible node lies between, so contracting the scopes leaves no cycle. -/
theorem initialScopeSplitPass_linearExtension (hg : g.WellFormed)
    (horder : order.Perm (range g.streamNum))
    (hrun : initialScopeSplitPass g heapType order fuel = some scopes) :
    (∀ i p j q y x, StandsAt (scopes.map (·.nodeIds)) i p y →
      StandsAt (scopes.map (·.nodeIds)) j q x → g.HappensBefore y x →
      (i < j ∨ i = j ∧ p < q) ∧
      ∀ u, ¬ Fusible g u → g.HappensBefore y u → g.HappensBefore u x → i < j) ∧
    ∀ i, ¬ TransGen (BatchDep g.HbEdge (scopes.map (·.nodeIds))) i i := by
  have hlinear := initialScopeSplitPass_inv hg horder hrun
  refine ⟨?_, hlinear.batchDep_acyclic⟩
  intro i p j q y x hy hx hdep
  refine ⟨hlinear.lt_of_dep hy hx hdep, ?_⟩
  intro u hu hyu hux
  exact hlinear.lt_of_barrier hy hx hu hyu hux

/-- Two streams: a kernel and an unfusible NOTIFY, and a WAIT for it and a kernel. -/
def sampleGraph : SuperKernelGraph where
  nodes :=
    [{ nodeId := 0, streamIdxInGraph := 0, nodeIdxInStream := 0, nextNodeId := some 1,
       nodeType := .nodeKernel, isFusible := true },
     { nodeId := 1, streamIdxInGraph := 0, nodeIdxInStream := 1, preNodeId := some 0,
       nodeType := .nodeNotify,
       syncInfos := { eventId := some 7, correspondingWaitNodeIds := [2] } },
     { nodeId := 2, streamIdxInGraph := 1, nodeIdxInStream := 0, nextNodeId := some 3,
       nodeType := .nodeWait, isFusible := true,
       syncInfos := { eventId := some 7, correspondingNotifyNodeId := some 1 } },
     { nodeId := 3, streamIdxInGraph := 1, nodeIdxInStream := 1, preNodeId := some 2,
       nodeType := .nodeKernel, isFusible := true }]
  eventToNodes := [(7, { notifyNodeId := some 1, waitNodeIdList := [2] })]
  headNodes := [0, 2]
  streamNum := 2

theorem sampleGraph_wellFormed : sampleGraph.WellFormed := by
  constructor <;> decide

theorem initialScopeSplitPass_linearExtension_sample :
    ∃ scopes, initialScopeSplitPass sampleGraph .customizeQueue [1, 0] 20 = some scopes ∧
      scopes.map (·.nodeIds) = [[0], [2, 3]] ∧
      ∀ i, ¬ TransGen (BatchDep sampleGraph.HbEdge (scopes.map (·.nodeIds))) i i := by
  have hsome : (initialScopeSplitPass sampleGraph .customizeQueue [1, 0] 20).map
      (·.map (·.nodeIds)) = some [[0], [2, 3]] := by decide +kernel
  rcases Option.map_eq_some_iff.mp hsome with ⟨scopes, hrun, hids⟩
  exact ⟨scopes, hrun, hids,
    (initialScopeSplitPass_linearExtension sampleGraph_wellFormed (by decide) hrun).2⟩

end GraphAutofusion.SuperKernel
