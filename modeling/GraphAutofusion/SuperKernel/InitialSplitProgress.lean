import GraphAutofusion.SuperKernel.InitialSplitRun

/-!
# SuperKernel.InitialSplitProgress — termination and completeness of the split pass

Every round with a non-empty heap handles a node, so the pass terminates. When it
stops without a seed and the graph is acyclic, every node has been handled: a
stream that is not at its end would be blocked on a NOTIFY whose predecessors are
handled. The pass loses nodes exactly when a seed leaves the heap empty, because
no ready head has the flags of the smallest active head.
-/

namespace GraphAutofusion.SuperKernel

open Relation Lib SuperKernelGraph List Option

variable (g : SuperKernelGraph) (heapType : SkHeapType) (fuel : ℕ) (order : List StreamIdx)

/-- Enough fuel for every loop of the pass. -/
def splitFuel : ℕ := 2 * (g.nodes.length + g.streamNum) + 1

/-- The states at the top of the main loop in a run of the pass. -/
def RoundState (st : SplitState) : Prop :=
  ∃ st₀, initSplitState g heapType fuel order = some st₀ ∧
    ReflTransGen (fun s s' => ∃ scope, RoundStep g fuel order s scope s') st₀ st

/-- No RESET is placed while a WAIT on its event is unprocessed. -/
def ResetsSafe : Prop :=
  ∀ st, RoundState g heapType fuel order st → ∀ m st₁ s, Filled g fuel order st m st₁ →
    PopSteps g fuel (openScope st₁) s → PopSafe g s

/-- Some head is ready for the seed's round: it is active, has the seed's flags,
and does not wait for an unvisited NOTIFY. -/
def SeedReady (st : SplitState) : Prop :=
  ∀ m, findMinNode g order st = some m → ∃ i ∈ order, ∃ n, ActiveHead g st i n ∧
    n.scopeBitFlags = m.scopeBitFlags ∧ (n.nodeType = .nodeWait →
      ∀ y ∈ n.syncInfos.correspondingNotifyNodeId, y ∈ st.visitedNotifies)

/-- Every fusible node stands in exactly one place, and every scope holds fusible
nodes with its own flags. -/
structure Complete (scopes : List SuperKernelScopeInfo) : Prop where
  once : ∀ n ∈ g.nodes, n.isFusible = true →
    (scopes.flatMap (·.nodeIds)).count n.nodeId = 1
  only : ∀ scope ∈ scopes, ∀ n ∈ scope.nodes,
    n ∈ g.nodes ∧ n.isFusible = true ∧ n.scopeBitFlags = scope.scopeBitFlags

variable {g heapType fuel order} {st st' : SplitState} {m : SuperKernelBaseNode}
  {scope scope' : SuperKernelScopeInfo} {scopes : List SuperKernelScopeInfo}

theorem undoneNodes_eq (hg : g.WellFormed) (st : SplitState) :
    undoneNodes g st = { n | n ∈ g.nodes ∧ n.nodeId ∉ doneSet g [] st } := by
  ext n
  simp only [undoneNodes, doneSet, not_mem_nil, or_false, Set.mem_ofPred_eq]
  refine and_congr_right fun hn => not_congr ?_
  constructor
  · intro hpassed
    exact ⟨n, hg.getNodeById_of_mem hn, hpassed⟩
  · rintro ⟨k, hk, hpassed⟩
    have heq : n = k := some.inj ((hg.getNodeById_of_mem hn).symm.trans hk)
    exact heq ▸ hpassed

/-! ## Rounds make progress -/

/-- A round with a non-empty heap handles at least one node. -/
theorem RoundStep.undone_lt (hg : g.WellFormed) (horder : order.Perm (range g.streamNum))
    (hr : RoundOk g st) (h : RoundStep g fuel order st scope st') :
    (undoneNodes g st').ncard < (undoneNodes g st).ncard := by
  have hsub : doneSet g [] st ⊆ doneSet g [] st' := ((h.spec hg horder hr).2.2.2 []).done_subset
  rcases h with ⟨m, st₁, st₂, hfill, hne, hbuild, hreset⟩
  rcases hfill.spec hg hr with ⟨hok₁, hframe₁, _, _, hids, _⟩
  rcases buildCurrentScope_eq hbuild with ⟨s, hsteps, hempty, _, rfl⟩
  have hinv := openScope_inv hok₁
  -- the first pop takes the head of a stream
  rcases ReflTransGen.cases_head hsteps with rfl | ⟨s₁, hfirst, hrest⟩
  · have hnil := SkCandidateHeap.ids_eq_nil_of_pop hok₁.consistent hempty
    have htrue := (SkCandidateHeap.empty_iff hok₁.consistent).mpr hnil
    simp [hne] at htrue
  rcases hfirst.spec hg hinv with ⟨hinv₁, _, _, _, hplaced, _⟩
  rcases hfirst with ⟨id, heap, hpop, _⟩
  rcases hids id (SkCandidateHeap.pop_spec hpop).1 with ⟨i, _, n, rfl, hready⟩
  rcases PopSteps.inv hg hinv₁ hrest with ⟨hinv₂, _, hbatch⟩
  have hmem : n.nodeId ∈ doneSet g [] s := (hbatch []).done_subset (hplaced _ _ hpop)
  have hcur : ∀ j, ({ s with currentScope := none } : SplitState).cur j = s.cur j := fun _ => rfl
  have ht : Tracks g [] { s with currentScope := none } :=
    hinv₂.ok.tracks.congr hcur hinv₂.ok.tracks.visited hinv₂.ok.tracks.processed
  rcases resetStreamStates_spec hg horder ht rfl hreset with ⟨_, _, hskip⟩
  have hmem' : n.nodeId ∈ doneSet g [] st' := by
    apply (hskip []).done_subset
    show n.nodeId ∈ doneSet g [] ({ s with currentScope := none } : SplitState)
    rw [doneSet_congr hcur]
    exact hmem
  have hnot : n.nodeId ∉ doneSet g [] st := by
    rcases hr.skip.tracks.cur_valid i n.nodeId hready.head with ⟨k, hk, hki⟩
    exact not_mem_doneSet_cur hready.head hk hki not_mem_nil
  refine Set.ncard_lt_ncard ?_ (finite_undoneNodes st)
  rw [undoneNodes_eq hg, undoneNodes_eq hg]
  refine ⟨fun k hk => ⟨hk.1, fun h => hk.2 (hsub h)⟩, fun hsubset => ?_⟩
  exact (hsubset ⟨(getNodeById_some hready.get).1, hnot⟩).2 hmem'

/-- While RESETs are safe, handled NOTIFYs stay signalled. -/
theorem RoundStep.signalled (hg : g.WellFormed) (horder : order.Perm (range g.streamNum))
    (hr : RoundOk g st) (hs : Signalled g [] st)
    (hsafe : ∀ m st₁ s, Filled g fuel order st m st₁ → PopSteps g fuel (openScope st₁) s →
      PopSafe g s) (h : RoundStep g fuel order st scope st') : Signalled g [] st' := by
  rcases h with ⟨m, st₁, st₂, hfill, _, hbuild, hreset⟩
  rcases hfill.spec hg hr with ⟨hok₁, hframe₁, hvisited₁, _⟩
  rcases buildCurrentScope_eq hbuild with ⟨s, hsteps, _, _, rfl⟩
  have hs₁ : Signalled g [] (openScope st₁) := by
    have hdone : doneSet g [] (openScope st₁) = doneSet g [] st := doneSet_congr hframe₁.cur
    have hvisited : (openScope st₁).visitedNotifies = st.visitedNotifies := hvisited₁
    unfold Signalled
    rw [hdone, hvisited]
    exact hs
  have hinv := openScope_inv hok₁
  have hs₂ := PopSteps.signalled hg hinv hs₁ (fun s' hs' => hsafe m st₁ s' hfill hs') hsteps
  have hok₂ := (PopSteps.inv hg hinv hsteps).1.ok
  have hcur : ∀ j, ({ s with currentScope := none } : SplitState).cur j = s.cur j := fun _ => rfl
  have ht : Tracks g [] { s with currentScope := none } :=
    hok₂.tracks.congr hcur hok₂.tracks.visited hok₂.tracks.processed
  have hs₃ : Signalled g [] ({ s with currentScope := none } : SplitState) := by
    unfold Signalled
    rw [doneSet_congr hcur]
    exact hs₂
  exact (resetStreamStates_spec hg horder ht rfl hreset).2.1 hs₃

/-- A round is determined by the state it starts in. -/
theorem RoundStep.unique {st'' : SplitState} (h : RoundStep g fuel order st scope st')
    (h' : RoundStep g fuel order st scope' st'') : st'' = st' := by
  rcases h with ⟨m, st₁, st₂, ⟨hm, hfill⟩, _, hbuild, hreset⟩
  rcases h' with ⟨m', st₁', st₂', ⟨hm', hfill'⟩, _, hbuild', hreset'⟩
  obtain rfl : m = m' := some.inj (hm.symm.trans hm')
  obtain rfl : st₁ = st₁' := some.inj (hfill.symm.trans hfill')
  rw [hbuild, some.injEq, Prod.mk.injEq] at hbuild'
  rw [← hbuild'.2, hreset] at hreset'
  exact (some.inj hreset').symm

/-- A state in which the main loop ends starts no round. -/
theorem RunEnds.no_round (hends : RunEnds g fuel order st)
    (h : RoundStep g fuel order st scope st') : False := by
  rcases h with ⟨m, st₁, st₂, ⟨hm, hfill⟩, hne, _⟩
  rcases hends with hnone | ⟨m', st₁', ⟨hm', hfill'⟩, hempty⟩
  · simp [hnone] at hm
  · obtain rfl : m = m' := some.inj (hm.symm.trans hm')
    obtain rfl : st₁ = st₁' := some.inj (hfill.symm.trans hfill')
    simp [hne] at hempty

/-- With enough fuel the main loop returns. -/
theorem runLoop_isSome (hg : g.WellFormed) (horder : order.Perm (range g.streamNum))
    (hfuel : splitFuel g ≤ fuel) {k : ℕ} (hr : RoundOk g st) (hk : (undoneNodes g st).ncard < k)
    (scopes : List SuperKernelScopeInfo) : (runLoop g fuel order k st scopes).isSome := by
  induction k generalizing st scopes with
  | zero => omega
  | succ k ih =>
    unfold splitFuel at hfuel
    have hlen : order.length = g.streamNum := by
      rw [horder.length_eq, length_range]
    rw [runLoop, determine_eq]
    cases hm : findMinNode g order st with
    | none => rfl
    | some m =>
      have hpos : 0 < fuel := by omega
      rcases exists_filled hg hpos hr hm with ⟨st₁, hfill⟩
      have hinit : initNodeHeap g fuel order { st with currentScopeBitFlags := m.scopeBitFlags }
          = some st₁ := hfill.2
      rcases hfill.spec hg hr with ⟨hok₁, _, _, hpot₁, _⟩
      dsimp only [map_some]
      rw [hinit]
      dsimp only
      split
      · rfl
      · next hne =>
        have hbuildSome : (buildCurrentScope g fuel st₁).isSome :=
          buildCurrentScope_isSome hg hok₁ (by omega)
        rcases isSome_iff_exists.mp hbuildSome with ⟨⟨scope, st₂⟩, hbuild⟩
        rw [hbuild]
        dsimp only
        rcases buildCurrentScope_eq hbuild with ⟨s, hsteps, _, _, rfl⟩
        have hok₂ := (PopSteps.inv hg (openScope_inv hok₁) hsteps).1.ok
        have ht : Tracks g [] { s with currentScope := none } :=
          hok₂.tracks.congr (fun _ => rfl) hok₂.tracks.visited hok₂.tracks.processed
        have hresetSome : (resetStreamStates g fuel order
            { s with currentScope := none }).isSome :=
          resetStreamStates_isSome hg (by omega) horder ht rfl
        rcases isSome_iff_exists.mp hresetSome with ⟨st₃, hreset⟩
        rw [hreset]
        have hround : RoundStep g fuel order st scope st₃ :=
          ⟨m, st₁, _, hfill, by simpa using hne, hbuild, hreset⟩
        have hlt := hround.undone_lt hg horder hr
        exact ih (hround.spec hg horder hr).1 (by omega) _

/-! ## Nothing is left without a seed -/

/-- Without a seed every node of an acyclic graph is handled. -/
theorem all_done_of_no_seed (hg : g.WellFormed) (horder : order.Perm (range g.streamNum))
    (hacyclic : ∀ x, ¬ g.HappensBefore x x) (hr : RoundOk g st) (hs : Signalled g [] st)
    (hnone : findMinNode g order st = none) {n : SuperKernelBaseNode} (hn : n ∈ g.nodes) :
    n.nodeId ∈ doneSet g [] st := by
  by_contra hnot
  have hfin : ((fun k : SuperKernelBaseNode => k.nodeId) '' undoneNodes g st).Finite :=
    (finite_undoneNodes st).image _
  have hundone : n ∈ undoneNodes g st := by
    rw [undoneNodes_eq hg]
    exact ⟨hn, hnot⟩
  rcases exists_ready_of_acyclic hacyclic hfin ⟨n.nodeId, n, hundone, rfl⟩
    with ⟨x, ⟨k, hk, rfl⟩, hready⟩
  have hkmem := hk.1
  have hget := hg.getNodeById_of_mem hkmem
  -- everything the minimal node `k` depends on is handled
  have hpreds : ∀ y, g.HbEdge y k.nodeId → y ∈ doneSet g [] st := by
    intro y hedge
    have hnode : ∃ z, g.getNodeById y = some z := by
      cases hedge with
      | @stream z hz _ => exact ⟨z, hz⟩
      | @event z hz hwait hnotify =>
        rcases hg.wait_notify (getNodeById_some hz).1 hwait hnotify with ⟨z', hz', _⟩
        exact ⟨z', hz'⟩
    rcases hnode with ⟨z, hz⟩
    by_contra hy
    refine hready y hedge ⟨z, ?_, (getNodeById_some hz).2⟩
    rw [undoneNodes_eq hg]
    exact ⟨(getNodeById_some hz).1, (getNodeById_some hz).2.symm ▸ hy⟩
  have hmem : k.streamIdxInGraph ∈ order :=
    horder.mem_iff.mpr (mem_range.mpr (hg.stream_lt k hkmem))
  -- so its stream stands at it
  have hhead : ∀ c p, st.cur k.streamIdxInGraph = some c → g.getNodeById c = some p →
      p.streamIdxInGraph = k.streamIdxInGraph → p = k := by
    intro c p hc hp hps
    have hle : p.nodeIdxInStream ≤ k.nodeIdxInStream := by
      by_contra hlt
      refine hk.2 fun c' hc' p' hp' => ?_
      have hcc : c' = c := some.inj (hc'.symm.trans hc)
      have hpp : p' = p := some.inj (hp'.symm.trans (hcc ▸ hp))
      exact hpp ▸ Nat.lt_of_not_le hlt
    rcases lt_or_eq_of_le hle with hlt | heq
    · rcases hg.exists_at_idx hkmem (k := k.nodeIdxInStream - 1) (by omega)
        with ⟨q, hq, hqs, hqidx⟩
      have hnext := hg.next_eq hq hkmem hqs.symm (by omega)
      rcases hpreds q.nodeId (.stream (hg.getNodeById_of_mem hq) hnext) with ⟨q', hq', hpassed⟩
      have hqq : q = q' := some.inj ((hg.getNodeById_of_mem hq).symm.trans hq')
      have hcur : st.cur q.streamIdxInGraph = some c := by rw [hqs, hc]
      have hltq := (hpassed.resolve_right not_mem_nil) c (hqq ▸ hcur) p hp
      rw [← hqq] at hltq
      omega
    · exact hg.eq_of_idx (getNodeById_some hp).1 hkmem hps heq
  cases hr.skip.settled k.streamIdxInGraph (Set.notMem_empty _) with
  | ended hc =>
    refine hk.2 fun c hc' => ?_
    simp [hc] at hc'
  | @fusible c p hc hp hf hsusp =>
    rcases hr.skip.tracks.cur_valid _ c hc with ⟨p', hp', hps⟩
    have hpp : p = p' := some.inj (hp.symm.trans hp')
    have hpk := hhead c p hc hp (hpp ▸ hps)
    subst hpk
    refine findMinNode_none hnone hmem (n := p) ⟨hget, ?_, hr.active _, hsusp, hf⟩
    rw [hc, (getNodeById_some hp).2]
  | @blocked c y p yn hc hp hwait hf hnotify hy hsusp hfor hnot' =>
    rcases hr.skip.tracks.cur_valid _ c hc with ⟨p', hp', hps⟩
    have hpp : p = p' := some.inj (hp.symm.trans hp')
    have hpk := hhead c p hc hp (hpp ▸ hps)
    subst hpk
    rcases hg.wait_notify hkmem hwait hnotify with ⟨z, hz, hztype, _, hzmem⟩
    have hydone := hpreds y (.event hget hwait hnotify)
    rcases hs y hydone z hz hztype with hv | hall
    · exact hnot'.elim (fun h => h hv) (Set.notMem_empty _)
    · have hkdone := hall _ hzmem
      rw [undoneNodes_eq hg] at hk
      exact hk.2 hkdone

/-! ## Completeness -/

/-- A ready head of the seed's round is what fills the heap. -/
theorem seedReady_iff (hg : g.WellFormed) (hr : RoundOk g st) {st₁ : SplitState}
    (hfill : Filled g fuel order st m st₁) : SeedReady g order st ↔ st₁.nodeHeap.empty = false := by
  rcases hfill.spec hg hr with ⟨hok₁, _, _, _, hids, hpush⟩
  have hempty : st₁.nodeHeap.empty = false ↔ st₁.nodeHeap.ids ≠ [] := by
    rw [← Bool.not_eq_true, SkCandidateHeap.empty_iff hok₁.consistent]
  rw [hempty]
  constructor
  · intro hseed
    rcases hseed m hfill.1 with ⟨i, hi, n, hact, hflags, hwait⟩
    have hready : ReadyHead g (seeded st m) i n :=
      ⟨hact.get, hact.head, hact.active, hact.unsuspended, hact.fusible, hflags, hwait⟩
    exact ne_nil_of_mem (hpush i hi n hready)
  · intro hne k hk
    obtain rfl : m = k := some.inj (hfill.1.symm.trans hk)
    rcases exists_mem_of_ne_nil _ hne with ⟨id, hid⟩
    rcases hids id hid with ⟨i, hi, n, _, hready⟩
    exact ⟨i, hi, n, ⟨hready.get, hready.head, hready.active, hready.unsuspended, hready.fusible⟩,
      hready.flags, hready.wait⟩

/-- The rounds of a run keep the invariants. -/
theorem RoundState.inv (hg : g.WellFormed) (horder : order.Perm (range g.streamNum))
    (hsafe : ResetsSafe g heapType fuel order) (h : RoundState g heapType fuel order st) :
    RoundOk g st ∧ Signalled g [] st := by
  rcases h with ⟨st₀, hinit, hsteps⟩
  rcases initSplitState_spec hg horder hinit with ⟨_, hr₀, hs₀, _⟩
  induction hsteps with
  | refl => exact ⟨hr₀, hs₀⟩
  | @tail s s' hrest hstep ih =>
    rcases ih with ⟨hr, hs⟩
    rcases hstep with ⟨scope, hround⟩
    exact ⟨(hround.spec hg horder hr).1,
      hround.signalled hg horder hr hs (hsafe s ⟨st₀, hinit, hrest⟩)⟩

/-- Every round state is on the way to the end of the run. -/
theorem RoundState.before_end {st_end : SplitState} {st₀ : SplitState}
    (hends : RunEnds g fuel order st_end) (hinit : initSplitState g heapType fuel order = some st₀)
    (hend : ReflTransGen (fun s s' => ∃ scope, RoundStep g fuel order s scope s') st₀ st_end)
    (h : RoundState g heapType fuel order st) :
    st = st_end ∨ ∃ scope s, RoundStep g fuel order st scope s := by
  rcases h with ⟨st₀', hinit', hsteps⟩
  obtain rfl : st₀ = st₀' := some.inj (hinit.symm.trans hinit')
  have hunique : Relator.RightUnique fun s s' => ∃ scope, RoundStep g fuel order s scope s' := by
    rintro a b c ⟨_, hb⟩ ⟨_, hc⟩
    exact (hb.unique hc).symm
  rcases ReflTransGen.total_of_right_unique hunique hsteps hend with hto | hfrom
  · rcases ReflTransGen.cases_head hto with rfl | ⟨s, ⟨scope, hround⟩, _⟩
    · exact .inl rfl
    · exact .inr ⟨scope, s, hround⟩
  · rcases ReflTransGen.cases_head hfrom with rfl | ⟨s, ⟨scope, hround⟩, _⟩
    · exact .inl rfl
    · exact (hends.no_round hround).elim

/-- The emitted nodes are the handled fusible ones. -/
theorem complete_iff (hg : g.WellFormed) {st_end : SplitState}
    (hsteps : BatchSteps g.HbEdge (Fusible g) { done := ∅ }
      (batchState g [] (scopes.map (·.nodeIds)) st_end))
    (hclosed : st_end.currentScope = none)
    (hscopes : ∀ scope ∈ scopes,
      ScopeOk g scope ∧ ∀ n ∈ scope.nodes, n.scopeBitFlags = scope.scopeBitFlags) :
    Complete g scopes ↔
      ∀ n ∈ g.nodes, n.isFusible = true → n.nodeId ∈ doneSet g [] st_end := by
  have hinv := BatchInv.init.steps hsteps
  have hbatches : (batchState g [] (scopes.map (·.nodeIds)) st_end).batches.flatten
      = scopes.flatMap (·.nodeIds) := by
    simp [BatchState.batches, batchState, hclosed, flatMap_def]
  have hnodup : (scopes.flatMap (·.nodeIds)).Nodup := hbatches ▸ hinv.linear.nodup
  have hmem : ∀ n ∈ g.nodes, n.isFusible = true →
      (n.nodeId ∈ scopes.flatMap (·.nodeIds) ↔ n.nodeId ∈ doneSet g [] st_end) := by
    intro n hn hf
    have h := hinv.mem_iff n.nodeId
    rw [hbatches] at h
    rw [h]
    exact and_iff_left ⟨n, hg.getNodeById_of_mem hn, hf⟩
  constructor
  · intro hc n hn hf
    have honce := hc.once n hn hf
    exact (hmem n hn hf).mp (count_pos_iff.mp (by omega))
  · intro hdone
    refine ⟨fun n hn hf => ?_, fun scope hscope n hn => ?_⟩
    · exact count_eq_one_of_mem hnodup ((hmem n hn hf).mpr (hdone n hn hf))
    · rcases hscopes scope hscope with ⟨hok, hflags⟩
      exact ⟨hok.mem n hn, hok.fusible n hn, hflags n hn⟩

/-- The pass returns and places every fusible node exactly once if and only if no
stream is empty and every round finds a ready head with its seed's flags. -/
theorem initialScopeSplitPass_complete_iff (hg : g.WellFormed)
    (horder : order.Perm (range g.streamNum)) (hacyclic : ∀ x, ¬ g.HappensBefore x x)
    (hfuel : splitFuel g ≤ fuel) (hsafe : ResetsSafe g heapType fuel order) :
    (∃ scopes, initialScopeSplitPass g heapType order fuel = some scopes ∧ Complete g scopes) ↔
      g.streamNum ≤ g.headNodes.length ∧
        ∀ st, RoundState g heapType fuel order st → SeedReady g order st := by
  by_cases hlen : g.streamNum ≤ g.headNodes.length
  swap
  · -- an empty stream makes `InitStreamStates` read past the head nodes
    have hnone : initialScopeSplitPass g heapType order fuel = none := by
      unfold initialScopeSplitPass
      rw [initSplitState_none (Nat.not_le.mp hlen)]
    simp [hnone, hlen]
  have hskip : g.nodes.length + g.streamNum < fuel := by
    unfold splitFuel at hfuel
    omega
  have hinitSome : (initSplitState g heapType fuel order).isSome :=
    initSplitState_isSome hg hskip horder hlen
  rcases Option.isSome_iff_exists.mp hinitSome with ⟨st₀, hinit⟩
  rcases initSplitState_spec hg horder hinit with ⟨_, hr₀, _, hsteps₀⟩
  have hundone := ncard_undoneNodes_le (g := g) st₀
  have hloopSome : (runLoop g fuel order fuel st₀ []).isSome :=
    runLoop_isSome hg horder hfuel hr₀ (by omega) []
  rcases Option.isSome_iff_exists.mp hloopSome with ⟨scopes, hloop⟩
  have hrun : initialScopeSplitPass g heapType order fuel = some scopes := by
    unfold initialScopeSplitPass
    rw [hinit]
    exact hloop
  rcases runLoop_spec hg horder hr₀ hloop with ⟨st_end, hrounds, hends, hr_end, hsteps, hscopes⟩
  have hcomplete : Complete g scopes ↔
      ∀ n ∈ g.nodes, n.isFusible = true → n.nodeId ∈ doneSet g [] st_end :=
    complete_iff hg (hsteps₀.trans hsteps) hr_end.skip.no_scope fun scope hscope =>
      (hscopes scope hscope).resolve_left not_mem_nil
  have hend : RoundState g heapType fuel order st_end := ⟨st₀, hinit, hrounds⟩
  have hs_end : Signalled g [] st_end := (RoundState.inv hg horder hsafe hend).2
  have hiff : (∃ scopes, initialScopeSplitPass g heapType order fuel = some scopes ∧
      Complete g scopes) ↔ Complete g scopes := by
    rw [hrun]
    simp
  rw [hiff, hcomplete]
  constructor
  · intro hdone
    refine ⟨hlen, fun st hst => ?_⟩
    rcases RoundState.before_end hends hinit hrounds hst with rfl | ⟨scope, s, hround⟩
    · -- at the end a seed would be a fusible node left behind
      intro m hm
      rcases (findMinNode_some hm).1 with ⟨i, hi, hact⟩
      have hmem := hdone m (getNodeById_some hact.get).1 hact.fusible
      rcases hr_end.skip.tracks.cur_valid i m.nodeId hact.head with ⟨k, hk, hki⟩
      exact absurd hmem (not_mem_doneSet_cur hact.head hk hki not_mem_nil)
    · have hr := (RoundState.inv hg horder hsafe hst).1
      rcases hround with ⟨m, st₁, st₂, hfill, hne, _⟩
      exact (seedReady_iff hg hr hfill).mpr hne
  · rintro ⟨_, hseeds⟩ n hn _
    refine all_done_of_no_seed hg horder hacyclic hr_end hs_end ?_ hn
    rcases hends with hnone | ⟨m, st₁, hfill, hempty⟩
    · exact hnone
    · have hne := (seedReady_iff hg hr_end hfill).mp (hseeds st_end hend)
      simp [hempty] at hne

theorem resetsSafe_of_no_reset (hno : ∀ n ∈ g.nodes, n.nodeType ≠ .nodeReset) :
    ResetsSafe g heapType fuel order := by
  intro _ _ _ _ _ _ _ _ _ n _ hn _ hreset
  exact absurd hreset (hno n (getNodeById_some hn).1)

theorem initialScopeSplitPass_complete_iff_sample :
    (∃ scopes, initialScopeSplitPass sampleGraph .defaultQueue [1, 0] 20 = some scopes ∧
      Complete sampleGraph scopes) ↔ sampleGraph.streamNum ≤ sampleGraph.headNodes.length ∧
        ∀ st, RoundState sampleGraph .defaultQueue 20 [1, 0] st → SeedReady sampleGraph [1, 0] st :=
  initialScopeSplitPass_complete_iff sampleGraph_wellFormed (by decide)
    (acyclic_of_rank id (by decide) (by decide)) (by decide)
    (resetsSafe_of_no_reset (by decide))

/-- Two nested named scopes over two streams. Stream 0 opens the outer scope and waits
for the NOTIFY that stream 1 sends from the inner scope. -/
def lostSeedGraph : SuperKernelGraph where
  nodes :=
    [{ nodeId := 0, streamIdxInGraph := 0, nodeIdxInStream := 0, nextNodeId := some 1,
       nodeType := .nodeKernel, isFusible := true, isScopeNode := true, scopeBitFlags := 1 },
     { nodeId := 1, streamIdxInGraph := 0, nodeIdxInStream := 1, preNodeId := some 0,
       nextNodeId := some 6, nodeType := .nodeWait, isFusible := true, scopeBitFlags := 1,
       syncInfos := { eventId := some 7, correspondingNotifyNodeId := some 4 } },
     { nodeId := 2, streamIdxInGraph := 1, nodeIdxInStream := 0, nextNodeId := some 3,
       nodeType := .nodeKernel, isFusible := true, isScopeNode := true, scopeBitFlags := 3 },
     { nodeId := 3, streamIdxInGraph := 1, nodeIdxInStream := 1, preNodeId := some 2,
       nextNodeId := some 4, nodeType := .nodeKernel, isFusible := true, scopeBitFlags := 3 },
     { nodeId := 4, streamIdxInGraph := 1, nodeIdxInStream := 2, preNodeId := some 3,
       nextNodeId := some 5, nodeType := .nodeNotify, isFusible := true, scopeBitFlags := 3,
       syncInfos := { eventId := some 7, correspondingWaitNodeIds := [1] } },
     { nodeId := 5, streamIdxInGraph := 1, nodeIdxInStream := 3, preNodeId := some 4,
       nodeType := .nodeKernel, isFusible := true, isScopeNode := true, scopeBitFlags := 3 },
     { nodeId := 6, streamIdxInGraph := 0, nodeIdxInStream := 2, preNodeId := some 1,
       nodeType := .nodeKernel, isFusible := true, isScopeNode := true, scopeBitFlags := 1 }]
  eventToNodes := [(7, { notifyNodeId := some 4, waitNodeIdList := [1] })]
  headNodes := [0, 2]
  streamNum := 2

/-- After the scope of node 0 the WAIT is the smallest active head, and no ready head
has its flags: the pass returns and loses the other six nodes. -/
theorem initialScopeSplitPass_loses_nodes :
    lostSeedGraph.WellFormed ∧ (∀ x, ¬ lostSeedGraph.HappensBefore x x) ∧
      (∀ heapType fuel, ResetsSafe lostSeedGraph heapType fuel [0, 1]) ∧
      lostSeedGraph.streamNum ≤ lostSeedGraph.headNodes.length ∧
      splitFuel lostSeedGraph ≤ 20 ∧
      (initialScopeSplitPass lostSeedGraph .priorityQueue [0, 1] 20).map
        (·.map (·.nodeIds)) = some [[0]] ∧
      ¬ ∃ scopes, initialScopeSplitPass lostSeedGraph .priorityQueue [0, 1] 20 = some scopes ∧
        Complete lostSeedGraph scopes := by
  have hids : (initialScopeSplitPass lostSeedGraph .priorityQueue [0, 1] 20).map
      (·.map (·.nodeIds)) = some [[0]] := by decide +kernel
  refine ⟨by constructor <;> decide, ?_, fun _ _ => resetsSafe_of_no_reset (by decide),
    by decide, by decide, hids, ?_⟩
  · exact acyclic_of_rank (fun x => if x = 1 then 6 else if x = 6 then 7 else x) (by decide)
      (by decide)
  · rintro ⟨scopes, hrun, hc⟩
    rw [hrun, Option.map_some, Option.some.injEq] at hids
    have honce := hc.once _ (mem_of_getElem? (i := 1) rfl) rfl
    simp [flatMap_def, hids] at honce

end GraphAutofusion.SuperKernel
