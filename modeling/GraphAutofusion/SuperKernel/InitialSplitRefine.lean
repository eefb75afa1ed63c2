import GraphAutofusion.SuperKernel.InitialSplitBuild

/-!
# SuperKernel.InitialSplitRefine — the split pass refines a batch scheduler

Every pop of the build loop and every round of the main loop is a sequence of
batch scheduler steps over happens-before. So the scopes of a run are a linear
extension of happens-before, and each of them keeps the scope invariant `ScopeOk`.
-/

namespace GraphAutofusion.SuperKernel

open Relation Lib SuperKernelGraph Option List

variable (g : SuperKernelGraph)

/-- The open scope: a valid scope with the current flags that reaches, on each of
its streams, up to the stream's head. -/
structure ScopeBuilt (st : SplitState) (scope : SuperKernelScopeInfo) : Prop where
  is_open : st.currentScope = some scope
  ok : ScopeOk g scope
  flags : scope.scopeBitFlags = st.currentScopeBitFlags
  node_flags : ∀ n ∈ scope.nodes, n.scopeBitFlags = st.currentScopeBitFlags
  tail : ∀ i, ∀ n ∈ (scope.nodesOn i).getLast?, n.nextNodeId = st.cur i

variable {g} {st st' : SplitState} {n : SuperKernelBaseNode} {scope : SuperKernelScopeInfo}

theorem nodesOn_addNode (scope : SuperKernelScopeInfo) (n : SuperKernelBaseNode) (i : StreamIdx) :
    (scope.addNodeWithStreamInfo n).nodesOn i
      = scope.nodesOn i ++ if n.streamIdxInGraph = i then [n] else [] := by
  unfold SuperKernelScopeInfo.nodesOn SuperKernelScopeInfo.addNodeWithStreamInfo
  rw [filter_append]
  congr 1
  by_cases h : n.streamIdxInGraph = i <;> simp [h]

theorem ScopeBuilt.congr (hb : ScopeBuilt g st scope) (hframe : BuildFrame st st') :
    ScopeBuilt g st' scope := by
  refine ⟨hframe.scope.trans hb.is_open, hb.ok, hb.flags.trans hframe.flags.symm, ?_, ?_⟩
  · intro n hn
    exact (hb.node_flags n hn).trans hframe.flags.symm
  · intro i n hn
    exact (hb.tail i n hn).trans (hframe.cur i).symm

/-- Placing a candidate extends the run of its stream by one node. -/
theorem ScopeBuilt.place (hb : ScopeBuilt g st scope) (hcand : Candidate g st n) :
    ScopeBuilt g (placed st scope n) (scope.addNodeWithStreamInfo n) := by
  have hmem : ∀ m ∈ (scope.addNodeWithStreamInfo n).nodes, m ∈ scope.nodes ∨ m = n := by
    intro m hm
    simpa [SuperKernelScopeInfo.addNodeWithStreamInfo] using hm
  refine ⟨rfl, ⟨?_, ?_, ?_, ?_⟩, hb.flags, ?_, ?_⟩
  · intro m hm
    rcases hmem m hm with hm | rfl
    · exact hb.ok.mem m hm
    · exact (getNodeById_some hcand.get).1
  · intro m hm
    rcases hmem m hm with hm | rfl
    · exact hb.ok.fusible m hm
    · exact hcand.fusible
  · show addStreamInfo scope.scopeStreamInfos n = (scope.nodes ++ [n]).foldl addStreamInfo []
    rw [foldl_append, hb.ok.infos]
    rfl
  · intro i
    rw [nodesOn_addNode]
    split
    · next hi =>
      rw [isChain_append]
      refine ⟨hb.ok.chain i, isChain_singleton n, ?_⟩
      intro m hm k hk
      obtain rfl : n = k := by simpa using hk
      rw [hb.tail i m hm, ← hi]
      exact hcand.head
    · rw [append_nil]
      exact hb.ok.chain i
  · intro m hm
    rcases hmem m hm with hm | rfl
    · exact hb.node_flags m hm
    · exact hcand.flags
  · intro i m hm
    rw [nodesOn_addNode] at hm
    rw [cur_placed]
    by_cases hi : n.streamIdxInGraph = i
    · rw [if_pos hi] at hm
      rw [if_pos hi.symm]
      obtain rfl : n = m := by simpa using hm
      rfl
    · rw [if_neg hi, append_nil] at hm
      rw [if_neg fun h => hi h.symm]
      exact hb.tail i m hm

/-! ## One pop -/

variable (g) in
/-- The invariant of the build loop. -/
structure BuildInv (st : SplitState) : Prop where
  ok : BuildOk g st
  built : ∃ scope, ScopeBuilt g st scope

variable (g) in
/-- One iteration of the build loop. -/
def PopStep (fuel : ℕ) (st st' : SplitState) : Prop :=
  ∃ id heap, st.nodeHeap.pop g = some (id, heap) ∧ buildStep g fuel st id heap = some st'

variable (g) in
/-- Every RESET the iteration would place is safe. -/
def PopSafe (st : SplitState) : Prop :=
  ∀ id heap n, st.nodeHeap.pop g = some (id, heap) → g.getNodeById id = some n →
    id ∉ st.processedNodes → ResetSafe g st n

variable {heap : SkCandidateHeap}

theorem BuildOk.pop (hok : BuildOk g st) {id : NodeId}
    (hpop : st.nodeHeap.pop g = some (id, heap)) :
    BuildOk g { st with nodeHeap := heap } ∧
      buildPotential g { st with nodeHeap := heap } + 1 = buildPotential g st ∧
      (id ∈ st.processedNodes ∨ ∃ n, n.nodeId = id ∧ Candidate g { st with nodeHeap := heap } n) := by
  rcases SkCandidateHeap.pop_spec hpop with ⟨hid, hsub, hlen, _⟩
  have hframe : BuildFrame st { st with nodeHeap := heap } := ⟨fun _ => rfl, rfl, rfl, rfl⟩
  have hentry : ∀ a ∈ st.nodeHeap.ids, a ∈ st.processedNodes ∨
      ∃ n, n.nodeId = a ∧ Candidate g { st with nodeHeap := heap } n := by
    intro a ha
    rcases hok.heap a ha with hp | ⟨n, hn, hcand⟩
    · exact .inl hp
    · exact .inr ⟨n, hn, hcand.congr hframe⟩
  refine ⟨⟨hok.tracks.congr hframe.cur hok.tracks.visited hok.tracks.processed,
    fun a ha => hentry a (hsub a ha), hok.consistent.pop hpop, hok.waiting⟩, ?_, hentry id hid⟩
  have hsusp : suspendedStreams g { st with nodeHeap := heap } = suspendedStreams g st :=
    suspendedStreams_congr fun _ => rfl
  unfold buildPotential
  rw [undoneNodes_congr hframe.cur, hsusp]
  dsimp only
  omega

variable {fuel : ℕ}

theorem buildStep_eq {id : NodeId}
    (hn : g.getNodeById id = some n) (hopen : st.currentScope = some scope) :
    buildStep g fuel st id heap =
      if id ∈ st.processedNodes then some { st with nodeHeap := heap }
      else placeNode g fuel { st with nodeHeap := heap } scope n := by
  have hopen' : ({ st with nodeHeap := heap } : SplitState).currentScope = some scope := hopen
  show _ = if id ∈ ({ st with nodeHeap := heap } : SplitState).processedNodes then _ else _
  unfold buildStep
  generalize ({ st with nodeHeap := heap } : SplitState) = s at hopen' ⊢
  simp only [hn, hopen']

/-- One iteration places at most one node, which is ready. -/
theorem PopStep.spec (hg : g.WellFormed) (hi : BuildInv g st) (h : PopStep g fuel st st') :
    BuildInv g st' ∧ buildPotential g st' < buildPotential g st ∧
      (Signalled g [] st → PopSafe g st → Signalled g [] st') ∧
      st'.currentScopeBitFlags = st.currentScopeBitFlags ∧
      (∀ id heap, st.nodeHeap.pop g = some (id, heap) → id ∈ doneSet g [] st') ∧
      ∀ closed, BatchSteps g.HbEdge (Fusible g) (batchState g [] closed st)
        (batchState g [] closed st') := by
  rcases h with ⟨id, heap, hpop, hrun⟩
  have honly : ∀ s : Set NodeId, id ∈ s →
      ∀ id' heap', st.nodeHeap.pop g = some (id', heap') → id' ∈ s := by
    intro s hs id' heap' hpop'
    rw [hpop, some.injEq, Prod.mk.injEq] at hpop'
    exact hpop'.1 ▸ hs
  rcases hi with ⟨hok, scope, hbuilt⟩
  rcases hok.pop hpop with ⟨hok₁, hpot₁, hentry⟩
  have hframe : BuildFrame st { st with nodeHeap := heap } := ⟨fun _ => rfl, rfl, rfl, rfl⟩
  have hopen : st.currentScope = some scope := hbuilt.is_open
  by_cases hp : id ∈ st.processedNodes
  · -- a second entry of a placed node
    rcases hok.tracks.processed id hp with ⟨n, hn, _⟩
    rw [buildStep_eq hn hopen, if_pos hp] at hrun
    obtain rfl := some.inj hrun
    refine ⟨⟨hok₁, scope, hbuilt.congr hframe⟩, by omega, fun hs _ => hs.congr hframe rfl, rfl,
      honly _ (hframe.doneSet_eq ▸ hok.tracks.processed id hp), fun closed => ?_⟩
    rw [hframe.batchState_eq]
  rcases hentry.resolve_left hp with ⟨n, rfl, hcand⟩
  rw [buildStep_eq hcand.get hopen, if_neg hp] at hrun
  rcases placeNode_spec hg hok₁ hcand hrun with ⟨hok₂, hframe₂, hpot₂, hsig₂⟩
  have hbuilt₂ := (hbuilt.congr hframe).place hcand
  rcases hok₁.place hg hcand scope with ⟨_, hdone, _⟩
  have hdone' : doneSet g [] st' = insert n.nodeId (doneSet g [] st) :=
    hframe₂.doneSet_eq.trans hdone
  refine ⟨⟨hok₂, _, hbuilt₂.congr hframe₂⟩, by omega, ?_, hframe₂.flags,
    honly _ (hdone' ▸ Set.mem_insert _ _), fun closed => ?_⟩
  · intro hs hsafe
    exact hsig₂ (hs.congr hframe rfl) (hsafe n.nodeId heap n hpop hcand.get hp)
  · refine .single ?_
    have hstate : batchState g [] closed st' = { batchState g [] closed st with
        done := insert n.nodeId (doneSet g [] st)
        current := some (scope.nodeIds ++ [n.nodeId]) } := by
      unfold batchState
      rw [hdone', hframe₂.scope]
      simp [placed, SplitState.setCurrentNodeId, SplitState.setStream,
        SuperKernelScopeInfo.nodeIds, SuperKernelScopeInfo.addNodeWithStreamInfo]
    rw [hstate]
    refine BatchStep.emit ?_ ?_ ⟨n, hcand.get, hcand.fusible⟩ ?_
    · simp [batchState, hopen]
    · exact not_mem_doneSet_cur hcand.head hcand.get rfl not_mem_nil
    · intro y hedge
      exact ready_of_cur hg hcand.head hcand.get rfl hcand.wait hedge

/-- A pop never gets stuck. -/
theorem buildStep_isSome (hg : g.WellFormed) (hfuel : 0 < fuel) (hi : BuildInv g st) {id : NodeId}
    (hpop : st.nodeHeap.pop g = some (id, heap)) : (buildStep g fuel st id heap).isSome := by
  rcases hi with ⟨hok, scope, hbuilt⟩
  rcases hok.pop hpop with ⟨hok₁, _, hentry⟩
  have hopen : st.currentScope = some scope := hbuilt.is_open
  by_cases hp : id ∈ st.processedNodes
  · rcases hok.tracks.processed id hp with ⟨n, hn, _⟩
    rw [buildStep_eq hn hopen, if_pos hp]
    rfl
  · rcases hentry.resolve_left hp with ⟨n, rfl, hcand⟩
    rw [buildStep_eq hcand.get hopen, if_neg hp]
    exact placeNode_isSome hg hfuel hok₁ hcand

/-! ## The build loop -/

abbrev PopSteps (g : SuperKernelGraph) (fuel : ℕ) : SplitState → SplitState → Prop :=
  ReflTransGen (PopStep g fuel)

theorem PopSteps.inv (hg : g.WellFormed) (hi : BuildInv g st) (h : PopSteps g fuel st st') :
    BuildInv g st' ∧ st'.currentScopeBitFlags = st.currentScopeBitFlags ∧
      ∀ closed, BatchSteps g.HbEdge (Fusible g) (batchState g [] closed st)
        (batchState g [] closed st') := by
  induction h with
  | refl => exact ⟨hi, rfl, fun _ => .refl⟩
  | tail _ h ih =>
    rcases ih with ⟨hi₁, hflags₁, hsteps₁⟩
    rcases h.spec hg hi₁ with ⟨hi₂, _, _, hflags₂, _, hsteps₂⟩
    exact ⟨hi₂, hflags₂.trans hflags₁,
      fun closed => (hsteps₁ closed).trans (hsteps₂ closed)⟩

theorem PopSteps.signalled (hg : g.WellFormed) (hi : BuildInv g st)
    (hs : Signalled g [] st) (hsafe : ∀ s, PopSteps g fuel st s → PopSafe g s)
    (h : PopSteps g fuel st st') : Signalled g [] st' := by
  induction h with
  | refl => exact hs
  | tail hrest h ih =>
    exact (h.spec hg (PopSteps.inv hg hi hrest).1).2.2.1 ih (hsafe _ hrest)

/-- The build loop pops until the heap is empty. -/
theorem buildLoop_steps {fuel k : ℕ} (hrun : buildLoop g fuel k st = some st') :
    PopSteps g fuel st st' ∧ st'.nodeHeap.pop g = none := by
  induction k generalizing st with
  | zero => simp [buildLoop] at hrun
  | succ k ih =>
    rw [buildLoop] at hrun
    split at hrun
    · next hpop =>
      obtain rfl := some.inj hrun
      exact ⟨.refl, hpop⟩
    · next id heap hpop =>
      split at hrun
      · simp at hrun
      · next st₁ hstep =>
        rcases ih hrun with ⟨hsteps, hempty⟩
        exact ⟨.head ⟨id, heap, hpop, hstep⟩ hsteps, hempty⟩

theorem buildLoop_isSome (hg : g.WellFormed) {fuel k : ℕ} (hfuel : 0 < fuel) (hi : BuildInv g st)
    (hk : buildPotential g st < k) : (buildLoop g fuel k st).isSome := by
  induction k generalizing st with
  | zero => omega
  | succ k ih =>
    rw [buildLoop]
    split
    · rfl
    · next id heap hpop =>
      have hsome := buildStep_isSome hg hfuel hi hpop
      rcases isSome_iff_exists.mp hsome with ⟨st₁, hstep⟩
      have hpopStep : PopStep g fuel st st₁ := ⟨id, heap, hpop, hstep⟩
      rcases hpopStep.spec hg hi with ⟨hi₁, hpot, _⟩
      rw [hstep]
      exact ih hi₁ (by omega)

end GraphAutofusion.SuperKernel
