import GraphAutofusion.SuperKernel.SplitGraphScopes

/-!
# SuperKernel.SplitGraphRun — what `SplitGraph` returns

When `SplitGraph` returns true, every scope is valid and no node lies in two scopes. The
loop ends in one of two ways: an iteration in which every pass ran without a request for
another one, or the iteration limit, and then the scope list is empty.
-/

namespace GraphAutofusion.SuperKernel

open Lib SuperKernelGraph List Option

variable {g : SuperKernelGraph} {opts : SplitOptions} {fuel : ℕ} {order : List StreamIdx}
  {orders : ℕ → List StreamIdx} {st st' : SplitterState}

/-- The invariant of the splitter between two passes. -/
structure SplitterOk (streamNum : ℕ) (st : SplitterState) : Prop where
  graph : st.graph.WellFormed
  streams : st.graph.streamNum = streamNum
  scopes : ScopesOk st.graph st.scopes
  resplit : st.needResplit = true → st.scopes = []

variable {streamNum : ℕ}

/-! ## One lemma for each pass -/

theorem ScopesOk.nil : ScopesOk g [] := ⟨by simp, by simp⟩

section

variable (hst : SplitterOk streamNum st)
include hst

theorem SplitterOk.setScopes (hno : st.needResplit = false)
    {scopes : List SuperKernelScopeInfo} (hok : ScopesOk st.graph scopes) (lock : LockState) :
    SplitterOk streamNum { st with scopes, lock } where
  graph := hst.graph
  streams := hst.streams
  scopes := hok
  resplit := fun hyes => by
    have hyes' : st.needResplit = true := hyes
    simp [hno] at hyes'

/-- Marking nodes clears the scopes and asks for another iteration. -/
theorem SplitterOk.mark (ids : List NodeId) :
    SplitterOk streamNum { st with
      graph := st.graph.setIsFusible ids false, scopes := [], needResplit := true } where
  graph := hst.graph.setIsFusible ids false
  streams := hst.streams
  scopes := ScopesOk.nil
  resplit := fun _ => rfl

omit hst in
theorem runInitialScopeSplit_spec (horder : order.Perm (range streamNum))
    (hst : SplitterOk streamNum st) (hno : st.needResplit = false)
    (hrun : runInitialScopeSplit opts fuel order st = some st') : SplitterOk streamNum st' := by
  rcases map_eq_some_iff.mp hrun with ⟨scopes, hpass, rfl⟩
  have horder' : order.Perm (range st.graph.streamNum) := hst.streams ▸ horder
  rcases initialScopeSplitPass_spec hst.graph horder' hpass with ⟨_, _, _, hvalid⟩
  have hnodup := (initialScopeSplitPass_inv hst.graph horder' hpass).nodup
  rw [← flatMap_def] at hnodup
  exact hst.setScopes hno ⟨fun scope hscope => (hvalid scope hscope).1, hnodup⟩ st.lock

theorem runScheModeKernelSplit_spec (hno : st.needResplit = false)
    (hrun : runScheModeKernelSplit fuel st = some st') : SplitterOk streamNum st' := by
  rcases map_eq_some_iff.mp hrun with ⟨scopes, hpass, rfl⟩
  have hpieces := scheModeKernelSplitPass_spec hst.scopes.valid hpass
  exact hst.setScopes hno (hpieces.scopesOk hst.scopes.nodup) st.lock

theorem runDeadlockRefine_spec (hno : st.needResplit = false)
    (hrun : runDeadlockRefine opts fuel st = some st') : SplitterOk streamNum st' := by
  rcases map_eq_some_iff.mp hrun with ⟨⟨scopes, lock⟩, hpass, rfl⟩
  have hpieces := deadlockRefinePass_spec hst.scopes hpass
  exact hst.setScopes hno (hpieces.scopesOk hst.scopes.nodup) lock

theorem runPerOpMaxCoreSplit_spec (hno : st.needResplit = false)
    (hrun : runPerOpMaxCoreSplit fuel st = some st') : SplitterOk streamNum st' := by
  rcases map_eq_some_iff.mp hrun with ⟨scopes, hpass, rfl⟩
  exact hst.setScopes hno (perOpMaxCoreSplitPass_spec hst.graph hpass) st.lock

theorem defaultNodeProcessPass_spec
    (hno : st.needResplit = false) : SplitterOk streamNum (defaultNodeProcessPass st) := by
  unfold defaultNodeProcessPass
  dsimp only
  split
  · have hpieces := processDefaults_spec hst.scopes.valid
    exact hst.setScopes hno (hpieces.scopesOk hst.scopes.nodup) st.lock
  · exact hst.mark _

theorem eventOnlyStreamRemovePass_spec : SplitterOk streamNum (eventOnlyStreamRemovePass st) := by
  unfold eventOnlyStreamRemovePass
  dsimp only
  split
  · exact hst
  · exact hst.mark _

end

theorem passes_spec (horder : order.Perm (range streamNum)) :
    ∀ pass ∈ passes opts fuel order, ∀ s s', SplitterOk streamNum s → s.needResplit = false →
      pass s = some s' → SplitterOk streamNum s' := by
  intro pass hpass s s' hs hno hrun
  unfold passes at hpass
  split at hpass
  · have heq : pass = runPerOpMaxCoreSplit fuel := by simpa using hpass
    subst heq
    exact runPerOpMaxCoreSplit_spec hs hno hrun
  · rcases mem_append.mp hpass with hpass | hlast
    · rcases mem_append.mp hpass with hfirst | hbypass
      · simp only [mem_cons, not_mem_nil, or_false] at hfirst
        rcases hfirst with rfl | rfl | rfl
        · exact runInitialScopeSplit_spec horder hs hno hrun
        · exact runScheModeKernelSplit_spec hs hno hrun
        · exact runDeadlockRefine_spec hs hno hrun
      · split at hbypass
        · simp only [mem_cons, not_mem_nil, or_false] at hbypass
          rcases hbypass with rfl | rfl
          · cases hrun
            exact defaultNodeProcessPass_spec hs hno
          · exact runDeadlockRefine_spec hs hno hrun
        · cases hbypass
    · have heq : pass = fun st => some (eventOnlyStreamRemovePass st) := by simpa using hlast
      subst heq
      cases hrun
      exact eventOnlyStreamRemovePass_spec hs

/-! ## The loop -/

theorem splitIteration_spec (horder : order.Perm (range streamNum)) (hst : SplitterOk streamNum st)
    (hrun : splitIteration opts fuel order st = some st') : SplitterOk streamNum st' := by
  have hstart : SplitterOk streamNum { st with scopes := [], needResplit := false } :=
    ⟨hst.graph, hst.streams, ScopesOk.nil, fun _ => rfl⟩
  exact runPasses_inv (passes_spec horder) hstart rfl hrun

theorem initDefaultNodeFusibility_spec (hg : g.WellFormed) {bypass : Bool} {graph : SuperKernelGraph}
    (hinit : initDefaultNodeFusibility g bypass fuel = some graph) :
    graph.WellFormed ∧ graph.streamNum = g.streamNum := by
  unfold initDefaultNodeFusibility at hinit
  split at hinit
  · cases hinit
    exact ⟨hg, rfl⟩
  · rcases map_eq_some_iff.mp hinit with ⟨l, _, rfl⟩
    exact ⟨hg.setIsFusible _ _, rfl⟩

/-- `SplitGraph` ends with some iteration `j`, reached by iterations that each asked for
another one; only the last allowed iteration may ask in vain. -/
theorem splitGraph_spec (hg : g.WellFormed) (horders : ∀ k, (orders k).Perm (range g.streamNum))
    (hrun : splitGraph opts fuel g orders = some st) :
    SplitterOk g.streamNum st ∧ ∃ graph j t,
      initDefaultNodeFusibility g opts.taskBreakerBypass fuel = some graph ∧ j < maxIterations ∧
      Reruns (·.needResplit) (fun k => splitIteration opts fuel (orders k)) 0 { graph } j t ∧
      splitIteration opts fuel (orders j) t = some st ∧
      (st.needResplit = false ∨ j + 1 = maxIterations) := by
  unfold splitGraph at hrun
  split at hrun
  · cases hrun
  · next graph hinit =>
    rcases initDefaultNodeFusibility_spec hg hinit with ⟨hgraph, hstreams⟩
    have hstart : SplitterOk g.streamNum { graph } :=
      ⟨hgraph, hstreams, ScopesOk.nil, fun _ => rfl⟩
    have hround : ∀ j s s', SplitterOk g.streamNum s →
        splitIteration opts fuel (orders j) s = some s' → SplitterOk g.streamNum s' :=
      fun j s s' hs hr => splitIteration_spec (horders j) hs hr
    rcases rerunLoop_spec hrun with ⟨j, t, hj, hruns, hlast, hend⟩
    have hmax : maxIterations = 10 := rfl
    exact ⟨hround j t st (hruns.inv hround hstart) hlast, graph, j, t, hinit, by omega, hruns, hlast,
      hend.imp_right (by omega)⟩

/-- When `SplitGraph` returns, the scopes are disjoint lists of fusible graph nodes, and
the stream infos of each scope have one entry for each of its streams, whose walk
from head to tail visits the scope's nodes on that stream in order; so
`ValidateScopeStreamNodes` accepts the scope. -/
theorem splitGraph_scopes_valid (hg : g.WellFormed)
    (horders : ∀ k, (orders k).Perm (range g.streamNum))
    (hrun : splitGraph opts fuel g orders = some st) :
    (st.scopes.flatMap (·.nodeIds)).Nodup ∧ ∀ scope ∈ st.scopes,
      (∀ n ∈ scope.nodes, n ∈ st.graph.nodes ∧ n.isFusible = true) ∧
      (∀ n ∈ scope.nodes, ∃! info, info ∈ scope.scopeStreamInfos ∧
        info.streamIdx = n.streamIdxInGraph) ∧
      (∀ info ∈ scope.scopeStreamInfos, (scope.nodesOn info.streamIdx).length = info.nodeSize ∧
        0 < info.nodeSize ∧
        (scope.nodesOn info.streamIdx).getLast?.map (·.nodeId) = some info.tailNodeIdx ∧
        ∀ k, info.nodeSize ≤ k → walkToTail st.graph info.tailNodeIdx k (some info.headNodeIdx)
          = some (scope.nodesOn info.streamIdx)) ∧
      ∀ k, (∀ info ∈ scope.scopeStreamInfos, info.nodeSize ≤ k) →
        validateScopeStreamNodes st.graph k scope = true := by
  have hok := (splitGraph_spec hg horders hrun).1
  refine ⟨hok.scopes.nodup, fun scope hscope => ?_⟩
  have hvalid := hok.scopes.valid scope hscope
  have hnodup : scope.nodeIds.Nodup := (nodup_flatMap.mp hok.scopes.nodup).1 scope hscope
  refine ⟨fun n hn => ⟨hvalid.mem n hn, hvalid.fusible n hn⟩,
    fun n hn => hvalid.existsUnique_info hn, fun info hinfo => ?_,
    fun k hk => hvalid.validate hok.graph hnodup hk⟩
  have hsum := hvalid.infosOf.summary info hinfo
  refine ⟨hsum.size, ?_, hsum.tail, fun k hk => hvalid.walk hok.graph hnodup hinfo hk⟩
  have htail := hsum.tail
  rw [← hsum.size, length_pos_iff]
  intro hnil
  simp [hnil] at htail

theorem splitGraph_scopes_valid_sample : ∃ st,
    splitGraph { device := ⟨24, 48⟩ } 20 sampleGraph (fun _ => [1, 0]) = some st ∧
      st.scopes.map (·.nodeIds) = [[0], [3]] ∧ ∀ scope ∈ st.scopes,
        validateScopeStreamNodes st.graph 1 scope = true := by
  have hsome : (splitGraph { device := ⟨24, 48⟩ } 20 sampleGraph fun _ => [1, 0]).map
      (fun st => (st.scopes.map (·.nodeIds),
        st.scopes.all fun scope => scope.scopeStreamInfos.all (·.nodeSize ≤ 1)))
      = some ([[0], [3]], true) := by decide +kernel
  rcases map_eq_some_iff.mp hsome with ⟨st, hrun, hst⟩
  rcases Prod.mk.injEq .. ▸ hst with ⟨hids, hsize⟩
  refine ⟨st, hrun, hids, fun scope hscope => ?_⟩
  refine ((splitGraph_scopes_valid sampleGraph_wellFormed (fun _ => by decide) hrun).2 scope
    hscope).2.2.2 1 fun info hinfo => ?_
  simpa using List.all_eq_true.mp (List.all_eq_true.mp hsize scope hscope) info hinfo

/-! ## The last iteration -/

/-- On each of its streams every scope has a node that is not an event node. -/
def NoEventOnlyStream (scopes : List SuperKernelScopeInfo) : Prop :=
  ∀ scope ∈ scopes, ∀ n ∈ scope.nodes,
    ∃ m ∈ scope.nodesOn n.streamIdxInGraph, m.isEventNode = false

/-- `EventOnlyStreamRemovePass` leaves the scopes alone only if no stream is event-only. -/
theorem eventOnlyStreamRemovePass_noEventOnly (hok : ∀ scope ∈ st.scopes, ScopeOk st.graph scope)
    (hno : (eventOnlyStreamRemovePass st).needResplit = false) :
    eventOnlyStreamRemovePass st = st ∧ NoEventOnlyStream st.scopes := by
  unfold eventOnlyStreamRemovePass at hno ⊢
  dsimp only at hno ⊢
  split at hno
  · next hempty =>
    refine ⟨if_pos hempty, fun scope hscope n hn => ?_⟩
    have hnil : st.scopes.flatMap (·.eventOnlyNodes) = [] := by simpa using hempty
    have hnone := flatMap_eq_nil_iff.mp hnil scope hscope
    by_contra hall
    push Not at hall
    have hevent : (scope.nodesOn n.streamIdxInGraph).all (·.isEventNode) = true := by
      refine List.all_eq_true.mpr fun m hm => ?_
      simpa using hall m hm
    have hmem : n.nodeId ∈ scope.eventOnlyNodes := by
      refine List.mem_map.mpr ⟨n, mem_filter.mpr ⟨hn, ?_⟩, rfl⟩
      simp [hevent, (hok scope hscope).fusible n hn]
    simp [hnone] at hmem
  · simp at hno

/-- The scopes of the per-operator mode hold one kernel each. -/
theorem perOpMaxCoreSplitPass_noEventOnly {out : List SuperKernelScopeInfo}
    (hrun : perOpMaxCoreSplitPass g fuel = some out) : NoEventOnlyStream out := by
  rcases map_eq_some_iff.mp hrun with ⟨l, _, rfl⟩
  intro scope hscope n hn
  rcases List.mem_map.mp hscope with ⟨k, hk, rfl⟩
  have hkernel : k.nodeType = .nodeKernel := by
    have htest := (mem_filter.mp hk).2
    simp only [Bool.and_eq_true, decide_eq_true_eq] at htest
    exact htest.1
  have heq : n = k := by simpa [rebuildStreamInfos] using hn
  subst heq
  exact ⟨n, mem_filter.mpr ⟨hn, by simp⟩, by simp [SuperKernelBaseNode.isEventNode, hkernel]⟩

/-- A complete run of the pipeline leaves no event-only stream. -/
theorem completeRun_noEventOnly (hst : SplitterOk streamNum st')
    (hrun : CompleteRun (·.needResplit) (passes opts fuel order) st st') :
    NoEventOnlyStream st'.scopes := by
  unfold passes at hrun
  split at hrun
  · cases hrun with
    | cons hpass _ hrest =>
      cases hrest
      rcases map_eq_some_iff.mp hpass with ⟨scopes, hscopes, rfl⟩
      exact perOpMaxCoreSplitPass_noEventOnly hscopes
  · rcases hrun.append with ⟨t, _, hlast⟩
    cases hlast with
    | cons hpass hagain hrest =>
      cases hrest
      have heq : eventOnlyStreamRemovePass t = st' := some.inj hpass
      -- the last pass changed nothing, so its input scopes are the valid result
      by_cases hempty : (t.scopes.flatMap (·.eventOnlyNodes)).isEmpty
      · have hsame : eventOnlyStreamRemovePass t = t := if_pos hempty
        rw [hsame] at heq
        subst heq
        exact (eventOnlyStreamRemovePass_noEventOnly hst.scopes.valid (hsame.symm ▸ hagain)).2
      · have hyes : (eventOnlyStreamRemovePass t).needResplit = true := by
          unfold eventOnlyStreamRemovePass
          dsimp only
          rw [if_neg hempty]
        rw [heq] at hyes
        simp [hagain] at hyes

/-- When `SplitGraph` returns, either its last iteration ran every pass without a request for
another one and no scope has an event-only stream, or ten iterations asked for another
one and the scope list is empty. -/
theorem splitGraph_complete_or_capped (hg : g.WellFormed)
    (horders : ∀ k, (orders k).Perm (range g.streamNum))
    (hrun : splitGraph opts fuel g orders = some st) :
    ∃ graph j t, initDefaultNodeFusibility g opts.taskBreakerBypass fuel = some graph ∧
      j < maxIterations ∧
      Reruns (·.needResplit) (fun k => splitIteration opts fuel (orders k)) 0 { graph } j t ∧
      (st.needResplit = false ∧
          CompleteRun (·.needResplit) (passes opts fuel (orders j))
            { t with scopes := [], needResplit := false } st ∧
          NoEventOnlyStream st.scopes ∨
        st.needResplit = true ∧ j + 1 = maxIterations ∧ st.scopes = []) := by
  rcases splitGraph_spec hg horders hrun with ⟨hok, graph, j, t, hinit, hj, hruns, hlast, hend⟩
  refine ⟨graph, j, t, hinit, hj, hruns, ?_⟩
  cases hagain : st.needResplit with
  | false =>
    rcases runPasses_cases hlast with hcomplete | hyes
    · exact .inl ⟨rfl, hcomplete, completeRun_noEventOnly hok hcomplete⟩
    · rw [hagain] at hyes
      cases hyes
  | true =>
    refine .inr ⟨rfl, ?_, hok.resplit hagain⟩
    exact hend.resolve_left (by simp [hagain])

theorem splitGraph_complete_or_capped_sample : ∃ st,
    splitGraph { device := ⟨24, 48⟩ } 20 sampleGraph (fun _ => [1, 0]) = some st ∧
      NoEventOnlyStream st.scopes := by
  have hsome : (splitGraph { device := ⟨24, 48⟩ } 20 sampleGraph fun _ => [1, 0]).map
      (·.needResplit) = some false := by decide +kernel
  rcases map_eq_some_iff.mp hsome with ⟨st, hrun, hno⟩
  rcases splitGraph_complete_or_capped sampleGraph_wellFormed (fun _ => by decide) hrun with
    ⟨_, _, _, _, _, _, ⟨_, _, hstreams⟩ | ⟨hyes, _⟩⟩
  · exact ⟨st, hrun, hstreams⟩
  · simp [hno] at hyes

/-! ## A cascade that outlasts the iteration limit -/

/-- Stage `k` of the cascade, on stream `k + 1`: a WAIT for event 0, a NOTIFY of event
`k + 1`, and from stage 1 on a WAIT for event `k` and a kernel. While event `k` is sent
within the first scope, the kernel keeps the stage's events there. Once it is sent later,
the WAIT and the NOTIFY before it are left alone in the first scope, and marking them
delays event `k + 1`. -/
def cascadeStage (k : ℕ) : List SuperKernelBaseNode :=
  let base := 4 * k + 2
  let events : List SuperKernelBaseNode :=
    [{ nodeId := base, streamIdxInGraph := k + 1, nodeIdxInStream := 0,
       nextNodeId := some (base + 1), nodeType := .nodeWait, isFusible := true,
       syncInfos := { eventId := some 0, correspondingNotifyNodeId := some 1 } },
     { nodeId := base + 1, streamIdxInGraph := k + 1, nodeIdxInStream := 1,
       preNodeId := some base, nextNodeId := if k = 0 then none else some (base + 2),
       nodeType := .nodeNotify, isFusible := true,
       syncInfos := { eventId := some (k + 1),
                      correspondingWaitNodeIds := if k < 9 then [base + 6] else [] } }]
  if k = 0 then events
  else events ++
    [{ nodeId := base + 2, streamIdxInGraph := k + 1, nodeIdxInStream := 2,
       preNodeId := some (base + 1), nextNodeId := some (base + 3), nodeType := .nodeWait,
       isFusible := true,
       syncInfos := { eventId := some k, correspondingNotifyNodeId := some (base - 3) } },
     { nodeId := base + 3, streamIdxInGraph := k + 1, nodeIdxInStream := 3,
       preNodeId := some (base + 2), nodeType := .nodeKernel, isFusible := true }]

/-- A kernel and the NOTIFY of event 0 on stream 0, and ten stages. -/
def cascadeGraph : SuperKernelGraph where
  nodes :=
    [{ nodeId := 0, streamIdxInGraph := 0, nodeIdxInStream := 0, nextNodeId := some 1,
       nodeType := .nodeKernel, isFusible := true },
     { nodeId := 1, streamIdxInGraph := 0, nodeIdxInStream := 1, preNodeId := some 0,
       nodeType := .nodeNotify, isFusible := true,
       syncInfos := { eventId := some 0,
                      correspondingWaitNodeIds := (range 10).map (4 * · + 2) } }]
    ++ (range 10).flatMap cascadeStage
  eventToNodes :=
    (0, { notifyNodeId := some 1, waitNodeIdList := (range 10).map (4 * · + 2) }) ::
    (range 10).map fun k => (k + 1, { notifyNodeId := some (4 * k + 3)
                                      waitNodeIdList := if k < 9 then [4 * k + 8] else [] })
  headNodes := 0 :: (range 10).map (4 * · + 2)
  streamNum := 11

/-- Each iteration marks the next stage, the tenth one empties the scope list and asks for
another iteration, and `SplitGraph` returns; one more iteration would be complete and
produce scopes. -/
theorem splitGraph_gives_up : cascadeGraph.WellFormed ∧ ∃ st next,
    splitGraph { device := ⟨24, 48⟩ } 60 cascadeGraph (fun _ => range 11) = some st ∧
      st.needResplit = true ∧ st.scopes = [] ∧
      splitIteration { device := ⟨24, 48⟩ } 60 (range 11) st = some next ∧
      next.needResplit = false ∧ (next.scopes.map (·.nodeIds)).head? = some [0, 1] := by
  have hmore : ((splitGraph { device := ⟨24, 48⟩ } 60 cascadeGraph fun _ => range 11).bind
      fun st => (splitIteration { device := ⟨24, 48⟩ } 60 (range 11) st).map fun next =>
        (st.needResplit, st.scopes.isEmpty, next.needResplit, (next.scopes.map (·.nodeIds)).head?))
      = some (true, true, false, some [0, 1]) := by decide +kernel
  refine ⟨by constructor <;> decide +kernel, ?_⟩
  rcases bind_eq_some_iff.mp hmore with ⟨st, hrun, hrest⟩
  rcases map_eq_some_iff.mp hrest with ⟨next, hnext, hstate⟩
  simp only [Prod.mk.injEq] at hstate
  exact ⟨st, next, hrun, hstate.1, List.isEmpty_iff.mp hstate.2.1, hnext, hstate.2.2⟩

end GraphAutofusion.SuperKernel
