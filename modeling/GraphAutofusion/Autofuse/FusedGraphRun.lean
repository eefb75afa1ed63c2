import GraphAutofusion.Autofuse.WorkspaceReuse

/-!
# Autofuse.FusedGraphRun — running the rewritten sub-graphs

Every Data finds the value that feeds it, whatever the fan-out, and no sub-graph stores where
it reads. Every graph output is stored too, unless two of them share an output anchor: the
pass remembers one index for each anchor.
-/

namespace GraphAutofusion.Autofuse

open List Option

namespace FusedGraph

variable (g : FusedGraph)

/-- An Output node of a sub-graph for this anchor. -/
def IsStored (a : OutAnchor) : Prop :=
  ∃ inputs outNum graph, g.nodes[a.1]? = some (.ascBackend inputs outNum graph) ∧
    a.2 ∈ graph.outputIndices

/-- What a fused graph is: the peers of an anchor are the inputs it feeds, nodes are listed in
topological order, an anchor that feeds an input exists and has an Output node in its
sub-graph, the Data and the Output nodes of a sub-graph are numbered, and so are the Output nodes
of the graph. -/
structure WellFormed : Prop where
  peers_nodup : ∀ a, (g.peerInAnchors a).Nodup
  mem_peers : ∀ a inAnchor, inAnchor ∈ g.peerInAnchors a ↔ g.inputAt inAnchor.1 inAnchor.2 = some a
  source_lt : ∀ node index a, g.inputAt node index = some a → a.1 < node
  source : ∀ node index a, g.inputAt node index = some a →
    (∃ irIdx, g.nodes[a.1]? = some (.data irIdx)) ∨ a ∈ g.ascBackendAnchors ∧ g.IsStored a
  dataIndices_nodup : ∀ (node : ℕ) inputs outNum graph,
    g.nodes[node]? = some (.ascBackend inputs outNum graph) → graph.dataIndices.Nodup
  outputIndices_nodup : ∀ (node : ℕ) inputs outNum graph,
    g.nodes[node]? = some (.ascBackend inputs outNum graph) → graph.outputIndices.Nodup
  output_unique : ∀ (node node' : ℕ) irIdx source source',
    g.nodes[node]? = some (.output irIdx source) → g.nodes[node']? = some (.output irIdx source') → node = node'

/-- Every Output of the graph is fed by a sub-graph, from an anchor of its own. -/
def OutputsApart : Prop :=
  ∀ (node : ℕ) irIdx source, g.nodes[node]? = some (.output irIdx source) →
    (∀ irIdx', g.nodes[source.1]? ≠ some (.data irIdx')) ∧
      ∀ (node' : ℕ) irIdx', g.nodes[node']? = some (.output irIdx' source) → node' = node

end FusedGraph

/-- The places of the AscBackend nodes, from a place on. -/
def ascBackendPlaces : List FusedNode → ℕ → List ℕ
  | [], _ => []
  | .ascBackend _ _ _ :: rest, place => place :: ascBackendPlaces rest (place + 1)
  | _ :: rest, place => ascBackendPlaces rest (place + 1)

/-- A rewritten sub-graph still has its Data and Output nodes. -/
def SubPlan.Complete (g : FusedGraph) (plan : SubPlan) : Prop :=
  ∃ inputs outNum graph, g.nodes[plan.place]? = some (.ascBackend inputs outNum graph) ∧
    plan.reads.map Prod.fst = graph.dataIndices ∧ plan.writes.map Prod.fst = graph.outputIndices

/-- What the rewritten sub-graphs promise when they run in order: every Data finds the graph
input or the value that feeds it, no sub-graph stores where it reads, and in the end every
graph output holds the value that feeds it. -/
structure ValuesKept (g : FusedGraph) (plans : List SubPlan) : Prop where
  places : plans.map (·.place) = ascBackendPlaces g.nodes 0
  complete : ∀ plan ∈ plans, plan.Complete g
  reads : ∀ before plan after, plans = before ++ plan :: after → ∀ read ∈ plan.reads,
    ReadsSource g plan.place (runPlans before) read.1 read.2
  apart : ∀ plan ∈ plans, ∀ read ∈ plan.reads, ∀ write ∈ plan.writes, read.2 ≠ write.2
  outputs : ∀ (node : ℕ) irIdx source, g.nodes[node]? = some (.output irIdx source) →
    runPlans plans (.output irIdx) = some source

variable {g : FusedGraph} {attrs : OutAnchor → OutAnchorAttr}

/-! ## The attributes at the start -/

variable {a : OutAnchor}

theorem mem_ascBackendAnchors : a ∈ g.ascBackendAnchors ↔
    ∃ inputs outNum graph, g.nodes[a.1]? = some (.ascBackend inputs outNum graph) ∧
      0 ≤ a.2 ∧ a.2 < outNum := by
  rcases a with ⟨place, idx⟩
  simp only [FusedGraph.ascBackendAnchors, mem_flatMap, Prod.exists,
    mem_zipIdx_iff_getElem?]
  constructor
  · intro h
    rcases h with ⟨node, place', hnode, hmem⟩
    cases node with
    | ascBackend inputs outNum graph =>
      simp only [List.mem_map, mem_range, Prod.mk.injEq] at hmem
      rcases hmem with ⟨k, hk, rfl, rfl⟩
      exact ⟨inputs, outNum, graph, hnode, Int.natCast_nonneg k, by exact_mod_cast hk⟩
    | _ => simp at hmem
  · intro h
    rcases h with ⟨inputs, outNum, graph, hnode, hpos, hlt⟩
    refine ⟨_, place, hnode, List.mem_map.mpr ⟨idx.toNat, mem_range.mpr (by omega), ?_⟩⟩
    rw [Int.toNat_of_nonneg hpos]

/-- The linked index is the initial one without an Output among the peers, else that of one of
the Outputs. -/
theorem linkOutputs_cases : ∀ (peers : List (ℕ × ℤ)) {linked result : ℤ},
    g.linkOutputs peers linked = some result →
      (result = linked ∧ ∀ p ∈ peers, ∀ irIdx source, g.nodes[p.1]? ≠ some (.output irIdx source)) ∨
      ∃ p ∈ peers, ∃ source, g.nodes[p.1]? = some (.output result source) ∧ 0 ≤ result := by
  intro peers
  induction peers with
  | nil =>
    intro linked result h
    injection h with h
    exact .inl ⟨h.symm, by simp⟩
  | cons peer rest ih =>
    intro linked result h
    simp only [FusedGraph.linkOutputs] at h
    split at h
    · next irIdx source hnode =>
      split at h
      · next hpos =>
        rcases ih h with ⟨rfl, -⟩ | ⟨p, hp, hout⟩
        · exact .inr ⟨peer, mem_cons_self, source, hnode, hpos⟩
        · exact .inr ⟨p, mem_cons_of_mem peer hp, hout⟩
      · cases h
    · next hnode =>
      rcases ih h with ⟨rfl, hrest⟩ | ⟨p, hp, hout⟩
      · refine .inl ⟨rfl, fun p hp => ?_⟩
        rcases mem_cons.mp hp with rfl | hp
        · exact fun irIdx source heq => hnode irIdx source heq
        · exact hrest p hp
      · exact .inr ⟨p, mem_cons_of_mem peer hp, hout⟩

section Attrs

variable (hattrs : g.initAscbcOutAnchorAttr = some attrs)

include hattrs

theorem attrs_of_anchor (ha : a ∈ g.ascBackendAnchors) :
    g.linkOutputs (g.peerInAnchors a) (-1) = some (attrs a).linkedOutputIrIdx ∧
      (attrs a).depends = (g.peerInAnchors a).length := by
  simp only [FusedGraph.initAscbcOutAnchorAttr, Option.pure_def] at hattrs
  split at hattrs
  · next hall =>
    injection hattrs with hattrs
    have hsome := List.all_eq_true.mp hall a ha
    rw [FusedGraph.initAnchor] at hsome
    cases hlink : g.linkOutputs (g.peerInAnchors a) (-1) with
    | none => simp [hlink] at hsome
    | some linked =>
      have hvalue : attrs a = { linkedOutputIrIdx := linked, depends := (g.peerInAnchors a).length } := by
        rw [← hattrs]
        simp [ha, FusedGraph.initAnchor, hlink]
      rw [hvalue]
      exact ⟨rfl, rfl⟩
  · cases hattrs

theorem attrs_of_not_anchor (ha : a ∉ g.ascBackendAnchors) : attrs a = {} := by
  simp only [FusedGraph.initAscbcOutAnchorAttr, Option.pure_def] at hattrs
  split at hattrs
  · injection hattrs with hattrs
    rw [← hattrs]
    simp [ha]
  · cases hattrs

/-- A linked anchor feeds the Output node of its index. -/
theorem exists_output_of_linked (hwf : g.WellFormed)
    (hlinked : 0 ≤ (attrs a).linkedOutputIrIdx) : a ∈ g.ascBackendAnchors ∧
      ∃ node : ℕ, g.nodes[node]? = some (.output (attrs a).linkedOutputIrIdx a) := by
  by_cases ha : a ∈ g.ascBackendAnchors
  · refine ⟨ha, ?_⟩
    rcases linkOutputs_cases _ (attrs_of_anchor hattrs ha).1 with ⟨hnone, -⟩ | ⟨p, hp, source, hnode, -⟩
    · rw [hnone] at hlinked
      exact absurd hlinked (by decide)
    · have hinput := (hwf.mem_peers a p).mp hp
      simp only [FusedGraph.inputAt, hnode] at hinput
      split at hinput
      · injection hinput with hinput
        exact ⟨p.1, hinput ▸ hnode⟩
      · cases hinput
  · rw [attrs_of_not_anchor hattrs ha] at hlinked
    exact absurd hlinked (by decide)

theorem linked_inj (hwf : g.WellFormed) (a b : OutAnchor) (hlinked : 0 ≤ (attrs b).linkedOutputIrIdx)
    (heq : (attrs b).linkedOutputIrIdx = (attrs a).linkedOutputIrIdx) : b = a := by
  rcases (exists_output_of_linked hattrs hwf hlinked).2 with ⟨node, hnode⟩
  rcases (exists_output_of_linked hattrs hwf (heq ▸ hlinked)).2 with ⟨node', hnode'⟩
  rw [heq] at hnode
  have hsame := hwf.output_unique _ _ _ _ _ hnode hnode'
  subst hsame
  rw [hnode] at hnode'
  injection hnode' with hnode'
  injection hnode'

end Attrs

/-! ## One sub-graph and the whole run -/

/-- The anchors stored before a place. -/
def producedBefore (g : FusedGraph) (place : ℕ) : Set OutAnchor :=
  {a | a.1 < place ∧ g.IsStored a}

/-- The reads of an anchor from a place on. -/
def remainingReads (g : FusedGraph) (place : ℕ) (a : OutAnchor) : ℕ :=
  (g.peerInAnchors a).countP fun p => place ≤ p.1

theorem remainingReads_succ_le (place : ℕ) (a : OutAnchor) :
    remainingReads g (place + 1) a ≤ remainingReads g place a := by
  refine countP_mono_left fun p _ hp => ?_
  simp only [decide_eq_true_eq] at hp ⊢
  omega

/-- The reads at a place are among those to come. -/
theorem remainingReads_split (hwf : g.WellFormed) {place : ℕ} {indices : List ℤ}
    (hnodup : indices.Nodup) (a : OutAnchor) :
    remainingReads g (place + 1) a + indices.countP (fun i => g.inputAt place i = some a)
      ≤ remainingReads g place a := by
  have hhere : indices.countP (fun i => g.inputAt place i = some a)
      ≤ (g.peerInAnchors a).countP fun p => p.1 = place := by
    rw [countP_eq_length_filter, countP_eq_length_filter]
    have hsub : (indices.filter fun i => g.inputAt place i = some a).map (fun i => (place, i))
        ⊆ (g.peerInAnchors a).filter fun p => p.1 = place := by
      intro p hp
      rcases List.mem_map.mp hp with ⟨i, hi, rfl⟩
      have hinput : g.inputAt place i = some a := by simpa using (mem_filter.mp hi).2
      exact mem_filter.mpr ⟨(hwf.mem_peers a (place, i)).mpr hinput, by simp⟩
    have hmapNodup : ((indices.filter fun i => g.inputAt place i = some a).map
        fun i => (place, i)).Nodup :=
      (hnodup.filter _).map fun i j heq => congrArg Prod.snd heq
    have hle := (hmapNodup.subperm hsub).length_le
    simpa using hle
  have hsplit : ∀ peers : List (ℕ × ℤ), peers.countP (fun p => place + 1 ≤ p.1)
      + peers.countP (fun p => p.1 = place) = peers.countP fun p => place ≤ p.1 := by
    intro peers
    induction peers with
    | nil => rfl
    | cons p rest ih =>
      simp only [countP_cons, decide_eq_true_eq]
      split <;> split <;> split <;> omega
  have hcount := hsplit (g.peerInAnchors a)
  unfold remainingReads
  omega

/-- What one rewritten sub-graph does, given the buffers it starts from. -/
structure PlanKept (g : FusedGraph) (mem : Memory) (plan : SubPlan) : Prop where
  complete : plan.Complete g
  reads : ∀ read ∈ plan.reads, ReadsSource g plan.place mem read.1 read.2
  apart : ∀ read ∈ plan.reads, ∀ write ∈ plan.writes, read.2 ≠ write.2

/-- Nothing is stored or free at the start. -/
theorem workspaceInv_start : WorkspaceInv attrs (producedBefore g 0) (remainingReads g 0)
    { outAnchorAttr := attrs } (runPlans []) := by
  have hnone : ∀ a, a ∉ producedBefore g 0 := fun a ha => Nat.not_lt_zero _ ha.1
  refine ⟨fun _ => rfl, fun _ _ => rfl, le_refl _, by simp, by simp, ?_, ?_, ?_, ?_, ?_⟩
  · exact fun a ha => absurd ha (hnone a)
  · exact fun a ha => absurd ha (hnone a)
  · exact fun a ha => absurd ha (hnone a)
  · exact fun a ha => absurd ha (hnone a)
  · intro idx a hmem
    cases hmem

theorem runPlans_append (before after : List SubPlan) :
    runPlans (before ++ after) = after.foldl (fun mem plan => plan.execute mem) (runPlans before) :=
  foldl_append

section Run

variable (hwf : g.WellFormed) (hattrs : g.initAscbcOutAnchorAttr = some attrs)

include hwf hattrs

theorem remainingReads_le_depends {inputs : List (Option OutAnchor)} {outNum : ℕ}
    {graph : SubGraph} (hnode : g.nodes[a.1]? = some (.ascBackend inputs outNum graph)) (place : ℕ) :
    remainingReads g place a = 0 ∨ (remainingReads g place a : ℤ) ≤ (attrs a).depends := by
  by_cases ha : a ∈ g.ascBackendAnchors
  · refine .inr ?_
    rw [(attrs_of_anchor hattrs ha).2]
    exact_mod_cast countP_le_length
  · -- an anchor that does not exist feeds no input
    refine .inl (countP_eq_zero.mpr fun p hp => ?_)
    have hinput := (hwf.mem_peers a p).mp hp
    rcases hwf.source _ _ _ hinput with ⟨irIdx, hdata⟩ | hanchor
    · rw [hnode] at hdata
      cases hdata
    · exact absurd hanchor.1 ha

/-- One sub-graph keeps the invariant. -/
theorem processNode_kept {place : ℕ} {inputs : List (Option OutAnchor)} {outNum : ℕ}
    {graph : SubGraph} (hnode : g.nodes[place]? = some (.ascBackend inputs outNum graph))
    {s s' : ModifierState} {mem : Memory} {plan : SubPlan}
    (h : WorkspaceInv attrs (producedBefore g place) (remainingReads g place) s mem)
    (hrun : processNode g place graph s = some (plan, s')) :
    WorkspaceInv attrs (producedBefore g (place + 1)) (remainingReads g (place + 1)) s'
      (plan.execute mem) ∧ plan.place = place ∧ PlanKept g mem plan := by
  simp only [processNode, bind_eq_bind, bind_eq_some_iff, Prod.exists,
    Option.pure_def, Option.some.injEq, Prod.mk.injEq] at hrun
  rcases hrun with ⟨reads, mid, hreads, writes, last, hwrites, rfl, rfl⟩
  have hstart : WorkspaceInv attrs (producedBefore g place) (remainingReads g place)
      { s with dataUsedIds := ∅ } mem :=
    ⟨h.linked, h.fresh, h.max_nonneg, h.free_lt, by simp, h.used_lt, h.depends, h.live, h.stored,
      h.outputs⟩
  have hsource : ∀ i ∈ graph.dataIndices, ∀ a, g.inputAt place i = some a →
      (∃ irIdx, g.nodes[a.1]? = some (.data irIdx)) ∨ a ∈ producedBefore g place := by
    intro i _ a hinput
    rcases hwf.source _ _ _ hinput with hdata | hanchor
    · exact .inl hdata
    · exact .inr ⟨hwf.source_lt _ _ _ hinput, hanchor.2⟩
  have hdata := (hstart.mono fun a =>
    remainingReads_split hwf (hwf.dataIndices_nodup _ _ _ _ hnode) a).reads graph.dataIndices
      hsource hreads
  have hnew : ∀ k ∈ graph.outputIndices, (place, k) ∉ producedBefore g place :=
    fun k _ hmem => Nat.lt_irrefl _ hmem.1
  have hout := hdata.1.writes (fun k => remainingReads_le_depends hwf hattrs hnode (place + 1))
    (linked_inj hattrs hwf) graph.outputIndices (hwf.outputIndices_nodup _ _ _ _ hnode) hnew hwrites
  have hproduced : producedBefore g place ∪ {a | a.1 = place ∧ a.2 ∈ graph.outputIndices}
      = producedBefore g (place + 1) := by
    ext a
    constructor
    · intro ha
      rcases ha with ha | ⟨rfl, ha⟩
      · exact ⟨Nat.lt_succ_of_lt ha.1, ha.2⟩
      · exact ⟨Nat.lt_succ_self _, inputs, outNum, graph, hnode, ha⟩
    · intro ha
      rcases Nat.lt_succ_iff_lt_or_eq.mp ha.1 with hlt | heq
      · exact .inl ⟨hlt, ha.2⟩
      · rcases ha.2 with ⟨inputs', outNum', graph', hnode', hmem⟩
        rw [heq, hnode] at hnode'
        cases hnode'
        exact .inr ⟨heq, hmem⟩
  rw [hproduced] at hout
  refine ⟨hout.1, rfl, ⟨inputs, outNum, graph, hnode, hdata.2.1, hout.2.1⟩,
    fun read hread => (hdata.2.2.2 read hread).1, ?_⟩
  intro read hread write hwrite hsame
  have hapart := hout.2.2 write hwrite
  have hread' := hdata.2.2.2 read hread
  rw [hsame] at hread'
  cases hbuffer : write.2 with
  | input idx => exact hapart.2.1 idx hbuffer
  | workspace id => exact hapart.1 id hbuffer (hread'.2 id hbuffer)
  | output idx =>
    -- the graph output that is read belongs to an earlier sub-graph
    rcases hread'.1 with ⟨a, hinput, hdataSource, hvalue⟩
    have hlinkedW := hapart.2.2 idx hbuffer
    by_cases hisData : ∃ irIdx, g.nodes[a.1]? = some (.data irIdx)
    · rcases hisData with ⟨irIdx, hisData⟩
      exact hapart.2.1 irIdx (hdataSource irIdx hisData)
    have hmem := hvalue fun irIdx heq => hisData ⟨irIdx, heq⟩
    rw [hbuffer] at hmem
    have hlinkedA := h.outputs idx a hmem
    have heq := linked_inj hattrs hwf (place, write.1) a (hlinkedA.2 ▸ hlinkedA.1)
      (hlinkedA.2.trans hlinkedW.2.symm)
    have hlt := hwf.source_lt _ _ _ hinput
    rw [heq] at hlt
    exact Nat.lt_irrefl _ hlt

/-- The run over the nodes from a place on. -/
theorem processNodes_kept : ∀ (rest : List FusedNode) {place : ℕ} {s : ModifierState}
    {before plans : List SubPlan}, g.nodes.drop place = rest →
    WorkspaceInv attrs (producedBefore g place) (remainingReads g place) s (runPlans before) →
    processNodes g rest place s = some plans →
    (∀ mid plan after, plans = mid ++ plan :: after → PlanKept g (runPlans (before ++ mid)) plan) ∧
      plans.map (·.place) = ascBackendPlaces rest place ∧
      ∃ s', WorkspaceInv attrs (producedBefore g (place + rest.length))
        (remainingReads g (place + rest.length)) s' (runPlans (before ++ plans)) := by
  intro rest
  induction rest with
  | nil =>
    intro place s before plans _ h hrun
    injection hrun with hrun
    subst hrun
    refine ⟨?_, rfl, s, by simpa using h⟩
    intro mid plan after heq
    simp at heq
  | cons node rest ih =>
    intro place s before plans hdrop h hrun
    have hget : g.nodes[place]? = some node := by
      have hhead := congrArg head? hdrop
      simpa using hhead
    have hdrop' : g.nodes.drop (place + 1) = rest := by
      rw [← drop_drop, hdrop]
      rfl
    have hlen : place + (node :: rest).length = place + 1 + rest.length := by
      rw [length_cons]
      omega
    rw [hlen]
    -- a node of another kind stores nothing
    have hother : (∀ inputs outNum graph, node ≠ .ascBackend inputs outNum graph) →
        WorkspaceInv attrs (producedBefore g (place + 1)) (remainingReads g (place + 1)) s
          (runPlans before) := by
      intro hkind
      have hproduced : producedBefore g (place + 1) = producedBefore g place := by
        ext a
        constructor
        · intro ha
          rcases Nat.lt_succ_iff_lt_or_eq.mp ha.1 with hlt | heq
          · exact ⟨hlt, ha.2⟩
          · rcases ha.2 with ⟨inputs, outNum, graph, hnode, _⟩
            rw [heq, hget] at hnode
            exact absurd (some.inj hnode) (hkind inputs outNum graph)
        · intro ha
          exact ⟨Nat.lt_succ_of_lt ha.1, ha.2⟩
      rw [hproduced]
      exact h.mono (remainingReads_succ_le place)
    cases node with
    | data irIdx =>
      exact ih hdrop' (hother (by simp)) hrun
    | output irIdx source =>
      exact ih hdrop' (hother (by simp)) hrun
    | ascBackend inputs outNum graph =>
      simp only [processNodes, bind_eq_bind, bind_eq_some_iff, Prod.exists,
        Option.pure_def, some.injEq] at hrun
      rcases hrun with ⟨plan, s', hplan, plans', hplans, rfl⟩
      have hstep := processNode_kept hwf hattrs hget h hplan
      have hmem : runPlans (before ++ [plan]) = plan.execute (runPlans before) := by
        rw [runPlans_append]
        rfl
      rw [← hmem] at hstep
      have hrec := ih hdrop' hstep.1 hplans
      refine ⟨?_, ?_, ?_⟩
      · intro mid plan' after heq
        cases mid with
        | nil =>
          injection heq with hhead _
          subst hhead
          rw [append_nil]
          exact hstep.2.2
        | cons first mid =>
          injection heq with hhead htail
          subst hhead
          have hkept := hrec.1 mid plan' after htail
          rwa [append_assoc] at hkept
      · rw [map_cons, hrec.2.1, hstep.2.1]
        rfl
      · rcases hrec.2.2 with ⟨last, hlast⟩
        rw [append_assoc] at hlast
        exact ⟨last, hlast⟩

/-- An anchor that only one Output takes is linked to it. -/
theorem linked_of_output {node : ℕ} {irIdx : ℤ} {source : OutAnchor}
    (hnode : g.nodes[node]? = some (.output irIdx source)) (hanchor : source ∈ g.ascBackendAnchors)
    (honly : ∀ (node' : ℕ) irIdx', g.nodes[node']? = some (.output irIdx' source) → node' = node) :
    0 ≤ (attrs source).linkedOutputIrIdx ∧ (attrs source).linkedOutputIrIdx = irIdx := by
  have hpeer : (node, (0 : ℤ)) ∈ g.peerInAnchors source :=
    (hwf.mem_peers source (node, 0)).mpr (by simp [FusedGraph.inputAt, hnode])
  rcases linkOutputs_cases _ (attrs_of_anchor hattrs hanchor).1 with
    ⟨-, hnone⟩ | ⟨p, hp, source', hnode', hpos⟩
  · exact absurd hnode (hnone _ hpeer irIdx source)
  have hinput := (hwf.mem_peers source p).mp hp
  simp only [FusedGraph.inputAt, hnode'] at hinput
  split at hinput
  · injection hinput with hinput
    subst hinput
    have hsame := honly _ _ hnode'
    rw [hsame, hnode] at hnode'
    injection hnode' with hnode'
    injection hnode' with hirIdx
    exact ⟨hpos, hirIdx.symm⟩
  · cases hinput

omit hattrs in
/-- The rewritten graph keeps its values exactly when every Output has an anchor of a sub-graph to
itself. -/
theorem valuesKept_iff {plans : List SubPlan}
    (hrun : subgraphConnectionsToWorkspace g = some plans) :
    ValuesKept g plans ↔ g.OutputsApart := by
  simp only [subgraphConnectionsToWorkspace, bind_eq_bind, bind_eq_some_iff] at hrun
  rcases hrun with ⟨attrs, hattrs, hrun⟩
  have hall := processNodes_kept hwf hattrs g.nodes rfl workspaceInv_start hrun
  rcases hall with ⟨hplans, hplaces, last, hlast⟩
  rw [Nat.zero_add] at hlast
  simp only [nil_append] at hplans hlast
  constructor
  · intro hkept node irIdx source hnode
    have hvalue := hlast.outputs _ _ (hkept.outputs node irIdx source hnode)
    have hlinked : 0 ≤ (attrs source).linkedOutputIrIdx := hvalue.2 ▸ hvalue.1
    rcases mem_ascBackendAnchors.mp (exists_output_of_linked hattrs hwf hlinked).1 with
      ⟨inputs, outNum, graph, hsource, -⟩
    refine ⟨fun irIdx' hdata => ?_, fun node' irIdx' hnode' => ?_⟩
    · rw [hsource] at hdata
      cases hdata
    · -- both Outputs have the index the anchor is linked to
      have hvalue' := hlast.outputs _ _ (hkept.outputs node' irIdx' source hnode')
      have hsame : irIdx' = irIdx := hvalue'.2.symm.trans hvalue.2
      subst hsame
      exact hwf.output_unique _ _ _ _ _ hnode' hnode
  · intro hapart
    refine ⟨hplaces, ?_, fun before plan after heq => (hplans before plan after heq).reads, ?_, ?_⟩
    · intro plan hplan
      rcases append_of_mem hplan with ⟨before, after, heq⟩
      exact (hplans before plan after heq).complete
    · intro plan hplan
      rcases append_of_mem hplan with ⟨before, after, heq⟩
      exact (hplans before plan after heq).apart
    · intro node irIdx source hnode
      rcases hapart node irIdx source hnode with ⟨hnotData, honly⟩
      have hinput : g.inputAt node 0 = some source := by simp [FusedGraph.inputAt, hnode]
      have hanchor : source ∈ g.ascBackendAnchors ∧ g.IsStored source := by
        rcases hwf.source _ _ _ hinput with ⟨irIdx', hdata⟩ | hanchor
        · exact absurd hdata (hnotData irIdx')
        · exact hanchor
      have hlinked := linked_of_output hwf hattrs hnode hanchor.1 honly
      have hproduced : source ∈ producedBefore g g.nodes.length := by
        have hlt := hwf.source_lt _ _ _ hinput
        have hnodeLt := (List.getElem?_eq_some_iff.mp hnode).1
        exact ⟨hlt.trans hnodeLt, hanchor.2⟩
      have hstored := hlast.stored source hproduced hlinked.1
      rwa [hlinked.2] at hstored

end Run

/-! ## Graphs whose edges were added in node order -/

variable (nodes : List FusedNode)

/-- The inputs of the nodes, in node order. -/
def allInputs : List (ℕ × ℤ) :=
  nodes.zipIdx.flatMap fun (node, place) =>
    match node with
    | .ascBackend inputs _ _ => (range inputs.length).map fun i : ℕ => (place, (i : ℤ))
    | .output _ _ => [(place, 0)]
    | .data _ => []

def FusedGraph.ofNodes : FusedGraph where
  nodes := nodes
  peerInAnchors a := (allInputs nodes).filter fun p =>
    (FusedGraph.mk nodes fun _ => []).inputAt p.1 p.2 = some a

theorem mem_allInputs {nodes : List FusedNode} {place : ℕ} {index : ℤ}
    (h : (FusedGraph.ofNodes nodes).inputAt place index = some a) :
    (place, index) ∈ allInputs nodes := by
  simp only [FusedGraph.inputAt, FusedGraph.ofNodes] at h
  simp only [allInputs, mem_flatMap, Prod.exists, mem_zipIdx_iff_getElem?]
  split at h
  · next inputs outNum graph hnode =>
    split at h
    · next hpos =>
      refine ⟨_, place, hnode, List.mem_map.mpr ⟨index.toNat, ?_, ?_⟩⟩
      · rw [mem_range]
        by_contra hge
        rw [getElem?_eq_none (not_lt.mp hge)] at h
        cases h
      · rw [Int.toNat_of_nonneg hpos]
    · cases h
  · next irIdx source hnode =>
    split at h
    · next hzero => exact ⟨_, place, hnode, by simp [hzero]⟩
    · cases h
  · cases h

theorem allInputs_nodup : (allInputs nodes).Nodup := by
  unfold allInputs
  rw [nodup_flatMap]
  refine ⟨?_, ?_⟩
  · rintro ⟨node, place⟩ _
    cases node with
    | data irIdx => exact nodup_nil
    | output irIdx source => exact nodup_singleton _
    | ascBackend inputs outNum graph =>
      refine nodup_range.map fun i j heq => ?_
      have hij : (i : ℤ) = j := congrArg Prod.snd heq
      exact_mod_cast hij
  · -- inputs of different nodes differ in their place
    have hplaces : nodes.zipIdx.Pairwise fun x y => x.2 ≠ y.2 := by
      have hsnd := pairwise_lt_range' (s := 0) (n := nodes.length)
      rw [← zipIdx_map_snd 0 nodes, pairwise_map] at hsnd
      exact hsnd.imp fun h => ne_of_lt h
    refine hplaces.imp fun {x y} hne => ?_
    have hplace : ∀ (x : FusedNode × ℕ) (p : ℕ × ℤ), (p ∈ match x.1 with
        | .ascBackend inputs _ _ => (range inputs.length).map fun i : ℕ => (x.2, (i : ℤ))
        | .output _ _ => [(x.2, 0)]
        | .data _ => []) → p.1 = x.2 := by
      rintro ⟨node, place⟩ p hp
      cases node <;> grind
    intro p hp hp'
    exact hne ((hplace x p hp).symm.trans (hplace y p hp'))

/-- An anchor that a node may read: a Data, or a stored output of a sub-graph. -/
def sourceExists (a : OutAnchor) : Bool :=
  match nodes[a.1]? with
  | some (.data _) => true
  | some (.ascBackend _ outNum graph) =>
    decide (0 ≤ a.2) && decide (a.2 < outNum) && decide (a.2 ∈ graph.outputIndices)
  | _ => false

def subGraphNumbered : FusedNode → Bool
  | .ascBackend _ _ graph => decide graph.dataIndices.Nodup && decide graph.outputIndices.Nodup
  | _ => true

def outputIndex? : FusedNode → Option ℤ
  | .output irIdx _ => some irIdx
  | _ => none

theorem ofNodes_wellFormed {nodes : List FusedNode}
    (hsource : (allInputs nodes).all (fun p => ((FusedGraph.ofNodes nodes).inputAt p.1 p.2).all
      fun a => decide (a.1 < p.1) && sourceExists nodes a) = true)
    (hsub : nodes.all subGraphNumbered = true) (houtputs : (nodes.filterMap outputIndex?).Nodup) :
    (FusedGraph.ofNodes nodes).WellFormed := by
  have hinput : ∀ node index a, (FusedGraph.ofNodes nodes).inputAt node index = some a →
      a.1 < node ∧ sourceExists nodes a = true := by
    intro node index a h
    have hall := List.all_eq_true.mp hsource _ (mem_allInputs h)
    rw [h] at hall
    simpa using hall
  have hgraph : ∀ {node : ℕ} {inputs outNum graph}, nodes[node]? = some (.ascBackend inputs outNum graph) →
      graph.dataIndices.Nodup ∧ graph.outputIndices.Nodup := by
    intro node inputs outNum graph hnode
    simpa [subGraphNumbered] using List.all_eq_true.mp hsub _ (mem_of_getElem? hnode)
  refine ⟨fun a => (allInputs_nodup nodes).filter _, ?_, fun node index a h => (hinput node index a h).1,
    ?_, fun _ _ _ _ hnode => (hgraph hnode).1, fun _ _ _ _ hnode => (hgraph hnode).2, ?_⟩
  · intro a inAnchor
    constructor
    · intro hmem
      exact of_decide_eq_true (mem_filter.mp hmem).2
    · intro h
      exact mem_filter.mpr ⟨mem_allInputs h, decide_eq_true h⟩
  · intro node index a h
    have hexists := (hinput node index a h).2
    unfold sourceExists at hexists
    split at hexists
    · next irIdx hnode => exact .inl ⟨irIdx, hnode⟩
    · next inputs outNum graph hnode =>
      simp only [Bool.and_eq_true, decide_eq_true_eq] at hexists
      exact .inr ⟨mem_ascBackendAnchors.mpr ⟨inputs, outNum, graph, hnode, hexists.1⟩,
        inputs, outNum, graph, hnode, hexists.2⟩
    · cases hexists
  · intro node node' irIdx source source' hnode hnode'
    by_contra hne
    have hpair := pairwise_iff_getElem.mp (pairwise_filterMap.mp houtputs)
    have hget : ∀ {i : ℕ} {src} (hi : nodes[i]? = some (.output irIdx src)),
        ∃ hlt : i < nodes.length, outputIndex? nodes[i] = some irIdx := by
      intro i src hi
      rcases List.getElem?_eq_some_iff.mp hi with ⟨hlt, heq⟩
      exact ⟨hlt, by rw [heq]; rfl⟩
    rcases hget hnode with ⟨hlt, hindex⟩
    rcases hget hnode' with ⟨hlt', hindex'⟩
    rcases Nat.lt_or_gt_of_ne hne with hij | hij
    · exact hpair _ _ hlt hlt' hij irIdx hindex irIdx hindex' rfl
    · exact hpair _ _ hlt' hlt hij irIdx hindex' irIdx hindex rfl

/-- Two sub-graphs that read both outputs of the first one, and a third workspace in between. -/
def fanOutNodes : List FusedNode :=
  [.data 0, .ascBackend [some (0, 0)] 2 ⟨[0], [0, 1]⟩,
    .ascBackend [some (1, 0), some (1, 1)] 1 ⟨[0, 1], [0]⟩,
    .ascBackend [some (2, 0), some (1, 0)] 1 ⟨[0, 1], [0]⟩,
    .ascBackend [some (3, 0)] 1 ⟨[0], [0]⟩, .output 0 (4, 0)]

/-- One output anchor for two graph outputs. -/
def twoOutputNodes : List FusedNode :=
  [.data 0, .ascBackend [some (0, 0)] 1 ⟨[0], [0]⟩, .output 0 (1, 0), .output 1 (1, 0)]

theorem fanOutNodes_wellFormed : (FusedGraph.ofNodes fanOutNodes).WellFormed :=
  ofNodes_wellFormed (by decide +kernel) (by decide +kernel) (by decide +kernel)

theorem valuesKept_iff_fanOut : ∃ plans,
    subgraphConnectionsToWorkspace (FusedGraph.ofNodes fanOutNodes) = some plans ∧
      ValuesKept (FusedGraph.ofNodes fanOutNodes) plans := by
  have hsome : (subgraphConnectionsToWorkspace (FusedGraph.ofNodes fanOutNodes)).isSome = true := by
    decide +kernel
  rcases isSome_iff_exists.mp hsome with ⟨plans, hrun⟩
  refine ⟨plans, hrun, (valuesKept_iff fanOutNodes_wellFormed hrun).mpr ?_⟩
  intro node irIdx source hnode
  have houtput : ∀ {i : ℕ} {idx : ℤ} {src : OutAnchor},
      fanOutNodes[i]? = some (.output idx src) → i = 5 ∧ src = (4, 0) := by
    intro i idx src hi
    rcases i with _ | _ | _ | _ | _ | _ | i <;> simp [fanOutNodes] at hi
    exact ⟨rfl, hi.2.symm⟩
  rcases houtput hnode with ⟨rfl, rfl⟩
  refine ⟨?_, fun node' irIdx' hnode' => (houtput hnode').1⟩
  intro irIdx' hdata
  simp [FusedGraph.ofNodes, fanOutNodes] at hdata

/-- The first of the two graph outputs is never stored. -/
theorem twoOutputNodes_lost : (FusedGraph.ofNodes twoOutputNodes).WellFormed ∧ ∃ plans,
    subgraphConnectionsToWorkspace (FusedGraph.ofNodes twoOutputNodes) = some plans ∧
      ¬ ValuesKept (FusedGraph.ofNodes twoOutputNodes) plans := by
  refine ⟨ofNodes_wellFormed (by decide +kernel) (by decide +kernel) (by decide +kernel), ?_⟩
  refine ⟨[⟨1, [(0, .input 0)], [(0, .output 1)]⟩], by decide +kernel, fun h => ?_⟩
  have hlost := h.outputs 2 0 (1, 0) rfl
  exact absurd hlost (by decide)

end GraphAutofusion.Autofuse
