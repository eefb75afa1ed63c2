import GraphAutofusion.GraphMetadef.FastNode
import GraphAutofusion.GraphMetadef.QuickList
import GraphAutofusion.Lib.SlotTable

/-!
# GraphMetadef.FastGraph — nodes and edges that are recycled

An edge is held by the list of the graph and by a slot at either end. Adding an edge records it at its
source first and takes that back when the destination refuses it. The bookkeeping is kept by every
operation except the move of an edge to a slot that is not empty.
-/

namespace GraphAutofusion.GraphMetadef

open Lib Function List Option

structure FastGraph where
  nodes : QuickLists
  edges : QuickLists
  node : ℕ → FastNode
  edge : ℕ → Edge

namespace FastGraph

def empty : FastGraph where
  nodes := QuickLists.empty
  edges := QuickLists.empty
  node := fun _ => FastNode.init false false 0 0
  edge := fun _ => { src := none, dst := none, srcOutput := -1, dstInput := -1, inEdgeIndex := -1,
                     outEdgeIndex := -1 }

def setNode (g : FastGraph) (x : ℕ) (n : FastNode) : FastGraph :=
  { g with node := update g.node x n }

def setEdge (g : FastGraph) (e : ℕ) (edge : Edge) : FastGraph :=
  { g with edge := update g.edge e edge }

/-! ## Nodes -/

def createOneNode (g : FastGraph) (isData : Bool) (ins outs : ℕ) : FastGraph × ℕ :=
  let (nodes, x) := g.nodes.take
  ({ g with nodes := nodes }.setNode x (FastNode.init (g.node x).hasNode isData ins outs), x)

/-- The element of a node that is made outside of the graph. -/
def newNode (g : FastGraph) (hasNode isData : Bool) (ins outs : ℕ) : FastGraph :=
  { g with nodes := { g.nodes with next := g.nodes.next + 1 } }.setNode g.nodes.next
    (FastNode.init hasNode isData ins outs)

def addNode (g : FastGraph) (x : ℕ) : FastGraph :=
  { g with nodes := (g.nodes.leave x).pushBack .kWorkMode x }

/-- The node comes behind a leading data node. -/
def addNodeFront (g : FastGraph) (x : ℕ) : FastGraph :=
  let left := g.nodes.leave x
  match left.work with
  | [] => { g with nodes := left.place .kWorkMode x [x] }
  | first :: rest =>
    if (g.node first).isData then { g with nodes := left.place .kWorkMode x (first :: x :: rest) }
    else { g with nodes := left.place .kWorkMode x (x :: first :: rest) }

def removeJustNode (g : FastGraph) (x : ℕ) : FastGraph × Bool :=
  if g.nodes.owner x = none then (g, false)
  else if g.nodes.owner x ≠ some .kWorkMode then
    (g, decide (g.nodes.mode x = .kFreeMode ∧ g.nodes.owner x ≠ none))
  else
    let erased := g.nodes.erase .kWorkMode x
    if (g.node x).hasNode then ({ g with nodes := erased }, true)
    else ({ g with nodes := erased.pushBack .kFreeMode x }, true)

/-! ## Edges -/

/-- An element that was taken from the lists is recorded at the source, then at the destination. -/
def recordBoth (g : FastGraph) (edges : QuickLists) (e : ℕ) (edge : Edge) (a b : ℕ) :
    FastGraph × Option ℕ :=
  match (g.node a).recordEdge e edge .kDirectionOutType with
  | (edge, none) => ({ g with edges := edges.pushBack .kFreeMode e }.setEdge e edge, none)
  | (edge, some n) =>
    let recorded := g.setNode a n
    match (recorded.node b).recordEdge e edge .kDirectionInType with
    | (edge, none) =>
      -- the source forgets the edge again
      let rolledBack := match (recorded.node a).eraseEdge e edge .kDirectionOutType with
        | some n => recorded.setNode a n
        | none => recorded
      ({ rolledBack with edges := edges.pushBack .kFreeMode e }.setEdge e edge, none)
    | (edge, some n) =>
      (({ recorded with edges := edges.pushBack .kWorkMode e }.setNode b n).setEdge e edge, some e)

def addEdge (g : FastGraph) (src : Option ℕ) (srcIndex : ℤ) (dst : Option ℕ) (dstIndex : ℤ) :
    FastGraph × Option ℕ :=
  match src, dst with
  | some a, some b =>
    if (srcIndex = kControlEdgeIndex ∧ dstIndex ≠ kControlEdgeIndex) ∨
        (srcIndex ≠ kControlEdgeIndex ∧ dstIndex = kControlEdgeIndex) then (g, none)
    else
      let e := g.edges.take.2
      g.recordBoth g.edges.take.1 e { g.edge e with
        src := some a, dst := some b, srcOutput := srcIndex, dstInput := dstIndex } a b
  | _, _ => (g, none)

def eraseSrc (g : FastGraph) (e : ℕ) : FastGraph :=
  match (g.edge e).src with
  | none => g
  | some a =>
    let erased := match (g.node a).eraseEdge e (g.edge e) .kDirectionOutType with
      | some n => g.setNode a n
      | none => g
    erased.setEdge e { g.edge e with src := none }

def eraseDst (g : FastGraph) (e : ℕ) : FastGraph :=
  match (g.edge e).dst with
  | none => g
  | some b =>
    let erased := match (g.node b).eraseEdge e (g.edge e) .kDirectionInType with
      | some n => g.setNode b n
      | none => g
    erased.setEdge e { g.edge e with dst := none }

def removeEdge (g : FastGraph) (e : ℕ) : FastGraph × Bool :=
  if g.edges.owner e ≠ some .kWorkMode then
    (g, decide (g.edges.mode e = .kFreeMode ∧ g.edges.owner e ≠ none))
  else
    let erased := (g.eraseSrc e).eraseDst e
    ({ erased with edges := (erased.edges.erase .kWorkMode e).pushBack .kFreeMode e }, true)

def recycleQuickEdge (g : FastGraph) (e : ℕ) : FastGraph :=
  { g with edges := (g.edges.leave e).pushBack .kFreeMode e }

def moveEdge (g : FastGraph) (x : ℕ) (type : DirectionType) (ioIdx curIndex replaceIndex : ℤ) :
    FastGraph × Bool :=
  match (g.node x).moveEdge type ioIdx curIndex replaceIndex with
  | none => (g, false)
  | some (n, none) => (g.setNode x n, true)
  | some (n, some e) =>
    let edge := match type with
      | .kDirectionInType => { g.edge e with inEdgeIndex := replaceIndex }
      | .kDirectionOutType => { g.edge e with outEdgeIndex := replaceIndex }
    ((g.setNode x n).setEdge e edge, true)

/-! ## Runs -/

/-- The operations with their arguments, `none` is a null pointer. -/
inductive GraphOp where
  | newNode (hasNode isData : Bool) (ins outs : ℕ)
  | addNodeOp (isData : Bool) (ins outs : ℕ)
  | addNode (x : Option ℕ)
  | addNodeFrontOp (isData : Bool) (ins outs : ℕ)
  | addNodeFront (x : Option ℕ)
  | removeJustNode (x : Option ℕ)
  | addEdge (src : Option ℕ) (srcIndex : ℤ) (dst : Option ℕ) (dstIndex : ℤ)
  | removeEdge (e : Option ℕ)
  | recycleQuickEdge (e : Option ℕ)
  | moveEdge (x : ℕ) (type : DirectionType) (ioIdx curIndex replaceIndex : ℤ)

/-- The state after an operation, and whether it succeeded. -/
def step (g : FastGraph) : GraphOp → FastGraph × Bool
  | .newNode hasNode isData ins outs => (g.newNode hasNode isData ins outs, true)
  | .addNodeOp isData ins outs =>
    let (g, x) := g.createOneNode isData ins outs
    (g.addNode x, true)
  | .addNode none => (g, false)
  | .addNode (some x) => (g.addNode x, true)
  | .addNodeFrontOp isData ins outs =>
    let (g, x) := g.createOneNode isData ins outs
    (g.addNodeFront x, true)
  | .addNodeFront none => (g, false)
  | .addNodeFront (some x) => (g.addNodeFront x, true)
  | .removeJustNode none => (g, false)
  | .removeJustNode (some x) => g.removeJustNode x
  | .addEdge src srcIndex dst dstIndex =>
    let (g, e) := g.addEdge src srcIndex dst dstIndex
    (g, e.isSome)
  | .removeEdge none => (g, false)
  | .removeEdge (some e) => g.removeEdge e
  | .recycleQuickEdge none => (g, false)
  | .recycleQuickEdge (some e) => (g.recycleQuickEdge e, true)
  | .moveEdge x type ioIdx curIndex replaceIndex => g.moveEdge x type ioIdx curIndex replaceIndex

/-- The operations so far, the latest first. -/
def run : List GraphOp → FastGraph
  | [] => empty
  | op :: ops => (step (run ops) op).1

/-! ## The bookkeeping -/

def StoredAt (g : FastGraph) (e : ℕ) : Prop :=
  ∃ a b, (g.edge e).src = some a ∧ (g.edge e).dst = some b ∧
    (g.node a).outSlot (g.edge e).srcOutput (g.edge e).outEdgeIndex = some e ∧
      (g.node b).inSlot (g.edge e).dstInput (g.edge e).inEdgeIndex = some e

/-- An edge is listed iff both ends store it where it says, the slots hold no other edges, and the
counters and owners are right. Nodes outside of the list have no edges. -/
structure Recorded (g : FastGraph) : Prop where
  listed : ∀ e, e ∈ g.edges.work ↔ StoredAt g e
  out_slot : ∀ x p k e, (g.node x).outSlot p k = some e → e ∈ g.edges.work ∧
    (g.edge e).src = some x ∧ (g.edge e).srcOutput = p ∧ (g.edge e).outEdgeIndex = k
  in_slot : ∀ x p k e, (g.node x).inSlot p k = some e → e ∈ g.edges.work ∧
    (g.edge e).dst = some x ∧ (g.edge e).dstInput = p ∧
      (p = kControlEdgeIndex → (g.edge e).inEdgeIndex = k)
  sound : ∀ x, (g.node x).Sound
  idle : ∀ x, x ∉ g.nodes.work → ∀ p k, (g.node x).outSlot p k = none ∧ (g.node x).inSlot p k = none
  node_lists : g.nodes.Consistent
  edge_lists : g.edges.Consistent

/-- Nodes, edges and counters are as they were. A slot without edge is as good as none. -/
structure Unchanged (g g' : FastGraph) : Prop where
  nodes : g'.nodes = g.nodes
  edges : g'.edges.work = g.edges.work
  edge : ∀ e ∈ g.edges.work, g'.edge e = g.edge e
  slots : ∀ x p k, (g'.node x).outSlot p k = (g.node x).outSlot p k ∧
    (g'.node x).inSlot p k = (g.node x).inSlot p k
  counters : ∀ x, (g'.node x).counters = (g.node x).counters

/-- A slot holds an edge exactly when the edge is listed and names the slot. -/
structure Kept (g : FastGraph) : Prop where
  out_iff : ∀ x p k e, (g.node x).outSlot p k = some e ↔ e ∈ g.edges.work ∧
    (g.edge e).src = some x ∧ (g.edge e).srcOutput = p ∧ (g.edge e).outEdgeIndex = k
  in_iff : ∀ x p k e, (g.node x).inSlot p k = some e ↔ e ∈ g.edges.work ∧
    (g.edge e).dst = some x ∧ (g.edge e).dstInput = p ∧
      (p = kControlEdgeIndex → (g.edge e).inEdgeIndex = k)
  ends : ∀ e ∈ g.edges.work, (∃ a, (g.edge e).src = some a) ∧ ∃ b, (g.edge e).dst = some b
  sound : ∀ x, (g.node x).Sound
  idle : ∀ x, x ∉ g.nodes.work → ∀ p k, (g.node x).outSlot p k = none ∧ (g.node x).inSlot p k = none
  node_lists : g.nodes.Consistent
  edge_lists : g.edges.Consistent

/-- A slot at a node: the node, the port and the index. -/
abbrev Place := ℕ × ℤ × ℤ

def outAt (g : FastGraph) (q : Place) : Option ℕ := (g.node q.1).outSlot q.2.1 q.2.2

def inAt (g : FastGraph) (q : Place) : Option ℕ := (g.node q.1).inSlot q.2.1 q.2.2

def OutHome (g : FastGraph) (e : ℕ) (q : Place) : Prop :=
  (g.edge e).src = some q.1 ∧ (g.edge e).srcOutput = q.2.1 ∧ (g.edge e).outEdgeIndex = q.2.2

def InHome (g : FastGraph) (e : ℕ) (q : Place) : Prop :=
  (g.edge e).dst = some q.1 ∧ (g.edge e).dstInput = q.2.1 ∧
    (q.2.1 = kControlEdgeIndex → (g.edge e).inEdgeIndex = q.2.2)

variable {g g' : FastGraph} {e : ℕ}

theorem Kept.out_holds (h : Kept g) : Holds g.outAt (· ∈ g.edges.work) g.OutHome :=
  fun q e => h.out_iff q.1 q.2.1 q.2.2 e

theorem Kept.in_holds (h : Kept g) : Holds g.inAt (· ∈ g.edges.work) g.InHome :=
  fun q e => h.in_iff q.1 q.2.1 q.2.2 e

/-- The two tables of slots, the ends of the edges and the lists. -/
theorem Kept.of_holds (hout : Holds g.outAt (· ∈ g.edges.work) g.OutHome)
    (hin : Holds g.inAt (· ∈ g.edges.work) g.InHome)
    (hends : ∀ e ∈ g.edges.work, (∃ a, (g.edge e).src = some a) ∧ ∃ b, (g.edge e).dst = some b)
    (hsound : ∀ x, (g.node x).Sound)
    (hidle : ∀ x, x ∉ g.nodes.work → ∀ p k, (g.node x).outSlot p k = none ∧
      (g.node x).inSlot p k = none)
    (hnodes : g.nodes.Consistent) (hedges : g.edges.Consistent) : Kept g where
  out_iff := fun x p k e => hout (x, p, k) e
  in_iff := fun x p k e => hin (x, p, k) e
  ends := hends
  sound := hsound
  idle := hidle
  node_lists := hnodes
  edge_lists := hedges

theorem outHome_of_edge (h : g'.edge e = g.edge e) (q : Place) : g'.OutHome e q ↔ g.OutHome e q := by
  unfold OutHome
  rw [h]

theorem inHome_of_edge (h : g'.edge e = g.edge e) (q : Place) : g'.InHome e q ↔ g.InHome e q := by
  unfold InHome
  rw [h]

theorem kept_iff_recorded : Kept g ↔ Recorded g := by
  constructor
  · intro h
    refine ⟨fun e => ⟨fun he => ?_, ?_⟩, fun x p k e => (h.out_iff x p k e).mp,
      fun x p k e => (h.in_iff x p k e).mp, h.sound, h.idle, h.node_lists, h.edge_lists⟩
    · obtain ⟨⟨a, ha⟩, b, hb⟩ := h.ends e he
      exact ⟨a, b, ha, hb, (h.out_iff _ _ _ _).mpr ⟨he, ha, rfl, rfl⟩,
        (h.in_iff _ _ _ _).mpr ⟨he, hb, rfl, fun _ => rfl⟩⟩
    · rintro ⟨a, b, -, -, hout, -⟩
      exact ((h.out_iff _ _ _ _).mp hout).1
  · intro h
    refine ⟨fun x p k e => ⟨h.out_slot x p k e, ?_⟩, fun x p k e => ⟨h.in_slot x p k e, ?_⟩,
      fun e he => ?_, h.sound, h.idle, h.node_lists, h.edge_lists⟩
    · rintro ⟨he, hsrc, rfl, rfl⟩
      obtain ⟨a, b, ha, -, hout, -⟩ := (h.listed e).mp he
      rw [hsrc] at ha
      rw [some.inj ha]
      exact hout
    · rintro ⟨he, hdst, rfl, hindex⟩
      obtain ⟨a, b, -, hb, -, hin⟩ := (h.listed e).mp he
      rw [hdst] at hb
      rw [some.inj hb]
      -- the index matters for control edges only
      unfold FastNode.inSlot at hin ⊢
      split
      · rename_i hcontrol
        rw [if_pos hcontrol] at hin
        rw [← hindex hcontrol]
        exact hin
      · rename_i hcontrol
        rw [if_neg hcontrol] at hin
        exact hin
    · obtain ⟨a, b, ha, hb, -⟩ := (h.listed e).mp he
      exact ⟨⟨a, ha⟩, b, hb⟩

/-! ## One node is replaced -/

section SetNode

variable {x : ℕ} {n : FastNode}

theorem node_setNode (y : ℕ) : (g.setNode x n).node y = if y = x then n else g.node y :=
  update_apply _ _ _ _

theorem sound_setNode (hsound : ∀ y, (g.node y).Sound) (hn : n.Sound) (y : ℕ) :
    ((g.setNode x n).node y).Sound := by
  rw [node_setNode]
  split
  · exact hn
  · exact hsound y

theorem slot_setNode (slot : FastNode → ℤ → ℤ → Option ℕ)
    (h : ∀ p k, slot n p k = slot (g.node x) p k) (y : ℕ) (p k : ℤ) :
    slot ((g.setNode x n).node y) p k = slot (g.node y) p k := by
  rw [node_setNode]
  split
  · next hy => rw [h, hy]
  · rfl

theorem slot_setNode_ite (slot : FastNode → ℤ → ℤ → Option ℕ) {c : ℤ → ℤ → Prop}
    [∀ p k, Decidable (c p k)] {v : ℤ → ℤ → Option ℕ}
    (h : ∀ p k, slot n p k = if c p k then v p k else slot (g.node x) p k) (y : ℕ) (p k : ℤ) :
    slot ((g.setNode x n).node y) p k = if y = x ∧ c p k then v p k else slot (g.node y) p k := by
  rw [node_setNode]
  by_cases hy : y = x
  · rw [if_pos hy, h, hy]
    simp only [true_and]
  · rw [if_neg hy, if_neg fun h => hy h.1]

/-- The slots of the graph when the node moves an edge between two slots of one port. -/
theorem slot_setNode_moved (slot : FastNode → ℤ → ℤ → Option ℕ) {io cur rep : ℤ}
    (h : ∀ p k, slot n p k = if p = io then
        if k = cur then none else if k = rep then slot (g.node x) io cur else slot (g.node x) io k
      else slot (g.node x) p k) (q : Place) :
    slot ((g.setNode x n).node q.1) q.2.1 q.2.2 = if q = (x, io, cur) then none
      else if q = (x, io, rep) then slot (g.node x) io cur else slot (g.node q.1) q.2.1 q.2.2 := by
  rcases q with ⟨y, p, k⟩
  rw [slot_setNode_ite slot h]
  by_cases hyp : y = x ∧ p = io
  · rw [if_pos hyp, hyp.1, hyp.2]
    simp only [Prod.mk.injEq, true_and]
  · rw [if_neg hyp, if_neg, if_neg]
    · intro heq
      exact hyp ⟨congrArg Prod.fst heq, congrArg (·.2.1) heq⟩
    · intro heq
      exact hyp ⟨congrArg Prod.fst heq, congrArg (·.2.1) heq⟩

end SetNode

/-! ## Operations on nodes -/

section

variable (h : Kept g)
include h

/-- What happens to the lists of nodes leaves the edges alone. -/
theorem Kept.of_nodes (hedges : g'.edges = g.edges) (hedge : g'.edge = g.edge)
    (hslots : ∀ x p k, (g'.node x).outSlot p k = (g.node x).outSlot p k ∧
      (g'.node x).inSlot p k = (g.node x).inSlot p k)
    (hsound : ∀ x, (g'.node x).Sound)
    (hidle : ∀ x, x ∉ g'.nodes.work → ∀ p k, (g.node x).outSlot p k = none ∧
      (g.node x).inSlot p k = none)
    (hlists : g'.nodes.Consistent) : Kept g' where
  out_iff := fun x p k e => by
    rw [(hslots x p k).1, hedges, hedge]
    exact h.out_iff x p k e
  in_iff := fun x p k e => by
    rw [(hslots x p k).2, hedges, hedge]
    exact h.in_iff x p k e
  ends := by
    rw [hedges, hedge]
    exact h.ends
  sound := hsound
  idle := fun x hx p k => by
    rw [(hslots x p k).1, (hslots x p k).2]
    exact hidle x hx p k
  node_lists := hlists
  edge_lists := hedges ▸ h.edge_lists

/-- A node without edges is set up. -/
theorem Kept.init_node {nodes : QuickLists} {x : ℕ} (hasNode isData : Bool) (ins outs : ℕ)
    (hx : x ∉ g.nodes.work) (hwork : nodes.work = g.nodes.work) (hlists : nodes.Consistent) :
    Kept ({ g with nodes := nodes }.setNode x (FastNode.init hasNode isData ins outs)) := by
  have hnode : ∀ y, (({ g with nodes := nodes } : FastGraph).setNode x
      (FastNode.init hasNode isData ins outs)).node y
        = if y = x then FastNode.init hasNode isData ins outs else g.node y := fun y =>
    update_apply _ _ _ _
  refine h.of_nodes rfl rfl (fun y p k => ?_) (fun y => ?_) (fun y hy => ?_) hlists
  · rw [hnode]
    split
    · rename_i hyx
      have hold := h.idle x hx p k
      rw [hyx, FastNode.outSlot_init, FastNode.inSlot_init, hold.1, hold.2]
      exact ⟨rfl, rfl⟩
    · exact ⟨rfl, rfl⟩
  · rw [hnode]
    split
    · exact FastNode.sound_init hasNode isData ins outs
    · exact h.sound y
  · exact h.idle y (hwork ▸ hy)

theorem Kept.newNode (hasNode isData : Bool) (ins outs : ℕ) :
    Kept (g.newNode hasNode isData ins outs) := by
  have hnew : g.nodes.next ∉ g.nodes.work := fun hmem => by
    have howner := (h.node_lists.owned .kWorkMode _).mp hmem
    have hlt := h.node_lists.allocated g.nodes.next (by rw [howner]; exact Option.some_ne_none _)
    exact Nat.lt_irrefl _ hlt
  have hlists : ({ g.nodes with next := g.nodes.next + 1 } : QuickLists).Consistent :=
    ⟨h.node_lists.owned, h.node_lists.nodup, h.node_lists.moded,
      fun y hy => Nat.lt_succ_of_lt (h.node_lists.allocated y hy)⟩
  exact h.init_node hasNode isData ins outs hnew rfl hlists

theorem Kept.createOneNode (isData : Bool) (ins outs : ℕ) :
    Kept (g.createOneNode isData ins outs).1 ∧
      (g.createOneNode isData ins outs).2 < (g.createOneNode isData ins outs).1.nodes.next := by
  obtain ⟨hlists, -, hlt, -, hnew, hwork⟩ := h.node_lists.take
  exact ⟨h.init_node _ isData ins outs hnew hwork hlists, hlt⟩

/-- A node of the lists is put somewhere into the list of the graph. -/
theorem Kept.place_node {x : ℕ} (hx : x < g.nodes.next) {xs : List ℕ}
    (hmem : ∀ y, y ∈ xs ↔ y = x ∨ y ∈ (g.nodes.leave x).work) (hnodup : xs.Nodup) :
    Kept { g with nodes := (g.nodes.leave x).place .kWorkMode x xs } := by
  obtain ⟨hleft, hfree, hitems⟩ := @QuickLists.Consistent.leave _ x h.node_lists
  rw [← QuickLists.next_leave] at hx
  refine h.of_nodes rfl rfl (fun _ _ _ => ⟨rfl, rfl⟩) h.sound (fun y hy => ?_)
    (hleft.place hfree hx hmem hnodup)
  have hy : y ∉ xs := hy
  rw [hmem] at hy
  refine h.idle y fun hwork => hy ?_
  by_cases hyx : y = x
  · exact .inl hyx
  · exact .inr ((hitems .kWorkMode y).mpr ⟨hyx, hwork⟩)

theorem not_mem_leave (x : ℕ) : x ∉ (g.nodes.leave x).work := fun hmem =>
  (((h.node_lists.leave).2.2 .kWorkMode x).mp hmem).1 rfl

theorem Kept.addNode {x : ℕ} (hx : x < g.nodes.next) : Kept (g.addNode x) := by
  refine h.place_node hx (fun y => ?_) ?_
  · rw [mem_append, mem_singleton]
    exact or_comm
  · rw [nodup_append]
    refine ⟨(h.node_lists.leave).1.nodup .kWorkMode, nodup_singleton x, fun a ha b hb hab => ?_⟩
    rw [hab, mem_singleton.mp hb] at ha
    exact not_mem_leave h x ha

theorem Kept.addNodeFront {x : ℕ} (hx : x < g.nodes.next) : Kept (g.addNodeFront x) := by
  have hnodup : (g.nodes.leave x).work.Nodup := (h.node_lists.leave).1.nodup .kWorkMode
  have hnew := not_mem_leave h x
  have hplace := fun xs => @Kept.place_node g h x hx xs
  unfold FastGraph.addNodeFront
  simp only
  split
  · rename_i hwork
    rw [hwork] at hplace
    exact hplace [x] (fun y => by simp) (nodup_singleton x)
  · rename_i first rest hwork
    rw [hwork] at hplace hnodup hnew
    split
    · refine hplace _ (fun y => ?_) ?_
      · simp only [mem_cons]
        tauto
      · simp only [nodup_cons, mem_cons, not_or] at hnodup hnew ⊢
        exact ⟨⟨fun h => hnew.1 h.symm, hnodup.1⟩, hnew.2, hnodup.2⟩
    · refine hplace _ (fun y => mem_cons) ?_
      exact nodup_cons.mpr ⟨hnew, hnodup⟩

theorem Kept.removeJustNode {x : ℕ}
    (hedges : x ∈ g.nodes.work → ∀ p k, (g.node x).outSlot p k = none ∧
      (g.node x).inSlot p k = none) : Kept (g.removeJustNode x).1 := by
  unfold FastGraph.removeJustNode
  split
  · exact h
  · split
    · exact h
    · rename_i hwork
      have hx := Decidable.of_not_not hwork
      have hidle : ∀ y, y ∉ (g.nodes.erase .kWorkMode x).work → ∀ p k,
          (g.node y).outSlot p k = none ∧ (g.node y).inSlot p k = none := by
        intro y hy
        by_cases hyx : y = x
        · rw [hyx]
          exact hedges ((h.node_lists.owned .kWorkMode x).mpr hx)
        · refine h.idle y fun hmem => hy ?_
          show y ∈ (g.nodes.erase .kWorkMode x).items .kWorkMode
          exact (h.node_lists.mem_erase hx).mpr ⟨hyx, hmem⟩
      have hlists := h.node_lists.erase hx
      simp only
      split
      · exact h.of_nodes rfl rfl (fun _ _ _ => ⟨rfl, rfl⟩) h.sound hidle hlists
      · refine h.of_nodes rfl rfl (fun _ _ _ => ⟨rfl, rfl⟩) h.sound (fun y hy => ?_) ?_
        · exact hidle y fun hmem => hy
            (@QuickLists.mem_pushBack _ .kFreeMode .kWorkMode _ _ |>.mpr (.inr hmem))
        · refine hlists.pushBack ?_ ?_
          · rw [QuickLists.Consistent.owner_erase hx, update_self]
          · rw [QuickLists.next_erase]
            exact h.node_lists.allocated x (by rw [hx]; exact some_ne_none _)

end

/-! ## Removing edges -/

theorem eraseSrc_spec {a : ℕ} (hsound : ∀ x, (g.node x).Sound) (hsrc : (g.edge e).src = some a)
    (hslot : (g.node a).outSlot (g.edge e).srcOutput (g.edge e).outEdgeIndex = some e) :
    (g.eraseSrc e).nodes = g.nodes ∧ (g.eraseSrc e).edges = g.edges ∧
      (g.eraseSrc e).edge = update g.edge e { g.edge e with src := none } ∧
      (∀ x, ((g.eraseSrc e).node x).Sound) ∧
      (∀ x p k, ((g.eraseSrc e).node x).inSlot p k = (g.node x).inSlot p k) ∧
      ∀ x p k, ((g.eraseSrc e).node x).outSlot p k
        = if x = a ∧ p = (g.edge e).srcOutput ∧ k = (g.edge e).outEdgeIndex then none
          else (g.node x).outSlot p k := by
  obtain ⟨n', herase, hcounted, hports, hin, hout⟩ := FastNode.eraseEdge_out (hsound a) hslot
  have hstate : g.eraseSrc e = (g.setNode a n').setEdge e { g.edge e with src := none } := by
    unfold eraseSrc
    rw [hsrc]
    simp only [herase]
  have hn : n'.Sound := (hsound a).of_slots hcounted hports
    (fun p k i h => by
      rw [hout] at h
      split at h
      · exact nomatch h
      · exact .inl ⟨k, i, h⟩)
    fun p k i h => .inl ⟨k, i, hin p k ▸ h⟩
  rw [hstate]
  exact ⟨rfl, rfl, rfl, sound_setNode hsound hn, slot_setNode FastNode.inSlot hin,
    slot_setNode_ite FastNode.outSlot hout⟩

theorem eraseDst_spec {b : ℕ} (hsound : ∀ x, (g.node x).Sound) (hdst : (g.edge e).dst = some b)
    (hslot : (g.node b).inSlot (g.edge e).dstInput (g.edge e).inEdgeIndex = some e) :
    (g.eraseDst e).nodes = g.nodes ∧ (g.eraseDst e).edges = g.edges ∧
      (g.eraseDst e).edge = update g.edge e { g.edge e with dst := none } ∧
      (∀ x, ((g.eraseDst e).node x).Sound) ∧
      (∀ x p k, ((g.eraseDst e).node x).outSlot p k = (g.node x).outSlot p k) ∧
      ∀ x p k, ((g.eraseDst e).node x).inSlot p k
        = if x = b ∧ p = (g.edge e).dstInput ∧
            (p = kControlEdgeIndex → k = (g.edge e).inEdgeIndex) then none
          else (g.node x).inSlot p k := by
  obtain ⟨n', herase, hcounted, hports, hout, hin⟩ := FastNode.eraseEdge_in (hsound b) hslot
  have hstate : g.eraseDst e = (g.setNode b n').setEdge e { g.edge e with dst := none } := by
    unfold eraseDst
    rw [hdst]
    simp only [herase]
  have hn : n'.Sound := (hsound b).of_slots hcounted hports
    (fun p k i h => .inl ⟨k, i, hout p k ▸ h⟩)
    fun p k i h => by
      rw [hin] at h
      split at h
      · exact nomatch h
      · exact .inl ⟨k, i, h⟩
  rw [hstate]
  exact ⟨rfl, rfl, rfl, sound_setNode hsound hn, slot_setNode FastNode.outSlot hout,
    slot_setNode_ite FastNode.inSlot hin⟩

theorem Kept.removeEdge (h : Kept g) : Kept (g.removeEdge e).1 := by
  unfold FastGraph.removeEdge
  split
  · exact h
  · rename_i howner
    have howner := Decidable.of_not_not howner
    have he : e ∈ g.edges.work := (h.edge_lists.owned .kWorkMode e).mpr howner
    obtain ⟨⟨a, ha⟩, b, hb⟩ := h.ends e he
    have hout := (h.out_iff a _ _ e).mpr ⟨he, ha, rfl, rfl⟩
    have hin := (h.in_iff b _ _ e).mpr ⟨he, hb, rfl, fun _ => rfl⟩
    obtain ⟨hn1, he1, hedge1, hsound1, hin1, hout1⟩ := eraseSrc_spec h.sound ha hout
    have hedge1e : (g.eraseSrc e).edge e = { g.edge e with src := none } := by
      rw [hedge1, update_self]
    have hb1 : ((g.eraseSrc e).edge e).dst = some b := by
      rw [hedge1e]
      exact hb
    have hslot1 : ((g.eraseSrc e).node b).inSlot ((g.eraseSrc e).edge e).dstInput
        ((g.eraseSrc e).edge e).inEdgeIndex = some e := by
      rw [hin1, hedge1e]
      exact hin
    obtain ⟨hn2, he2, hedge2, hsound2, hout2, hin2⟩ := eraseDst_spec hsound1 hb1 hslot1
    rw [hedge1e] at hin2
    have hlists := h.edge_lists.erase howner
    have hwork : ∀ i, i ∈ ((g.edges.erase .kWorkMode e).pushBack .kFreeMode e).work ↔
        i ≠ e ∧ i ∈ g.edges.work := by
      intro i
      have hpush := @QuickLists.mem_pushBack (g.edges.erase .kWorkMode e) .kFreeMode .kWorkMode e i
      have herase := @QuickLists.Consistent.mem_erase _ .kWorkMode .kWorkMode e i h.edge_lists howner
      refine hpush.trans ⟨fun h => ?_, fun h => .inr (herase.mpr h)⟩
      exact herase.mp (h.resolve_left fun h => nomatch h.1)
    have hedge : ∀ i, i ≠ e → ((g.eraseSrc e).eraseDst e).edge i = g.edge i := by
      intro i hi
      rw [hedge2, update_of_ne hi, hedge1, update_of_ne hi]
    have hedges : ((g.eraseSrc e).eraseDst e).edges = g.edges := he2.trans he1
    have hnodes : ((g.eraseSrc e).eraseDst e).nodes = g.nodes := hn2.trans hn1
    simp only [hedges]
    let final : FastGraph := { (g.eraseSrc e).eraseDst e with
      edges := (g.edges.erase .kWorkMode e).pushBack .kFreeMode e }
    -- the only slots that change are the two of the edge
    have houtFinal : Holds final.outAt (· ∈ final.edges.work) final.OutHome := by
      refine h.out_holds.erase he hwork (fun i hi => outHome_of_edge (hedge i hi)) (fun q hq => ?_)
        fun q hq => ?_
      · have hqa : q.1 = a := some.inj (hq.1.symm.trans ha)
        show (((g.eraseSrc e).eraseDst e).node q.1).outSlot q.2.1 q.2.2 = none
        rw [hout2, hout1, if_pos ⟨hqa, hq.2.1.symm, hq.2.2.symm⟩]
      · have hqa : ¬ (q.1 = a ∧ q.2.1 = (g.edge e).srcOutput ∧ q.2.2 = (g.edge e).outEdgeIndex) :=
          fun hhome => hq ⟨by rw [ha, hhome.1], hhome.2.1.symm, hhome.2.2.symm⟩
        show (((g.eraseSrc e).eraseDst e).node q.1).outSlot q.2.1 q.2.2 = _
        rw [hout2, hout1, if_neg hqa]
        rfl
    have hinFinal : Holds final.inAt (· ∈ final.edges.work) final.InHome := by
      refine h.in_holds.erase he hwork (fun i hi => inHome_of_edge (hedge i hi)) (fun q hq => ?_)
        fun q hq => ?_
      · have hqb : q.1 = b := some.inj (hq.1.symm.trans hb)
        show (((g.eraseSrc e).eraseDst e).node q.1).inSlot q.2.1 q.2.2 = none
        rw [hin2, if_pos ⟨hqb, hq.2.1.symm, fun hp => (hq.2.2 hp).symm⟩]
      · have hqb : ¬ (q.1 = b ∧ q.2.1 = (g.edge e).dstInput ∧
            (q.2.1 = kControlEdgeIndex → q.2.2 = (g.edge e).inEdgeIndex)) := fun hhome =>
          hq ⟨by rw [hb, hhome.1], hhome.2.1.symm, fun hp => (hhome.2.2 hp).symm⟩
        show (((g.eraseSrc e).eraseDst e).node q.1).inSlot q.2.1 q.2.2 = _
        rw [hin2, if_neg hqb, hin1]
        rfl
    refine @Kept.of_holds final houtFinal hinFinal (fun i hi => ?_) hsound2 (fun x hx p k => ?_)
      (hnodes ▸ h.node_lists) (hlists.pushBack ?_ ?_)
    · obtain ⟨hie, hi⟩ := (hwork i).mp hi
      show (∃ a, (((g.eraseSrc e).eraseDst e).edge i).src = some a) ∧
        ∃ b, (((g.eraseSrc e).eraseDst e).edge i).dst = some b
      rw [hedge i hie]
      exact h.ends i hi
    · have hx : x ∉ ((g.eraseSrc e).eraseDst e).nodes.work := hx
      rw [hnodes] at hx
      show (((g.eraseSrc e).eraseDst e).node x).outSlot p k = none ∧
        (((g.eraseSrc e).eraseDst e).node x).inSlot p k = none
      rw [hout2, hout1, hin2, hin1, (h.idle x hx p k).1, (h.idle x hx p k).2]
      exact ⟨ite_self _, ite_self _⟩
    · rw [QuickLists.Consistent.owner_erase howner, update_self]
    · rw [QuickLists.next_erase]
      exact h.edge_lists.allocated e (by rw [howner]; exact some_ne_none _)

theorem Kept.recycleQuickEdge (h : Kept g) (he : e ∈ g.edges.free) :
    Kept (g.recycleQuickEdge e) := by
  obtain ⟨hlists, hfree, hitems⟩ := @QuickLists.Consistent.leave _ e h.edge_lists
  have howner : g.edges.owner e = some .kFreeMode := (h.edge_lists.owned .kFreeMode e).mp he
  have hwork : ∀ i, i ∈ ((g.edges.leave e).pushBack .kFreeMode e).work ↔ i ∈ g.edges.work := by
    intro i
    have hpush := @QuickLists.mem_pushBack (g.edges.leave e) .kFreeMode .kWorkMode e i
    refine hpush.trans ⟨fun h => ?_, fun hi => .inr ((hitems .kWorkMode i).mpr ⟨?_, hi⟩)⟩
    · exact ((hitems .kWorkMode i).mp (h.resolve_left fun h => nomatch h.1)).2
    · intro hie
      have hwork := (h.edge_lists.owned .kWorkMode i).mp hi
      rw [hie, howner] at hwork
      exact nomatch hwork
  refine ⟨fun x p k i => ?_, fun x p k i => ?_, fun i hi => ?_, h.sound, h.idle, h.node_lists, ?_⟩
  · show _ ↔ i ∈ ((g.edges.leave e).pushBack .kFreeMode e).work ∧ _
    rw [hwork]
    exact h.out_iff x p k i
  · show _ ↔ i ∈ ((g.edges.leave e).pushBack .kFreeMode e).work ∧ _
    rw [hwork]
    exact h.in_iff x p k i
  · exact h.ends i ((hwork i).mp hi)
  · refine hlists.pushBack hfree ?_
    rw [QuickLists.next_leave]
    exact h.edge_lists.allocated e (by rw [howner]; exact some_ne_none _)

/-! ## Adding edges -/

/-- What an element says that is not listed does not matter. -/
theorem Kept.of_edges (h : Kept g) (hnodes : g'.nodes = g.nodes) (hlists : g'.edges.Consistent)
    (hwork : g'.edges.work = g.edges.work) (hedge : ∀ i ∈ g.edges.work, g'.edge i = g.edge i)
    (hslots : ∀ x p k, (g'.node x).outSlot p k = (g.node x).outSlot p k ∧
      (g'.node x).inSlot p k = (g.node x).inSlot p k)
    (hsound : ∀ x, (g'.node x).Sound) : Kept g' := by
  refine ⟨fun x p k i => ?_, fun x p k i => ?_, fun i hi => ?_, hsound, fun x hx p k => ?_,
    hnodes ▸ h.node_lists, hlists⟩
  · rw [(hslots x p k).1, hwork, h.out_iff]
    exact and_congr_right fun hi => by rw [hedge i hi]
  · rw [(hslots x p k).2, hwork, h.in_iff]
    exact and_congr_right fun hi => by rw [hedge i hi]
  · rw [hwork] at hi
    rw [hedge i hi]
    exact h.ends i hi
  · rw [hnodes] at hx
    rw [(hslots x p k).1, (hslots x p k).2]
    exact h.idle x hx p k

/-- An edge gets two slots that were empty. -/
theorem Kept.insert_edge {a b : ℕ} (h : Kept g) (hnodes : g'.nodes = g.nodes)
    (hlists : g'.edges.Consistent)
    (hwork : ∀ i, i ∈ g'.edges.work ↔ i = e ∨ i ∈ g.edges.work) (he : e ∉ g.edges.work)
    (hedge : ∀ i, i ≠ e → g'.edge i = g.edge i) (hsrc : (g'.edge e).src = some a)
    (hdst : (g'.edge e).dst = some b) (hsound : ∀ x, (g'.node x).Sound)
    (hout : ∀ x p k, (g'.node x).outSlot p k
      = if x = a ∧ p = (g'.edge e).srcOutput ∧ k = (g'.edge e).outEdgeIndex then some e
        else (g.node x).outSlot p k)
    (hin : ∀ x p k, (g'.node x).inSlot p k
      = if x = b ∧ p = (g'.edge e).dstInput ∧
          (p = kControlEdgeIndex → k = (g'.edge e).inEdgeIndex) then some e
        else (g.node x).inSlot p k)
    (hfreeOut : (g.node a).outSlot (g'.edge e).srcOutput (g'.edge e).outEdgeIndex = none)
    (hfreeIn : ∀ k, ((g'.edge e).dstInput = kControlEdgeIndex → k = (g'.edge e).inEdgeIndex) →
      (g.node b).inSlot (g'.edge e).dstInput k = none)
    (ha : a ∈ g.nodes.work) (hb : b ∈ g.nodes.work) : Kept g' := by
  have houtHome : ∀ q, g'.OutHome e q ↔ q.1 = a ∧ q.2.1 = (g'.edge e).srcOutput ∧
      q.2.2 = (g'.edge e).outEdgeIndex := fun q => by
    unfold OutHome
    rw [hsrc, some.injEq, eq_comm, @eq_comm _ q.2.1, @eq_comm _ q.2.2]
  have hinHome : ∀ q, g'.InHome e q ↔ q.1 = b ∧ q.2.1 = (g'.edge e).dstInput ∧
      (q.2.1 = kControlEdgeIndex → q.2.2 = (g'.edge e).inEdgeIndex) := fun q => by
    unfold InHome
    rw [hdst, some.injEq, eq_comm, @eq_comm _ q.2.1 (g'.edge e).dstInput,
      @eq_comm _ q.2.2]
  have houtHolds : Holds g'.outAt (· ∈ g'.edges.work) g'.OutHome := by
    refine h.out_holds.insert he hwork (fun i hi => outHome_of_edge (hedge i hi)) (fun q hq => ?_)
      (fun q hq => ?_) fun q hq => ?_
    · obtain ⟨h1, h2, h3⟩ := (houtHome q).mp hq
      show (g.node q.1).outSlot q.2.1 q.2.2 = none
      rw [h1, h2, h3, hfreeOut]
    · exact (hout q.1 q.2.1 q.2.2).trans (if_pos ((houtHome q).mp hq))
    · exact (hout q.1 q.2.1 q.2.2).trans (if_neg fun h => hq ((houtHome q).mpr h))
  have hinHolds : Holds g'.inAt (· ∈ g'.edges.work) g'.InHome := by
    refine h.in_holds.insert he hwork (fun i hi => inHome_of_edge (hedge i hi)) (fun q hq => ?_)
      (fun q hq => ?_) fun q hq => ?_
    · obtain ⟨h1, h2, h3⟩ := (hinHome q).mp hq
      show (g.node q.1).inSlot q.2.1 q.2.2 = none
      rw [h1, h2]
      exact hfreeIn q.2.2 fun hp => h3 (h2.trans hp)
    · exact (hin q.1 q.2.1 q.2.2).trans (if_pos ((hinHome q).mp hq))
    · exact (hin q.1 q.2.1 q.2.2).trans (if_neg fun h => hq ((hinHome q).mpr h))
  refine Kept.of_holds houtHolds hinHolds (fun i hi => ?_) hsound (fun x hx p k => ?_)
    (hnodes ▸ h.node_lists) hlists
  · by_cases hie : i = e
    · rw [hie]
      exact ⟨⟨a, hsrc⟩, b, hdst⟩
    · rw [hedge i hie]
      exact h.ends i (((hwork i).mp hi).resolve_left hie)
  · rw [hnodes] at hx
    have hxa : x ≠ a := fun hxa => hx (hxa ▸ ha)
    have hxb : x ≠ b := fun hxb => hx (hxb ▸ hb)
    rw [hout, hin, if_neg fun h => hxa h.1, if_neg fun h => hxb h.1]
    exact h.idle x hx p k

/-- The vectors that an edge is appended to have room for one more 32-bit index. -/
def HasRoom (g : FastGraph) (a : ℕ) (srcIndex : ℤ) (b : ℕ) (dstIndex : ℤ) : Prop :=
  (srcIndex = kControlEdgeIndex ↔ dstIndex = kControlEdgeIndex) →
    ((g.node a).outEdges srcIndex).length < 2 ^ 31 ∧
      (dstIndex = kControlEdgeIndex → (g.node b).inControlEdges.length < 2 ^ 31)

theorem recorded_outSlot {n n1 : FastNode} {edge edge1 : Edge} (hn : n.Sound)
    (hrec : n.recordEdge e edge .kDirectionOutType = (edge1, some n1))
    (hlen : (n.outEdges edge.srcOutput).length < 2 ^ 31) :
    n1.Sound ∧ edge1.srcOutput = edge.srcOutput ∧
      (∀ p k, n1.inSlot p k = n.inSlot p k) ∧
      n.outSlot edge.srcOutput edge1.outEdgeIndex = none ∧
        ∀ p k, n1.outSlot p k = if p = edge.srcOutput ∧ k = edge1.outEdgeIndex then some e
          else n.outSlot p k := by
  obtain ⟨hcounted, hports, hvalid, hedge1, hin, hout⟩ := FastNode.recordEdge_out hn.toCounted hrec
  have hindex : edge1.outEdgeIndex = (n.outEdges edge.srcOutput).length := by
    rw [hedge1]
    exact int32_of_lt hlen
  rw [hindex]
  refine ⟨hn.of_slots hcounted hports (fun p k i h => ?_) (fun p k i h => ?_), by rw [hedge1], hin,
    FastNode.outSlot_length n _, hout⟩
  · rw [hout] at h
    split at h
    · rename_i hhere
      rw [hhere.1]
      exact .inr hvalid
    · exact .inl ⟨k, i, h⟩
  · rw [hin] at h
    exact .inl ⟨k, i, h⟩

theorem recorded_inSlot {n n1 : FastNode} {edge edge1 : Edge} (hn : n.Sound)
    (hrec : n.recordEdge e edge .kDirectionInType = (edge1, some n1))
    (hlen : edge.dstInput = kControlEdgeIndex → n.inControlEdges.length < 2 ^ 31) :
    n1.Sound ∧ edge1 = { edge with inEdgeIndex := edge1.inEdgeIndex } ∧
      (∀ p k, n1.outSlot p k = n.outSlot p k) ∧
      (∀ k, (edge.dstInput = kControlEdgeIndex → k = edge1.inEdgeIndex) →
        n.inSlot edge.dstInput k = none) ∧
        ∀ p k, n1.inSlot p k = if p = edge.dstInput ∧
            (p = kControlEdgeIndex → k = edge1.inEdgeIndex) then some e else n.inSlot p k := by
  obtain ⟨hcounted, hports, hvalid, hedge1, hout, hempty, hin⟩ :=
    FastNode.recordEdge_in hn.toCounted hrec
  have hindex : edge.dstInput = kControlEdgeIndex →
      edge1.inEdgeIndex = n.inControlEdges.length := by
    intro hcontrol
    rw [hedge1]
    show (if edge.dstInput = kControlEdgeIndex then int32 n.inControlEdges.length else 0) = _
    rw [if_pos hcontrol, int32_of_lt (hlen hcontrol)]
  have hhome : ∀ p k : ℤ, (p = edge.dstInput ∧ (p = kControlEdgeIndex → k = n.inControlEdges.length)) ↔
      p = edge.dstInput ∧ (p = kControlEdgeIndex → k = edge1.inEdgeIndex) := by
    intro p k
    refine and_congr_right fun hp => forall_congr' fun hcontrol => ?_
    rw [hindex (hp ▸ hcontrol)]
  refine ⟨hn.of_slots hcounted hports (fun p k i h => ?_) (fun p k i h => ?_),
    by rw [hedge1], hout, fun k hk => ?_, fun p k => ?_⟩
  · rw [hout] at h
    exact .inl ⟨k, i, h⟩
  · rw [hin] at h
    split at h
    · rename_i hhere
      rw [hhere.1]
      exact .inr hvalid
    · exact .inl ⟨k, i, h⟩
  · by_cases hcontrol : edge.dstInput = kControlEdgeIndex
    · unfold FastNode.inSlot slotAt
      rw [if_pos hcontrol, hk hcontrol, hindex hcontrol]
      split
      · rw [getElem?_eq_none (Nat.le_of_eq (Int.toNat_natCast _).symm)]
        rfl
      · rfl
    · exact hempty hcontrol k
  · rw [hin]
    exact if_congr (hhome p k) rfl rfl

theorem Unchanged.of_eq (g : FastGraph) : Unchanged g g :=
  ⟨rfl, rfl, fun _ _ => rfl, fun _ _ _ => ⟨rfl, rfl⟩, fun _ => rfl⟩

/-- Both ends record the edge, or everything is as it was. -/
theorem recordBoth_spec (h : Kept g) {edges : QuickLists} {edge : Edge} {a b : ℕ}
    (hlists : edges.Consistent) (hwork : edges.work = g.edges.work) (hfree : edges.owner e = none)
    (hlt : e < edges.next) (hnew : e ∉ g.edges.work) (hsrc : edge.src = some a)
    (hdst : edge.dst = some b) (ha : a ∈ g.nodes.work) (hb : b ∈ g.nodes.work)
    (houtRoom : ((g.node a).outEdges edge.srcOutput).length < 2 ^ 31)
    (hinRoom : edge.dstInput = kControlEdgeIndex → (g.node b).inControlEdges.length < 2 ^ 31) :
    Kept (g.recordBoth edges e edge a b).1 ∧ ((g.recordBoth edges e edge a b).2 = none →
      Unchanged g (g.recordBoth edges e edge a b).1) := by
  have hfreed : (edges.pushBack .kFreeMode e).Consistent ∧
      (edges.pushBack .kFreeMode e).work = g.edges.work := ⟨hlists.pushBack hfree hlt, hwork⟩
  have hkeep : ∀ edge', ∀ i ∈ g.edges.work, update g.edge e edge' i = g.edge i :=
    fun edge' i hi => update_of_ne (fun hie : i = e => hnew (hie ▸ hi)) _ _
  unfold recordBoth
  rcases hrecOut : (g.node a).recordEdge e edge .kDirectionOutType with ⟨edge1, _ | n1⟩
  · -- the port of the source is refused
    simp only
    refine ⟨h.of_edges rfl hfreed.1 hfreed.2 (hkeep edge1) (fun _ _ _ => ⟨rfl, rfl⟩) h.sound,
      fun _ => ⟨rfl, hfreed.2, hkeep edge1, fun _ _ _ => ⟨rfl, rfl⟩, fun _ => rfl⟩⟩
  obtain ⟨hsound1, hport1, hin1, hempty1, hout1⟩ := recorded_outSlot (h.sound a) hrecOut houtRoom
  have hedge1 : edge1 = { edge with outEdgeIndex := edge1.outEdgeIndex } := by
    have hspec := (FastNode.recordEdge_out (h.sound a).toCounted hrecOut).2.2.2.1
    rw [hspec]
  have hsoundAll : ∀ x, ((g.setNode a n1).node x).Sound := sound_setNode h.sound hsound1
  have hinAll := slot_setNode FastNode.inSlot hin1
  have houtAll := slot_setNode_ite FastNode.outSlot hout1
  simp only
  rcases hrecIn : ((g.setNode a n1).node b).recordEdge e edge1 .kDirectionInType with
    ⟨edge2, _ | n2⟩
  · -- the source takes the edge back, the slot stays behind without edge
    obtain ⟨hport2, hindex2⟩ := FastNode.recordEdge_in_none hrecIn
    have hslot : n1.outSlot edge2.srcOutput edge2.outEdgeIndex = some e := by
      rw [hport2, hindex2, hport1, hout1, if_pos ⟨rfl, rfl⟩]
    obtain ⟨n3, herase, hcounted3, hports3, hin3, hout3⟩ :=
      FastNode.eraseEdge_out hsound1 hslot
    have ha1 : (g.setNode a n1).node a = n1 := update_self _ _ _
    have hcounters := FastNode.counters_rollBack hrecOut hport2 herase
    have hslots3 : ∀ p k, n3.outSlot p k = (g.node a).outSlot p k ∧
        n3.inSlot p k = (g.node a).inSlot p k := by
      intro p k
      refine ⟨?_, by rw [hin3, hin1]⟩
      rw [hout3, hport2, hindex2, hport1, hout1]
      split
      · rename_i hhome
        rw [hhome.1, hhome.2, hempty1]
      · rfl
    have hsound3 : n3.Sound := (h.sound a).of_slots hcounted3
      ⟨hports3.1.trans (FastNode.recordEdge_out (h.sound a).toCounted hrecOut).2.1.1,
        hports3.2.trans (FastNode.recordEdge_out (h.sound a).toCounted hrecOut).2.1.2⟩
      (fun p k i hi => .inl ⟨k, i, (hslots3 p k).1 ▸ hi⟩)
      fun p k i hi => .inl ⟨k, i, (hslots3 p k).2 ▸ hi⟩
    have hnode3 : ∀ x, ((g.setNode a n1).setNode a n3).node x
        = if x = a then n3 else g.node x := fun x => by
      show update (update g.node a n1) a n3 x = _
      rw [update_idem, update_apply]
    have hslots : ∀ x p k, (((g.setNode a n1).setNode a n3).node x).outSlot p k
        = (g.node x).outSlot p k ∧ (((g.setNode a n1).setNode a n3).node x).inSlot p k
          = (g.node x).inSlot p k := fun x p k => by
      rw [hnode3, ← node_setNode]
      exact ⟨slot_setNode FastNode.outSlot (fun p k => (hslots3 p k).1) x p k,
        slot_setNode FastNode.inSlot (fun p k => (hslots3 p k).2) x p k⟩
    simp only [ha1, herase]
    refine ⟨h.of_edges rfl hfreed.1 hfreed.2 (hkeep edge2) hslots fun x => ?_,
      fun _ => ⟨rfl, hfreed.2, hkeep edge2, hslots, fun x => ?_⟩⟩
    · show (((g.setNode a n1).setNode a n3).node x).Sound
      rw [hnode3, ← node_setNode]
      exact sound_setNode h.sound hsound3 x
    · show (((g.setNode a n1).setNode a n3).node x).counters = _
      rw [hnode3]
      split
      · rename_i hx
        rw [hx, hcounters]
      · rfl
  · have hroom1 : edge1.dstInput = kControlEdgeIndex →
        ((g.setNode a n1).node b).inControlEdges.length < 2 ^ 31 := by
      intro hcontrol
      have hsame : ((g.setNode a n1).node b).inControlEdges = (g.node b).inControlEdges := by
        rw [node_setNode]
        split
        · rename_i hba
          rw [FastNode.inControlEdges_recordEdge hrecOut, hba]
        · rfl
      rw [hsame]
      rw [hedge1] at hcontrol
      exact hinRoom hcontrol
    obtain ⟨hsound2, hedge2, hout2, hempty2, hin2⟩ :=
      recorded_inSlot (hsoundAll b) hrecIn hroom1
    have hfields : edge2.src = some a ∧ edge2.dst = some b ∧
        edge2.srcOutput = edge.srcOutput ∧ edge2.outEdgeIndex = edge1.outEdgeIndex ∧
        edge2.dstInput = edge1.dstInput := by
      rw [hedge2, hedge1]
      exact ⟨hsrc, hdst, rfl, rfl, rfl⟩
    simp only
    refine ⟨?_, fun hnone => nomatch hnone⟩
    let listed := ({ g.setNode a n1 with edges := edges.pushBack .kWorkMode e }.setNode b
      n2).setEdge e edge2
    have hedgeE : listed.edge e = edge2 := update_self _ _ _
    have hworkE : ∀ i, i ∈ listed.edges.work ↔ i = e ∨ i ∈ g.edges.work := by
      intro i
      have hpush := @QuickLists.mem_pushBack edges .kWorkMode .kWorkMode e i
      refine hpush.trans ⟨fun h => h.imp And.right fun h => hwork ▸ h, fun h => ?_⟩
      exact h.imp (fun h => ⟨rfl, h⟩) fun h => show i ∈ edges.work from hwork ▸ h
    have hkept := @Kept.insert_edge g listed e a b h rfl (hlists.pushBack hfree hlt) hworkE hnew
      (fun i hi => update_of_ne hi _ _)
    rw [hedgeE, hfields.2.2.1, hfields.2.2.2.1, hfields.2.2.2.2] at hkept
    refine hkept hfields.1 hfields.2.1 (sound_setNode hsoundAll hsound2) (fun x p k => ?_)
      (fun x p k => ?_) hempty1 (fun k hk => ?_) ha hb
    · rw [← houtAll]
      exact slot_setNode FastNode.outSlot hout2 x p k
    · rw [← hinAll]
      exact slot_setNode_ite FastNode.inSlot hin2 x p k
    · rw [← hinAll]
      exact hempty2 k hk

theorem addEdge_spec (h : Kept g) {a b : ℕ} {srcIndex dstIndex : ℤ} (ha : a ∈ g.nodes.work)
    (hb : b ∈ g.nodes.work) (hroom : g.HasRoom a srcIndex b dstIndex) :
    Kept (g.addEdge (some a) srcIndex (some b) dstIndex).1 ∧
      ((g.addEdge (some a) srcIndex (some b) dstIndex).2 = none →
        Unchanged g (g.addEdge (some a) srcIndex (some b) dstIndex).1) := by
  unfold addEdge
  simp only
  split
  · exact ⟨h, fun _ => Unchanged.of_eq g⟩
  · rename_i hmixed
    obtain ⟨hlists, hfree, hlt, -, hnew, hwork⟩ := h.edge_lists.take
    have hboth : srcIndex = kControlEdgeIndex ↔ dstIndex = kControlEdgeIndex := by
      constructor
      · exact fun hs => by_contra fun hd => hmixed (.inl ⟨hs, hd⟩)
      · exact fun hd => by_contra fun hs => hmixed (.inr ⟨hs, hd⟩)
    obtain ⟨houtRoom, hinRoom⟩ := hroom hboth
    exact recordBoth_spec h hlists hwork hfree hlt hnew rfl rfl ha hb houtRoom hinRoom

/-! ## Moving edges -/

/-- The slot that a move writes, when the arguments of the move are accepted, holds no edge. -/
def MovesToEmpty (g : FastGraph) (x : ℕ) (type : DirectionType) (ioIdx curIndex replaceIndex : ℤ) :
    Prop :=
  (g.node x).checkAllInputParamter type ioIdx curIndex replaceIndex = true →
    match type with
    | .kDirectionInType => ioIdx = kControlEdgeIndex → (g.node x).inSlot ioIdx replaceIndex = none
    | .kDirectionOutType => (g.node x).outSlot ioIdx replaceIndex = none

variable {type : DirectionType}

theorem check_of_moveEdge {n n' : FastNode} {io cur rep : ℤ}
    {moved : Option ℕ} (h : n.moveEdge type io cur rep = some (n', moved)) :
    n.checkAllInputParamter type io cur rep = true := by
  unfold FastNode.moveEdge at h
  split at h
  · exact nomatch h
  · rename_i hcheck
    exact Decidable.of_not_not hcheck

section Move

variable {x : ℕ} {n' : FastNode} {io cur rep : ℤ} {moved : Option ℕ}

/-- The node of an edge keeps it in another slot, and the edge names that. -/
theorem Kept.set_index (h : Kept g) {edge : Edge} (hx : x ∈ g.nodes.work)
    (hends : edge.src = (g.edge e).src ∧ edge.dst = (g.edge e).dst) (hn : n'.Sound)
    (hout : Holds ((g.setNode x n').setEdge e edge).outAt (· ∈ g.edges.work)
      ((g.setNode x n').setEdge e edge).OutHome)
    (hin : Holds ((g.setNode x n').setEdge e edge).inAt (· ∈ g.edges.work)
      ((g.setNode x n').setEdge e edge).InHome) : Kept ((g.setNode x n').setEdge e edge) := by
  refine Kept.of_holds hout hin (fun i hi => ?_) (sound_setNode h.sound hn) (fun y hy p k => ?_)
    h.node_lists h.edge_lists
  · show (∃ a, (update g.edge e edge i).src = some a) ∧
      ∃ b, (update g.edge e edge i).dst = some b
    by_cases hie : i = e
    · rw [hie, update_self, hends.1, hends.2]
      exact h.ends e (hie ▸ hi)
    · rw [update_of_ne hie]
      exact h.ends i hi
  · have hyx : y ≠ x := fun hyx => hy (hyx ▸ hx)
    show ((g.setNode x n').node y).outSlot p k = none ∧ ((g.setNode x n').node y).inSlot p k = none
    rw [node_setNode, if_neg hyx]
    exact h.idle y hy p k

/-- The edge of one slot gets another slot of the same port. -/
theorem Kept.moveEdge_out (h : Kept g)
    (hmove : (g.node x).moveEdge .kDirectionOutType io cur rep = some (n', moved))
    (hempty : (g.node x).outSlot io rep = none) :
    match moved with
    | none => Kept (g.setNode x n')
    | some e => Kept ((g.setNode x n').setEdge e { g.edge e with outEdgeIndex := rep }) := by
  obtain ⟨hcounted, hports, hin, hmoved, hout⟩ := FastNode.moveEdge_out (h.sound x) hmove hempty
  have hsound : n'.Sound := (h.sound x).of_slots hcounted hports
    (fun p k i hi => by
      rw [hout] at hi
      split at hi
      · rename_i hp
        rw [hp]
        split at hi
        · exact nomatch hi
        · split at hi
          · exact .inl ⟨cur, i, hi⟩
          · exact .inl ⟨k, i, hi⟩
      · exact .inl ⟨k, i, hi⟩)
    fun p k i hi => .inl ⟨k, i, hin p k ▸ hi⟩
  have hinAll := slot_setNode FastNode.inSlot hin
  have houtAll := slot_setNode_moved FastNode.outSlot hout
  cases moved with
  | none =>
    have hnothing := @moveSlot_empty _ _ g.outAt _ _ (x, io, cur) (x, io, rep) hmoved.symm hempty houtAll
    exact h.of_edges rfl h.edge_lists rfl (fun _ _ => rfl)
      (fun y p k => ⟨hnothing (y, p, k), hinAll y p k⟩) (sound_setNode h.sound hsound)
  | some e =>
    obtain ⟨-, hsrc, hport, hindex⟩ := (h.out_iff x io cur e).mp hmoved.symm
    have hx : x ∈ g.nodes.work := by
      by_contra hx
      rw [(h.idle x hx io cur).1] at hmoved
      exact nomatch hmoved
    have hfinal : ((g.setNode x n').setEdge e { g.edge e with outEdgeIndex := rep }).edge e =
        { g.edge e with outEdgeIndex := rep } := update_self _ _ _
    refine h.set_index hx ⟨rfl, rfl⟩ hsound ?_ ?_
    · have hslot : g.outAt (x, io, cur) = some e := hmoved.symm
      refine h.out_holds.moveSlot (b := (x, io, rep)) hslot hempty
        (fun i hi => outHome_of_edge (update_of_ne hi _ _)) (fun q hq => ?_) (fun q => ?_) houtAll
      · exact Prod.ext (some.inj (hq.1.symm.trans hsrc))
          (Prod.ext (hq.2.1.symm.trans hport) (hq.2.2.symm.trans hindex))
      · unfold OutHome
        rw [hfinal]
        constructor
        · intro hq
          exact Prod.ext (some.inj (hq.1.symm.trans hsrc))
            (Prod.ext (hq.2.1.symm.trans hport) hq.2.2.symm)
        · rintro rfl
          exact ⟨hsrc, hport, rfl⟩
    · refine h.in_holds.congr (fun q => hinAll q.1 q.2.1 q.2.2) (fun _ => Iff.rfl) fun i _ q => ?_
      by_cases hie : i = e
      · unfold InHome
        rw [hie, hfinal]
      · exact inHome_of_edge (update_of_ne hie _ _) q

theorem Kept.moveEdge_in (h : Kept g)
    (hmove : (g.node x).moveEdge .kDirectionInType io cur rep = some (n', moved))
    (hempty : io = kControlEdgeIndex → (g.node x).inSlot io rep = none) :
    match moved with
    | none => Kept (g.setNode x n')
    | some e => Kept ((g.setNode x n').setEdge e { g.edge e with inEdgeIndex := rep }) := by
  obtain ⟨hcounted, hports, hout, hmoved, hin⟩ := FastNode.moveEdge_in (h.sound x) hmove hempty
  have hsound : n'.Sound := (h.sound x).of_slots hcounted hports
    (fun p k i hi => .inl ⟨k, i, hout p k ▸ hi⟩)
    fun p k i hi => by
      rw [hin] at hi
      split at hi
      · rename_i hp
        exact .inr (.inl (hp.1.trans hp.2))
      · exact .inl ⟨k, i, hi⟩
  have houtAll := slot_setNode FastNode.outSlot hout
  by_cases hcontrol : io = kControlEdgeIndex
  · have hempty := hempty hcontrol
    rw [if_pos hcontrol] at hmoved
    simp only [hcontrol, and_true] at hin
    rw [← hcontrol] at hin
    have hinAll := slot_setNode_moved FastNode.inSlot hin
    cases moved with
    | none =>
      have hnothing := @moveSlot_empty _ _ g.inAt _ _ (x, io, cur) (x, io, rep) hmoved.symm hempty hinAll
      exact h.of_edges rfl h.edge_lists rfl (fun _ _ => rfl)
        (fun y p k => ⟨houtAll y p k, hnothing (y, p, k)⟩) (sound_setNode h.sound hsound)
    | some e =>
      obtain ⟨-, hdst, hport, hindex⟩ := (h.in_iff x io cur e).mp hmoved.symm
      have hx : x ∈ g.nodes.work := by
        by_contra hx
        rw [(h.idle x hx io cur).2] at hmoved
        exact nomatch hmoved
      have hfinal : ((g.setNode x n').setEdge e { g.edge e with inEdgeIndex := rep }).edge e =
          { g.edge e with inEdgeIndex := rep } := update_self _ _ _
      refine h.set_index hx ⟨rfl, rfl⟩ hsound ?_ ?_
      · refine h.out_holds.congr (fun q => houtAll q.1 q.2.1 q.2.2) (fun _ => Iff.rfl) fun i _ q => ?_
        by_cases hie : i = e
        · unfold OutHome
          rw [hie, hfinal]
        · exact outHome_of_edge (update_of_ne hie _ _) q
      · have hslot : g.inAt (x, io, cur) = some e := hmoved.symm
        refine h.in_holds.moveSlot (b := (x, io, rep)) hslot hempty
          (fun i hi => inHome_of_edge (update_of_ne hi _ _)) (fun q hq => ?_) (fun q => ?_) hinAll
        · have hp : q.2.1 = io := hq.2.1.symm.trans hport
          exact Prod.ext (some.inj (hq.1.symm.trans hdst))
            (Prod.ext hp ((hq.2.2 (hp.trans hcontrol)).symm.trans (hindex hcontrol)))
        · unfold InHome
          rw [hfinal]
          constructor
          · intro hq
            have hp : q.2.1 = io := hq.2.1.symm.trans hport
            exact Prod.ext (some.inj (hq.1.symm.trans hdst))
              (Prod.ext hp (hq.2.2 (hp.trans hcontrol)).symm)
          · rintro rfl
            exact ⟨hdst, hport, fun _ => rfl⟩
  · rw [if_neg hcontrol] at hmoved
    subst hmoved
    simp only [hcontrol, and_false, if_false] at hin
    exact h.of_edges rfl h.edge_lists rfl (fun _ _ => rfl)
      (fun y p k => ⟨houtAll y p k, slot_setNode FastNode.inSlot hin y p k⟩)
      (sound_setNode h.sound hsound)

end Move

theorem Kept.moveEdge (h : Kept g) {x : ℕ} {io cur rep : ℤ}
    (hempty : g.MovesToEmpty x type io cur rep) : Kept (g.moveEdge x type io cur rep).1 := by
  unfold FastGraph.moveEdge
  rcases hmove : (g.node x).moveEdge type io cur rep with _ | ⟨n', moved⟩
  · exact h
  have hslot := hempty (check_of_moveEdge hmove)
  cases type with
  | kDirectionInType =>
    have hkept := h.moveEdge_in hmove hslot
    cases moved with
    | none => exact hkept
    | some e => exact hkept
  | kDirectionOutType =>
    have hkept := h.moveEdge_out hmove hslot
    cases moved with
    | none => exact hkept
    | some e => exact hkept

/-! ## Every run -/

/-- The nodes are elements that exist, an edge is added between nodes of the graph whose vectors have
room, a node is removed without edges, an edge is recycled after it was removed, and an edge is moved
to an empty slot. -/
def OpMeets (g : FastGraph) : GraphOp → Prop
  | .addNode (some x) => x < g.nodes.next
  | .addNodeFront (some x) => x < g.nodes.next
  | .removeJustNode (some x) => x ∈ g.nodes.work → ∀ p k,
      (g.node x).outSlot p k = none ∧ (g.node x).inSlot p k = none
  | .addEdge (some a) srcIndex (some b) dstIndex =>
      a ∈ g.nodes.work ∧ b ∈ g.nodes.work ∧ g.HasRoom a srcIndex b dstIndex
  | .recycleQuickEdge (some e) => e ∈ g.edges.free
  | .moveEdge x type ioIdx curIndex replaceIndex =>
      g.MovesToEmpty x type ioIdx curIndex replaceIndex
  | _ => True

def Meets : List GraphOp → Prop
  | [] => True
  | op :: ops => Meets ops ∧ OpMeets (run ops) op

theorem kept_empty : Kept empty where
  out_iff := fun x p k e => by
    refine iff_of_false (fun h => ?_) fun h => nomatch h.1
    rw [empty, FastNode.outSlot_init] at h
    exact nomatch h
  in_iff := fun x p k e => by
    refine iff_of_false (fun h => ?_) fun h => nomatch h.1
    rw [empty, FastNode.inSlot_init] at h
    exact nomatch h
  ends := fun _ h => nomatch h
  sound := fun _ => FastNode.sound_init _ _ _ _
  idle := fun _ _ _ _ => ⟨FastNode.outSlot_init _ _ _ _, FastNode.inSlot_init _ _ _ _⟩
  node_lists := QuickLists.consistent_empty
  edge_lists := QuickLists.consistent_empty

theorem Kept.step (h : Kept g) {op : GraphOp} (hmeets : OpMeets g op) :
    Kept (g.step op).1 ∧ ((g.step op).2 = false → Unchanged g (g.step op).1) := by
  have hsame := Unchanged.of_eq g
  cases op with
  | newNode hasNode isData ins outs => exact ⟨h.newNode hasNode isData ins outs, fun hf => nomatch hf⟩
  | addNodeOp isData ins outs =>
    obtain ⟨hkept, hlt⟩ := h.createOneNode isData ins outs
    exact ⟨hkept.addNode hlt, fun hf => nomatch hf⟩
  | addNode x =>
    cases x with
    | none => exact ⟨h, fun _ => hsame⟩
    | some x => exact ⟨h.addNode hmeets, fun hf => nomatch hf⟩
  | addNodeFrontOp isData ins outs =>
    obtain ⟨hkept, hlt⟩ := h.createOneNode isData ins outs
    exact ⟨hkept.addNodeFront hlt, fun hf => nomatch hf⟩
  | addNodeFront x =>
    cases x with
    | none => exact ⟨h, fun _ => hsame⟩
    | some x => exact ⟨h.addNodeFront hmeets, fun hf => nomatch hf⟩
  | removeJustNode x =>
    cases x with
    | none => exact ⟨h, fun _ => hsame⟩
    | some x =>
      refine ⟨h.removeJustNode hmeets, fun hf => ?_⟩
      show Unchanged g (g.removeJustNode x).1
      have hf : (g.removeJustNode x).2 = false := hf
      unfold FastGraph.removeJustNode at hf ⊢
      split
      · exact hsame
      · rename_i hnone
        rw [if_neg hnone] at hf
        split
        · exact hsame
        · rename_i hwork
          rw [if_neg hwork] at hf
          simp only at hf
          split at hf
          · exact nomatch hf
          · exact nomatch hf
  | addEdge src srcIndex dst dstIndex =>
    cases src with
    | none => exact ⟨h, fun _ => hsame⟩
    | some a =>
      cases dst with
      | none => exact ⟨h, fun _ => hsame⟩
      | some b =>
        obtain ⟨ha, hb, hroom⟩ := hmeets
        obtain ⟨hkept, hunchanged⟩ := addEdge_spec h ha hb hroom
        refine ⟨hkept, fun hf => hunchanged ?_⟩
        exact isNone_iff_eq_none.mp (not_isSome_iff_eq_none.mp
          (Bool.eq_false_iff.mp hf) ▸ rfl)
  | removeEdge e =>
    cases e with
    | none => exact ⟨h, fun _ => hsame⟩
    | some e =>
      refine ⟨h.removeEdge, fun hf => ?_⟩
      show Unchanged g (g.removeEdge e).1
      have hf : (g.removeEdge e).2 = false := hf
      unfold FastGraph.removeEdge at hf ⊢
      split
      · exact hsame
      · rename_i hwork
        rw [if_neg hwork] at hf
        exact nomatch hf
  | recycleQuickEdge e =>
    cases e with
    | none => exact ⟨h, fun _ => hsame⟩
    | some e => exact ⟨h.recycleQuickEdge hmeets, fun hf => nomatch hf⟩
  | moveEdge x type io cur rep =>
    refine ⟨h.moveEdge hmeets, fun hf => ?_⟩
    show Unchanged g (g.moveEdge x type io cur rep).1
    have hf : (g.moveEdge x type io cur rep).2 = false := hf
    unfold FastGraph.moveEdge at hf ⊢
    rcases hmove : (g.node x).moveEdge type io cur rep with _ | ⟨n', moved⟩
    · exact hsame
    rw [hmove] at hf
    cases moved with
    | none =>
      have hf : true = false := hf
      exact nomatch hf
    | some e =>
      have hf : true = false := hf
      exact nomatch hf

theorem kept_run {ops : List GraphOp} (hmeets : Meets ops) : Kept (run ops) := by
  induction ops with
  | nil => exact kept_empty
  | cons op ops ih => exact ((ih hmeets.1).step hmeets.2).1

theorem moveEdge_fst {x : ℕ} {io cur rep : ℤ} {n' : FastNode} {moved : Option ℕ}
    (hmove : (g.node x).moveEdge type io cur rep = some (n', moved)) :
    (g.moveEdge x type io cur rep).1.node x = n' ∧ (g.moveEdge x type io cur rep).1.edges = g.edges ∧
      ∀ f, moved ≠ some f → (g.moveEdge x type io cur rep).1.edge f = g.edge f := by
  unfold FastGraph.moveEdge
  rw [hmove]
  cases moved with
  | none => exact ⟨update_self _ _ _, rfl, fun _ _ => rfl⟩
  | some e =>
    exact ⟨update_self _ _ _, rfl, fun f hf =>
      update_of_ne (fun h : f = e => hf (h ▸ rfl)) _ _⟩

/-- A move that overwrites an edge leaves it listed without a slot. -/
theorem movesToEmpty_of_recorded (h : Kept g) {x : ℕ} {io cur rep : ℤ}
    (hrec : Recorded (g.moveEdge x type io cur rep).1) : g.MovesToEmpty x type io cur rep := by
  intro hcheck
  rcases hmove : (g.node x).moveEdge type io cur rep with _ | ⟨n', moved⟩
  · unfold FastNode.moveEdge at hmove
    rw [if_neg (not_not_intro hcheck)] at hmove
    cases type with
    | kDirectionInType =>
      simp only at hmove
      split at hmove
      · exact nomatch hmove
      · exact nomatch hmove
    | kDirectionOutType =>
      simp only at hmove
      split at hmove
      · exact nomatch hmove
      · exact nomatch hmove
  have hkept := kept_iff_recorded.mpr hrec
  obtain ⟨hnode, hedges, hedge⟩ := moveEdge_fst hmove
  by_contra hfull
  cases type with
  | kDirectionOutType =>
    obtain ⟨f, hf⟩ := Option.ne_none_iff_exists'.mp hfull
    obtain ⟨hlisted, hsrc, hport, hindex⟩ := (h.out_iff x io rep f).mp hf
    obtain ⟨hslot, hmoved⟩ := FastNode.outSlot_moveEdge hmove
    -- the slot does not hold the edge any more
    have hother : moved ≠ some f := fun heq => by
      rw [heq] at hmoved
      split at hmoved
      · exact nomatch hmoved
      · rename_i hne
        have hcur := ((h.out_iff x io cur f).mp hmoved.symm).2.2.2
        exact hne (hindex.symm.trans hcur)
    have hnow := (hkept.out_iff x io rep f).mpr
      ⟨hedges ▸ hlisted, by rw [hedge f hother]; exact ⟨hsrc, hport, hindex⟩⟩
    rw [hnode, hslot] at hnow
    exact hother hnow
  | kDirectionInType =>
    obtain ⟨hcontrol, hfull⟩ := Classical.not_imp.mp hfull
    obtain ⟨f, hf⟩ := Option.ne_none_iff_exists'.mp hfull
    obtain ⟨hlisted, hdst, hport, hindex⟩ := (h.in_iff x io rep f).mp hf
    subst hcontrol
    obtain ⟨hslot, hmoved⟩ := FastNode.inSlot_moveEdge hmove
    have hother : moved ≠ some f := fun heq => by
      rw [heq] at hmoved
      split at hmoved
      · exact nomatch hmoved
      · rename_i hne
        have hcur := ((h.in_iff x _ cur f).mp hmoved.symm).2.2.2 rfl
        exact hne ((hindex rfl).symm.trans hcur)
    have hnow := (hkept.in_iff x _ rep f).mpr
      ⟨hedges ▸ hlisted, by rw [hedge f hother]; exact ⟨hdst, hport, hindex⟩⟩
    rw [hnode, hslot] at hnow
    exact hother hnow

/-- Operations of the condition keep the bookkeeping, and those that fail leave everything as it was.
A move keeps it exactly when it meets the condition. -/
theorem recorded_of_meets (ops : List GraphOp) (hmeets : Meets ops) :
    Recorded (run ops) ∧
      (∀ op, OpMeets (run ops) op → ((run ops).step op).2 = false →
        Unchanged (run ops) ((run ops).step op).1) ∧
      ∀ x type io cur rep, Recorded ((run ops).moveEdge x type io cur rep).1 ↔
        (run ops).MovesToEmpty x type io cur rep := by
  have hkept := kept_run hmeets
  refine ⟨kept_iff_recorded.mp hkept, fun op hop => (hkept.step hop).2, fun x type io cur rep => ?_⟩
  exact ⟨movesToEmpty_of_recorded hkept, fun h => kept_iff_recorded.mp (hkept.moveEdge h)⟩

/-- Two nodes with two parallel edges, the latest operation first. -/
def twoParallel : List GraphOp :=
  [.addEdge (some 0) 0 (some 1) 1, .addEdge (some 0) 0 (some 1) 0, .addNodeOp false 2 1,
    .addNodeOp false 0 1]

/-- The second edge is moved to the slot of the first one after that was removed. -/
theorem recorded_of_meets_twoParallel :
    Meets (.moveEdge 0 .kDirectionOutType 0 1 0 :: .removeEdge (some 0) :: twoParallel) ∧
      Recorded (run (.moveEdge 0 .kDirectionOutType 0 1 0 :: .removeEdge (some 0) ::
        twoParallel)) := by
  have hmeets : Meets (.moveEdge 0 .kDirectionOutType 0 1 0 :: .removeEdge (some 0) ::
      twoParallel) := by
    have hempty : (run (.removeEdge (some 0) :: twoParallel)).MovesToEmpty 0 .kDirectionOutType
        0 1 0 := fun _ => by
      show ((run (.removeEdge (some 0) :: twoParallel)).node 0).outSlot 0 0 = none
      decide +kernel
    refine ⟨⟨⟨⟨⟨⟨trivial, trivial⟩, trivial⟩, ?_⟩, ?_⟩, trivial⟩, hempty⟩
    · exact ⟨by decide +kernel, by decide +kernel, fun _ => ⟨by decide +kernel, by decide +kernel⟩⟩
    · exact ⟨by decide +kernel, by decide +kernel, fun _ => ⟨by decide +kernel, by decide +kernel⟩⟩
  exact ⟨hmeets, (recorded_of_meets _ hmeets).1⟩

/-- The second edge is moved over the first one, which stays listed and counted. -/
theorem twoParallel_overwritten :
    ((run twoParallel).step (.moveEdge 0 .kDirectionOutType 0 1 0)).2 = true ∧
      ¬ Recorded (run (.moveEdge 0 .kDirectionOutType 0 1 0 :: twoParallel)) := by
  refine ⟨by decide +kernel, fun h => ?_⟩
  let g := run (.moveEdge 0 .kDirectionOutType 0 1 0 :: twoParallel)
  have hlisted : 0 ∈ g.edges.work := by decide +kernel
  have hsrc : (g.edge 0).src = some 0 := by decide +kernel
  have hlost : (g.node 0).outSlot (g.edge 0).srcOutput (g.edge 0).outEdgeIndex ≠ some 0 := by
    decide +kernel
  obtain ⟨a, b, ha, -, hout, -⟩ := (h.listed 0).mp hlisted
  rw [hsrc] at ha
  rw [← Option.some.inj ha] at hout
  exact hlost hout

end FastGraph

end GraphAutofusion.GraphMetadef
