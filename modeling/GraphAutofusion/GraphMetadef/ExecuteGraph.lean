import GraphAutofusion.Lib.TopoOrder
import Mathlib.Algebra.BigOperators.Group.Finset.Basic
import Mathlib.Algebra.GroupWithZero.Nat
import Mathlib.Algebra.Order.BigOperators.Group.Multiset
import Mathlib.Data.List.ReduceOption

/-!
# GraphMetadef.ExecuteGraph — graphs to be sorted

A node is identified by its name. Each output has the list of the edges that leave it, each data
input at most one edge, and control edges are kept apart. Sorting reads little more: the sizes of
the outputs, which nodes are data nodes, and which live as long as the graph.
-/

namespace GraphAutofusion.GraphMetadef

open Lib List

structure ExecuteGraph (Name : Type*) [DecidableEq Name] where
  nodes : List Name
  /-- The ends of the edges of each output. -/
  outDataEdges : Name → List (List Name)
  outControlEdges : Name → List Name
  /-- The start of the edge of each input. -/
  inDataEdges : Name → List (Option Name)
  inControlEdges : Name → List Name
  dataInNum : Name → ℕ
  /-- Whether the type of the node is `DATA`. -/
  isData : Name → Bool
  /-- Whether the node is a constant, a variable, or an input of this graph. -/
  isLongLifeTime : Name → Bool
  /-- `GetNodeOutputSize`: the memory size of all outputs. -/
  outputSize : Name → ℤ
  inputsOrder : List Name
  id : Name → ℤ
  nodup : nodes.Nodup
  data_edges : ∀ a b, (outDataEdges a).flatten.count b = (inDataEdges b).count (some a)
  control_edges : ∀ a b, (outControlEdges a).count b = (inControlEdges b).count a
  ends : ∀ a b, b ∈ (outDataEdges a).flatten ++ outControlEdges a → a ∈ nodes ∧ b ∈ nodes

inductive FastTopoSortingMode where
  | kBFS
  | kDFS
  | kRDFS
  deriving DecidableEq, Repr

structure TopoSortingOptions where
  mode : FastTopoSortingMode
  isMemoryPriority : Bool
  dfsReverse : Bool

namespace ExecuteGraph

variable {Name : Type*} [DecidableEq Name] (g : ExecuteGraph Name)

def getAllOutNodes (node : Name) : List Name := (g.outDataEdges node).flatten ++ g.outControlEdges node

def getAllOutEdgesSize (node : Name) : ℕ := (g.getAllOutNodes node).length

def outNodesIsEmpty (node : Name) : Bool := g.getAllOutEdgesSize node = 0

def getInNodes (node : Name) : List Name :=
  (g.inDataEdges node).reduceOption ++ g.inControlEdges node

def getInEdgeSize (node : Name) : ℕ := (g.getInNodes node).length

/-- The edges of the graph, of data and of control. -/
def Edge (a b : Name) : Prop := b ∈ g.getAllOutNodes a

instance : DecidableRel g.Edge := fun a b => inferInstanceAs (Decidable (b ∈ g.getAllOutNodes a))

variable {g} {a b : Name}

theorem Edge.mem (h : g.Edge a b) : a ∈ g.nodes ∧ b ∈ g.nodes := g.ends a b h

theorem count_reduceOption (l : List (Option Name)) (a : Name) :
    l.reduceOption.count a = l.count (some a) := by
  induction l with
  | nil => rfl
  | cons x l ih =>
    cases x with
    | none => rw [reduceOption_cons_of_none, ih, count_cons_of_ne (by simp)]
    | some x =>
      rw [reduceOption_cons_of_some, count_cons, count_cons, ih]
      simp

theorem count_getInNodes : (g.getInNodes b).count a = (g.getAllOutNodes a).count b := by
  unfold getInNodes getAllOutNodes
  rw [count_append, count_append, count_reduceOption, g.data_edges, g.control_edges]

theorem mem_getInNodes : a ∈ g.getInNodes b ↔ g.Edge a b := by
  rw [Edge, ← count_pos_iff, count_getInNodes, count_pos_iff]

theorem outNodesIsEmpty_iff : g.outNodesIsEmpty a = true ↔ ∀ b, ¬ g.Edge a b := by
  unfold outNodesIsEmpty getAllOutEdgesSize Edge
  rw [decide_eq_true_iff, length_eq_zero_iff, eq_nil_iff_forall_not_mem]

/-- The in edges are the edges that the nodes of the graph have to the node. -/
theorem getInEdgeSize_eq : g.getInEdgeSize b = (g.nodes.flatMap g.getAllOutNodes).count b := by
  have hsum : ∑ a ∈ g.nodes.toFinset, (g.getInNodes b).count a = (g.getInNodes b).length := by
    have hcard := @Multiset.sum_count_eq_card _ _ g.nodes.toFinset (g.getInNodes b : Multiset Name)
      fun a ha => mem_toFinset.mpr (mem_getInNodes.mp ha).mem.1
    simpa only [Multiset.coe_count, Multiset.coe_card] using hcard
  rw [getInEdgeSize, ← hsum, sum_toFinset _ g.nodup, count_flatMap]
  exact congrArg sum (map_congr_left fun a _ => count_getInNodes)

end ExecuteGraph

/-! ## Containers -/

section Containers

variable {Name : Type*} [DecidableEq Name]

/-- An element enters an ordered container, unless it is there already. -/
def emplace (lt : Name → Name → Bool) (node : Name) (l : List Name) : List Name :=
  if node ∈ l then l else l.orderedInsert (fun a b => lt b a = false) node

variable {lt : Name → Name → Bool} {node n : Name} {l ns : List Name}

theorem emplace_perm (h : node ∉ l) : (emplace lt node l).Perm (node :: l) := by
  rw [emplace, if_neg h]
  exact perm_orderedInsert _ _ _

theorem mem_emplace : n ∈ emplace lt node l ↔ n = node ∨ n ∈ l := by
  unfold emplace
  split
  · next h => exact ⟨Or.inr, fun hn => hn.elim (fun he => he ▸ h) fun hn => hn⟩
  · rw [(perm_orderedInsert _ _ _).mem_iff, mem_cons]

theorem nodup_emplace (h : l.Nodup) : (emplace lt node l).Nodup := by
  by_cases hmem : node ∈ l
  · rw [emplace, if_pos hmem]
    exact h
  · rw [(emplace_perm hmem).nodup_iff]
    exact nodup_cons.mpr ⟨hmem, h⟩

def emplaceAll (lt : Name → Name → Bool) (ns : List Name) : List Name :=
  ns.foldl (fun l node => emplace lt node l) []

theorem foldl_emplace (ns l : List Name) (h : l.Nodup) :
    (ns.foldl (fun l node => emplace lt node l) l).Nodup ∧
      ∀ n, n ∈ ns.foldl (fun l node => emplace lt node l) l ↔ n ∈ ns ∨ n ∈ l := by
  induction ns generalizing l with
  | nil => simpa using h
  | cons node ns ih =>
    obtain ⟨hnodup, hmem⟩ := ih (emplace lt node l) (nodup_emplace h)
    refine ⟨hnodup, fun n => ?_⟩
    rw [foldl_cons, hmem, mem_emplace, mem_cons, or_left_comm, or_assoc]

theorem nodup_emplaceAll : (emplaceAll lt ns).Nodup := (foldl_emplace ns [] nodup_nil).1

theorem mem_emplaceAll : n ∈ emplaceAll lt ns ↔ n ∈ ns := by
  rw [emplaceAll, (foldl_emplace ns [] nodup_nil).2]
  simp

end Containers

end GraphAutofusion.GraphMetadef
