import GraphAutofusion.GraphMetadef.DelayTopoSort
import GraphAutofusion.GraphMetadef.ReverseDfs
import GraphAutofusion.GraphMetadef.TopoStrategies

/-!
# GraphMetadef.TopoSorting — sorting an execute graph

A sorting fails when it lists fewer nodes than the graph has; this is taken as the sign of a cycle.
For the strategies that count edges it is one. Reverse depth-first sorting lists every node that
leads to a node without outputs, so a cycle that leads out everywhere goes unnoticed, and the graph
is given an order in which an edge goes back.
-/

namespace GraphAutofusion.GraphMetadef

open Lib Relation Option

variable {Name : Type*} [LinearOrder Name]

structure TopoSortingResult (Name : Type*) where
  succeeded : Bool
  nodes : List Name
  id : Name → ℤ

namespace ExecuteGraph

variable (g : ExecuteGraph Name) (o : TopoSortingOptions)

def topoSortingStrategy : Option (List Name) :=
  match o.mode with
  | .kBFS => g.bfsTopologicalSorting o.isMemoryPriority
  | .kDFS => g.dfsTopologicalSorting o.isMemoryPriority o.dfsReverse
  | .kRDFS => g.rdfsTopologicalSorting

/-- `InitNodeStatus` numbers the nodes, where their sizes are looked up by id. -/
def idInSorting : Name → ℤ :=
  if o.isMemoryPriority ∨ o.mode = .kRDFS then setIds g.id g.nodes else g.id

def finishSorting (nodeVec : List Name) : TopoSortingResult Name :=
  if nodeVec.length ≠ g.nodes.length then ⟨false, g.nodes, g.idInSorting o⟩
  else
    let sorted :=
      if o.isMemoryPriority ∨ o.mode = .kRDFS then g.delayTopoSort (g.idInSorting o) nodeVec
      else nodeVec
    ⟨true, sorted, setIds (g.idInSorting o) sorted⟩

def topologicalSortingGraph : Option (TopoSortingResult Name) :=
  (g.topoSortingStrategy o).map (g.finishSorting o)

end ExecuteGraph

/-- All nodes are there, every edge goes forward, and the ids are the positions. -/
structure TopologicallySorted (g : ExecuteGraph Name) (r : TopoSortingResult Name) : Prop where
  perm : r.nodes.Perm g.nodes
  forward : ∀ a b, g.Edge a b → r.nodes.idxOf a < r.nodes.idxOf b
  ids : ∀ (i : ℕ) n, r.nodes[i]? = some n → r.id n = i

/-- Sorting succeeds exactly on acyclic graphs; when it fails, the nodes stay as they are. -/
def SortsCorrectly (g : ExecuteGraph Name) (o : TopoSortingOptions) : Prop :=
  ∃ r, g.topologicalSortingGraph o = some r ∧ (r.succeeded = true ↔ Acyclic g.Edge) ∧
    (r.succeeded = true → TopologicallySorted g r) ∧ (r.succeeded = false → r.nodes = g.nodes)

/-- A cycle that no walk from the ends gets stuck on. -/
def HiddenCycle (g : ExecuteGraph Name) : Prop :=
  ¬ Acyclic g.Edge ∧ ∀ n ∈ g.nodes, LeadsOut g n

section Correct

variable {g : ExecuteGraph Name} {o : TopoSortingOptions} {nodeVec : List Name}

theorem finishSorting_succeeded :
    (g.finishSorting o nodeVec).succeeded = true ↔ nodeVec.length = g.nodes.length := by
  unfold ExecuteGraph.finishSorting
  split <;> simp_all

theorem finishSorting_failed (h : (g.finishSorting o nodeVec).succeeded = false) :
    (g.finishSorting o nodeVec).nodes = g.nodes := by
  unfold ExecuteGraph.finishSorting at h ⊢
  split at h
  · next hlen => rw [if_pos hlen]
  · simp at h

theorem finishSorting_sorted (hacyc : Acyclic g.Edge) (hperm : nodeVec.Perm g.nodes)
    (hforward : Forward g.Edge nodeVec) : TopologicallySorted g (g.finishSorting o nodeVec) := by
  have hlen : ¬ nodeVec.length ≠ g.nodes.length := fun hne => hne hperm.length_eq
  unfold ExecuteGraph.finishSorting
  rw [if_neg hlen]
  -- the order that is numbered, delayed or not
  have hsorted : ∀ sorted : List Name, sorted.Perm g.nodes → Forward g.Edge sorted →
      TopologicallySorted g ⟨true, sorted, setIds (g.idInSorting o) sorted⟩ := by
    intro sorted hp hf
    refine ⟨hp, fun a b hab => ?_, fun i n hi => ?_⟩
    · exact hf.idxOf_lt (fun a _ => hacyc.irrefl a) (hp.mem_iff.mpr hab.mem.1) hab
    · exact setIds_getElem (hp.nodup_iff.mpr g.nodup) _ hi
  split
  · obtain ⟨hp, hf⟩ := delayTopoSort_spec hperm hforward hacyc.irrefl (g.idInSorting o)
    exact hsorted _ hp hf
  · exact hsorted _ hperm hforward

/-- In an acyclic graph every node leads to one without outputs. -/
theorem leadsOut_of_acyclic (hacyc : Acyclic g.Edge) : ∀ n ∈ g.nodes, LeadsOut g n := by
  by_contra hne
  push Not at hne
  obtain ⟨m, ⟨hm, hno⟩, hmax⟩ := hacyc.swap.exists_source (fun _ h => h.1) hne
  by_cases hend : ∀ b, ¬ g.Edge m b
  · exact hno ⟨m, .refl, hend⟩
  · push Not at hend
    obtain ⟨b, hb⟩ := hend
    have hout : LeadsOut g b := by
      by_contra h
      exact hmax b hb ⟨hb.mem.2, h⟩
    obtain ⟨e, hpath, he⟩ := hout
    exact hno ⟨e, .head hb hpath, he⟩

/-- The counting strategies list all nodes only without a cycle, the walks also with one that leads
out everywhere. -/
theorem topoSortingStrategy_result (h : o.mode ≠ .kRDFS → InEdgesCounted g) :
    ∃ nodeVec, g.topoSortingStrategy o = some nodeVec ∧
      (nodeVec.length = g.nodes.length → nodeVec.Perm g.nodes) ∧
      (Acyclic g.Edge → Forward g.Edge nodeVec) ∧
      (nodeVec.length = g.nodes.length ↔ Acyclic g.Edge ∨ (o.mode = .kRDFS ∧ HiddenCycle g)) := by
  unfold ExecuteGraph.topoSortingStrategy
  cases hmode : o.mode with
  | kBFS =>
    obtain ⟨nodeVec, hrun, hres⟩ := bfsTopologicalSorting_result (h (by simp [hmode])) o.isMemoryPriority
    exact ⟨nodeVec, hrun, hres.perm, fun _ => hres.forward, by simpa using hres.length_iff⟩
  | kDFS =>
    obtain ⟨nodeVec, hrun, hres⟩ :=
      dfsTopologicalSorting_result (h (by simp [hmode])) o.isMemoryPriority o.dfsReverse
    exact ⟨nodeVec, hrun, hres.perm, fun _ => hres.forward, by simpa using hres.length_iff⟩
  | kRDFS =>
    obtain ⟨nodeVec, hrun, hnodup, hmem, hforward⟩ := rdfsTopologicalSorting_result g
    have hsub := hnodup.subperm fun n hn => ((hmem n).mp hn).1
    have hperm : nodeVec.length = g.nodes.length → nodeVec.Perm g.nodes := fun hlen =>
      hsub.perm_of_length_le (le_of_eq hlen.symm)
    have hall : nodeVec.length = g.nodes.length ↔ ∀ n ∈ g.nodes, LeadsOut g n := by
      constructor
      · intro hlen n hn
        exact ((hmem n).mp ((hperm hlen).mem_iff.mpr hn)).2
      · intro hout
        have hsup := g.nodup.subperm fun n hn => (hmem n).mpr ⟨hn, hout n hn⟩
        exact le_antisymm hsub.length_le hsup.length_le
    refine ⟨nodeVec, hrun, hperm, hforward, hall.trans ?_⟩
    by_cases hacyc : Acyclic g.Edge
    · simp only [hacyc, true_or, iff_true]
      exact leadsOut_of_acyclic hacyc
    · simp [HiddenCycle, hacyc]

/-- Sorting does what it should in every mode, except in reverse depth-first mode on a graph whose
cycles are hidden. The counting strategies need counters that do not overflow. -/
theorem sortsCorrectly_iff (g : ExecuteGraph Name) (o : TopoSortingOptions)
    (h : o.mode ≠ .kRDFS → InEdgesCounted g) :
    SortsCorrectly g o ↔ ¬ (o.mode = .kRDFS ∧ HiddenCycle g) := by
  obtain ⟨nodeVec, hrun, hperm, hforward, hlen⟩ := topoSortingStrategy_result h
  have hres : g.topologicalSortingGraph o = some (g.finishSorting o nodeVec) := by
    rw [ExecuteGraph.topologicalSortingGraph, hrun, Option.map_some]
  constructor
  · rintro ⟨r, hr, hsucc, -⟩ hhidden
    obtain rfl : g.finishSorting o nodeVec = r := Option.some.inj (hres.symm.trans hr)
    exact hhidden.2.1 (hsucc.mp (finishSorting_succeeded.mpr (hlen.mpr (.inr hhidden))))
  · intro hhidden
    have hiff : nodeVec.length = g.nodes.length ↔ Acyclic g.Edge :=
      hlen.trans (or_iff_left hhidden)
    refine ⟨_, hres, finishSorting_succeeded.trans hiff, fun hsucc => ?_, finishSorting_failed⟩
    have heq := finishSorting_succeeded.mp hsucc
    have hacyc := hiff.mp heq
    exact finishSorting_sorted hacyc (hperm heq) (hforward hacyc)

end Correct

/-! ## A cycle with a way out -/

/-- Two nodes that feed each other, and a third one that the second feeds too. -/
def cycleWithExit : ExecuteGraph (Fin 3) where
  nodes := [0, 1, 2]
  outDataEdges n := if n = 0 then [[1]] else if n = 1 then [[0, 2]] else []
  outControlEdges _ := []
  inDataEdges n := if n = 0 then [some 1] else if n = 1 then [some 0] else [some 1]
  inControlEdges _ := []
  dataInNum _ := 1
  isData _ := false
  isLongLifeTime _ := false
  outputSize _ := 0
  inputsOrder := []
  id _ := 0
  nodup := by decide
  data_edges := by decide
  control_edges := by decide
  ends := by decide

def reverseDfs : TopoSortingOptions := ⟨.kRDFS, false, false⟩

theorem cycleWithExit_hidden : HiddenCycle cycleWithExit := by
  have hout : cycleWithExit.Edge 1 2 := by decide
  have hforth : cycleWithExit.Edge 0 1 := by decide
  have hback : cycleWithExit.Edge 1 0 := by decide
  have hend : ∀ b, ¬ cycleWithExit.Edge 2 b := by decide
  have hone : LeadsOut cycleWithExit 1 := ⟨2, .single hout, hend⟩
  refine ⟨fun h => h 0 (TransGen.tail (TransGen.single hforth) hback), fun n _ => ?_⟩
  match n with
  | 0 => exact ⟨2, .head hforth (.single hout), hend⟩
  | 1 => exact hone
  | 2 => exact ⟨2, .refl, hend⟩

/-- The graph is cyclic, and yet its sorting succeeds. -/
theorem cycleWithExit_not_sortsCorrectly : ¬ SortsCorrectly cycleWithExit reverseDfs := by
  rintro ⟨r, hr, hsucc, -⟩
  have hdone : (cycleWithExit.topologicalSortingGraph reverseDfs).map TopoSortingResult.succeeded
      = some true := by
    decide +kernel
  rw [hr, Option.map_some, Option.some.injEq] at hdone
  exact cycleWithExit_hidden.1 (hsucc.mp hdone)

/-- Counting the edges, the same graph is refused. -/
theorem cycleWithExit_sortsCorrectly_bfs : SortsCorrectly cycleWithExit ⟨.kBFS, false, false⟩ :=
  (sortsCorrectly_iff cycleWithExit ⟨.kBFS, false, false⟩ fun _ n _ => by
    revert n
    decide +kernel).mpr fun h => nomatch h.1

end GraphAutofusion.GraphMetadef
