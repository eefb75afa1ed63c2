import GraphAutofusion.Lib.Buckets
import GraphAutofusion.Lib.ParentForest
import GraphAutofusion.Symbolizer.ShapeEnv
import Mathlib.Data.List.Sort

/-!
# Autofuse.GroupReduction — merging groups until few are left

The groups of a schedule task that hold simple nodes only and have the same axes form classes. While
there are too many groups, the two of one class with the smallest combined node count are merged. The
plan is kept in a union-find forest, with one heap for each class and one ordered set of the cheapest
merge of each class. The merged graphs are appended to the list and their sources erased.

Static comparison and topological sorting are parameters, and so is the order in which the unordered
maps are iterated.
-/

namespace GraphAutofusion.Autofuse.GroupReduction

open Lib Symbolizer

/-! ## Groups -/

structure Axis (E : Type) where
  id : ℤ
  name : String
  size : E
deriving DecidableEq, Repr

inductive ApiType where
  | buffer
  | compute
  | invalid
deriving DecidableEq, Repr

inductive ComputeType where
  | load
  | store
  | reduceStore
  | elewise
  | broadcast
  | reduce
  | transpose
  | concat
  | gather
  | cube
  | split
  | invalid
deriving DecidableEq, Repr

/-- A node; a copy keeps the identity `id` of what it copies. -/
structure Node where
  id : ℕ
  name : String
  apiType : ApiType := .compute
  computeType : ComputeType := .elewise
  isWorkspace : Bool := false
deriving DecidableEq, Repr

/-- An edge between anchors; control anchors have index `-1`. -/
structure Edge where
  src : ℕ
  srcIdx : ℤ
  dst : ℕ
  dstIdx : ℤ
deriving DecidableEq, Repr

structure Group (E : Type) where
  name : String
  axes : List (Axis E)
  nodes : List Node
  edges : List Edge
deriving DecidableEq, Repr

variable {E : Type} (staticCheckEq : E → E → TriBool)

/-! ## Classes -/

def isAxisEqual (lhs rhs : Axis E) : Bool :=
  if lhs.id ≠ rhs.id ∨ lhs.name ≠ rhs.name then false
  else staticCheckEq lhs.size rhs.size == .true

def isAxisVecEqual (lhs rhs : List (Axis E)) : Bool :=
  if lhs.length ≠ rhs.length then false
  else (lhs.zip rhs).all fun pair => isAxisEqual staticCheckEq pair.1 pair.2

def ComputeType.isSimple (type : ComputeType) : Bool :=
  type == .load || type == .store || type == .elewise || type == .broadcast

/-- The answer and the number of compute nodes seen. -/
def isSimpleComputeNodes : List Node → ℕ → Bool × ℕ
  | [], nodeCount => (true, nodeCount)
  | node :: nodes, nodeCount =>
    if node.apiType ≠ .compute then isSimpleComputeNodes nodes nodeCount
    else if node.computeType.isSimple then isSimpleComputeNodes nodes (nodeCount + 1)
    else (false, nodeCount + 1)

def isSimpleComputeGraph (group : Group E) : Bool × ℕ := isSimpleComputeNodes group.nodes 0

structure MergeableGraphs where
  graphIndices : List ℕ
  nodeCounts : List ℕ
deriving DecidableEq, Repr

section Classes

variable (groups : List (Group E))

def simpleAt (i : ℕ) : Bool := groups[i]?.any fun group => (isSimpleComputeGraph group).1

def countAt (i : ℕ) : ℕ := groups[i]?.elim 0 fun group => (isSimpleComputeGraph group).2

def axesAt (i : ℕ) : List (Axis E) := groups[i]?.elim [] Group.axes

/-- The later groups that join the class of a group. -/
def mergeableWith (merged : ℕ → Bool) (i : ℕ) : List ℕ :=
  (List.range' (i + 1) (groups.length - (i + 1))).filter fun j =>
    !merged j && simpleAt groups j && isAxisVecEqual staticCheckEq (axesAt groups i) (axesAt groups j)

/-- The body of the loop over the groups, on the flags `merged` and the classes so far. -/
def findMergeableStep (s : (ℕ → Bool) × List MergeableGraphs) (i : ℕ) :
    (ℕ → Bool) × List MergeableGraphs :=
  if s.1 i || !simpleAt groups i then s
  else
    let found := mergeableWith staticCheckEq groups s.1 i
    (fun j => s.1 j || found.contains j,
      if found.isEmpty then s.2
      else s.2 ++ [{ graphIndices := i :: found, nodeCounts := (i :: found).map (countAt groups) }])

def findMergeableGraphs : List MergeableGraphs :=
  ((List.range groups.length).foldl (findMergeableStep staticCheckEq groups) (fun _ => false, [])).2

end Classes

/-! ## The plan -/

/-- A cost with a graph or a class. -/
abbrev Element := ℕ × ℕ

def Element.le (a b : Element) : Prop := a.1 < b.1 ∨ (a.1 = b.1 ∧ a.2 ≤ b.2)

instance : DecidableRel Element.le := fun a b =>
  inferInstanceAs (Decidable (a.1 < b.1 ∨ (a.1 = b.1 ∧ a.2 ≤ b.2)))

/-- A queue whose top is its smallest entry, in ascending order. -/
abbrev MinHeap := List Element

def MinHeap.emplace (heap : MinHeap) (e : Element) : MinHeap := List.orderedInsert Element.le e heap

/-- `std::set::insert` on the entries in ascending order. -/
def setInsert {α : Type} [DecidableEq α] (le : α → α → Prop) [DecidableRel le] (s : List α) (x : α) :
    List α :=
  if s.contains x then s else s.orderedInsert le x

/-- No result for a heap with fewer than two entries. -/
def getMinMergeCost : MinHeap → Option ℕ
  | e1 :: e2 :: _ => some (e1.1 + e2.1)
  | _ => none

structure PlanState where
  idxToParent : ℕ → ℕ
  heaps : List MinHeap
  globalHeap : List Element

variable (fuel : ℕ)

def findRoot (idxToParent : ℕ → ℕ) (x : ℕ) : Option (ℕ × (ℕ → ℕ)) := findHalving fuel idxToParent x

/-- The forest and the heap after the two top entries of a heap have been merged. -/
def mergeTop (idxToParent : ℕ → ℕ) : MinHeap → Option ((ℕ → ℕ) × MinHeap)
  | (cost1, idx1) :: (cost2, idx2) :: heap =>
    (findRoot fuel idxToParent idx2).bind fun (root2, idxToParent) =>
      (findRoot fuel idxToParent idx1).bind fun (root1, idxToParent) =>
        (findRoot fuel (Function.update idxToParent root1 root2) idx2).map fun (root, idxToParent) =>
          (idxToParent, MinHeap.emplace heap (cost1 + cost2, root))
  | _ => none

/-- One round of the loop for the class `g`, which has left the global set. -/
def mergeRound (s : PlanState) (g : ℕ) (globalHeap : List Element) : Option PlanState :=
  s.heaps[g]?.bind fun heap =>
    (mergeTop fuel s.idxToParent heap).bind fun (idxToParent, heap) =>
      let heaps := s.heaps.set g heap
      if 1 < heap.length then
        (getMinMergeCost heap).map fun cost =>
          { idxToParent, heaps, globalHeap := setInsert Element.le globalHeap (cost, g) }
      else some { idxToParent, heaps, globalHeap }

def mergeLoop : ℕ → PlanState → Option PlanState
  | 0, s => some s
  | reductions + 1, s =>
    match s.globalHeap with
    | [] => some s
    | (_, g) :: globalHeap => (mergeRound fuel s g globalHeap).bind (mergeLoop reductions)

def MergeableGraphs.heap (group : MergeableGraphs) : MinHeap :=
  (group.nodeCounts.zip group.graphIndices).foldl MinHeap.emplace []

def planStart (mergeableGroups : List MergeableGraphs) : Option PlanState :=
  let heaps := mergeableGroups.map MergeableGraphs.heap
  (heaps.zipIdx.foldlM (fun globalHeap (heap, g) =>
      (getMinMergeCost heap).map fun cost => setInsert Element.le globalHeap (cost, g)) []).map
    fun globalHeap =>
      { idxToParent := fun idx =>
          if (mergeableGroups.flatMap MergeableGraphs.graphIndices).contains idx then idx else 0
        heaps, globalHeap }

/-- The order in which unordered maps are iterated. -/
structure HashOrder where
  keys : List ℕ → List ℕ
  keys_perm : ∀ l, (keys l).Perm l
  clusters : List (ℕ × List ℕ) → List (ℕ × List ℕ)
  clusters_perm : ∀ l, (clusters l).Perm l

variable (order : HashOrder)

/-- Every index joins the cluster of its root. -/
def collectClusters (idxToParent : ℕ → ℕ) (keys : List ℕ) : Option (List (ℕ × List ℕ)) :=
  (keys.foldlM (fun (s : (ℕ → ℕ) × List (ℕ × List ℕ)) idx =>
    (findRoot fuel s.1 idx).map fun (root, idxToParent) => (idxToParent, putInBucket root idx s.2))
    (idxToParent, [])).map Prod.snd

/-- The merge groups of the plan. -/
def resolveMergePlan (mergeableGroups : List MergeableGraphs) (reductionsNeeded : ℕ) :
    Option (List (List ℕ)) :=
  (planStart mergeableGroups).bind fun s =>
    (mergeLoop fuel reductionsNeeded s).bind fun s =>
      (collectClusters fuel s.idxToParent
          (order.keys (mergeableGroups.flatMap MergeableGraphs.graphIndices))).map fun clusters =>
        ((order.clusters clusters).filter fun cluster => decide (1 < cluster.2.length)).map
          fun cluster => cluster.2.insertionSort (· ≤ ·)

/-! ## The merge -/

variable (topologicalSorting : List Node → List Edge → Option (List Node))

/-- `all_new_nodes` of a source: of equal names the first is kept. -/
def allNewNodes (src : Group E) : List (String × ℕ) := src.nodes.map fun node => (node.name, node.id)

/-- The edges that leave the copy of a node; a peer that was not copied is skipped. -/
def relinkGraphEdges (src : Group E) (node : Node) : List Edge :=
  (src.edges.filter fun edge => edge.src == node.id).filterMap fun edge =>
    ((allNewNodes src).lookup node.name).bind fun newNode =>
      (src.nodes.find? fun peer => peer.id == edge.dst).bind fun peer =>
        ((allNewNodes src).lookup peer.name).map fun newPeer => { edge with src := newNode, dst := newPeer }

def addCopy (dst src : Group E) : Group E :=
  { dst with
    nodes := dst.nodes ++ src.nodes
    edges := dst.edges ++ src.nodes.flatMap (relinkGraphEdges src) }

def mergeGraphs (dst : Group E) (groupedGraphs : List (Group E)) (group : List ℕ) : Option (Group E) :=
  (group.foldlM (fun dst idx => groupedGraphs[idx]?.map (addCopy dst)) dst).bind fun dst =>
    (topologicalSorting dst.nodes dst.edges).map fun nodes => { dst with nodes }

/-- The new graph of a merge group, with the attributes of its first source. -/
def newGraph (groupedGraphs : List (Group E)) (group : List ℕ) : Option (Group E) :=
  group.head?.bind fun first =>
    groupedGraphs[first]?.bind fun src =>
      mergeGraphs topologicalSorting
        { name := "merged_" ++ toString first, axes := src.axes, nodes := [], edges := [] }
        groupedGraphs group

def toErase (plan : List (List ℕ)) : List ℕ := plan.flatten.foldl (setInsert (· ≤ ·)) []

def reduceGraphCount (groupedGraphs : List (Group E)) (targetCount : ℕ) : Option (List (Group E)) :=
  if groupedGraphs.length ≤ targetCount then some groupedGraphs
  else
    let mergeableGroups := findMergeableGraphs staticCheckEq groupedGraphs
    if mergeableGroups.isEmpty then some groupedGraphs
    else
      (resolveMergePlan (groupedGraphs.length + 1) order mergeableGroups
          (groupedGraphs.length - targetCount)).bind fun plan =>
        if plan.isEmpty then some groupedGraphs
        else
          (plan.mapM (newGraph topologicalSorting groupedGraphs)).map fun newGraphs =>
            (toErase plan).reverse.foldl List.eraseIdx (groupedGraphs ++ newGraphs)

end GraphAutofusion.Autofuse.GroupReduction
