import GraphAutofusion.Lib.GraphSearch
import Mathlib.Data.Finset.Lattice.Fold

/-!
# Autofuse.RecomputeSplit — stores that are split off by recomputation

`RecomputeCaseGenerator` looks for stores all of whose ancestors can be computed twice. The
ancestors that the rest of the graph needs too are copied, and the copies take the place of the
originals on the paths to these stores. A backward search from each store marks the nodes to
copy, the marks of all stores are merged, and one pass over the merged set drops those that
turn out to be needed on the merged paths only.
-/

namespace GraphAutofusion.Autofuse

open Relation
open GraphAutofusion.Lib

/-- What the generator reads of an `AscGraph`. An in-anchor holds its peer: a node and the index
of the out-anchor there. -/
structure HintGraph (Node : Type*) where
  nodes : List Node
  inAnchors : Node → List (Option (Node × ℕ))
  isStore : Node → Bool
  isOutput : Node → Bool
  isRecomputableNode : Node → Bool
  peers_mem : ∀ m n k, some (m, k) ∈ inAnchors n → m ∈ nodes ∧ n ∈ nodes

structure SplitResultInOnePath (Node : Type*) where
  recomputeNodes : Finset Node
  validPath : Finset Node
  outputNodes : Finset Node

structure SplitResult (Node : Type*) where
  recomputeNodes : Finset Node
  outputNodes : Finset Node
  pathNodes : Finset Node

/-- A node of the graph after the split: one that was there, or a copy. -/
inductive SplitNode (Node : Type*) where
  | orig (n : Node)
  | recompute (n : Node)
deriving DecidableEq

structure SplitGraph (Node : Type*) where
  nodes : List (SplitNode Node)
  inAnchors : SplitNode Node → List (Option (SplitNode Node × ℕ))

namespace HintGraph

variable {Node : Type*} (g : HintGraph Node)

/-- `GetInDataNodes`. -/
def inNodes (n : Node) : List Node := (g.inAnchors n).filterMap fun anchor => anchor.map Prod.fst

variable [DecidableEq Node]

/-- `GetOutDataNodes`: a consumer stands as often as it reads the node. -/
def outNodes (n : Node) : List Node :=
  g.nodes.flatMap fun c => List.replicate ((g.inNodes c).count n) c

/-- One round of the loop of `AnalyzeSplittablePath`; a node that cannot be recomputed drops the
whole path. -/
def analyzeNode (path : SplitResultInOnePath Node) (n : Node) :
    Option (SplitResultInOnePath Node) :=
  if g.isRecomputableNode n then
    let validPath := insert n path.validPath
    let isAllInPath := (g.outNodes n).all fun c => c ∈ validPath ∧ c ∉ path.recomputeNodes
    some { path with
      validPath := validPath
      recomputeNodes := if isAllInPath then path.recomputeNodes else insert n path.recomputeNodes }
  else none

/-- The nodes in the order in which the search from a store takes them from its queue. -/
def searchOrder (store : Node) : List Node :=
  visitOrder g.inNodes g.nodes.length [store] [store].toFinset

/-- `AnalyzeSplittablePath`. It fails when the store has not one consumer; else it gives the path,
or nothing when the path cannot be split. -/
def analyzeSplittablePath (store : Node) : Option (Option (SplitResultInOnePath Node)) :=
  match g.outNodes store with
  | [output] =>
    some ((g.searchOrder store).foldlM g.analyzeNode
      { recomputeNodes := ∅, validPath := {output}, outputNodes := {output} })
  | _ => none

def potentialStores : List Node := g.nodes.filter fun n => g.isStore n && g.isRecomputableNode n

/-- The paths of all potential stores, in node order. -/
def analyzeStores : List Node → Option (List (SplitResultInOnePath Node))
  | [] => some []
  | store :: stores => do
    let path ← g.analyzeSplittablePath store
    let paths ← analyzeStores stores
    return path.toList ++ paths

def validPathResults : Option (List (SplitResultInOnePath Node)) :=
  g.analyzeStores g.potentialStores

/-- One step of the pass over the merged marks. -/
def pruneNode (path recompute : Finset Node) (n : Node) : Finset Node :=
  if (g.outNodes n).all fun c => c ∈ path ∧ c ∉ recompute then recompute.erase n else recompute

/-- The union of one of the sets over all paths. -/
def merged (sets : SplitResultInOnePath Node → Finset Node)
    (paths : List (SplitResultInOnePath Node)) : Finset Node :=
  paths.foldr (fun path acc => sets path ∪ acc) ∅

/-- `MergeAllPaths`, where the marks stand in `order` in the unordered set. -/
def mergeAllPaths (order : List Node) (paths : List (SplitResultInOnePath Node)) :
    SplitResult Node :=
  let pathNodes := merged (·.validPath) paths
  { recomputeNodes := order.foldl (g.pruneNode pathNodes) (merged (·.recomputeNodes) paths)
    outputNodes := merged (·.outputNodes) paths
    pathNodes := pathNodes }

end HintGraph

namespace SplitGraph

variable {Node : Type*} [DecidableEq Node]

/-- The in-anchor of a node gets a new peer. -/
def setAnchor (split : SplitGraph Node) (n : SplitNode Node) (idx : ℕ)
    (peer : SplitNode Node × ℕ) : SplitGraph Node :=
  { split with
    inAnchors := fun m =>
      if m = n then (split.inAnchors m).set idx (some peer) else split.inAnchors m }

end SplitGraph

namespace HintGraph

variable {Node : Type*} [DecidableEq Node] (g : HintGraph Node)

/-- The graph with the copies, which have no inputs yet. -/
def withCopies (copies : List Node) : SplitGraph Node where
  nodes := g.nodes.map .orig ++ copies.map .recompute
  inAnchors := fun
    | .orig n => (g.inAnchors n).map fun anchor => anchor.map fun peer => (.orig peer.1, peer.2)
    | .recompute n => (g.inAnchors n).map fun _ => none

/-- One in-anchor of the current node. The peer read is the one of the graph before the split:
the in-anchors of a node change only when it is the current one, which it is once. -/
def splitAnchor (recompute : Finset Node) (current : Node) (split : SplitGraph Node) :
    Option (Node × ℕ) × ℕ → Option (SplitGraph Node)
  | (none, _) => some split
  | (some (input, out), idx) =>
    if current ∈ recompute then
      -- the assertion that the inputs of a recomputed node are recomputed
      if input ∈ recompute then
        some (split.setAnchor (.recompute current) idx (.recompute input, out))
      else none
    else if input ∈ recompute then
      some (split.setAnchor (.orig current) idx (.recompute input, out))
    else some split

def splitNode (recompute : Finset Node) (split : SplitGraph Node) (current : Node) :
    Option (SplitGraph Node) :=
  (g.inAnchors current).zipIdx.foldlM (splitAnchor recompute current) split

/-- `DoGraphSplit`, where the output nodes stand in the order `seeds`. -/
def doGraphSplit (recompute : Finset Node) (copies seeds : List Node) : Option (SplitGraph Node) :=
  (visitOrder g.inNodes g.nodes.length seeds seeds.toFinset).foldlM (g.splitNode recompute)
    (g.withCopies copies)

/-- The generator up to the partition into groups: `order` and `seeds` are the orders in which it
meets the marks and the outputs. -/
def recomputeSplit (order seeds : List Node) : Option (SplitResult Node × SplitGraph Node) := do
  let paths ← g.validPathResults
  let result := g.mergeAllPaths order paths
  let split ← g.doGraphSplit result.recomputeNodes
    (order.filter fun n => n ∈ result.recomputeNodes) seeds
  return (result, split)

end HintGraph

end GraphAutofusion.Autofuse
