import GraphAutofusion.Lib.ParentForest
import Mathlib.Data.Int.Notation
import Mathlib.Data.List.Nodup
import Mathlib.Logic.Relation

/-!
# Autofuse.LoadSequence — moving loads forward

After the first load of an implementation graph a second one is moved up behind it, with the buffers
it reads. A load is a candidate when no other load has its queue and when both have a common compute
node, which is looked up in a forest of direct fathers. The candidates are tried in order, up to the
first that is accepted; the buffers of the others move too. Every node recorded gets the number of
recordings so far as its place, also where it was recorded before.

The nodes are listed in the order of their ids, `0` to `n - 1`.
-/

namespace GraphAutofusion.Autofuse.LoadSequence

open Lib

/-! ## The graph -/

inductive OpType where
  | load
  | store
  | output
  | other
deriving DecidableEq, Repr

inductive ApiType where
  | buffer
  | compute
  | invalid
deriving DecidableEq, Repr

/-- `queId` is the queue of output `0`, `inNodes` and `outNodes` are `GetInAllNodes` and
`GetOutAllNodes`, `inDataNodes` is the number of data inputs. -/
structure Node where
  type : OpType := .other
  apiType : ApiType := .compute
  queId : ℤ := -1
  inNodes : List ℕ := []
  inDataNodes : ℕ := 0
  outNodes : List ℕ := []
deriving DecidableEq, Repr

abbrev Graph := List Node

variable (g : Graph)

def isType (type : OpType) (id : ℕ) : Bool := g[id]?.any fun node => node.type = type

def isBuffer (id : ℕ) : Bool := g[id]?.any fun node => node.apiType = .buffer

def isOutNodeWithMultiInputs (node : Node) : Bool :=
  node.outNodes.any fun out => g[out]?.any fun outNode => outNode.inDataNodes != 1

/-! ## The forest of direct fathers -/

/-- `dir_father_nodes`. -/
abbrev Fathers := ℕ → Option ℕ

/-- `std::map::insert` keeps an entry that is there. -/
def insertFather (fathers : Fathers) (id father : ℕ) : Fathers :=
  if (fathers id).isSome then fathers else Function.update fathers id (some father)

/-- The father that one out node gives. -/
def fatherOf (id out : ℕ) : ℕ := if isType g .store out || isType g .output out then id else out

def getDirectFatherNode : Fathers :=
  (List.range g.length).foldl (fun fathers id =>
    (g[id]?.elim [] Node.outNodes).foldl (fun fathers out => insertFather fathers id (fatherOf g id out))
      fathers) fun _ => none

/-- The subscript operator: a missing entry reads as zero. -/
def readFather (fathers : Fathers) (id : ℕ) : ℕ := (fathers id).getD 0

/-- No result when the fuel runs out. -/
def findRoot : ℕ → Fathers → ℕ → Option (ℕ × Fathers)
  | 0, _, _ => none
  | fuel + 1, fathers, id =>
    if id = readFather fathers id then some (id, fathers)
    else
      (findRoot fuel fathers (readFather fathers id)).map fun (root, fathers) =>
        (root, Function.update fathers id (some root))

def hasSameComputeNode (fuel : ℕ) (fathers : Fathers) (node0 node1 : ℕ) : Option (Bool × Fathers) :=
  (findRoot fuel fathers node0).bind fun (root0, fathers) =>
    (findRoot fuel fathers node1).map fun (root1, fathers) => (root0 == root1, fathers)

/-! ## The search -/

/-- The loads with a queue. -/
def loadsWithSameQueId (queId : ℤ) : List ℕ :=
  (List.range g.length).filter fun id => g[id]?.any fun node => node.type = .load ∧ node.queId = queId

structure SearchState where
  fathers : Fathers
  needForward : List (ℕ × ℕ) := []
  firstLoadId : Option ℕ := none
  numOfLoadNeedAdjust : ℕ := 0
  indexDataAndLoad : ℕ := 0

/-- `need_forward_nodes_id.insert`: the counter advances in any case. -/
def SearchState.insertForward (s : SearchState) (id : ℕ) : SearchState :=
  { s with
    needForward :=
      if (s.needForward.lookup id).isSome then s.needForward
      else s.needForward ++ [(id, s.indexDataAndLoad)]
    indexDataAndLoad := s.indexDataAndLoad + 1 }

/-- The inputs of a candidate that are recorded with it. -/
def buffersBehind (first : ℕ) (node : Node) : List ℕ :=
  node.inNodes.filter fun inNode => isBuffer g inNode && decide (first < inNode)

/-- The checks of a load before the look-up of the common compute node. -/
def isLaterLoad (first id : ℕ) (node : Node) : Bool :=
  node.type == .load && decide (first < id) && (loadsWithSameQueId g node.queId).length == 1

/-- The body of the loop over the nodes. -/
def searchNode (s : SearchState) (id : ℕ) (node : Node) : Option SearchState :=
  match s.firstLoadId with
  | none =>
    if node.type == .load then
      some { s with firstLoadId := some id, numOfLoadNeedAdjust := s.numOfLoadNeedAdjust + 1 }
    else some s
  | some first =>
    if isLaterLoad g first id node then
      (hasSameComputeNode (g.length + 1) s.fathers id first).map fun (same, fathers) =>
        let s := { s with fathers := fathers }
        if same then
          let s := (buffersBehind g first node).foldl SearchState.insertForward s
          if isOutNodeWithMultiInputs g node then s
          else { s.insertForward id with numOfLoadNeedAdjust := s.numOfLoadNeedAdjust + 1 }
        else s
    else some s

def loadThresh : ℕ := 2

/-- The loop from some place on. -/
def searchFrom : List ℕ → SearchState → Option SearchState
  | [], s => some s
  | id :: ids, s =>
    if loadThresh ≤ s.numOfLoadNeedAdjust then some s
    else (g[id]?.elim (some s) (searchNode g s id)).bind (searchFrom ids)

def searchNodesNeedForward : Option SearchState :=
  searchFrom g (List.range g.length) { fathers := getDirectFatherNode g }

/-! ## The new ids -/

/-- The loop from some place on. `last` is the largest key of `need_forward_nodes_id`. -/
def adjustFrom (needForward : List (ℕ × ℕ)) (first last : ℕ) : ℕ → List ℕ → List ℕ
  | _, [] => []
  | next, id :: ids =>
    if id ≤ first then id :: adjustFrom needForward first last next ids
    else if last < id then id :: ids
    else
      match needForward.lookup id with
      | some index => (first + index + 1) :: adjustFrom needForward first last next ids
      | none => next :: adjustFrom needForward first last (next + 1) ids

/-- The ids of the nodes afterwards. -/
def doSeqAdjustment (needForward : List (ℕ × ℕ)) (firstLoadId : Option ℕ) : List ℕ :=
  match firstLoadId with
  | none => List.range g.length
  | some first =>
    if needForward.isEmpty then List.range g.length
    else
      adjustFrom needForward first ((needForward.map Prod.fst).foldl max 0)
        (first + needForward.length + 1) (List.range g.length)

def loadOpSeqAdjust : Option (List ℕ) :=
  (searchNodesNeedForward g).map fun s => doSeqAdjustment g s.needForward s.firstLoadId

end GraphAutofusion.Autofuse.LoadSequence
