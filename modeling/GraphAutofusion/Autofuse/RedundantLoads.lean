import GraphAutofusion.Lib.BufferWrites
import GraphAutofusion.Lib.ParentForest
import Mathlib.Algebra.Ring.Int.Defs

/-!
# Autofuse.RedundantLoads — dropping a store and the load behind it

After unfolding, a load may read an output that a store of the same graph has written. The readers
of the load are fed by the input of the store, and the load, the output and the store are removed as
far as nothing reads them any more. Only the types of the three nodes are looked at, their address
maps are not.
-/

namespace GraphAutofusion.Autofuse.RedundantLoads

open Lib

/-! ## The unfolded graph -/

inductive OpType where
  | load
  | store
  | output
  | netOutput
  | other
deriving DecidableEq, Repr

/-- An output of a node. -/
structure OutAnchor where
  node : ℕ
  idx : ℕ
deriving DecidableEq, Repr

/-- How the iteration space of a load or a store is laid out in the buffer. -/
structure View where
  offset : ℤ := 0
  repeats : List ℕ := []
  strides : List ℤ := []
deriving DecidableEq, Repr

/-- The cell of an index tuple. -/
def View.address (view : View) (index : List ℕ) : ℤ :=
  view.offset + (List.zipWith (fun (i : ℕ) (stride : ℤ) => i * stride) index view.strides).sum

/-- `inputs` has the peer of each data input, `controls` the sources of the control edges. -/
structure Node where
  type : OpType := .other
  view : View := {}
  inputs : List (Option OutAnchor) := []
  controls : List ℕ := []
deriving DecidableEq, Repr

structure Graph where
  ids : List ℕ
  node : ℕ → Node

variable (g : Graph)

def Node.readsFrom (node : Node) (id : ℕ) : Bool := node.inputs.any fun link => link.any fun a => a.node == id

/-- `GetOutNodes` is not empty. -/
def Graph.hasOutNodes (id : ℕ) : Bool :=
  g.ids.any fun m => (g.node m).readsFrom id || (g.node m).controls.contains id

/-- The only data input, which is asserted. -/
def Graph.onlyInput (id : ℕ) : Option OutAnchor :=
  match (g.node id).inputs.filterMap fun link => link with
  | [a] => some a
  | _ => none

/-! ## The rewrite -/

def Node.unlinkAll (node : Node) : Node :=
  { node with inputs := node.inputs.map fun _ => none, controls := [] }

def Graph.removeUnusedNode (id : ℕ) : Graph :=
  if g.hasOutNodes id then g
  else
    { ids := g.ids.filter fun m => m != id
      node := fun m => if m = id then (g.node m).unlinkAll else g.node m }

/-- What becomes of an input when the readers of `load` are linked to `src`. -/
def relink (load : ℕ) (src : OutAnchor) (link : Option OutAnchor) : Option OutAnchor :=
  if link.any fun a => a.node == load then some src else link

/-- `ReplaceEdgeSrc` for all readers of all outputs of a load. -/
def Graph.replaceEdgeSrc (load : ℕ) (src : OutAnchor) : Graph :=
  { g with node := fun m => { g.node m with inputs := (g.node m).inputs.map (relink load src) } }

/-- The steps after the pattern is found. -/
def Graph.removeChain (load output store : ℕ) (src : OutAnchor) : Graph :=
  (((g.replaceEdgeSrc load src).removeUnusedNode load).removeUnusedNode output).removeUnusedNode store

/-- The body of the loop over the nodes; no result when an assertion fails. -/
def removeRedundantLoad (g : Graph) (loadNode : ℕ) : Option Graph :=
  if (g.node loadNode).type ≠ .load then some g
  else (g.onlyInput loadNode).bind fun outputAnchor =>
    if (g.node outputAnchor.node).type ≠ .output then some g
    else (g.onlyInput outputAnchor.node).bind fun storeAnchor =>
      if (g.node storeAnchor.node).type ≠ .store then some g
      else (g.onlyInput storeAnchor.node).bind fun _ =>
        (g.node storeAnchor.node).inputs.head?.join.map fun preNodeOutAnchor =>
          g.removeChain loadNode outputAnchor.node storeAnchor.node preNodeOutAnchor

def removeNetOutput (g : Graph) (id : ℕ) : Graph :=
  if (g.node id).type = .netOutput then g.removeUnusedNode id else g

/-- Both loops run over the nodes present when they start. -/
def removeRedundantLoads : Option Graph :=
  (g.ids.foldlM removeRedundantLoad g).map fun g => g.ids.foldl removeNetOutput g

end GraphAutofusion.Autofuse.RedundantLoads
