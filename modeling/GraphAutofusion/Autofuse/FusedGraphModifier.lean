import Mathlib.Data.Finset.Max
import Mathlib.Algebra.Order.Ring.Int

/-!
# Autofuse.FusedGraphModifier — workspaces between fused sub-graphs

The sub-graphs of a fused graph run one after another. `SubgraphConnectionsToWorkspace` turns each
connection between two of them into a buffer: the graph output itself where the value is
one, else a workspace whose id goes back to a free list when its last reader is done. A buffer
of the model records whose value it holds.
-/

namespace GraphAutofusion.Autofuse

/-- An output anchor: the place of its node in the fused graph and its index. -/
abbrev OutAnchor := ℕ × ℤ

/-- What the pass reads of an `AscGraph`: the `index` attributes of its Data nodes and of its
Output nodes that have an input, in node order. -/
structure SubGraph where
  dataIndices : List ℤ
  outputIndices : List ℤ
deriving DecidableEq, Repr

/-- A node of the fused graph with the anchors that feed it. -/
inductive FusedNode where
  | data (index : ℤ)
  | ascBackend (inputs : List (Option OutAnchor)) (outNum : ℕ) (graph : SubGraph)
  | output (index : ℤ) (source : OutAnchor)
deriving DecidableEq, Repr

/-- The fused graph in list order. `peerInAnchors` lists the inputs that an output anchor
feeds, in the order in which the edges were added. -/
structure FusedGraph where
  nodes : List FusedNode
  peerInAnchors : OutAnchor → List (ℕ × ℤ)

structure OutAnchorAttr where
  linkedOutputIrIdx : ℤ := -1
  depends : ℤ := -1
  usedWsIdx : ℤ := -1
deriving DecidableEq, Repr

/-- The place a Data or Output node of a sub-graph gets: a Data of the fused graph, an Output of
it, or a workspace. All nodes with equal places share it. -/
inductive Buffer where
  | input (index : ℤ)
  | output (index : ℤ)
  | workspace (id : ℤ)
deriving DecidableEq, Repr

namespace FusedGraph

variable (g : FusedGraph)

/-- The anchor that feeds an input of a node. -/
def inputAt (node : ℕ) (index : ℤ) : Option OutAnchor :=
  match g.nodes[node]? with
  | some (.ascBackend inputs _ _) => if 0 ≤ index then (inputs[index.toNat]?).join else none
  | some (.output _ source) => if index = 0 then some source else none
  | _ => none

def isOutputAt (node : ℕ) : Bool :=
  match g.nodes[node]? with
  | some (.output _ _) => true
  | _ => false

/-- The attributes of the output anchor after its peers, the last Output of which counts. -/
def linkOutputs : List (ℕ × ℤ) → ℤ → Option ℤ
  | [], linked => some linked
  | inAnchor :: rest, linked =>
    match g.nodes[inAnchor.1]? with
    | some (.output irIdx _) => if 0 ≤ irIdx then linkOutputs rest irIdx else none
    | _ => linkOutputs rest linked

/-- `InitAscbcOutAnchorAttr` for one anchor. -/
def initAnchor (anchor : OutAnchor) : Option OutAnchorAttr := do
  let linked ← g.linkOutputs (g.peerInAnchors anchor) (-1)
  return { linkedOutputIrIdx := linked, depends := (g.peerInAnchors anchor).length }

/-- The output anchors of the AscBackend nodes. -/
def ascBackendAnchors : List OutAnchor :=
  g.nodes.zipIdx.flatMap fun (node, place) =>
    match node with
    | .ascBackend _ outNum _ => (List.range outNum).map fun idx : ℕ => (place, (idx : ℤ))
    | _ => []

/-- `InitAscbcOutAnchorAttr`; a map entry that is missing reads as the default. -/
def initAscbcOutAnchorAttr : Option (OutAnchor → OutAnchorAttr) := do
  if g.ascBackendAnchors.all fun anchor => (g.initAnchor anchor).isSome then
    return fun anchor =>
      if anchor ∈ g.ascBackendAnchors then (g.initAnchor anchor).getD {} else {}
  else none

end FusedGraph

/-- The maps and sets the pass carries from node to node; `dataUsedIds` starts anew for each. -/
structure ModifierState where
  outAnchorAttr : OutAnchor → OutAnchorAttr
  freeWorkspaceId : Finset ℤ := ∅
  dataUsedIds : Finset ℤ := ∅
  maxWorkspaceNum : ℤ := 0

def ModifierState.setAttr (s : ModifierState) (anchor : OutAnchor) (attr : OutAnchorAttr) :
    ModifierState :=
  { s with outAnchorAttr := fun a => if a = anchor then attr else s.outAnchorAttr a }

theorem ModifierState.outAnchorAttr_setAttr (s : ModifierState) (anchor b : OutAnchor)
    (attr : OutAnchorAttr) : (s.setAttr anchor attr).outAnchorAttr b
      = if b = anchor then attr else s.outAnchorAttr b := rfl

/-- `ReuseWorkspaceId`: the least free id that no Data of the sub-graph uses. -/
def reuseWorkspaceId (s : ModifierState) : ℤ × ModifierState :=
  if h : (s.freeWorkspaceId \ s.dataUsedIds).Nonempty then
    let id := (s.freeWorkspaceId \ s.dataUsedIds).min' h
    (id, { s with freeWorkspaceId := s.freeWorkspaceId.erase id })
  else (s.maxWorkspaceNum, { s with maxWorkspaceNum := s.maxWorkspaceNum + 1 })

/-- `ProcessOutputNodes`. -/
def processOutputNode (place : ℕ) (irIndex : ℤ) (s : ModifierState) :
    Option (Buffer × ModifierState) :=
  if irIndex < 0 then none
  else
    let outAttr := s.outAnchorAttr (place, irIndex)
    if 0 ≤ outAttr.linkedOutputIrIdx then some (.output outAttr.linkedOutputIrIdx, s)
    else
      let (id, s) := reuseWorkspaceId s
      some (.workspace id, s.setAttr (place, irIndex) { outAttr with usedWsIdx := id })

/-- The branch of `ProcessDataNodes` for a Data that reads another sub-graph. -/
def readAnchor (anchor : OutAnchor) (s : ModifierState) : Buffer × ModifierState :=
  let outAttr := s.outAnchorAttr anchor
  if 0 ≤ outAttr.linkedOutputIrIdx then (.output outAttr.linkedOutputIrIdx, s)
  else
    let s := { s with dataUsedIds := insert outAttr.usedWsIdx s.dataUsedIds }
    let outAttr := { outAttr with depends := outAttr.depends - 1 }
    let s := s.setAttr anchor outAttr
    (.workspace outAttr.usedWsIdx,
      if outAttr.depends ≤ 0 then
        { s with freeWorkspaceId := insert outAttr.usedWsIdx s.freeWorkspaceId }
      else s)

/-- `ProcessDataNodes`. -/
def processDataNode (g : FusedGraph) (place : ℕ) (index : ℤ) (s : ModifierState) :
    Option (Buffer × ModifierState) :=
  match g.inputAt place index with
  | none => none
  | some anchor =>
    match g.nodes[anchor.1]? with
    | some (.data irIdx) => if 0 ≤ irIdx then some (.input irIdx, s) else none
    | _ => some (readAnchor anchor s)

/-- One loop over the Data or the Output nodes of a sub-graph, with the place each one gets. -/
def processSubNodes (process : ℤ → ModifierState → Option (Buffer × ModifierState)) :
    List ℤ → ModifierState → Option (List (ℤ × Buffer) × ModifierState)
  | [], s => some ([], s)
  | index :: rest, s =>
    match process index s with
    | none => none
    | some (buffer, s) =>
      match processSubNodes process rest s with
      | none => none
      | some (buffers, s) => some ((index, buffer) :: buffers, s)

/-- A rewritten sub-graph: its node's place, and where its Data and Output nodes are now. -/
structure SubPlan where
  place : ℕ
  reads : List (ℤ × Buffer)
  writes : List (ℤ × Buffer)
deriving DecidableEq, Repr

/-- The loop body of `SubgraphConnectionsToWorkspace`: the inputs first, then the outputs. -/
def processNode (g : FusedGraph) (place : ℕ) (graph : SubGraph) (s : ModifierState) :
    Option (SubPlan × ModifierState) := do
  let (reads, s) ← processSubNodes (processDataNode g place) graph.dataIndices
    { s with dataUsedIds := ∅ }
  let (writes, s) ← processSubNodes (processOutputNode place) graph.outputIndices s
  return (⟨place, reads, writes⟩, s)

/-- The loop of `SubgraphConnectionsToWorkspace` over the nodes from a place on. -/
def processNodes (g : FusedGraph) : List FusedNode → ℕ → ModifierState → Option (List SubPlan)
  | [], _, _ => some []
  | .ascBackend _ _ graph :: rest, place, s => do
    let (plan, s) ← processNode g place graph s
    let plans ← processNodes g rest (place + 1) s
    return plan :: plans
  | _ :: rest, place, s => processNodes g rest (place + 1) s

/-- `SubgraphConnectionsToWorkspace`. -/
def subgraphConnectionsToWorkspace (g : FusedGraph) : Option (List SubPlan) := do
  let attrs ← g.initAscbcOutAnchorAttr
  processNodes g g.nodes 0 { outAnchorAttr := attrs }

/-! ## Running the sub-graphs -/

/-- Whose value each buffer holds. -/
abbrev Memory := Buffer → Option OutAnchor

def storeAt (mem : Memory) (buffer : Buffer) (a : OutAnchor) : Memory :=
  fun b => if b = buffer then some a else mem b

/-- Running a sub-graph stores each of its outputs. -/
def SubPlan.execute (plan : SubPlan) (mem : Memory) : Memory :=
  plan.writes.foldl (fun mem write => storeAt mem write.2 (plan.place, write.1)) mem

/-- Running the sub-graphs in order, from buffers that hold no sub-graph's value. -/
def runPlans (plans : List SubPlan) : Memory :=
  plans.foldl (fun mem plan => plan.execute mem) fun _ => none

end GraphAutofusion.Autofuse
