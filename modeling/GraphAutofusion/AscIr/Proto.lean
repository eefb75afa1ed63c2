import GraphAutofusion.AscIr.Attr

/-!
# AscIr.Proto — `AscGraph` messages

`SerializeToProto` writes the nodes of a graph with the sources of their inputs, one after the
other and without an index. `DeserializeFromProto` builds the nodes anew, links each input to its
source by counting, and reads the attributes. Nodes are known by their names.
-/

namespace GraphAutofusion.AscIr

/-! ## IR inputs and outputs -/

/-- `IrInputType` and `IrOutputType`; no output is optional. -/
inductive IrType where
  | required
  | optional
  | dynamic
deriving DecidableEq, Repr

/-- An input or an output of the IR with its instances: the descriptors named after it. A dynamic
one has any number of them, any other has one, which may be invalid when it is optional. -/
inductive IrIOSpec where
  | required (name : String)
  | optional (name : String) (descValid : Bool)
  | dynamic (name : String) (num : ℕ)
deriving DecidableEq, Repr

namespace IrIOSpec

def name : IrIOSpec → String
  | .required name => name
  | .optional name _ => name
  | .dynamic name _ => name

def type : IrIOSpec → IrType
  | .required _ => .required
  | .optional _ _ => .optional
  | .dynamic _ _ => .dynamic

/-- The number of instances. -/
def num : IrIOSpec → ℕ
  | .dynamic _ num => num
  | _ => 1

/-- `AddDynamicInput` or `AddInput` of `OpDescBuilder`: every descriptor it adds is valid. -/
def build (name : String) (type : IrType) (num : ℕ) : IrIOSpec :=
  match type with
  | .required => .required name
  | .optional => .optional name true
  | .dynamic => .dynamic name num

def descValids : IrIOSpec → List Bool
  | .optional _ descValid => [descValid]
  | spec => List.replicate spec.num true

end IrIOSpec

/-- `MappingDynamicIrDesc`: start and number of the descriptors of each dynamic input. `index` is
where the descriptors of the rest begin. `start` is `GetIrDescStartIndex`: where the input before
ends if it is dynamic, else zero, as no other has a range yet. -/
def mappingDynamicIrDesc : ℕ → ℕ → List IrIOSpec → List (Option (ℕ × ℕ))
  | _, _, [] => []
  | index, start, .dynamic _ num :: specs =>
    if num = 0 then some (start, 0) :: mappingDynamicIrDesc index start specs
    else some (index, num) :: mappingDynamicIrDesc (index + num) (index + num) specs
  | index, _, _ :: specs => none :: mappingDynamicIrDesc (index + 1) 0 specs

/-- How many invalid descriptors stand before an index. -/
def descInstanceShift (specs : List IrIOSpec) (index : ℕ) : ℕ :=
  let valids := specs.flatMap IrIOSpec.descValids
  if index < valids.length then (valids.take index).count false else 0

/-- `GetIrDescRange`, as far as the dynamic inputs go. Instance indices leave invalid descriptors
out, raw indices count them. -/
def getIrDescRange (specs : List IrIOSpec) (requireRawIndex : Bool) : List (Option (ℕ × ℕ)) :=
  (mappingDynamicIrDesc 0 0 specs).map fun range =>
    range.map fun (start, num) =>
      (if requireRawIndex then start else start - descInstanceShift specs start, num)

/-- The anchors from `start` up to `end` that are written for each input. The range of a dynamic
input is a start and a number, the number is taken for the end. -/
def irRanges (total : ℕ) : ℕ → List (IrIOSpec × Option (ℕ × ℕ)) → Option (List (ℕ × ℕ))
  | _, [] => some []
  | cur, (spec, range) :: rest =>
    let anchors : ℕ × ℕ :=
      match spec, range with
      | .dynamic _ _, some range => range
      | .dynamic _ _, none => (cur, cur)
      | _, _ => (cur, cur + 1)
    if anchors.1 ≤ anchors.2 ∧ anchors.2 ≤ total then do
      let ranges ← irRanges total anchors.2 rest
      return anchors :: ranges
    else none

/-! ## Graphs and messages -/

/-- `peers` are the sources of the in-anchors, `inputs` the attributes of the input
descriptors. -/
structure AscNode (E V : Type) where
  name : String
  type : String
  irInputs : List IrIOSpec
  irOutputs : List IrIOSpec
  peers : List (Option (String × ℕ))
  attr : AscNodeAttr E V
  outputs : List (AscTensorAttr E)
  inputs : List (AscTensorAttr E)

structure AscGraph (E V T : Type) where
  name : String
  attr : AscGraphAttr E T
  nodes : List (AscNode E V)

structure AscInputSourceDef where
  srcNodeName : String := ""
  srcOutIndex : ℕ := 0

structure IrDef where
  inputNames : List String
  outputNames : List String
  inputIrType : List IrType
  outputIrType : List IrType
  type : String
  inputNums : List ℕ
  outputNums : List ℕ

structure AscNodeDef (V : Type) where
  inputSrc : List AscInputSourceDef
  outputs : List AscTensorAttrGroupsDef
  attr : AscNodeAttrGroupsDef V
  irDef : IrDef

structure AscGraphDef (V : Type) where
  ascGraphAttr : AscGraphAttrGroupsDef
  ascNode : List (AscNodeDef V)
  graphName : String

variable {E V T : Type} (text : ExprText E)

/-! ## Writing -/

/-- An input without a source is written as an empty message. -/
def sourceDef : Option (String × ℕ) → AscInputSourceDef
  | none => {}
  | some (name, idx) => { srcNodeName := name, srcOutIndex := idx }

/-- The sources of the anchors in the ranges, one after the other. -/
def inputSources (peers : List (Option (String × ℕ))) (ranges : List (ℕ × ℕ)) :
    List AscInputSourceDef :=
  ranges.flatMap fun range =>
    (List.range' range.1 (range.2 - range.1)).map fun id => sourceDef (peers[id]?).join

/-- The message of a node, given the ranges of its inputs and outputs. -/
def nodeDef (node : AscNode E V) (inputRanges outputRanges : List (ℕ × ℕ)) : AscNodeDef V where
  inputSrc := inputSources node.peers inputRanges
  outputs := node.outputs.map (AscTensorAttr.serializeAttr text)
  attr := node.attr.serializeAttr text
  irDef :=
    { inputNames := node.irInputs.map IrIOSpec.name
      outputNames := node.irOutputs.map IrIOSpec.name
      inputIrType := node.irInputs.map IrIOSpec.type
      outputIrType := node.irOutputs.map IrIOSpec.type
      type := node.type
      inputNums := inputRanges.map fun range => range.2 - range.1
      outputNums := outputRanges.map fun range => range.2 - range.1 }

def serializeNode (node : AscNode E V) : Option (AscNodeDef V) := do
  let inputRanges ←
    irRanges node.peers.length 0 (node.irInputs.zip (getIrDescRange node.irInputs false))
  let outputRanges ←
    irRanges node.outputs.length 0 (node.irOutputs.zip (getIrDescRange node.irOutputs true))
  return nodeDef text node inputRanges outputRanges

def serializeToProto (g : AscGraph E V T) : Option (AscGraphDef V) := do
  let nodes ← g.nodes.mapM (serializeNode text)
  return { ascGraphAttr := g.attr.serializeAttr text, ascNode := nodes, graphName := g.name }

/-! ## Reading -/

def buildSpecs (names : List String) (types : List IrType) (nums : List ℕ) : List IrIOSpec :=
  ((names.zip types).zip nums).map fun spec => IrIOSpec.build spec.1.1 spec.1.2 spec.2

/-- A new node. `DeserializeIrDef`, which appends the IR inputs and outputs later on, is done here
as well: nothing in between reads them. -/
def buildNode (msg : AscNodeDef V) : Option (AscNode E V) :=
  let irInputs := buildSpecs msg.irDef.inputNames msg.irDef.inputIrType msg.irDef.inputNums
  let irOutputs := buildSpecs msg.irDef.outputNames msg.irDef.outputIrType msg.irDef.outputNums
  let inputNum := (irInputs.map IrIOSpec.num).sum
  if msg.irDef.inputNums.length = msg.irDef.inputIrType.length ∧
      msg.irDef.inputNums.length = msg.irDef.inputNames.length ∧
      msg.irDef.outputNums.length = msg.irDef.outputIrType.length ∧
      msg.irDef.outputNums.length = msg.irDef.outputNames.length then
    some {
      name := msg.attr.name
      type := msg.irDef.type
      irInputs := irInputs
      irOutputs := irOutputs
      peers := List.replicate inputNum none
      attr := { name := msg.attr.name, type := msg.irDef.type }
      outputs := List.replicate (irOutputs.map IrIOSpec.num).sum {}
      inputs := List.replicate inputNum {} }
  else none

def findNode (nodes : List (AscNode E V)) (name : String) : Option ℕ :=
  nodes.findIdx? fun node => node.name = name

/-- `AddEdge` fails when an anchor does not exist, or the in-anchor is linked already. -/
def addEdge (nodes : List (AscNode E V)) (src : AscInputSourceDef) (dstName : String)
    (dstInIndex : ℕ) : Option (List (AscNode E V)) := do
  let srcNode ← (findNode nodes src.srcNodeName).bind fun place => nodes[place]?
  let dst ← findNode nodes dstName
  let dstNode ← nodes[dst]?
  if src.srcOutIndex < srcNode.outputs.length ∧ dstNode.peers[dstInIndex]? = some none then
    return nodes.set dst { dstNode with
      peers := dstNode.peers.set dstInIndex (some (src.srcNodeName, src.srcOutIndex)) }
  else none

/-- The edges into one node. An input without a source is passed over before the index is
counted. -/
def addEdges (dstName : String) : ℕ → List AscInputSourceDef → List (AscNode E V) →
    Option (List (AscNode E V))
  | _, [], nodes => some nodes
  | dstInIndex, src :: srcs, nodes =>
    if src.srcNodeName = "" then addEdges dstName dstInIndex srcs nodes
    else do
      let linked ← addEdge nodes src dstName dstInIndex
      addEdges dstName (dstInIndex + 1) srcs linked

def establishAscNodeAndEdges (msgs : List (AscNodeDef V)) : Option (List (AscNode E V)) := do
  let nodes ← msgs.mapM buildNode
  msgs.foldlM (fun nodes msg => addEdges msg.attr.name 0 msg.inputSrc nodes) nodes

def readOutputs : List AscTensorAttrGroupsDef → List (AscTensorAttr E) →
    Option (List (AscTensorAttr E))
  | [], attrs => some attrs
  | _ :: _, [] => none
  | msg :: msgs, attr :: attrs => do
    let rest ← readOutputs msgs attrs
    return attr.deserializeAttr text msg :: rest

/-- The attributes of the inputs of the node at `place`: those that the sources have by now. -/
def readInputs (place : ℕ) : ℕ → List AscInputSourceDef → List (AscNode E V) →
    Option (List (AscNode E V))
  | _, [], nodes => some nodes
  | index, src :: srcs, nodes =>
    match findNode nodes src.srcNodeName with
    | none => readInputs place index srcs nodes
    | some srcPlace => do
      let srcNode ← nodes[srcPlace]?
      let attr ← srcNode.outputs[src.srcOutIndex]?
      let node ← nodes[place]?
      if index < node.inputs.length then
        readInputs place (index + 1) srcs
          (nodes.set place { node with inputs := node.inputs.set index attr })
      else none

def deserializeNode (nodes : List (AscNode E V)) (msg : AscNodeDef V × ℕ) :
    Option (List (AscNode E V)) := do
  let node ← nodes[msg.2]?
  let outputs ← readOutputs text msg.1.outputs node.outputs
  readInputs msg.2 0 msg.1.inputSrc (nodes.set msg.2 { node with
    attr := node.attr.deserializeAttr text msg.1.attr
    outputs := outputs })

/-- `DeserializeFromProto` into a new graph. -/
def deserializeFromProto (msg : AscGraphDef V) : Option (AscGraph E V T) := do
  let nodes ← establishAscNodeAndEdges msg.ascNode
  let nodes ← msg.ascNode.zipIdx.foldlM (deserializeNode text) nodes
  return {
    name := msg.graphName
    attr := AscGraphAttr.deserializeAttr text msg.ascGraphAttr {}
    nodes := nodes }

def roundTrip (g : AscGraph E V T) : Option (AscGraph E V T) := do
  let msg ← serializeToProto text g
  deserializeFromProto text msg

/-- `DoCopyAscGraphAttr` writes the attributes of the source and reads them into the
destination. -/
def doCopyAscGraphAttr (src dst : AscGraphAttr E T) : AscGraphAttr E T :=
  AscGraphAttr.deserializeAttr text (src.serializeAttr text) dst

end GraphAutofusion.AscIr
