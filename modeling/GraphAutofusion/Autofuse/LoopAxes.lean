import GraphAutofusion.Autofuse.VectorAxis

/-!
# Autofuse.LoopAxes — dropping and merging the loop axes of a graph

The compute nodes of a graph have schedule lists of one length, with ids that may differ from node to
node. Positions along which no output moves are dropped first. Then neighbouring positions that lie
without a gap in every output are merged, except for the pairs a special rule keeps apart, and the axes
that are left are numbered anew.

A symbolic engine is a parameter, as in `VectorAxis`, here with the constant one. `none` stands for a
failed check and for an access out of range.
-/

namespace GraphAutofusion.Autofuse.LoopAxes

open VectorAxis (AxisId mergeContinuousPairs)

structure Symbols (ε σ : Type) extends VectorAxis.SymbolicUtils ε σ where
  kSymbolOne : ε
  eval_one : ∀ v, eval kSymbolOne v = 1

/-- The compute types the passes ask for. -/
inductive ComputeType
  | load | reduce | concat | split | gather | other
deriving DecidableEq, Repr

/-- The operator types the passes ask for. -/
inductive OpType
  | softmax | indirectLoad | other
deriving DecidableEq, Repr

inductive CubeTemplateType
  | default | fixpip | common | ubFuse | l2Fuse
deriving DecidableEq, Repr

inductive AxisType
  | original | blockOuter | blockInner | tileOuter | tileInner | merged | invalid
deriving DecidableEq, Repr

/-- An axis of the graph. Its id is its place in the table. -/
structure Axis (ε : Type) where
  type : AxisType := .original
  size : ε
  fromIds : List AxisId := []
deriving DecidableEq, Repr

structure Tensor (ε : Type) where
  axis : List AxisId
  repeats : List ε
  strides : List ε
deriving DecidableEq, Repr

/-- A node; its inputs are pairs of a node and an output of it. -/
structure Node (ε : Type) where
  isBuffer : Bool := false
  computeType : ComputeType := .other
  type : OpType := .other
  keepFirstAxis : Bool := false
  axisAttr : ℤ := -1
  inputs : List (ℕ × ℕ) := []
  sched : List AxisId
  outputs : List (Tensor ε)
deriving DecidableEq, Repr

structure Graph (ε : Type) where
  nodes : List (Node ε)
  axes : List (Axis ε)
deriving DecidableEq, Repr

variable {ε σ : Type} (E : Symbols ε σ)

/-- One dimension of a tensor. -/
structure Dim (ε : Type) where
  axis : AxisId
  repeats : ε
  stride : ε
deriving DecidableEq, Repr

def Tensor.dims (t : Tensor ε) : List (Dim ε) :=
  (t.axis.zip (t.repeats.zip t.strides)).map fun p => ⟨p.1, p.2.1, p.2.2⟩

def Tensor.ofDims (dims : List (Dim ε)) : Tensor ε where
  axis := dims.map Dim.axis
  repeats := dims.map Dim.repeats
  strides := dims.map Dim.stride

/-- The test of `CheckGraphValidity`. -/
def Tensor.Valid (t : Tensor ε) : Prop :=
  t.axis.length = t.repeats.length ∧ t.repeats.length = t.strides.length

instance (t : Tensor ε) : Decidable t.Valid := inferInstanceAs (Decidable (_ ∧ _))

variable (g : Graph ε)

def Graph.computeNodes : List (Node ε) := g.nodes.filter (!·.isBuffer)

/-- `node->inputs[k]`: the tensor at the other end. -/
def Graph.input (n : Node ε) (k : ℕ) : Option (Tensor ε) :=
  match n.inputs[k]? with
  | none => none
  | some peer => g.nodes[peer.1]?.bind (·.outputs[peer.2]?)

def hasComputeType (computeType : ComputeType) : Bool :=
  g.nodes.any fun n => n.computeType == computeType

/-! ## RemoveAllZeroStrideLoopAxis -/

/-- The loop over the outputs, which stops at the first that moves. `none` is a failed check. -/
def hasNonZeroStride (keepFirstAxis : Bool) (axisId : AxisId) : List (Tensor ε) → Option Bool
  | [] => some false
  | t :: outputs =>
    let axisIndex := t.axis.idxOf axisId
    if axisIndex < t.axis.length then
      match t.strides[axisIndex]? with
      | none => none
      | some stride =>
        if !E.staticCheckEq stride E.kSymbolZero || (keepFirstAxis && axisIndex == 0) then some true
        else hasNonZeroStride keepFirstAxis axisId outputs
    else none

/-- What the loop over the axes of one node finds, position by position. -/
def nodeMoves (includeReduce : Bool) (n : Node ε) : List (Option Bool) :=
  n.sched.map fun axisId => hasNonZeroStride E (n.keepFirstAxis || includeReduce) axisId n.outputs

/-- A failed check returns the empty set. -/
def identifyZeroStrideAxisIndices : List ℕ :=
  let size := (g.computeNodes.find? (!·.sched.isEmpty)).elim 0 (·.sched.length)
  let includeReduce := hasComputeType g .reduce
  if g.computeNodes.any fun n => (nodeMoves E includeReduce n).contains none then []
  else
    let indices := (List.range size).filter fun i =>
      g.computeNodes.all fun n => (nodeMoves E includeReduce n)[i]? != some (some true)
    -- when all are zero, none has to be removed
    if indices.length = size then [] else indices

/-- The axes of a tensor that stay, with their repeats and strides. -/
def keepAxes (validAxisIds : List AxisId) (t : Tensor ε) : Option (Tensor ε) :=
  if (t.axis.zipIdx.filter fun p => validAxisIds.contains p.1).all fun p =>
      p.2 < t.strides.length && p.2 < t.repeats.length then
    some (.ofDims (t.dims.filter fun d => validAxisIds.contains d.axis))
  else none

/-- The ids at positions that are not listed. -/
def validAxisIds (indices : List ℕ) (sched : List AxisId) : List AxisId :=
  (sched.zipIdx.filter fun p => !indices.contains p.2).map (·.1)

def removeFromNode (indices : List ℕ) (n : Node ε) : Option (Node ε) :=
  if n.isBuffer then some n
  else
    let valid := validAxisIds indices n.sched
    match n.outputs.mapM (keepAxes valid) with
    | none => none
    | some outputs => some { n with sched := valid, outputs := outputs }

def removeAllZeroStrideLoopAxis : Option (Graph ε) :=
  if hasComputeType g .gather then some g
  else
    let indices := identifyZeroStrideAxisIndices E g
    if indices.isEmpty then some g
    else
      match g.nodes.mapM (removeFromNode indices) with
      | none => none
      | some nodes => some { g with nodes := nodes }

/-! ## GetNonContinuousAxisPairBySpecialRule -/

/-- The first dimension in which the repeats differ, with the product of those before it. -/
def concatDim (preSize : ε) (i : ℕ) : List ε → List ε → Option (ℕ × ε)
  | input :: inputs, output :: outputs =>
    if E.staticCheckEq input output then concatDim (E.mul preSize input) (i + 1) inputs outputs
    else some (i, preSize)
  | _, _ => none

/-- The pairs of a concat or a split. Where no dimension differs, the dimension is the first. -/
def concatPairs (n : Node ε) : Option (List (ℤ × ℤ)) :=
  match g.input n 0, n.outputs[0]? with
  | some input, some output =>
    if input.repeats.length = output.repeats.length then
      let dimPair := match concatDim E E.kSymbolOne 0 input.repeats output.repeats with
        | none => []
        | some (dim, preSize) =>
          if 0 < dim && !E.staticCheckEq preSize E.kSymbolOne then [((dim : ℤ) - 1, (dim : ℤ))] else []
      some (dimPair ++ if n.keepFirstAxis then [(0, 1)] else [])
    else none
  | _, _ => none

/-- The innermost dimension a load moves along is kept apart when it is not dense. -/
def loadPairs (n : Node ε) : Option (List (ℤ × ℤ)) :=
  match n.outputs[0]? with
  | none => none
  | some output =>
    match output.strides.zipIdx.reverse.find? fun p => !E.staticCheckEq p.1 E.kSymbolZero with
    | none => some []
    | some (stride, i) =>
      some (if E.staticCheckEq stride E.kSymbolOne then [] else [((i : ℤ) - 1, (i : ℤ))])

/-- The sizes are 64-bit, so that a missing attribute is the largest of them. -/
def gatherPairs (n : Node ε) : Option (List (ℤ × ℤ)) :=
  match g.input n 0, g.input n 1 with
  | some params, some indices =>
    let last := ((params.repeats.length : ℤ) - 1) % (2 ^ 64 : ℤ)
    if n.axisAttr % (2 ^ 64 : ℤ) = last then
      some (if n.axisAttr != 0 then [(n.axisAttr - 1, n.axisAttr)] else [])
    else
      let attrAxis := Int.bmod (n.axisAttr + indices.repeats.length - 1) (2 ^ 64)
      some [(attrAxis, attrAxis + 1)]
  | _, _ => none

/-- The last two axes of a softmax. -/
def softmaxPairs (n : Node ε) : Option (List (ℤ × ℤ)) :=
  match g.input n 0 with
  | none => none
  | some input =>
    let axisSize : ℤ := input.repeats.length
    some (if 1 < axisSize then [(axisSize - 2, axisSize - 1)] else [])

def appendPairs (a b : Option (List (ℤ × ℤ))) : Option (List (ℤ × ℤ)) :=
  match a, b with
  | some a, some b => some (a ++ b)
  | _, _ => none

def nodePairs (n : Node ε) : Option (List (ℤ × ℤ)) :=
  match n.computeType with
  | .load => loadPairs E n
  | computeType =>
    let concat := if computeType = .concat ∨ computeType = .split then concatPairs E g n else some []
    let gather := if computeType = .gather then gatherPairs g n else some []
    let softmax := if n.type = .softmax then softmaxPairs g n else some []
    appendPairs concat (appendPairs gather softmax)

def getNonContinuousAxisPairBySpecialRule : Option (List (ℤ × ℤ)) :=
  g.nodes.foldr (fun n pairs => appendPairs (nodePairs E g n) pairs) (some [])

/-! ## Continuity -/

/-- One step along the first axis is a whole round of the second, its neighbour. -/
def continuousIn (preId postId : AxisId) (t : Tensor ε) : Bool :=
  let preIdx := t.axis.idxOf preId
  let postIdx := t.axis.idxOf postId
  if preIdx < t.axis.length && postIdx < t.axis.length then
    match t.strides[preIdx]?, t.strides[postIdx]?, t.repeats[postIdx]? with
    | some preStride, some postStride, some postRepeat =>
      preIdx + 1 == postIdx && E.staticCheckEq preStride (E.mul postStride postRepeat)
    | _, _, _ => false
  else false

def isAxisContinuous (preIdIdx postIdIdx : ℤ) : Bool :=
  g.computeNodes.all fun n =>
    match n.sched[preIdIdx.toNat]?, n.sched[postIdIdx.toNat]? with
    | some preId, some postId => n.outputs.all (continuousIn E preId postId)
    | _, _ => false

/-- The neighbouring positions of the first compute node. -/
def potentialAxisIdx : Option (List (ℤ × ℤ)) :=
  match g.computeNodes with
  | [] => some []
  | n :: _ =>
    if n.sched.isEmpty then none
    else some ((List.range (n.sched.length - 1)).map fun i : ℕ => ((i : ℤ), (i : ℤ) + 1))

/-- The pairs that stay: the special rule excludes some, the loop from the back those with a gap. -/
def continuousPairs (nonContinuousPair potential : List (ℤ × ℤ)) : List (ℤ × ℤ) :=
  (potential.filter fun p => !nonContinuousPair.contains p).foldr
    (fun p kept => if isAxisContinuous E g p.1 p.2 then p :: kept else kept) []

/-! ## ApplyMerge -/

structure SchedState where
  axis : List AxisId := []
  mergeAxisSet : Finset AxisId := ∅
  firstMergeAxisIndex : Option ℕ := none

variable (mergedAxisId : AxisId)
variable (original : List AxisId)

/-- One iteration of `DoApplySchedAxisMerge`: the merged axis takes the place of the first. -/
def mergeSchedStep (s : SchedState) (p : AxisId × ℕ) : SchedState :=
  if p.1 ∈ original then
    let first := s.firstMergeAxisIndex.getD p.2
    let mergeAxisSet := insert p.1 s.mergeAxisSet
    if mergeAxisSet.card = original.length then
      ⟨s.axis.insertIdx first mergedAxisId, mergeAxisSet, some first⟩
    else ⟨s.axis, mergeAxisSet, some first⟩
  else { s with axis := s.axis ++ [p.1] }

def mergeSched (original sched : List AxisId) : Option (List AxisId) :=
  if original.toFinset.card = original.length then
    let s := sched.zipIdx.foldl (mergeSchedStep mergedAxisId original) {}
    if s.mergeAxisSet.card = original.length ∨ s.mergeAxisSet = ∅ then some s.axis else none
  else none

def consecutiveContinuous : List (Dim ε) → Bool
  | d :: d' :: dims =>
    E.staticCheckEq d.stride (E.mul d'.repeats d'.stride) && consecutiveContinuous (d' :: dims)
  | _ => true

/-- A tensor that has only some of the axes fails a check, which also counts as a gap. -/
def checkContinuous (t : Tensor ε) : Bool :=
  let inside := t.dims.filter fun d => original.contains d.axis
  let mergeAxisSet := (inside.map Dim.axis).toFinset
  if mergeAxisSet.card = original.toFinset.card ∨ mergeAxisSet = ∅ then consecutiveContinuous E inside
  else false

structure ViewState (ε : Type) where
  view : List (Dim ε) := []
  mergeAxisSet : Finset AxisId := ∅
  mergeRepeat : ε

/-- One iteration of `MergeView`. -/
def mergeViewStep (originalSet : Finset AxisId) (s : ViewState ε) (d : Dim ε) : ViewState ε :=
  if d.axis ∈ originalSet then
    let mergeRepeat := E.mul s.mergeRepeat d.repeats
    let mergeAxisSet := insert d.axis s.mergeAxisSet
    if mergeAxisSet.card = originalSet.card then
      ⟨s.view ++ [⟨mergedAxisId, mergeRepeat, d.stride⟩], mergeAxisSet, mergeRepeat⟩
    else ⟨s.view, mergeAxisSet, mergeRepeat⟩
  else { s with view := s.view ++ [d] }

/-- A failed check returns an empty view. -/
def mergeView (t : Tensor ε) : Tensor ε :=
  if t.Valid then
    let s := t.dims.foldl (mergeViewStep E mergedAxisId original.toFinset)
      { mergeRepeat := E.kSymbolOne }
    if s.mergeAxisSet.card = original.toFinset.card ∨ s.mergeAxisSet = ∅ then .ofDims s.view
    else ⟨[], [], []⟩
  else ⟨[], [], []⟩

/-- `DoApplyTensorAxisMerge` leaves a tensor with a gap as it is. -/
def mergeTensor (t : Tensor ε) : Tensor ε :=
  if checkContinuous E original t then mergeView E mergedAxisId original t else t

def doApplyMerge (n : Node ε) : Option (Node ε) :=
  match mergeSched mergedAxisId original n.sched with
  | none => none
  | some sched =>
    some { n with sched := sched, outputs := n.outputs.map (mergeTensor E mergedAxisId original) }

/-- Only a merged axis of two axes at least is applied. -/
def applyMerge (axes : List (Axis ε)) (mergedAxisId : AxisId) (n : Node ε) : Option (Node ε) :=
  if 0 ≤ mergedAxisId then
    match axes[mergedAxisId.toNat]? with
    | none => none
    | some axis =>
      if axis.type = .merged ∧ 2 ≤ axis.fromIds.length then doApplyMerge E mergedAxisId axis.fromIds n
      else none
  else none

/-! ## MergeContinuousAxis -/

/-- The table of axes, `from_id_to_merged_id` and `new_merged_axes`. -/
structure Merger (ε : Type) where
  axes : List (Axis ε)
  fromIdToMergedId : List (List AxisId × AxisId) := []
  newMergedAxes : List AxisId := []

/-- The size of a merged axis is a product over the table. -/
def mergedSize (axes : List (Axis ε)) : ε → List AxisId → Option ε
  | size, [] => some size
  | size, id :: ids =>
    if 0 ≤ id then
      match axes[id.toNat]? with
      | none => none
      | some axis => mergedSize axes (E.mul size axis.size) ids
    else none

/-- `AscGraph::MergeAxis`: the new axis goes to the end of the table. -/
def mergeAxis (axes : List (Axis ε)) (axisIds : List AxisId) : Option (AxisId × List (Axis ε)) :=
  match mergedSize E axes E.kSymbolOne axisIds with
  | none => none
  | some size => some (axes.length, axes ++ [⟨.merged, size, axisIds⟩])

/-- The merged axis of a list of ids, which is created when no node has asked for it before. -/
def Merger.mergedId (st : Merger ε) (fromIds : List AxisId) : Option (AxisId × Merger ε) :=
  match st.fromIdToMergedId.lookup fromIds with
  | some id => some (id, st)
  | none =>
    match mergeAxis E st.axes fromIds with
    | none => none
    | some (id, axes) =>
      some (id, ⟨axes, (fromIds, id) :: st.fromIdToMergedId, st.newMergedAxes ++ [id]⟩)

/-- The ids a node has at the positions of a group. -/
def fromIds (sched : List AxisId) (fromIdx : List ℤ) : Option (List AxisId) :=
  fromIdx.mapM fun index => sched[index.toNat]?

/-- The merged axes of a node, one for each group of positions. -/
def Merger.nodeMergedIds (st : Merger ε) (sched : List AxisId) :
    List (List ℤ) → Option (List AxisId × Merger ε)
  | [] => some ([], st)
  | fromIdx :: groups =>
    match fromIds sched fromIdx with
    | none => none
    | some ids =>
      match st.mergedId E ids with
      | none => none
      | some (id, st) =>
        match st.nodeMergedIds sched groups with
        | none => none
        | some (merged, st) => some (id :: merged, st)

def applyMerges (axes : List (Axis ε)) : List AxisId → Node ε → Option (Node ε)
  | [], n => some n
  | id :: ids, n =>
    match applyMerge E axes id n with
    | none => none
    | some n => applyMerges axes ids n

def Merger.mergeNode (st : Merger ε) (groups : List (List ℤ)) (n : Node ε) :
    Option (Node ε × Merger ε) :=
  if n.isBuffer then some (n, st)
  else
    match st.nodeMergedIds E n.sched groups with
    | none => none
    | some (ids, st) =>
      match applyMerges E st.axes ids n with
      | none => none
      | some n => some (n, st)

def Merger.mergeNodes (st : Merger ε) (groups : List (List ℤ)) :
    List (Node ε) → Option (List (Node ε) × Merger ε)
  | [] => some ([], st)
  | n :: nodes =>
    match st.mergeNode E groups n with
    | none => none
    | some (n, st) =>
      match st.mergeNodes groups nodes with
      | none => none
      | some (nodes, st) => some (n :: nodes, st)

/-- The result of `GetGatherParams`, which a failed check turns into `false`. -/
def hasGatherParams : Bool :=
  match g.nodes.find? (·.computeType == .gather) with
  | none => false
  | some n =>
    match g.input n 1, n.outputs[0]? with
    | some indices, some output =>
      !indices.axis.isEmpty && output.axis.all fun id => 0 ≤ id && id.toNat < g.axes.length
    | _, _ => false

/-- A merged axis counts as an original one from now on. -/
def toOriginal (newMergedAxes : List AxisId) (axes : List (Axis ε)) : List (Axis ε) :=
  axes.mapIdx fun i axis =>
    if newMergedAxes.contains (i : AxisId) then { axis with type := .original, fromIds := [] } else axis

/-! ### RemoveUnusedAxes -/

/-- The ids in the order of their new numbers. -/
abbrev PrevIds := List AxisId

/-- The new numbers of a list of ids. An id that has none gets the next one. -/
def renumberAxes (prevIds : PrevIds) : List AxisId → PrevIds × List AxisId
  | [] => (prevIds, [])
  | id :: ids =>
    let prevIds := if prevIds.contains id then prevIds else prevIds ++ [id]
    let (last, newIds) := renumberAxes prevIds ids
    (last, (prevIds.idxOf id : AxisId) :: newIds)

def renumberTensors (prevIds : PrevIds) : List (Tensor ε) → PrevIds × List (Tensor ε)
  | [] => (prevIds, [])
  | t :: outputs =>
    let (prevIds, axis) := renumberAxes prevIds t.axis
    let (last, outputs) := renumberTensors prevIds outputs
    (last, { t with axis := axis } :: outputs)

def renumberNodes (prevIds : PrevIds) : List (Node ε) → PrevIds × List (Node ε)
  | [] => (prevIds, [])
  | n :: nodes =>
    let (prevIds, sched) := renumberAxes prevIds n.sched
    let (prevIds, outputs) := renumberTensors prevIds n.outputs
    let (last, nodes) := renumberNodes prevIds nodes
    (last, { n with sched := sched, outputs := outputs } :: nodes)

/-- The axis of an old id under its new number, without the axes it was made of. -/
def srcAxis (axes : List (Axis ε)) (id : AxisId) : Option (Axis ε) :=
  if 0 ≤ id then axes[id.toNat]?.map fun axis => { axis with fromIds := [] } else none

def removeUnusedAxes : Option (Graph ε) :=
  let (prevIds, nodes) := renumberNodes [] g.nodes
  match prevIds.mapM (srcAxis g.axes) with
  | none => none
  | some axes => some ⟨nodes, axes⟩

def mergeContinuousAxis (cubeType : CubeTemplateType) : Option (Graph ε) :=
  if g.axes.length ≤ 1 ∨ g.nodes.any (·.type == .indirectLoad) then some g
  else
    match potentialAxisIdx g, getNonContinuousAxisPairBySpecialRule E g with
    | some potential, some nonContinuousPair =>
      let groups := mergeContinuousPairs (continuousPairs E g nonContinuousPair potential)
      match Merger.mergeNodes E { axes := g.axes } groups g.nodes with
      | none => none
      | some (nodes, st) =>
        if !hasGatherParams ⟨nodes, st.axes⟩ && cubeType != .ubFuse then
          removeUnusedAxes ⟨nodes, toOriginal st.newMergedAxes st.axes⟩
        else some ⟨nodes, st.axes⟩
    | _, _ => none

end GraphAutofusion.Autofuse.LoopAxes
