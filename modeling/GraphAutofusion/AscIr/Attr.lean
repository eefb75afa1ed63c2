import Mathlib.Data.List.Basic
import Mathlib.Algebra.GroupWithZero.Nat

/-!
# AscIr.Attr — the attribute groups of an `AscGraph` and their messages

`SerializeAttr` writes the attributes of a graph, a node or a tensor into a message and
`DeserializeAttr` reads them back into an object that is there already. Scalars are replaced,
list fields are appended to. A C++ enumeration with a fixed underlying type is the number it
holds: the casts on both sides do not look at it.
-/

namespace GraphAutofusion.AscIr

open List

/-- The text form of expressions: `SymbolicUtils::ToString` and `Expression::Deserialize`, which
reads every text that was written. -/
structure ExprText (E : Type) where
  toString : E → String
  deserialize : String → E
  deserialize_toString : ∀ e, deserialize (toString e) = e

/-- An id that is not set. -/
def kIdNone : ℤ := -1

/-! ## Graph attributes -/

structure SizeVar (E : Type) where
  id : ℤ := 0
  name : String := ""
  constValue : ℤ := 0
  type : ℤ := 0
  expr : E
deriving DecidableEq

/-- A loop axis, or its message when `E` is `String`: `AxisDef` has the same fields. -/
structure Axis (E : Type) where
  id : ℤ
  name : String
  type : ℤ
  bindBlock : Bool
  size : E
  align : E
  fromIds : List ℤ
  splitPairOtherId : ℤ
  allowOversizeAxis : Bool
  allowUnalignedTail : Bool
deriving DecidableEq

/-- `transInfoRoad` holds steps of a type that no serialisation reads. -/
structure AscGraphAttr (E T : Type) where
  tilingKey : ℤ := -1
  axis : List (Axis E) := []
  transInfoRoad : List T := []
  sizeVars : List (SizeVar E) := []
  type : ℤ := 0
deriving DecidableEq

structure AscGraphAttrGroupsDef where
  tilingKey : ℤ
  axis : List (Axis String)
  type : ℤ
  sizeVar : List String

/-! ## Node attributes -/

/-- `execOrder` is kept for compatibility only. -/
structure SchedInfo where
  execOrder : ℤ := kIdNone
  axis : List ℤ := []
  loopAxis : ℤ := kIdNone
  execCondition : ℤ := 0
deriving DecidableEq

structure ApiInfo where
  type : ℤ := 2
  computeType : ℤ := 11
  unit : ℤ := 7
deriving DecidableEq

structure MemAttr where
  tensorId : ℤ := kIdNone
  allocType : ℤ := 0
  position : ℤ := 0
  hardware : ℤ := 0
  bufIds : List ℤ := []
  name : String := ""
  reuseId : ℤ := kIdNone
deriving DecidableEq

/-- A field of a message that is not set reads as zero. -/
structure MemAttrDef where
  tensorId : ℤ := 0
  allocType : ℤ := 0
  position : ℤ := 0
  hardware : ℤ := 0
  bufIds : List ℤ := []
  name : String := ""
  reuseId : ℤ := 0

structure TmpBufDesc (E : Type) where
  size : E
  lifeTimeAxisId : ℤ
deriving DecidableEq

structure TmpBuffer (E : Type) where
  bufDesc : TmpBufDesc E
  mem : MemAttr
  id : ℤ
deriving DecidableEq

structure TmpBufferGroupDef where
  bufDesc : TmpBufDesc String
  mem : MemAttrDef
  id : ℤ

/-- `irAttr` gives the IR attributes by name; `V` stands for the values that the registered
serialisers of `AnyValue` write and read. -/
structure AscNodeAttr (E V : Type) where
  name : String
  type : String
  sched : SchedInfo := {}
  api : ApiInfo := {}
  irAttr : Option (String → Option V) := none
  tmpBuffers : List (TmpBuffer E) := []

structure SchedInfoDef where
  axis : List ℤ
  loopAxis : ℤ
  execCondition : ℤ

structure AscNodeAttrGroupsDef (V : Type) where
  name : String
  type : String
  sched : SchedInfoDef
  api : ApiInfo
  irAttrDef : Option (String → Option V)
  tmpBuffers : List TmpBufferGroupDef

/-! ## Tensor attributes -/

structure MemQueAttr where
  id : ℤ := kIdNone
  depth : ℤ := -1
  bufNum : ℤ := -1
  name : String := ""
deriving DecidableEq

structure MemBufAttr where
  id : ℤ := kIdNone
  name : String := ""
deriving DecidableEq

structure MemOptAttr where
  reuseId : ℤ := kIdNone
  refTensor : ℤ := kIdNone
  mergeScope : ℤ := kIdNone
deriving DecidableEq

/-- `dtype` is the data type of the tensor descriptor that holds the attributes. -/
structure AscTensorAttr (E : Type) where
  dtype : ℤ := 0
  axis : List ℤ := []
  repeats : List E := []
  strides : List E := []
  vectorizedAxis : List ℤ := []
  vectorizedStrides : List E := []
  mem : MemAttr := {}
  que : MemQueAttr := {}
  buf : MemBufAttr := {}
  opt : MemOptAttr := {}
deriving DecidableEq

structure AscTensorAttrGroupsDef where
  dtype : ℤ
  axisIds : List ℤ
  repeats : List String
  strides : List String
  vectorizedAxis : List ℤ
  vectorizedStrides : List String
  mem : MemAttrDef
  que : MemQueAttr
  buf : MemBufAttr
  opt : MemOptAttr

/-! ## Writing and reading -/

variable {E T V : Type} (text : ExprText E)

def Axis.map {F : Type} (f : E → F) (ax : Axis E) : Axis F :=
  { ax with size := f ax.size, align := f ax.align }

namespace AscGraphAttr

def serializeAttr (attr : AscGraphAttr E T) : AscGraphAttrGroupsDef where
  tilingKey := attr.tilingKey
  axis := attr.axis.map (Axis.map text.toString)
  type := attr.type
  sizeVar := attr.sizeVars.map fun var => text.toString var.expr

def deserializeAttr (msg : AscGraphAttrGroupsDef) (attr : AscGraphAttr E T) : AscGraphAttr E T :=
  { attr with
    tilingKey := msg.tilingKey
    axis := attr.axis ++ msg.axis.map (Axis.map text.deserialize)
    sizeVars := attr.sizeVars ++ msg.sizeVar.map fun var => { expr := text.deserialize var }
    type := msg.type }

end AscGraphAttr

/-- The memory of a temporary buffer, all fields of it. -/
def MemAttr.toDef (mem : MemAttr) : MemAttrDef where
  tensorId := mem.tensorId
  allocType := mem.allocType
  position := mem.position
  hardware := mem.hardware
  bufIds := mem.bufIds
  name := mem.name
  reuseId := mem.reuseId

def MemAttrDef.toAttr (msg : MemAttrDef) : MemAttr where
  tensorId := msg.tensorId
  allocType := msg.allocType
  position := msg.position
  hardware := msg.hardware
  bufIds := msg.bufIds
  name := msg.name
  reuseId := msg.reuseId

namespace AscNodeAttr

/-- `AscIrAttrDefBase::Deserialize`: the attributes of the message replace those of their name. -/
def mergeIrAttr (store msg : String → Option V) : String → Option V := fun name =>
  (msg name).or (store name)

def serializeAttr (attr : AscNodeAttr E V) : AscNodeAttrGroupsDef V where
  name := attr.name
  type := attr.type
  sched :=
    { axis := attr.sched.axis
      loopAxis := attr.sched.loopAxis
      execCondition := attr.sched.execCondition }
  api := attr.api
  irAttrDef := attr.irAttr
  tmpBuffers := attr.tmpBuffers.map fun buffer =>
    { bufDesc :=
        { size := text.toString buffer.bufDesc.size
          lifeTimeAxisId := buffer.bufDesc.lifeTimeAxisId }
      mem := buffer.mem.toDef
      id := buffer.id }

def deserializeAttr (msg : AscNodeAttrGroupsDef V) (attr : AscNodeAttr E V) : AscNodeAttr E V where
  name := msg.name
  type := msg.type
  sched :=
    { attr.sched with
      axis := attr.sched.axis ++ msg.sched.axis
      loopAxis := msg.sched.loopAxis
      execCondition := msg.sched.execCondition }
  api := msg.api
  irAttr :=
    match msg.irAttrDef with
    | none => attr.irAttr
    | some values => some (mergeIrAttr (attr.irAttr.getD fun _ => none) values)
  tmpBuffers := attr.tmpBuffers ++ msg.tmpBuffers.map fun buffer =>
    { bufDesc :=
        { size := text.deserialize buffer.bufDesc.size
          lifeTimeAxisId := buffer.bufDesc.lifeTimeAxisId }
      mem := buffer.mem.toAttr
      id := buffer.id }

end AscNodeAttr

namespace AscTensorAttr

/-- The reuse id of the memory is not written. -/
def serializeAttr (attr : AscTensorAttr E) : AscTensorAttrGroupsDef where
  dtype := attr.dtype
  axisIds := attr.axis
  repeats := attr.repeats.map text.toString
  strides := attr.strides.map text.toString
  vectorizedAxis := attr.vectorizedAxis
  vectorizedStrides := attr.vectorizedStrides.map text.toString
  mem :=
    { tensorId := attr.mem.tensorId
      allocType := attr.mem.allocType
      position := attr.mem.position
      hardware := attr.mem.hardware
      bufIds := attr.mem.bufIds
      name := attr.mem.name }
  que := attr.que
  buf := attr.buf
  opt := attr.opt

/-- The reuse id of the memory is not read. -/
def deserializeAttr (msg : AscTensorAttrGroupsDef) (attr : AscTensorAttr E) : AscTensorAttr E where
  dtype := msg.dtype
  axis := attr.axis ++ msg.axisIds
  repeats := attr.repeats ++ msg.repeats.map text.deserialize
  strides := attr.strides ++ msg.strides.map text.deserialize
  vectorizedAxis := attr.vectorizedAxis ++ msg.vectorizedAxis
  vectorizedStrides := attr.vectorizedStrides ++ msg.vectorizedStrides.map text.deserialize
  mem :=
    { attr.mem with
      tensorId := msg.mem.tensorId
      allocType := msg.mem.allocType
      position := msg.mem.position
      hardware := msg.mem.hardware
      bufIds := attr.mem.bufIds ++ msg.mem.bufIds
      name := msg.mem.name }
  que := msg.que
  buf := msg.buf
  opt := msg.opt

end AscTensorAttr

/-! ## What comes back -/

variable {text}

theorem map_deserialize_toString (es : List E) :
    (es.map text.toString).map text.deserialize = es := by
  rw [map_map]
  refine (map_congr_left fun e _ => ?_).trans (map_id es)
  exact text.deserialize_toString e

theorem Axis.deserialize_toString (ax : Axis E) :
    (ax.map text.toString).map text.deserialize = ax := by
  unfold Axis.map
  rw [text.deserialize_toString, text.deserialize_toString]

/-- The axes come back behind those that are there, the size variables as their expressions. -/
theorem AscGraphAttr.deserializeAttr_serializeAttr (attr old : AscGraphAttr E T) :
    deserializeAttr text (serializeAttr text attr) old =
      { old with
        tilingKey := attr.tilingKey
        axis := old.axis ++ attr.axis
        sizeVars := old.sizeVars ++ attr.sizeVars.map fun var => { expr := var.expr }
        type := attr.type } := by
  unfold deserializeAttr serializeAttr
  simp only [map_map, Function.comp_def, Axis.deserialize_toString, map_id',
    text.deserialize_toString]

/-- Into a new node all fields come back but the deprecated one. -/
theorem AscNodeAttr.deserializeAttr_serializeAttr (attr : AscNodeAttr E V) (name type : String) :
    deserializeAttr text (serializeAttr text attr) { name := name, type := type } =
      { attr with sched := { attr.sched with execOrder := kIdNone } } := by
  have hbuffers : ∀ buffer : TmpBuffer E,
      { bufDesc :=
          { size := text.deserialize (text.toString buffer.bufDesc.size)
            lifeTimeAxisId := buffer.bufDesc.lifeTimeAxisId }
        mem := buffer.mem.toDef.toAttr
        id := buffer.id } = buffer := by
    intro buffer
    rw [text.deserialize_toString]
    rfl
  have hir : (match attr.irAttr with
      | none => none
      | some values => some (mergeIrAttr (fun _ => none) values)) = attr.irAttr := by
    cases attr.irAttr with
    | none => rfl
    | some values =>
      show some _ = some values
      congr 1
      funext n
      exact Option.or_none
  unfold deserializeAttr serializeAttr
  simp only [map_map, Function.comp_def, hbuffers, map_id', nil_append,
    Option.getD_none, hir]

/-- Into a new tensor all fields come back but the reuse id of the memory. -/
theorem AscTensorAttr.deserializeAttr_serializeAttr (attr : AscTensorAttr E) :
    deserializeAttr text (serializeAttr text attr) {} =
      { attr with mem := { attr.mem with reuseId := kIdNone } } := by
  unfold deserializeAttr serializeAttr
  simp only [map_deserialize_toString, nil_append]

end GraphAutofusion.AscIr
