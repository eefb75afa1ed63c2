import GraphAutofusion.Lib.Scan
import Mathlib.Algebra.BigOperators.Group.List.Basic
import Mathlib.Data.BitVec

/-!
# GraphMetadef.ArgsFormat — the texts that describe kernel arguments

An argument is written between braces: a pattern that names its kind, then an index or a further
word. A text is read back by the handler of the longest pattern it begins with. A super kernel
names the arguments of its sub operators by the id of the operator and the text of the argument.
-/

namespace GraphAutofusion.GraphMetadef

open Lib

inductive AddrType where
  | INPUT
  | OUTPUT
  | WORKSPACE
  | TILING
  | INPUT_DESC
  | OUTPUT_DESC
  | FFTS_ADDR
  | OVERFLOW_ADDR
  | TILING_FFTS
  | HIDDEN_INPUT
  | TILING_CONTEXT
  | OP_TYPE
  | PLACEHOLDER
  | CUSTOM_VALUE
  | INPUT_INSTANCE
  | OUTPUT_INSTANCE
  | SUPER_KERNEL_SUB_NODE
  | EVENT_ADDR
  deriving DecidableEq, Repr

/-- `ArgDesc` and the two layouts that a super kernel reads over it. The fields for the sub operator
are used when the type is `SUPER_KERNEL_SUB_NODE`, and `reserved` then has 32 bits. -/
structure ArgDesc where
  addrType : AddrType
  irIdx : ℤ
  folded : Bool
  reserved : BitVec 64 := 0
  subAddrType : AddrType := .INPUT
  subIdx : ℤ := 0
  deriving DecidableEq

inductive IrType where
  | required
  | optional
  | dynamic
  deriving DecidableEq

inductive ShapeKind where
  | unknownDimNum
  | scalar
  | dims (num : ℕ)

structure OpDesc where
  id : ℕ
  irInputs : List (Text × IrType)
  irOutputs : List (Text × IrType)
  /-- The names of the inputs in the order of the map, with their index. -/
  allInputName : List (Text × ℕ)
  allOutputName : List (Text × ℕ)
  inputsSize : ℕ
  outputsSize : ℕ
  inputShape : ℕ → ShapeKind
  outputShape : ℕ → ShapeKind

/-- An operator, with its sub graph when it is a super kernel. -/
structure KernelOp where
  opDesc : OpDesc
  skSubGraph : Option (List OpDesc)

def kAmbiguousIrIdx : ℤ := -1

def sizeofUintptr : ℕ := 8

def kMaxDimNum : ℕ := 25

def kMaxWorkspaceNum : ℕ := 16

/-! ## Widths and sub types -/

inductive ArgsFormatWidth where
  | BIT64
  | BIT32

def ArgsFormatWidth.toInt : ArgsFormatWidth → ℤ
  | .BIT64 => -1
  | .BIT32 => -2

inductive TilingContextSubType where
  | TILING_CONTEXT
  | TILING_DATA
  | TILING_KEY
  | BLOCK_DIM

def TilingContextSubType.toInt : TilingContextSubType → ℤ
  | .TILING_CONTEXT => -1
  | .TILING_DATA => 0
  | .TILING_KEY => 1
  | .BLOCK_DIM => 2

def hcom : BitVec 32 := 0

def tilefwk : BitVec 32 := 1

/-- The first four bytes of the reserved field. -/
def ArgDesc.hiddenType (d : ArgDesc) : BitVec 32 := d.reserved.setWidth 32

/-! ## Serializers -/

def textStar : Text := ['*']

def text32b : Text := ['.', '3', '2', 'b']

variable (pattern : Text)

def arrayLikeSerializer (d : ArgDesc) : Text :=
  if 0 ≤ d.irIdx then pattern ++ (decimalInt d.irIdx ++ if d.folded then [] else textStar)
  else pattern ++ textStar

def defaultSerializer (_ : ArgDesc) : Text := pattern

def fftsTilingSerializer (d : ArgDesc) : Text :=
  if d.irIdx = 0 then pattern ++ ['.', 'n', 'o', 'n', '_', 't', 'a', 'i', 'l']
  else pattern ++ ['.', 't', 'a', 'i', 'l']

def placeholderSerializer (d : ArgDesc) : Text :=
  if d.irIdx = ArgsFormatWidth.BIT32.toInt then pattern ++ text32b else pattern

def eventAddrSerializer (d : ArgDesc) : Text :=
  pattern ++ (decimalInt d.irIdx ++ textStar)

def hiddenInputSerializer (d : ArgDesc) : Text :=
  if d.hiddenType = hcom then pattern ++ (['.', 'h', 'c', 'o', 'm'] ++ (decimalInt d.irIdx ++ textStar))
  else if d.hiddenType = tilefwk then
    pattern ++ (['.', 't', 'i', 'l', 'e', 'f', 'w', 'k'] ++ (decimalInt d.irIdx ++ textStar))
  else []

def tilingContextSerializer (d : ArgDesc) : Text :=
  if d.irIdx = TilingContextSubType.TILING_DATA.toInt then
    pattern ++ ['.', 't', 'i', 'l', 'i', 'n', 'g', '_', 'd', 'a', 't', 'a']
  else if d.irIdx = TilingContextSubType.TILING_KEY.toInt then
    pattern ++ ['.', 't', 'i', 'l', 'i', 'n', 'g', '_', 'k', 'e', 'y']
  else if d.irIdx = TilingContextSubType.BLOCK_DIM.toInt then
    pattern ++ ['.', 'b', 'l', 'o', 'c', 'k', '_', 'd', 'i', 'm']
  else pattern

def customValueSerializer (d : ArgDesc) : Text :=
  if d.irIdx = ArgsFormatWidth.BIT32.toInt then pattern ++ (text32b ++ decimal d.reserved.toNat)
  else pattern ++ decimal d.reserved.toNat

/-! ## Parsers -/

def defaultParser (_ : OpDesc) (_ : Text) (type : AddrType) : Option (List ArgDesc) :=
  some [⟨type, kAmbiguousIrIdx, false, 0, .INPUT, 0⟩]

def placeholderParser (_ : OpDesc) (text : Text) (type : AddrType) : Option (List ArgDesc) :=
  if text = text32b then some [⟨type, ArgsFormatWidth.BIT32.toInt, false, 0, .INPUT, 0⟩]
  else if text ≠ [] then none
  else some [⟨type, ArgsFormatWidth.BIT64.toInt, false, 0, .INPUT, 0⟩]

def eventAddrParser (_ : OpDesc) (text : Text) (type : AddrType) : Option (List ArgDesc) :=
  some [⟨type, (collectDigits (text.drop 10)).1, false, 0, .INPUT, 0⟩]

def workspaceParser (_ : OpDesc) (text : Text) (type : AddrType) : Option (List ArgDesc) :=
  if text = ['w', 's', '*'] then some [⟨type, kAmbiguousIrIdx, false, 0, .INPUT, 0⟩]
  else some [⟨type, (collectDigits (text.drop 2)).1, false, 0, .INPUT, 0⟩]

/-- `InputInstanceParser` and `OutputInstanceParser`. -/
def instanceParser (validSize : OpDesc → ℕ) (op : OpDesc) (text : Text)
    (type : AddrType) : Option (List ArgDesc) :=
  if text = pattern ++ textStar then
    some ((List.range (validSize op)).map fun (i : ℕ) => ⟨type, i, false, 0, .INPUT, 0⟩)
  else
    match (scanLiteral pattern text).bind scanInt with
    | none => none
    | some irIdx =>
      if 0 ≤ irIdx ∧ irIdx < validSize op then some [⟨type, irIdx, false, 0, .INPUT, 0⟩] else none

/-- `InputParser` and `OutputParser`. -/
def ioParser (irs : OpDesc → List (Text × IrType)) (op : OpDesc) (text : Text)
    (type : AddrType) : Option (List ArgDesc) :=
  if text = pattern ++ textStar then
    some ((irs op).zipIdx.map fun ir => ⟨type, ir.2, ir.1.2 = .dynamic, 0, .INPUT, 0⟩)
  else
    let digits := collectDigits (text.drop 1)
    if digits.2 = true then
      match (irs op)[digits.1]? with
      | none => none
      | some ir =>
        some [⟨type, digits.1, ir.2 = .dynamic && text.getLast? ≠ some '*', 0, .INPUT, 0⟩]
    else none

def ioDescParser (_ : OpDesc) (text : Text) (type : AddrType) : Option (List ArgDesc) :=
  let digits := collectDigits (text.drop 6)
  if digits.2 = true then some [⟨type, digits.1, text.getLast? ≠ some '*', 0, .INPUT, 0⟩] else none

def hiddenInputParser (_ : OpDesc) (text : Text) (type : AddrType) : Option (List ArgDesc) :=
  match (scanLiteral ['h', 'i', '.', 'h', 'c', 'o', 'm'] text).bind scanInt with
  | some irIdx => some [⟨type, irIdx, false, hcom.setWidth 64, .INPUT, 0⟩]
  | none =>
    match (scanLiteral ['h', 'i', '.', 't', 'i', 'l', 'e', 'f', 'w', 'k'] text).bind scanInt with
    | some irIdx => some [⟨type, irIdx, false, tilefwk.setWidth 64, .INPUT, 0⟩]
    | none => none

def tilingContextParser (_ : OpDesc) (text : Text) (type : AddrType) : Option (List ArgDesc) :=
  let subType : Option TilingContextSubType :=
    if text = ['t', 'i', 'l', 'i', 'n', 'g', '_', 'c', 'o', 'n', 't', 'e', 'x', 't'] then
      some .TILING_CONTEXT
    else if text = ['t', 'i', 'l', 'i', 'n', 'g', '_', 'c', 'o', 'n', 't', 'e', 'x', 't'] ++
        ['.', 't', 'i', 'l', 'i', 'n', 'g', '_', 'd', 'a', 't', 'a'] then some .TILING_DATA
    else if text = ['t', 'i', 'l', 'i', 'n', 'g', '_', 'c', 'o', 'n', 't', 'e', 'x', 't'] ++
        ['.', 't', 'i', 'l', 'i', 'n', 'g', '_', 'k', 'e', 'y'] then some .TILING_KEY
    else if text = ['t', 'i', 'l', 'i', 'n', 'g', '_', 'c', 'o', 'n', 't', 'e', 'x', 't'] ++
        ['.', 'b', 'l', 'o', 'c', 'k', '_', 'd', 'i', 'm'] then some .BLOCK_DIM
    else none
  subType.map fun s => [⟨type, s.toInt, false, 0, .INPUT, 0⟩]

/-- The conversion `%lu`, into 64 bits. -/
def scanULong (text : Text) : Option (BitVec 64) := (scanInt text).map (BitVec.ofInt 64)

def customValueParser (_ : OpDesc) (text : Text) (type : AddrType) : Option (List ArgDesc) :=
  match (scanLiteral (['#'] ++ text32b) text).bind scanULong with
  | some payload => some [⟨type, ArgsFormatWidth.BIT32.toInt, false, payload, .INPUT, 0⟩]
  | none =>
    match (scanLiteral ['#'] text).bind scanULong with
    | some payload => some [⟨type, ArgsFormatWidth.BIT64.toInt, false, payload, .INPUT, 0⟩]
    | none => none

/-! ## Sizes -/

def defaultCalcSize (_ : OpDesc) (_ : ArgDesc) : Option ℕ := some sizeofUintptr

def workspaceCalcSize (_ : OpDesc) (d : ArgDesc) : Option ℕ :=
  if d.irIdx = kAmbiguousIrIdx then some (sizeofUintptr * kMaxWorkspaceNum) else some sizeofUintptr

/-- The indices of the real inputs of a dynamic one: its name followed by 0, 1 and so on. -/
def dynamicInstances (irName : Text) (names : List (Text × ℕ)) : List ℕ :=
  (names.foldl (fun found name =>
    if name.1 = irName ++ decimal found.length then found ++ [name.2] else found) [])

def irCount (names : List (Text × ℕ)) (ir : Text × IrType) (folded : Bool) : ℕ :=
  if ir.2 = .dynamic then (if folded then 1 else 0) + (dynamicInstances ir.1 names).length else 1

/-- `InputCalcSize` and `OutputCalcSize`. -/
def ioCalcSize (irs : OpDesc → List (Text × IrType)) (names : OpDesc → List (Text × ℕ)) (op : OpDesc)
    (d : ArgDesc) : Option ℕ :=
  if 0 ≤ d.irIdx then
    ((irs op)[d.irIdx.toNat]?).map fun ir => irCount (names op) ir d.folded * sizeofUintptr
  else some (((irs op).map fun ir => irCount (names op) ir true).sum * sizeofUintptr)

/-- `InputInstanceCalcSize` and `OutputInstanceCalcSize`. -/
def instanceCalcSize (validSize : OpDesc → ℕ) (op : OpDesc) (d : ArgDesc) : Option ℕ :=
  some ((if d.irIdx < 0 then validSize op else 1) * (if d.folded then 2 else 1) * sizeofUintptr)

def shapeSize : ShapeKind → ℕ
  | .unknownDimNum => sizeofUintptr * kMaxDimNum
  | .scalar => sizeofUintptr
  | .dims num => sizeofUintptr * num

/-- `InputDescCalcSize` and `OutputDescCalcSize`. -/
def ioDescCalcSize (irs : OpDesc → List (Text × IrType)) (names : OpDesc → List (Text × ℕ))
    (shape : OpDesc → ℕ → ShapeKind) (op : OpDesc) (d : ArgDesc) : Option ℕ :=
  if 0 ≤ d.irIdx then
    ((irs op)[d.irIdx.toNat]?).map fun ir =>
      (if d.folded then sizeofUintptr else 0) + sizeofUintptr +
        ((dynamicInstances ir.1 (names op)).map fun i => sizeofUintptr * 2 + shapeSize (shape op i)).sum
  else none

def variableWidthCalcSize (_ : OpDesc) (d : ArgDesc) : Option ℕ :=
  if d.irIdx = ArgsFormatWidth.BIT64.toInt then some 8
  else if d.irIdx = ArgsFormatWidth.BIT32.toInt then some 4
  else none

/-! ## The handlers -/

structure PatternHandler where
  pattern : Text
  parse : OpDesc → Text → AddrType → Option (List ArgDesc)
  getArgsSize : OpDesc → ArgDesc → Option ℕ
  serialize : Text → ArgDesc → Text
  type : AddrType

/-- The longest pattern comes first. -/
def kSkPatternToHandler : List PatternHandler :=
  [⟨['t', 'i', 'l', 'i', 'n', 'g', '_', 'c', 'o', 'n', 't', 'e', 'x', 't'], tilingContextParser,
      defaultCalcSize, tilingContextSerializer, .TILING_CONTEXT⟩,
    ⟨['o', 'v', 'e', 'r', 'f', 'l', 'o', 'w', '_', 'a', 'd', 'd', 'r'], defaultParser, defaultCalcSize,
      defaultSerializer, .OVERFLOW_ADDR⟩,
    ⟨['e', 'v', 'e', 'n', 't', '_', 'a', 'd', 'd', 'r'], eventAddrParser, defaultCalcSize,
      eventAddrSerializer, .EVENT_ADDR⟩,
    ⟨['i', '_', 'i', 'n', 's', 't', 'a', 'n', 'c', 'e'],
      instanceParser ['i', '_', 'i', 'n', 's', 't', 'a', 'n', 'c', 'e'] OpDesc.inputsSize,
      instanceCalcSize OpDesc.inputsSize, arrayLikeSerializer, .INPUT_INSTANCE⟩,
    ⟨['o', '_', 'i', 'n', 's', 't', 'a', 'n', 'c', 'e'],
      instanceParser ['o', '_', 'i', 'n', 's', 't', 'a', 'n', 'c', 'e'] OpDesc.outputsSize,
      instanceCalcSize OpDesc.outputsSize, arrayLikeSerializer, .OUTPUT_INSTANCE⟩,
    ⟨['f', 'f', 't', 's', '_', 'a', 'd', 'd', 'r'], defaultParser, defaultCalcSize, defaultSerializer,
      .FFTS_ADDR⟩,
    ⟨['*', 'o', 'p', '_', 't', 'y', 'p', 'e'], defaultParser, defaultCalcSize, defaultSerializer,
      .OP_TYPE⟩,
    ⟨['i', '_', 'd', 'e', 's', 'c'], ioDescParser,
      ioDescCalcSize OpDesc.irInputs OpDesc.allInputName OpDesc.inputShape, arrayLikeSerializer,
      .INPUT_DESC⟩,
    ⟨['o', '_', 'd', 'e', 's', 'c'], ioDescParser,
      ioDescCalcSize OpDesc.irOutputs OpDesc.allOutputName OpDesc.outputShape, arrayLikeSerializer,
      .OUTPUT_DESC⟩,
    ⟨['t', '_', 'f', 'f', 't', 's'], defaultParser, defaultCalcSize, fftsTilingSerializer,
      .TILING_FFTS⟩,
    ⟨['h', 'i'], hiddenInputParser, defaultCalcSize, hiddenInputSerializer, .HIDDEN_INPUT⟩,
    ⟨['w', 's'], workspaceParser, workspaceCalcSize, arrayLikeSerializer, .WORKSPACE⟩,
    ⟨['#'], customValueParser, variableWidthCalcSize, customValueSerializer, .CUSTOM_VALUE⟩,
    ⟨['i'], ioParser ['i'] OpDesc.irInputs, ioCalcSize OpDesc.irInputs OpDesc.allInputName,
      arrayLikeSerializer, .INPUT⟩,
    ⟨['o'], ioParser ['o'] OpDesc.irOutputs, ioCalcSize OpDesc.irOutputs OpDesc.allOutputName,
      arrayLikeSerializer, .OUTPUT⟩,
    ⟨['t'], defaultParser, defaultCalcSize, defaultSerializer, .TILING⟩,
    ⟨[], placeholderParser, variableWidthCalcSize, placeholderSerializer, .PLACEHOLDER⟩]

/-! ## Arguments of sub operators -/

variable (op : KernelOp)

def findSkSubNode (id : ℤ) : Option OpDesc :=
  match op.skSubGraph with
  | none => none
  | some nodes => nodes.find? fun node => (node.id : ℤ) = id

def convertArgDescNormal2Sk (d : ArgDesc) (opId : ℤ) : Option ArgDesc :=
  if d.addrType = .CUSTOM_VALUE then none
  else if d.addrType = .HIDDEN_INPUT then
    some ⟨.SUPER_KERNEL_SUB_NODE, opId, false, d.hiddenType.setWidth 64, d.addrType, d.irIdx⟩
  else some ⟨.SUPER_KERNEL_SUB_NODE, opId, d.folded, 0, d.addrType, d.irIdx⟩

def int32Max : ℤ := 2147483647

def convertArgDescSk2Normal (d : ArgDesc) : ArgDesc × ℤ :=
  if d.addrType ≠ .SUPER_KERNEL_SUB_NODE then (d, int32Max)
  else if d.subAddrType ≠ .HIDDEN_INPUT then (⟨d.subAddrType, d.subIdx, d.folded, 0, .INPUT, 0⟩, d.irIdx)
  else (⟨d.subAddrType, d.subIdx, false, d.hiddenType.setWidth 64, .INPUT, 0⟩, d.irIdx)

/-- The first handler whose pattern the text begins with. -/
def skParse (op : OpDesc) (text : Text) : Option (List ArgDesc) :=
  match kSkPatternToHandler.find? fun h => h.pattern.isPrefixOf text with
  | none => some []
  | some h => h.parse op text h.type

def skSerialize (d : ArgDesc) : Text :=
  match kSkPatternToHandler.find? fun h => h.type = d.addrType with
  | none => []
  | some h => h.serialize h.pattern d

def skGetArgsSize (op : OpDesc) (d : ArgDesc) : Option ℕ :=
  match kSkPatternToHandler.find? fun h => h.type = d.addrType with
  | none => none
  | some h => h.getArgsSize op d

def textSkn : Text := ['s', 'k', 'n']

def sknParser (text : Text) : Option (List ArgDesc) :=
  let rest := text.drop textSkn.length
  match scanNat rest with
  | none => none
  | some subIdx =>
    match findSkSubNode op subIdx with
    | none => none
    | some node =>
      match skParse node (rest.dropWhile Char.isDigit) with
      | some [d] => (convertArgDescNormal2Sk d subIdx).map fun sk => [sk]
      | _ => none

def sknSerializer (d : ArgDesc) : Text :=
  let normal := convertArgDescSk2Normal d
  textSkn ++ (decimalInt normal.2 ++ skSerialize normal.1)

def sknCalcSize (d : ArgDesc) : Option ℕ :=
  let normal := convertArgDescSk2Normal d
  match findSkSubNode op normal.2 with
  | none => none
  | some node => skGetArgsSize node normal.1

/-! ## Whole formats -/

/-- The table of all handlers is the one above with one more pattern, which no other begins with or
continues. -/
def singleParser (text : Text) : Option (List ArgDesc) :=
  if textSkn.isPrefixOf text then sknParser op text else skParse op.opDesc text

/-- What `Append` and its relatives put behind a list. -/
def appendArg (type : AddrType) (irIdx : ℤ) (folded : Bool) : ArgDesc :=
  ⟨type, if type = .HIDDEN_INPUT then 0 else irIdx, folded, 0, .INPUT, 0⟩

def appendTilingContext (subType : TilingContextSubType) : ArgDesc :=
  ⟨.TILING_CONTEXT, subType.toInt, false, 0, .INPUT, 0⟩

def appendPlaceholder (width : ArgsFormatWidth) : ArgDesc :=
  ⟨.PLACEHOLDER, width.toInt, false, 0, .INPUT, 0⟩

def appendCustomValue (value : BitVec 64) (width : ArgsFormatWidth) : ArgDesc :=
  ⟨.CUSTOM_VALUE, width.toInt, false, value, .INPUT, 0⟩

/-- Reading a format: between braces, or inside of them with the text read so far. The descriptors
are those read before an error. -/
def parseFrom (op : KernelOp) : Option Text → Text → Bool × List ArgDesc
  | none, [] => (true, [])
  | some _, [] => (false, [])
  | none, c :: text => if c = '\x7b' then parseFrom op (some []) text else (false, [])
  | some pattern, c :: text =>
    if c = '\x7d' then
      match singleParser op pattern with
      | none => (false, [])
      | some ds =>
        let rest := parseFrom op none text
        (rest.1, ds ++ rest.2)
    else parseFrom op (some (pattern ++ [c])) text

def parse (text : Text) : Bool × List ArgDesc := parseFrom op none text

def argText (d : ArgDesc) : Text :=
  if d.addrType = .SUPER_KERNEL_SUB_NODE then sknSerializer d else skSerialize d

def serialize (ds : List ArgDesc) : Text := ds.flatMap fun d => '\x7b' :: (argText d ++ ['\x7d'])

def argSize (d : ArgDesc) : Option ℕ :=
  if d.addrType = .SUPER_KERNEL_SUB_NODE then sknCalcSize op d else skGetArgsSize op.opDesc d

def getArgsSize (op : KernelOp) : List ArgDesc → Option ℕ
  | [] => some 0
  | d :: ds => (argSize op d).bind fun size => (getArgsSize op ds).map fun total => size + total

/-- The descriptors that a format of the sub operator yields are rewritten for the super kernel and
put behind its format. A failure to read the format is not noticed. -/
def convertToSuperKernelArgFormat (subOp : OpDesc) (subNodeArgFormat skArgFormat : Text) :
    Option Text :=
  ((parse ⟨subOp, none⟩ subNodeArgFormat).2.mapM fun d =>
    convertArgDescNormal2Sk d subOp.id).map fun ds => skArgFormat ++ serialize ds

end GraphAutofusion.GraphMetadef
