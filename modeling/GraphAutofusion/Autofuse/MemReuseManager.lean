import Mathlib.Algebra.Order.Group.Int
import Mathlib.Algebra.Ring.Int.Defs
import Mathlib.Data.Finset.Card

/-!
# Autofuse.MemReuseManager — queues and buffers for groups of tensors

`MemReuseManager` merges tensors by group id and gives every group a memory block: a block of its own, or
one whose groups are dead by then. Copy-in and copy-out groups come first, then temporary buffers, then
the groups of the other tensors, which may also take a block of the former. At the end
the tensors get the ids of their blocks.

A block list is a vector; a pointer into it is the index with what stands there. The order in which
the standard library sorts equal elements and visits an unordered map is a parameter.
-/

namespace GraphAutofusion.Autofuse

inductive MemorySizeLevel
  | scalar
  | medium
  | largest
deriving DecidableEq, Repr

def MemorySizeLevel.toInt : MemorySizeLevel → ℤ
  | .scalar => 0
  | .medium => 1
  | .largest => 2

/-- `std::max`. -/
def maxLevel (a b : MemorySizeLevel) : MemorySizeLevel := if a.toInt < b.toInt then b else a

inductive Position
  | gm
  | vecIn
  | vecOut
  | vecCalc
  | invalid
deriving DecidableEq, Repr

structure TensorInfo where
  groupId : ℤ := -1
  lifeStart : ℤ := -1
  lifeEnd : ℤ := -1
  memPosition : Position := .invalid
  sizeLevel : MemorySizeLevel := .largest
  isReusable : Bool := true
  isCanReuseOthers : Bool := true
  loopAxes : Finset ℤ := ∅
  bufNum : ℤ := 2
deriving DecidableEq

/-- A map from addresses to infos, as it is iterated. -/
structure InfoMap where
  entries : List (ℕ × TensorInfo)
  sorted : entries.Pairwise (·.1 < ·.1)

/-- Where an info lies: in the map of the tensors, under the address of the tensor's attributes, which
are its `output_tensor_attr`, or in that of the temporary buffers, where it has none. -/
inductive InfoKey
  | tensor (attr : ℕ)
  | tmpBuffer (buff : ℕ)
deriving DecidableEq, Repr

/-- The tensors stand for the pointers to their infos. -/
structure TensorGroup where
  groupId : ℤ
  groupedTensors : List (InfoKey × TensorInfo)
  mergedLoopAxes : Finset ℤ
  mergedLifeStart : ℤ
  mergedLifeEnd : ℤ
  maxSizeLevel : MemorySizeLevel
  memPosition : Position
  groupIsReusable : Bool
  groupIsCanReuseOthers : Bool
deriving DecidableEq

inductive MemoryType
  | copyIn
  | copyOut
  | calc
  | tmpBuff
  | loopTmpBuff
deriving DecidableEq, Repr

def MemoryType.isQue (t : MemoryType) : Bool := t = .copyOut || t = .copyIn

structure MemoryBlock where
  id : ℤ
  memType : MemoryType
  maxSizeLevel : MemorySizeLevel
  tensorGroups : List TensorGroup
deriving DecidableEq

/-- Some group took a place in a block. -/
structure Placement where
  group : TensorGroup
  memType : MemoryType
  blockId : ℤ
deriving DecidableEq

inductive AllocType
  | global
  | l1
  | l2
  | buffer
  | queue
  | invalid
deriving DecidableEq, Repr

/-- What is written of the attributes of a tensor. -/
structure TensorMem where
  allocType : AllocType := .global
  reuseId : ℤ := -1
  queId : ℤ := -1
  queDepth : ℤ := -1
  queBufNum : ℤ := -1
  bufId : ℤ := -1
deriving DecidableEq, Repr

structure TmpBufferMem where
  allocType : AllocType := .global
  id : ℤ := -1
deriving DecidableEq, Repr

/-- The manager and the temporary buffers. `placements` is no member: it logs in what
order the groups were placed. -/
structure MemReuseState where
  typeBlocks : MemoryType → List MemoryBlock := fun _ => []
  bufId : ℤ := 0
  queId : ℤ := 0
  tmpBuffers : ℕ → TmpBufferMem := fun _ => {}
  placements : List Placement := []

/-- A comparator as `std::sort` asks for. -/
structure StrictWeak {α : Type} (less : α → α → Bool) : Prop where
  irrefl : ∀ a, less a a = false
  trans : ∀ a b c, less a b = true → less b c = true → less a c = true
  cotrans : ∀ a b c, less a c = true → less a b = true ∨ less b c = true

/-- What the standard library leaves open. -/
structure StdLib where
  sort : {α : Type} → (α → α → Bool) → List α → List α
  /-- The groups of an unordered map, in the order of its iteration. -/
  visit : List TensorGroup → List TensorGroup
  typeOrder : List MemoryType
  sort_perm : ∀ {α : Type} (less : α → α → Bool) (l : List α), (sort less l).Perm l
  sort_sorted : ∀ {α : Type} (less : α → α → Bool) (l : List α), StrictWeak less →
    (sort less l).Pairwise fun a b => less b a = false
  visit_perm : ∀ l, (visit l).Perm l
  typeOrder_perm : typeOrder.Perm [.copyIn, .copyOut, .calc, .tmpBuff, .loopTmpBuff]

variable (std : StdLib)

/-! ## Groups -/

def int64Max : ℤ := 2 ^ 63 - 1

def isLifetimeOverlap (start1 end1 start2 end2 : ℤ) : Bool :=
  if end1 = int64Max || end2 = int64Max then true else !(end1 < start2 || end2 < start1)

def groupOf (key : InfoKey) (cur : TensorInfo) : TensorGroup where
  groupId := cur.groupId
  groupedTensors := [(key, cur)]
  mergedLoopAxes := cur.loopAxes
  mergedLifeStart := cur.lifeStart
  mergedLifeEnd := cur.lifeEnd
  maxSizeLevel := cur.sizeLevel
  memPosition := cur.memPosition
  groupIsReusable := cur.isReusable
  groupIsCanReuseOthers := cur.isCanReuseOthers

/-- The branch of a group that exists. -/
def TensorGroup.add (group : TensorGroup) (key : InfoKey) (cur : TensorInfo) : TensorGroup :=
  -- one tensor that differs in a flag takes both flags from its group
  let same := cur.isReusable = group.groupIsReusable ∧ cur.isCanReuseOthers = group.groupIsCanReuseOthers
  { groupId := group.groupId
    groupedTensors := group.groupedTensors ++ [(key, cur)]
    mergedLoopAxes := group.mergedLoopAxes ∪ cur.loopAxes
    mergedLifeStart := min group.mergedLifeStart cur.lifeStart
    mergedLifeEnd := max group.mergedLifeEnd cur.lifeEnd
    maxSizeLevel := maxLevel group.maxSizeLevel cur.sizeLevel
    memPosition :=
      if group.memPosition = .vecCalc ∧ group.memPosition ≠ cur.memPosition then cur.memPosition
      else group.memPosition
    groupIsReusable := if same then group.groupIsReusable else false
    groupIsCanReuseOthers := if same then group.groupIsCanReuseOthers else false }

/-- One tensor enters the map of the groups, whose keys are the group ids. -/
def refreshGroup (tempGroups : List TensorGroup) (entry : ℕ × TensorInfo) : List TensorGroup :=
  if tempGroups.any (·.groupId = entry.2.groupId) then
    tempGroups.map fun group =>
      if group.groupId = entry.2.groupId then group.add (.tensor entry.1) entry.2 else group
  else tempGroups ++ [groupOf (.tensor entry.1) entry.2]

def tempGroups (tensors : InfoMap) : List TensorGroup := tensors.entries.foldl refreshGroup []

/-- `MergeTensorByGroupId`: the groups to copy in, to copy out, and the others. -/
def mergeTensorByGroupId (tensors : InfoMap) :
    List TensorGroup × List TensorGroup × List TensorGroup :=
  let groups := std.visit (tempGroups tensors)
  (groups.filter (·.memPosition = .vecIn), groups.filter (·.memPosition = .vecOut),
    groups.filter fun group => group.memPosition ≠ .vecIn && group.memPosition ≠ .vecOut)

/-! ## Blocks -/

/-- A pointer to a block. -/
structure BlockRef where
  memType : MemoryType
  idx : ℕ
  block : MemoryBlock

variable (s : MemReuseState)
variable (memType : MemoryType)

def blockRefs : List BlockRef :=
  (s.typeBlocks memType).zipIdx.map fun p => ⟨memType, p.2, p.1⟩

def createMemBlockByType (tensor : TensorGroup) (memType : MemoryType) : MemReuseState :=
  let id := if memType.isQue then s.queId else s.bufId
  { s with
    queId := if memType.isQue then s.queId + 1 else s.queId
    bufId := if memType.isQue then s.bufId else s.bufId + 1
    typeBlocks := Function.update s.typeBlocks memType
      (s.typeBlocks memType ++ [⟨id, memType, tensor.maxSizeLevel, [tensor]⟩])
    placements := s.placements ++ [⟨tensor, memType, id⟩] }

/-- A group takes a place in a block that exists. -/
def joinBlock (ref : BlockRef) (tensor : TensorGroup)
    (grow : MemorySizeLevel → MemorySizeLevel) : MemReuseState :=
  { s with
    typeBlocks := Function.update s.typeBlocks ref.memType
      ((s.typeBlocks ref.memType).modify ref.idx fun block =>
        { block with
          tensorGroups := block.tensorGroups ++ [tensor]
          maxSizeLevel := grow block.maxSizeLevel })
    placements := s.placements ++ [⟨tensor, ref.memType, ref.block.id⟩] }

variable (tensorGroup : TensorGroup)

def lifetimesOk (block : MemoryBlock) : Bool :=
  block.tensorGroups.all fun info =>
    !isLifetimeOverlap tensorGroup.mergedLifeStart tensorGroup.mergedLifeEnd info.mergedLifeStart
      info.mergedLifeEnd

def reusableLifetimesOk (block : MemoryBlock) : Bool :=
  block.tensorGroups.all fun info =>
    info.groupIsReusable &&
      !isLifetimeOverlap tensorGroup.mergedLifeStart tensorGroup.mergedLifeEnd info.mergedLifeStart
        info.mergedLifeEnd

/-- The size of `a` is closer to that of the group. -/
def closerInSize (a b : BlockRef) : Bool :=
  (a.block.maxSizeLevel.toInt - tensorGroup.maxSizeLevel.toInt).natAbs <
    (b.block.maxSizeLevel.toInt - tensorGroup.maxSizeLevel.toInt).natAbs

def startsEarlier (a b : TensorGroup) : Bool := a.mergedLifeStart < b.mergedLifeStart

def kDbReuseThreshold : ℕ := 2

/-- `SelectBestMemoryBlock`. -/
def selectBestMemoryBlock (lastMemBlockId : ℤ) (memoryBlocks : List BlockRef) : Option BlockRef :=
  let candidateBlocks := memoryBlocks.filter fun ref => reusableLifetimesOk tensorGroup ref.block
  let otherCandidates := candidateBlocks.filter (·.block.id ≠ lastMemBlockId)
  let onlyLastBlock := (candidateBlocks.filter (·.block.id = lastMemBlockId)).getLast?
  match std.sort (closerInSize tensorGroup) otherCandidates with
  | best :: _ => some best
  | [] => if kDbReuseThreshold < memoryBlocks.length then onlyLastBlock else none

/-- `FindCandidateQueBlockWithSizeCheck`. -/
def findCandidateQueBlockWithSizeCheck (tensorGroup : TensorGroup) : List BlockRef :=
  (blockRefs s memType).filter fun ref =>
    let isReuseOk := ref.block.tensorGroups.all fun info =>
      if info.memPosition = .vecIn || info.memPosition = .vecOut then
        info.groupIsReusable && info.mergedLifeEnd < tensorGroup.mergedLifeStart &&
          (info.mergedLoopAxes.card = 1 && info.mergedLoopAxes = tensorGroup.mergedLoopAxes)
      else
        info.groupIsReusable &&
          !isLifetimeOverlap tensorGroup.mergedLifeStart tensorGroup.mergedLifeEnd info.mergedLifeStart
            info.mergedLifeEnd
    let isSizeOk := tensorGroup.maxSizeLevel = .scalar ||
      ref.block.tensorGroups.any (·.maxSizeLevel = .largest)
    isReuseOk && isSizeOk

/-- The loop of the search sorts the groups of each block it looks at. -/
def sortTmpBlocks : MemReuseState :=
  { s with
    typeBlocks := Function.update s.typeBlocks .tmpBuff ((s.typeBlocks .tmpBuff).map fun block =>
      { block with
        tensorGroups := std.sort (fun a b => a.maxSizeLevel.toInt < b.maxSizeLevel.toInt)
          block.tensorGroups }) }

/-- `FindCandidateTmpBuffBlockWithSizeCheck`. No flag of the groups in a block is tested. -/
def findCandidateTmpBuffBlockWithSizeCheck : MemReuseState × List BlockRef :=
  if !tensorGroup.groupIsCanReuseOthers && !tensorGroup.groupIsReusable then (s, [])
  else
    let s := sortTmpBlocks std s
    (s, (blockRefs s .tmpBuff).filter fun ref => lifetimesOk tensorGroup ref.block)

/-! ## Allocation -/

/-- One group of `AllocForTQue`, with `last_block_id`. -/
def allocQueGroup (s : MemReuseState × ℤ) (tensor : TensorGroup) : MemReuseState × ℤ :=
  if !tensor.groupIsCanReuseOthers then (createMemBlockByType s.1 tensor memType, s.2)
  else
    match selectBestMemoryBlock std tensor s.2 (blockRefs s.1 memType) with
    | some best =>
      (joinBlock s.1 best tensor fun level => maxLevel level tensor.maxSizeLevel, best.block.id)
    | none =>
      let created := createMemBlockByType s.1 tensor memType
      (created, ((created.typeBlocks memType).getLast?.map (·.id)).getD s.2)

def allocForTQue (s : MemReuseState) (queGroups : List TensorGroup) : MemReuseState :=
  ((std.sort startsEarlier queGroups).foldl (allocQueGroup std memType) (s, -1)).1

/-- The search of `AllocForCalc`: temporary buffers, else queues and the blocks of calc groups, for
which it tests the lifetimes alone. -/
def chooseCalcBlock : MemReuseState × Option BlockRef :=
  let found := findCandidateTmpBuffBlockWithSizeCheck std s tensorGroup
  let candidateBlocks :=
    if found.2.isEmpty then
      findCandidateQueBlockWithSizeCheck found.1 .copyIn tensorGroup ++
        findCandidateQueBlockWithSizeCheck found.1 .copyOut tensorGroup ++
          (blockRefs found.1 .calc).filter fun ref => lifetimesOk tensorGroup ref.block
    else found.2
  (found.1, (std.sort (closerInSize tensorGroup) candidateBlocks).head?)

/-- One group of `AllocForCalc`. -/
def allocCalcGroup : MemReuseState :=
  if !tensorGroup.groupIsCanReuseOthers then createMemBlockByType s tensorGroup .calc
  else
    match chooseCalcBlock std s tensorGroup with
    | (s, none) => createMemBlockByType s tensorGroup .calc
    | (s, some ref) => joinBlock s ref tensorGroup fun level => maxLevel level tensorGroup.maxSizeLevel

def allocForCalc (calcGroups : List TensorGroup) : MemReuseState :=
  (std.sort startsEarlier calcGroups).foldl (allocCalcGroup std) s

def setTmpId (buff : ℕ) (id : ℤ) : MemReuseState :=
  { s with tmpBuffers := Function.update s.tmpBuffers buff ⟨.buffer, id⟩ }

/-- The buffer gets the id of the block that is made for it. -/
def createTmpBlock (buff : ℕ) (group : TensorGroup) (memType : MemoryType) : MemReuseState :=
  createMemBlockByType (setTmpId s buff s.bufId) group memType

/-- One buffer of `AllocTmpBuff`. -/
def allocTmpGroup (entry : ℕ × TensorInfo) : MemReuseState :=
  let group := groupOf (.tmpBuffer entry.1) entry.2
  if group.groupId ≠ -1 then createTmpBlock s entry.1 group .loopTmpBuff
  else if (s.typeBlocks .tmpBuff).isEmpty then createTmpBlock s entry.1 group .tmpBuff
  else
    match findCandidateTmpBuffBlockWithSizeCheck std s group with
    | (s, []) => createTmpBlock s entry.1 group .tmpBuff
    | (s, ref :: _) => joinBlock (setTmpId s entry.1 ref.block.id) ref group id

def allocTmpBuff (tmps : InfoMap) : MemReuseState :=
  tmps.entries.foldl (allocTmpGroup std) s

/-- A tensor gets the id of its block. The infos of temporary buffers have no attributes to
write to; they lie in no block of a queue. -/
def setQueBufId (block : MemoryBlock) (attrs : ℕ → TensorMem) (tensorInfo : InfoKey × TensorInfo) :
    ℕ → TensorMem :=
  match tensorInfo.1 with
  | .tmpBuffer _ => attrs
  | .tensor attr =>
    if block.memType.isQue then
      Function.update attrs attr
        { attrs attr with
          allocType := .queue, queId := block.id, queDepth := 2, queBufNum := tensorInfo.2.bufNum }
    else
      Function.update attrs attr { attrs attr with allocType := .buffer, bufId := block.id, reuseId := -1 }

def setQueBufIdToTensorAttr (attrs : ℕ → TensorMem) (block : MemoryBlock) : ℕ → TensorMem :=
  block.tensorGroups.foldl (fun attrs group => group.groupedTensors.foldl (setQueBufId block) attrs) attrs

/-- `AllocMemBlocks`, up to the last loop. -/
def allocBlocks (tensors tmps : InfoMap) (tmpBuffers : ℕ → TmpBufferMem) : MemReuseState :=
  let groups := mergeTensorByGroupId std tensors
  let s := allocForTQue std .copyIn { tmpBuffers := tmpBuffers } groups.1
  let s := allocForTQue std .copyOut s groups.2.1
  allocForCalc std (allocTmpBuff std s tmps) groups.2.2

/-- `AllocMemBlocks`: the manager, and the attributes of the tensors. -/
def allocMemBlocks (tensors tmps : InfoMap) (attrs : ℕ → TensorMem) (tmpBuffers : ℕ → TmpBufferMem) :
    MemReuseState × (ℕ → TensorMem) :=
  let s := allocBlocks std tensors tmps tmpBuffers
  (s, (std.typeOrder.flatMap s.typeBlocks).foldl setQueBufIdToTensorAttr attrs)

end GraphAutofusion.Autofuse
