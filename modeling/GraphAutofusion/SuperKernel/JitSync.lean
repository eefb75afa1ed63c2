import GraphAutofusion.Lib.OrderedDict
import GraphAutofusion.SuperKernel.SyncEdges

/-!
# SuperKernel.JitSync — the sync events of the compile-time fusion

`SuperOperatorInfos` keeps, for each sub operator, one label for every operator it sends to
and receives from. A label names the queue pairs of the dependency, so a dependency between
two mixed operators carries both directions in one label. The passes collect deletions from
the labels they read and apply them afterwards by name.
-/

namespace GraphAutofusion.SuperKernel

open Lib Relation

/-- One part of a label, such as `cub:vec`. -/
inductive SyncName where
  | cubCub
  | cubVec
  | vecCub
  | vecVec
deriving DecidableEq, Repr

/-- A label: its parts joined by `;`. The empty string is the empty list. -/
abbrev SyncEvent := List SyncName

/-- The sync fields of a sub operator. `STR_TO_SK_KERNEL_TYPE` knows six kernel types; another
one is an error before any event is inserted. -/
structure SubOperatorInfos where
  kernelNameForMultiStream : String
  kernelType : SkKernelType
  known : kernelType ≠ .default
  sendInfo : OrderedDict String SyncEvent := .empty
  recvInfo : OrderedDict String SyncEvent := .empty

namespace SubOperatorInfos

def updateSend (op : SubOperatorInfos)
    (f : OrderedDict String SyncEvent → OrderedDict String SyncEvent) : SubOperatorInfos :=
  { op with sendInfo := f op.sendInfo }

def updateRecv (op : SubOperatorInfos)
    (f : OrderedDict String SyncEvent → OrderedDict String SyncEvent) : SubOperatorInfos :=
  { op with recvInfo := f op.recvInfo }

end SubOperatorInfos

/-- The results of `get_task_type`. -/
inductive JitTaskType where
  | cub
  | vec
  | mix
deriving DecidableEq, Repr

/-- `get_task_type`. -/
def getTaskType (type : SkKernelType) : JitTaskType :=
  if type = .aicOnly ∨ type = .mixAic10 then .cub
  else if type = .aivOnly ∨ type = .mixAiv10 then .vec
  else .mix

/-- `gen_sync_name`. -/
def genSyncName (preType currentType : JitTaskType) : SyncEvent :=
  match preType, currentType with
  | .mix, .mix => [.cubVec, .vecCub]
  | .mix, .cub => [.vecCub]
  | .mix, .vec => [.cubVec]
  | .cub, .mix => [.cubVec]
  | .vec, .mix => [.vecCub]
  | .cub, .cub => [.cubCub]
  | .cub, .vec => [.cubVec]
  | .vec, .cub => [.vecCub]
  | .vec, .vec => [.vecVec]

/-- Whether `split_op_by_kernel_type` puts the operator into `vec_op_list` or `cub_op_list`. -/
def isOfList (isVecList : Bool) (op : SubOperatorInfos) : Bool :=
  if isVecList then
    op.kernelType ∈ [SkKernelType.aivOnly, .mixAiv10, .mixAic11, .mixAic12]
  else
    op.kernelType ∈ [SkKernelType.aicOnly, .mixAic10, .mixAic11, .mixAic12]

section Passes

variable (ops : List SubOperatorInfos)

/-- `vec_op_list` or `cub_op_list`. They hold the operators of `info_base` themselves, so an
update by name is seen in both. -/
def opList (isVecList : Bool) : List SubOperatorInfos := ops.filter (isOfList isVecList)

/-- `insert_sync_event`, for the operators at two places of `info_base`. A mixed operator is
reached through both lists; the second update repeats the first one. -/
def insertJitSyncEvent (preIdx currentIdx : ℕ) : List SubOperatorInfos :=
  match ops[preIdx]?, ops[currentIdx]? with
  | some preOp, some currentOp =>
    let syncEvent := genSyncName (getTaskType preOp.kernelType) (getTaskType currentOp.kernelType)
    (ops.modify preIdx fun op =>
      op.updateSend (·.set currentOp.kernelNameForMultiStream syncEvent)).modify currentIdx fun op =>
        op.updateRecv (·.set preOp.kernelNameForMultiStream syncEvent)
  | _, _ => ops

/-- A deletion that a pass collects: the arguments of `remove_info_by_name`. -/
structure DeleteEvent where
  opName : String
  keyName : String
  isDeleteRecvInfo : Bool
  updateContent : SyncEvent

/-- `remove_info_by_name`. -/
def removeInfoByName (item : DeleteEvent) : List SubOperatorInfos :=
  let change := fun info : OrderedDict String SyncEvent =>
    if item.updateContent = [] then info.pop item.keyName
    else info.set item.keyName item.updateContent
  ops.map fun subOp =>
    if subOp.kernelNameForMultiStream = item.opName then
      if item.isDeleteRecvInfo then subOp.updateRecv change else subOp.updateSend change
    else subOp

def removeInfos (deleteEvent : List DeleteEvent) : List SubOperatorInfos :=
  deleteEvent.foldl removeInfoByName ops

/-- `get_remain_events`. -/
def getRemainEvents (originEvents : SyncEvent) (deleteEvent : SyncName) : SyncEvent :=
  originEvents.filter (· ≠ deleteEvent)

/-- `get_idx`; the place 0 also stands for a name that is missing. -/
def getIdx (opName : String) (isVecList : Bool) : ℕ :=
  ((opList ops isVecList).findIdx? (·.kernelNameForMultiStream = opName)).getD 0

variable (isCubToVec : Bool)

/-- The part of a label for one direction. -/
def syncName : SyncName := if isCubToVec then .cubVec else .vecCub

/-- `judge_remove`. The receiver of a cube-to-vec event is in `vec_op_list`, its sender in
`cub_op_list`. -/
def judgeRemove (sendName recvName : String) (isCubToVec : Bool) : Bool :=
  let sendIdx := getIdx ops sendName (!isCubToVec)
  let recvIdx := getIdx ops recvName isCubToVec
  ((opList ops isCubToVec).take recvIdx).reverse.any fun subOp =>
    subOp.recvInfo.items.any fun (key, value) =>
      value.contains (syncName isCubToVec) &&
        decide (getIdx ops subOp.kernelNameForMultiStream isCubToVec < recvIdx) &&
        decide (sendIdx < getIdx ops key (!isCubToVec))

/-- An event of one direction as a pass reads it: sender, receiver and the whole label. -/
abbrev JitEdge := String × String × SyncEvent

/-- The two deletions of an event, the sender's entry first. -/
def sendFirst (edge : JitEdge) : List DeleteEvent :=
  let remain := getRemainEvents edge.2.2 (syncName isCubToVec)
  [⟨edge.1, edge.2.1, false, remain⟩, ⟨edge.2.1, edge.1, true, remain⟩]

/-- The two deletions of an event, the receiver's entry first. -/
def recvFirst (edge : JitEdge) : List DeleteEvent :=
  (sendFirst isCubToVec edge).reverse

/-- The events a loop of `remove_crossed_line_sync` deletes. -/
def crossedEdges : List JitEdge :=
  (opList ops (!isCubToVec)).flatMap fun subOp =>
    subOp.sendInfo.items.flatMap fun (key, value) =>
      (value.filter (· = syncName isCubToVec)).filterMap fun _ =>
        if judgeRemove ops subOp.kernelNameForMultiStream key isCubToVec then
          some (subOp.kernelNameForMultiStream, key, value)
        else none

/-- `remove_crossed_line_sync`. Both loops read the labels before the first deletion. -/
def removeJitCrossedLineSync : List SubOperatorInfos :=
  removeInfos ops
    ((crossedEdges ops true).flatMap (sendFirst true) ++
      (crossedEdges ops false).flatMap (sendFirst false))

/-- The entries of one direction, in ascending order of the other side's place. -/
def sortedEntries (info : OrderedDict String SyncEvent) (isCubToVec isVecList : Bool) :
    List (String × SyncEvent) :=
  (info.items.filter fun item => item.2.contains (syncName isCubToVec)).insertionSort
    fun a b => getIdx ops a.1 isVecList ≤ getIdx ops b.1 isVecList

/-- The entries of one direction, in descending order of the other side's place. -/
def reverseSortedEntries (info : OrderedDict String SyncEvent) (isCubToVec isVecList : Bool) :
    List (String × SyncEvent) :=
  (info.items.filter fun item => item.2.contains (syncName isCubToVec)).insertionSort
    fun a b => getIdx ops b.1 isVecList ≤ getIdx ops a.1 isVecList

/-- The events a loop of `remove_multi_send_info` deletes: all but the first receiver. -/
def multiSendEdges : List JitEdge :=
  (opList ops (!isCubToVec)).flatMap fun op =>
    if 1 < op.sendInfo.items.length then
      (sortedEntries ops op.sendInfo isCubToVec isCubToVec).tail.map fun (key, value) =>
        (op.kernelNameForMultiStream, key, value)
    else []

/-- The events a loop of `remove_multi_recv_info` deletes: all but the last sender. -/
def multiRecvEdges : List JitEdge :=
  (opList ops isCubToVec).flatMap fun op =>
    if 1 < op.recvInfo.items.length then
      (reverseSortedEntries ops op.recvInfo isCubToVec (!isCubToVec)).tail.map fun (key, value) =>
        (key, op.kernelNameForMultiStream, value)
    else []

def removeJitMultiSends : List SubOperatorInfos :=
  removeInfos ops ((multiSendEdges ops isCubToVec).flatMap (sendFirst isCubToVec))

def removeJitMultiRecvs : List SubOperatorInfos :=
  removeInfos ops ((multiRecvEdges ops isCubToVec).flatMap (recvFirst isCubToVec))

/-- `remove_multi_send_info`. -/
def removeMultiSendInfo : List SubOperatorInfos :=
  removeJitMultiSends (removeJitMultiSends ops false) true

/-- `remove_multi_recv_info`. -/
def removeMultiRecvInfo : List SubOperatorInfos :=
  removeJitMultiRecvs (removeJitMultiRecvs ops true) false

/-- `optimize_sync_pass`. -/
def optimizeSyncPass : List SubOperatorInfos :=
  removeMultiRecvInfo (removeMultiSendInfo (removeJitCrossedLineSync ops))

end Passes

end GraphAutofusion.SuperKernel
