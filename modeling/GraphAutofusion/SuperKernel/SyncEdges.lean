import GraphAutofusion.Lib.EdgePrune
import GraphAutofusion.SuperKernel.Node

/-!
# SuperKernel.SyncEdges — sync edges between the cube and the vec queue

`SkTaskBuilder` records, for each dependency between two tasks, which queue sets a flag
and which one waits for it, and then prunes these edges. A task runs on the AIC queue,
the AIV queue or both; each queue executes its tasks in list order. The model writes the
mirrored cube/vec code of the source once, with the direction as a parameter.
-/

namespace GraphAutofusion.SuperKernel

open Lib Relation

inductive SkQueueType where
  | aic
  | aiv
  | mix11
  | mix12
  | unknown
deriving DecidableEq, Repr

inductive SyncDirection where
  | none
  | cubToCub
  | vecToVec
  | cubToVec
  | vecToCub
  | mixToMix
  | allSync
deriving DecidableEq, Repr

/-- A `std::map<size_t, SyncDirection>` whose keys are task indices. -/
abbrev SyncMap := ℕ → Option SyncDirection

/-- The early-start rewrite of a task: one bit for each flag operation that moves into the
kernel (`funcEarlyStartConfig`) and for each one the idle cores do (`syncEarlyStartConfig`). -/
structure EarlyStartInfo where
  funcEarlyStartConfig : ℕ := 0
  relatedSetNode : Option SuperKernelBaseNode := none
  relatedWaitNode : Option SuperKernelBaseNode := none
  nextAicRelatedNode : Option SuperKernelBaseNode := none
  nextAivRelatedNode : Option SuperKernelBaseNode := none
  syncEarlyStartConfig : ℕ := 0

/-- The sync metadata of a task. The keys of `crossSyncInfo` are queues, 0 for the cube and
1 for the vec queue. -/
structure TaskSyncInfo where
  queueType : SkQueueType := .unknown
  cubSendInfo : SyncMap := fun _ => none
  cubRecvInfo : SyncMap := fun _ => none
  vecSendInfo : SyncMap := fun _ => none
  vecRecvInfo : SyncMap := fun _ => none
  crossSyncInfo : SyncMap := fun _ => none
  earlyStartInfo : EarlyStartInfo := {}

/-- `taskSyncInfos_`, by task index. -/
abbrev TaskSyncInfos := ℕ → TaskSyncInfo

/-- The direction of an edge: from the cube queue to the vec queue, or back. -/
def syncDirection (isCubToVec : Bool) : SyncDirection :=
  if isCubToVec then .cubToVec else .vecToCub

namespace TaskSyncInfo

variable (t : TaskSyncInfo)

/-- The send map of a direction, on its sender's side. -/
def sendInfo (isCubToVec : Bool) : SyncMap := if isCubToVec then t.cubSendInfo else t.vecSendInfo

/-- The receive map of a direction, on its receiver's side. -/
def recvInfo (isCubToVec : Bool) : SyncMap := if isCubToVec then t.vecRecvInfo else t.cubRecvInfo

def setSend (isCubToVec : Bool) (key : ℕ) : TaskSyncInfo :=
  if isCubToVec then
    { t with cubSendInfo := fun k => if k = key then some .cubToVec else t.cubSendInfo k }
  else
    { t with vecSendInfo := fun k => if k = key then some .vecToCub else t.vecSendInfo k }

def setRecv (isCubToVec : Bool) (key : ℕ) : TaskSyncInfo :=
  if isCubToVec then
    { t with vecRecvInfo := fun k => if k = key then some .cubToVec else t.vecRecvInfo k }
  else
    { t with cubRecvInfo := fun k => if k = key then some .vecToCub else t.cubRecvInfo k }

end TaskSyncInfo

def updateTask (infos : TaskSyncInfos) (i : ℕ) (f : TaskSyncInfo → TaskSyncInfo) : TaskSyncInfos :=
  fun j => if j = i then f (infos j) else infos j

/-- `GenSyncDirection`. -/
def genSyncDirection (preType currType : SkQueueType) : SyncDirection :=
  match preType with
  | .mix11 | .mix12 =>
    if currType = .mix11 ∨ currType = .mix12 then .mixToMix
    else if currType = .aic then .vecToCub else .cubToVec
  | .aic =>
    match currType with
    | .mix11 | .mix12 => .cubToVec
    | .aic => .cubToCub
    | _ => .cubToVec
  | .aiv =>
    match currType with
    | .mix11 | .mix12 => .vecToCub
    | .aiv => .vecToVec
    | _ => .vecToCub
  | .unknown => .vecToCub

/-- Whether an inserted dependency needs an edge of the direction. -/
def needsEdge (isCubToVec : Bool) (dir : SyncDirection) : Bool :=
  dir = syncDirection isCubToVec || dir = .mixToMix

/-- `InsertSyncEvent`. -/
def insertSyncEvent (infos : TaskSyncInfos) (preIdx currIdx : ℕ) : TaskSyncInfos :=
  let dir := genSyncDirection (infos preIdx).queueType (infos currIdx).queueType
  let infos := if needsEdge true dir then updateTask infos preIdx (·.setSend true currIdx) else infos
  let infos := if needsEdge false dir then updateTask infos preIdx (·.setSend false currIdx) else infos
  let infos := if needsEdge true dir then updateTask infos currIdx (·.setRecv true preIdx) else infos
  if needsEdge false dir then updateTask infos currIdx (·.setRecv false preIdx) else infos

/-! ## The pruning passes -/

section Passes

variable (taskNum : ℕ)

/-- `JudgeRemoveCrossSync`. -/
def judgeRemoveCrossSync (infos : TaskSyncInfos) (sendIdx recvIdx : ℕ) (isCubToVec : Bool) : Bool :=
  (List.range recvIdx).any fun otherRecvIdx => (List.range taskNum).any fun otherSendIdx =>
    match (infos otherRecvIdx).recvInfo isCubToVec otherSendIdx with
    | none => false
    | some dir => (dir = syncDirection isCubToVec || dir = .mixToMix) && sendIdx < otherSendIdx

def removeDirection (info : SyncMap) (key : ℕ) (toRemove : SyncDirection) : SyncMap :=
  fun k => if k = key ∧ info k = some toRemove then none else info k

/-- `RemoveSyncInfo`. -/
def removeSyncInfo (infos : TaskSyncInfos) (sendIdx recvIdx : ℕ) (isRemoveRecv : Bool)
    (dirToRemove : SyncDirection) : TaskSyncInfos :=
  updateTask infos sendIdx fun t =>
    if isRemoveRecv then
      { t with
        vecRecvInfo := removeDirection t.vecRecvInfo recvIdx dirToRemove
        cubRecvInfo := removeDirection t.cubRecvInfo recvIdx dirToRemove }
    else
      { t with
        vecSendInfo := removeDirection t.vecSendInfo recvIdx dirToRemove
        cubSendInfo := removeDirection t.cubSendInfo recvIdx dirToRemove }

/-- Both removals of one edge: the sender's entry and the receiver's. -/
def removeEdge (isCubToVec : Bool) (infos : TaskSyncInfos) (sendIdx recvIdx : ℕ) : TaskSyncInfos :=
  removeSyncInfo (removeSyncInfo infos sendIdx recvIdx false (syncDirection isCubToVec))
    recvIdx sendIdx true (syncDirection isCubToVec)

/-- The keys of a map with the direction as value, in key order. -/
def keysOf (info : SyncMap) (isCubToVec : Bool) : List ℕ :=
  (List.range taskNum).filter fun k => info k = some (syncDirection isCubToVec)

/-- One loop of `RemoveCrossedLineSync`. -/
def removeCrossedLines (isCubToVec : Bool) (infos : TaskSyncInfos) : TaskSyncInfos :=
  (List.range taskNum).foldl (fun infos i =>
    let toRemove := (keysOf taskNum ((infos i).sendInfo isCubToVec) isCubToVec).filter
      fun recvIdx => judgeRemoveCrossSync taskNum infos i recvIdx isCubToVec
    toRemove.foldl (fun infos recvIdx => removeEdge isCubToVec infos i recvIdx) infos) infos

/-- `RemoveCrossedLineSync`. -/
def removeCrossedLineSync (infos : TaskSyncInfos) : TaskSyncInfos :=
  removeCrossedLines taskNum false (removeCrossedLines taskNum true infos)

/-- One loop of `RemoveMultiSendSync`: all receivers after the first one go. -/
def removeMultiSends (isCubToVec : Bool) (infos : TaskSyncInfos) : TaskSyncInfos :=
  (List.range taskNum).foldl (fun infos i =>
    let sendList := keysOf taskNum ((infos i).sendInfo isCubToVec) isCubToVec
    sendList.tail.foldl (fun infos recvIdx => removeEdge isCubToVec infos i recvIdx) infos) infos

/-- `RemoveMultiSendSync`. -/
def removeMultiSendSync (infos : TaskSyncInfos) : TaskSyncInfos :=
  removeMultiSends taskNum true (removeMultiSends taskNum false infos)

/-- One loop of `RemoveMultiRecvSync`: all senders before the last one go. The source
removes the receiver's entry first. -/
def removeMultiRecvs (isCubToVec : Bool) (infos : TaskSyncInfos) : TaskSyncInfos :=
  (List.range taskNum).foldl (fun infos i =>
    let recvList := (keysOf taskNum ((infos i).recvInfo isCubToVec) isCubToVec).reverse
    recvList.tail.foldl (fun infos sendIdx =>
      removeSyncInfo (removeSyncInfo infos i sendIdx true (syncDirection isCubToVec))
        sendIdx i false (syncDirection isCubToVec)) infos) infos

/-- `RemoveMultiRecvSync`. -/
def removeMultiRecvSync (infos : TaskSyncInfos) : TaskSyncInfos :=
  removeMultiRecvs taskNum false (removeMultiRecvs taskNum true infos)

/-- The sync metadata of the tasks after all dependencies are inserted. -/
def insertSyncEvents (queueTypes : List SkQueueType) (deps : List (ℕ × ℕ)) : TaskSyncInfos :=
  deps.foldl (fun infos dep => insertSyncEvent infos dep.1 dep.2)
    fun i => { queueType := queueTypes.getD i .unknown }

/-- The three pruning passes of `OptimizeSyncRelations`. -/
def pruneSync (infos : TaskSyncInfos) : TaskSyncInfos :=
  removeMultiRecvSync taskNum (removeMultiSendSync taskNum (removeCrossedLineSync taskNum infos))

/-- The tasks that set the flag of a direction, in the order of the sending queue. -/
def setTasks (isCubToVec : Bool) (infos : TaskSyncInfos) : List ℕ :=
  (List.range taskNum).filter fun s =>
    !(keysOf taskNum ((infos s).sendInfo isCubToVec) isCubToVec).isEmpty

/-- The tasks that wait for the flag of a direction, in the order of the receiving queue. -/
def waitTasks (isCubToVec : Bool) (infos : TaskSyncInfos) : List ℕ :=
  (List.range taskNum).filter fun r =>
    !(keysOf taskNum ((infos r).recvInfo isCubToVec) isCubToVec).isEmpty

end Passes

/-! ## Queue order -/

/-- Whether a task of this type has a part on the cube (`true`) or vec queue. -/
def hasPart (queueType : SkQueueType) (isCub : Bool) : Bool :=
  match queueType with
  | .aic => isCub
  | .aiv => !isCub
  | .mix11 | .mix12 => true
  | .unknown => false

/-- One step between task parts: down a queue, or along a sync edge, which leads from the
sender's part on one queue to the receiver's part on the other. -/
inductive PartStep (infos : TaskSyncInfos) : ℕ × Bool → ℕ × Bool → Prop where
  | queue {i j : ℕ} {isCub : Bool} (hi : hasPart (infos i).queueType isCub = true)
      (hj : hasPart (infos j).queueType isCub = true) (hlt : i < j) :
      PartStep infos (i, isCub) (j, isCub)
  | sync {s r : ℕ} {isCubToVec : Bool}
      (h : (infos s).sendInfo isCubToVec r = some (syncDirection isCubToVec)) :
      PartStep infos (s, isCubToVec) (r, !isCubToVec)

end GraphAutofusion.SuperKernel
