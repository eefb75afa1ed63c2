import GraphAutofusion.SuperKernel.TaskSync

/-!
# SuperKernel.EarlyStart — the early-start rewrite

`ApplyEarlyStartSyncPass` moves flag operations of a sync into the kernels that declare
early-start support. The idle cores of such a kernel do the operations in a sync task that the
active cores skip.
-/

namespace GraphAutofusion.SuperKernel

variable (opts : TaskOptions)

/-- `ApplySplitCoreControlMask`. -/
def applySplitCoreControlMask (nodeType : SkNodeType) (t : TaskSyncInfo) : TaskSyncInfo :=
  if opts.kernelArchDav3510 = false ∨ nodeType ≠ .nodeKernel then t
  else { t with earlyStartInfo := t.earlyStartInfo.applyFuncMask .splitCoreCtrl }

section Masks

variable (isCub : Bool)

def selfSetMask : SkEarlyStartMask := if isCub then .aicToAicSet else .aivToAivSet
def selfWaitMask : SkEarlyStartMask := if isCub then .aicToAicWait else .aivToAivWait
def crossSendMask : SkEarlyStartMask := if isCub then .aicToAivSet else .aivToAicSet
def crossRecvMask : SkEarlyStartMask := if isCub then .aivToAicWait else .aicToAivWait

end Masks

/-- `clear()` of the send map of a queue. -/
def TaskSyncInfo.clearSend (t : TaskSyncInfo) (isCub : Bool) : TaskSyncInfo :=
  if isCub then { t with cubSendInfo := fun _ => none } else { t with vecSendInfo := fun _ => none }

/-- `clear()` of the receive map of a queue. -/
def TaskSyncInfo.clearRecv (t : TaskSyncInfo) (isCub : Bool) : TaskSyncInfo :=
  if isCub then { t with cubRecvInfo := fun _ => none } else { t with vecRecvInfo := fun _ => none }

/-- The set side: the kernel sets the flag of its own cross-core sync. -/
def earlyStartSet (task : SuperKernelBaseNode) (isCub : Bool) (cur : TaskSyncInfo) : TaskSyncInfo :=
  if task.kernelInfos.capBits.earlyStartSetFlag = true ∧
      cur.crossSyncInfo (crossSyncKey isCub) = some (selfSyncDir isCub) then
    { cur.eraseCross (crossSyncKey isCub) with
      earlyStartInfo :=
        (({ cur.earlyStartInfo with relatedSetNode := some task }.applyFuncMask
          (selfSetMask isCub)).applySyncMask (selfSetMask isCub)).applySyncMask
            (selfWaitMask isCub) }
  else cur

/-- The previous task after the waiting kernel took over its sync. -/
def earlyStartWaitPrev (task : SuperKernelBaseNode) (isCub : Bool) (n : ℕ) (prev : TaskSyncInfo) :
    TaskSyncInfo :=
  let prev := { prev with
    earlyStartInfo :=
      if isCub then { prev.earlyStartInfo with nextAicRelatedNode := some task }
      else { prev.earlyStartInfo with nextAivRelatedNode := some task } }
  let prev :=
    if prev.crossSyncInfo (crossSyncKey isCub) = some (selfSyncDir isCub) then
      { prev.eraseCross (crossSyncKey isCub) with
        earlyStartInfo := (prev.earlyStartInfo.applySyncMask (selfSetMask isCub)).applySyncMask
          (selfWaitMask isCub) }
    else prev
  if SyncMap.isEmpty (prev.sendInfo isCub) n then prev
  else
    { prev.clearSend isCub with
      earlyStartInfo := prev.earlyStartInfo.applySyncMask (crossSendMask isCub) }

/-- The waiting kernel, given the previous task before the rewrite. -/
def earlyStartWaitCur (task : SuperKernelBaseNode) (isCub : Bool) (n : ℕ)
    (prev cur : TaskSyncInfo) : TaskSyncInfo :=
  let cur := { cur with
    earlyStartInfo := { cur.earlyStartInfo with relatedWaitNode := some task } }
  let cur :=
    if prev.crossSyncInfo (crossSyncKey isCub) = some (selfSyncDir isCub) ∨
        prev.earlyStartInfo.checkSyncMask (selfSetMask isCub) = true then
      { cur with earlyStartInfo := cur.earlyStartInfo.applyFuncMask (selfWaitMask isCub) }
    else cur
  let cur :=
    if SyncMap.isEmpty (prev.sendInfo isCub) n then cur
    else { cur with earlyStartInfo := cur.earlyStartInfo.applyFuncMask (crossSendMask isCub) }
  if SyncMap.isEmpty (cur.recvInfo (!isCub)) n then cur
  else
    { cur.clearRecv isCub with
      earlyStartInfo := (cur.earlyStartInfo.applySyncMask (crossRecvMask isCub)).applyFuncMask
        (crossRecvMask isCub) }

variable (tasks : List SuperKernelBaseNode)

/-- `ApplyEarlyStartSyncForQueue`, without the update of the last index. -/
def applyEarlyStartSyncForQueue (infos : TaskSyncInfos)
    (curIdx : ℕ) (lastIdx : Option ℕ) (isCub : Bool) : Option TaskSyncInfos :=
  match tasks[curIdx]? with
  | none => some infos
  | some task =>
    if task.nodeType ≠ .nodeKernel then some infos
    else
      let infos := updateTask infos curIdx (earlyStartSet task isCub)
      match lastIdx with
      | none => some infos
      | some lastIdx =>
        if task.kernelInfos.capBits.earlyStartWaitFlag = false then some infos
        else if 1 < (SyncMap.values ((infos lastIdx).sendInfo isCub) tasks.length).length then none
        else if 1 < (SyncMap.values ((infos curIdx).recvInfo (!isCub)) tasks.length).length then none
        else
          let prev := infos lastIdx
          some (updateTask (updateTask infos lastIdx (earlyStartWaitPrev task isCub tasks.length))
            curIdx (earlyStartWaitCur task isCub tasks.length prev))

/-- `HasAllSyncBarrier`. -/
def hasAllSyncBarrier (t : TaskSyncInfo) : Bool := (t.crossSyncInfo.values 2).any (· = .allSync)

/-- The metadata and the last task of each queue. -/
abbrev EarlyStartState := TaskSyncInfos × (Bool → Option ℕ)

/-- The part of an iteration that concerns one queue. -/
def earlyStartQueueStep (i : ℕ) (state : EarlyStartState) (isCub : Bool) : Option EarlyStartState :=
  if hasPart (state.1 i).queueType isCub = true then
    (applyEarlyStartSyncForQueue tasks state.1 i (state.2 isCub) isCub).map
      fun infos => (infos, Function.update state.2 isCub (some i))
  else some state

/-- One iteration of `ApplyEarlyStartSyncPass`. -/
def earlyStartStep (state : EarlyStartState)
    (i : ℕ) : Option EarlyStartState := do
  let state ← earlyStartQueueStep tasks i state true
  let state ← earlyStartQueueStep tasks i state false
  let infos := updateTask state.1 i (applySplitCoreControlMask opts (taskType tasks i))
  some (infos, if hasAllSyncBarrier (infos i) then fun _ => some i else state.2)

/-- `ApplyEarlyStartSyncPass`. -/
def applyEarlyStartSyncPass (infos : TaskSyncInfos) : Option TaskSyncInfos :=
  ((List.range tasks.length).foldlM (earlyStartStep opts tasks) (infos, fun _ => none)).map (·.1)

/-! ## The sync tasks of the idle cores -/

/-- `maskToSyncType`. -/
def maskToSyncType : SkEarlyStartMask → SkCoreSyncType
  | .aicToAicSet | .aicToAicWait => .crossSyncAicToAic
  | .aivToAivSet | .aivToAivWait => .crossSyncAivToAiv
  | .aicToAivSet => .interSyncSetAicToAiv
  | .aicToAivWait => .interSyncWaitAicToAiv
  | .aivToAicSet => .interSyncSetAivToAic
  | .aivToAicWait => .interSyncWaitAivToAic
  | _ => .syncNone

/-- `GetKernelNumBlocks`. -/
def getKernelNumBlocks : Option SuperKernelBaseNode → ℕ
  | some node => if node.nodeType = .nodeKernel then node.kernelInfos.numBlocks else 0
  | none => 0

/-- `GetKernelType`. -/
def getKernelType : Option SuperKernelBaseNode → SkKernelType
  | some node => if node.nodeType = .nodeKernel then node.kernelInfos.kernelType else .default
  | none => .default

/-- The lambda `addEarlyStartSync` of `DispatchSyncTasks`. -/
def addEarlyStartSync (nodeIndex : ℕ) (earlyStartInfo : EarlyStartInfo) (skTasks : SkTasks)
    (isCub : Bool) (mask : SkEarlyStartMask) (relatedNode : Option SuperKernelBaseNode) : SkTasks :=
  if earlyStartInfo.checkSyncMask mask = false then skTasks
  else
    let relatedType := getKernelType relatedNode
    let activeCoreCount :=
      if isCub = false ∧ relatedType = .mixAic12 then
        getKernelNumBlocks relatedNode * 2 % 4294967296
      else getKernelNumBlocks relatedNode
    Function.update skTasks isCub (addSyncTask opts (skTasks isCub) nodeIndex (maskToSyncType mask)
      (mask.code % 256) activeCoreCount relatedType)

/-- `DispatchSyncTasks` for the early-start metadata of a task. -/
def dispatchEarlyStartSync (nodeIndex : ℕ) (e : EarlyStartInfo)
    (isSend : Bool) (skTasks : SkTasks) : SkTasks :=
  let add := addEarlyStartSync opts nodeIndex e
  if isSend then
    let skTasks := add skTasks true .aicToAicSet e.relatedSetNode
    let skTasks := add skTasks true .aicToAicWait e.nextAicRelatedNode
    let skTasks := add skTasks true .aicToAivSet e.nextAicRelatedNode
    let skTasks := add skTasks false .aivToAivSet e.relatedSetNode
    let skTasks := add skTasks false .aivToAivWait e.nextAivRelatedNode
    add skTasks false .aivToAicSet e.nextAivRelatedNode
  else
    let skTasks := add skTasks true .aivToAicWait e.relatedWaitNode
    add skTasks false .aicToAivWait e.relatedWaitNode

end GraphAutofusion.SuperKernel
