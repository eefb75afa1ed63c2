import GraphAutofusion.SuperKernel.SyncEdges

/-!
# SuperKernel.TaskQueue — the device task queues

`SkTaskBuilder` appends tasks to an AIC and an AIV queue, which the entry kernel later
interprets: sub-kernel calls, preloads, event accesses and flag operations. Here are the
task records and the functions that add one task, with the fields the entry kernel reads.
-/

namespace GraphAutofusion.SuperKernel

inductive SkTaskType where
  | typeFunc
  | typeSync
  | typePreload
  | typeEventNotify
  | typeEventWait
  | typeEventReset
deriving DecidableEq, Repr

inductive SkCoreSyncType where
  | allSync
  | crossSyncAicToAic
  | crossSyncAivToAiv
  | interSyncSetAicToAiv
  | interSyncSetAivToAic
  | interSyncWaitAicToAiv
  | interSyncWaitAivToAic
  | syncNone
deriving DecidableEq, Repr

/-- The number of a sync type in the `args` field of its task. -/
def SkCoreSyncType.code : SkCoreSyncType → ℕ
  | allSync => 0
  | crossSyncAicToAic => 1
  | crossSyncAivToAiv => 2
  | interSyncSetAicToAiv => 3
  | interSyncSetAivToAic => 4
  | interSyncWaitAicToAiv => 5
  | interSyncWaitAivToAic => 6
  | syncNone => 7

theorem SkCoreSyncType.code_injective : Function.Injective SkCoreSyncType.code := by
  intro s t h
  cases s <;> cases t <;> simp_all [SkCoreSyncType.code]

inductive SkEarlyStartMask where
  | none
  | aicToAicSet
  | aicToAicWait
  | aicToAivSet
  | aivToAicWait
  | aivToAivSet
  | aivToAivWait
  | aivToAicSet
  | aicToAivWait
  | splitCoreCtrl
deriving DecidableEq, Repr

/-- The bits of a mask in a config word. -/
def SkEarlyStartMask.code : SkEarlyStartMask → ℕ
  | none => 0
  | aicToAicSet => 2 ^ 0
  | aicToAicWait => 2 ^ 1
  | aicToAivSet => 2 ^ 2
  | aivToAicWait => 2 ^ 3
  | aivToAivSet => 2 ^ 4
  | aivToAivWait => 2 ^ 5
  | aivToAicSet => 2 ^ 6
  | aicToAivWait => 2 ^ 7
  | splitCoreCtrl => 2 ^ 15

namespace EarlyStartInfo

variable (e : EarlyStartInfo) (mask : SkEarlyStartMask)

/-- `ApplyFuncMask`. -/
def applyFuncMask : EarlyStartInfo :=
  { e with funcEarlyStartConfig := e.funcEarlyStartConfig ||| mask.code }

/-- `ApplySyncMask`. -/
def applySyncMask : EarlyStartInfo :=
  { e with syncEarlyStartConfig := e.syncEarlyStartConfig ||| mask.code }

/-- `CheckSyncMask`. -/
def checkSyncMask : Bool := e.syncEarlyStartConfig &&& mask.code ≠ 0

end EarlyStartInfo

/-! ## Task records -/

/-- One entry of a device queue. `numBlocks` is an 8-bit field; `index` is `none` for
custom tasks, which the source marks with the largest 32-bit value. -/
structure TaskInfo where
  index : Option ℕ
  type : SkTaskType
  relatedType : SkKernelType := .default
  numBlocks : ℕ := 0
  entryCnt : ℕ := 0
  entry : List ℕ := [0, 0, 0, 0]
  debugOptions : ℕ := 0
  extraInfo : ℕ := 0
  args : ℕ := 0
  argsSize : ℕ := 0
  isSimtKernel : Bool := false
deriving DecidableEq, Repr

structure SkTask where
  numBlocks : ℕ := 0
  taskInfos : List TaskInfo := []
  funcCnt : ℕ := 0
  nodeType : SkKernelType := .default
deriving DecidableEq, Repr

def SkTask.push (t : SkTask) (info : TaskInfo) : SkTask :=
  { t with taskInfos := t.taskInfos ++ [info] }

@[simp] theorem SkTask.push_taskInfos (t : SkTask) (info : TaskInfo) :
    (t.push info).taskInfos = t.taskInfos ++ [info] := rfl

/-- The AIC queue (`true`) and the AIV queue. -/
abbrev SkTasks := Bool → SkTask

/-- The option values the task builder reads, and whether the runtime config names the
architecture `DAV_3510`. The kernel lists of the dcci options are given by the function
names they match. -/
structure TaskOptions where
  splitMode : ℕ := 4
  debugSyncAll : ℕ := 0
  enableMixKernelSplit : ℕ := 0
  earlyStart : ℕ := 0
  preloadCode : ℕ := 1
  debugPerOpMaxCoreNum : ℕ := 0
  debugCrossCoreSyncCheck : ℕ := 0
  dcciDisableOnKernel : String → Bool := fun _ => false
  dcciBeforeKernelStart : String → Bool := fun _ => false
  dcciAfterKernelEnd : String → Bool := fun _ => false
  kernelArchDav3510 : Bool := false

/-- `EnableDebug`. -/
def TaskOptions.enableDebug (opts : TaskOptions) : Bool := opts.debugSyncAll = 1

def kDebugOptionDisableDcci : ℕ := 0x1
def kDebugOptionDebugSyncAll : ℕ := 0x2
def kDebugOptionDcciBeforeKernelStart : ℕ := 0x4
def kDebugOptionDcciAfterKernelEnd : ℕ := 0x8
def kDebugOptionCrossCoreSyncCheck : ℕ := 0x10
def kDebugOptionEnableDcciAfterFunc : ℕ := 0x20

/-- `SkMemoryWaitFlag::EQ`, the flag of a wait that has none of its own. -/
def SK_WAIT_FLAG_EQ : ℕ := 1
def INVALID_WAIT_FLAG : ℕ := 4294967295

/-! ## Adding one task -/

section Add

variable (opts : TaskOptions)

/-- The task `AddSyncTask` appends. -/
def syncTaskInfo (nodeIndex : ℕ) (syncType : SkCoreSyncType) (earlyStartConfig skipCoreCount : ℕ)
    (relatedType : SkKernelType) : TaskInfo :=
  { index := some nodeIndex
    type := .typeSync
    args := syncType.code
    numBlocks := skipCoreCount % 256
    extraInfo := earlyStartConfig
    relatedType := relatedType
    debugOptions :=
      if opts.enableDebug = true ∧ opts.debugSyncAll = 1 then kDebugOptionDebugSyncAll else 0 }

/-- `AddSyncTask`. -/
def addSyncTask (skTask : SkTask) (nodeIndex : ℕ) (syncType : SkCoreSyncType)
    (earlyStartConfig skipCoreCount : ℕ) (relatedType : SkKernelType) : SkTask :=
  skTask.push (syncTaskInfo opts nodeIndex syncType earlyStartConfig skipCoreCount relatedType)

/-- The value of an event task that has none of its own. -/
def defaultEventValue : SkTaskType → ℕ
  | .typeEventNotify => SK_DEFAULT_NOTIFY_VALUE
  | .typeEventWait => SK_DEFAULT_WAIT_VALUE
  | .typeEventReset => SK_DEFAULT_RESET_VALUE
  | _ => 0

/-- The task `AddEventTask` appends. -/
def eventTaskInfo (node : SuperKernelBaseNode) (nodeIndex : Option ℕ) (taskType : SkTaskType) :
    TaskInfo :=
  let syncInfos := node.syncInfos
  let eventValue := syncInfos.memoryValue.getD (defaultEventValue taskType)
  let waitFlag :=
    if taskType ≠ .typeEventWait ∨ syncInfos.memoryWaitFlag = INVALID_WAIT_FLAG then
      if taskType = .typeEventWait then SK_WAIT_FLAG_EQ else SK_DEFAULT_WRITE_FLAG
    else syncInfos.memoryWaitFlag
  { index := nodeIndex
    type := taskType
    args := syncInfos.addrValue.getD 0
    entry := [eventValue, 0, 0, 0]
    extraInfo := waitFlag }

/-- `AddEventTask`. -/
def addEventTask (skTask : SkTask) (node : SuperKernelBaseNode) (nodeIndex : Option ℕ)
    (taskType : SkTaskType) : SkTask :=
  skTask.push (eventTaskInfo node nodeIndex taskType)

/-- `GetPreFetchCnt`, for one kind of core. -/
def getPreFetchCnt (resolved : ResolvedFunctionInfo) (isCub : Bool) : ℕ :=
  if opts.preloadCode = 0 then if isCub then 16 else 8
  else if opts.preloadCode = 2 then 0
  else if isCub then resolved.prefetchCntAic else resolved.prefetchCntAiv

/-- `BuildFuncTaskDebugOptions`. -/
def buildFuncTaskDebugOptions (kernelInfo : KernelInfos) : ℕ :=
  let disableDcciByCap := kernelInfo.capBits.disableDcci
  let disableDcciByOption := opts.dcciDisableOnKernel kernelInfo.funcName
  let dcciBeforeKernelStart := opts.dcciBeforeKernelStart kernelInfo.funcName
  let dcciAfterKernelEnd := opts.dcciAfterKernelEnd kernelInfo.funcName
  let dcciAfterKernelEnd := dcciAfterKernelEnd ||
    (!disableDcciByCap && disableDcciByOption && !dcciBeforeKernelStart && !dcciAfterKernelEnd)
  let disableDcci := disableDcciByCap || disableDcciByOption
  (if disableDcci then kDebugOptionDisableDcci else 0) |||
    (if dcciBeforeKernelStart then kDebugOptionDcciBeforeKernelStart else 0) |||
    (if dcciAfterKernelEnd then kDebugOptionDcciAfterKernelEnd else 0) |||
    (if opts.debugCrossCoreSyncCheck = 1 then kDebugOptionCrossCoreSyncCheck else 0) |||
    (if dcciAfterKernelEnd || !disableDcci then kDebugOptionEnableDcciAfterFunc else 0)

/-- `resolved.funcAddr[addrIndex]`. -/
def ResolvedFunctionInfo.funcAddr (resolved : ResolvedFunctionInfo) (isCub : Bool) : ℕ :=
  if isCub then resolved.funcAddrAic else resolved.funcAddrAiv

/-- One iteration of the loop over the split binaries in `AddFuncTask`. -/
def addFuncEntry (kernelInfo : KernelInfos) (isCub : Bool) (taskType : SkTaskType)
    (taskInfo : TaskInfo) (i : ℕ) : Option TaskInfo :=
  let resolved := kernelInfo.resolvedFuncs.getD i {}
  let taskInfo :=
    if taskType = .typePreload then
      { taskInfo with
        args := getPreFetchCnt opts resolved isCub
        argsSize := kernelInfo.argsSize
        extraInfo := kernelInfo.devArgs }
    else taskInfo
  let addr := resolved.funcAddr isCub
  if addr = 0 then none
  else some { taskInfo with entryCnt := taskInfo.entryCnt + 1, entry := taskInfo.entry.set i addr }

/-- The task `AddFuncTask` appends; an unresolved function address is an error. -/
def funcTaskInfo (node : SuperKernelBaseNode) (nodeIndex : ℕ) (isCub : Bool) (binCount : ℕ)
    (taskType : SkTaskType) (numBlocks : ℕ) (earlyStartInfo : EarlyStartInfo) : Option TaskInfo :=
  let kernelInfo := node.kernelInfos
  let taskInfo? := (List.range binCount).foldlM (addFuncEntry opts kernelInfo isCub taskType)
    { index := some nodeIndex
      type := taskType
      relatedType := kernelInfo.kernelType
      isSimtKernel := taskType = .typeFunc && kernelInfo.isSimtOp
      numBlocks := numBlocks % 256 }
  taskInfo?.map fun taskInfo =>
    if taskType = .typeFunc then
      { taskInfo with
        args := kernelInfo.devArgs
        extraInfo := earlyStartInfo.funcEarlyStartConfig
        argsSize := kernelInfo.argsSize
        debugOptions := taskInfo.debugOptions ||| buildFuncTaskDebugOptions opts kernelInfo }
    else taskInfo

theorem addFuncEntry_spec {opts : TaskOptions} {kernelInfo : KernelInfos} {isCub : Bool}
    {taskType : SkTaskType} {t t' : TaskInfo} {i : ℕ}
    (h : addFuncEntry opts kernelInfo isCub taskType t i = some t') :
    t'.type = t.type ∧ t'.index = t.index ∧ t'.numBlocks = t.numBlocks ∧
      t'.relatedType = t.relatedType := by
  unfold addFuncEntry at h
  by_cases htype : taskType = .typePreload
  · simp only [htype, if_true, Option.ite_none_left_eq_some, Option.some.injEq] at h
    rcases h with ⟨_, rfl⟩
    exact ⟨rfl, rfl, rfl, rfl⟩
  · simp only [htype, if_false, Option.ite_none_left_eq_some, Option.some.injEq] at h
    rcases h with ⟨_, rfl⟩
    exact ⟨rfl, rfl, rfl, rfl⟩

/-- The record of a function task carries the values it was added with. -/
theorem funcTaskInfo_spec {opts : TaskOptions} {node : SuperKernelBaseNode}
    {nodeIndex binCount numBlocks : ℕ} {isCub : Bool} {taskType : SkTaskType} {e : EarlyStartInfo}
    {info : TaskInfo}
    (h : funcTaskInfo opts node nodeIndex isCub binCount taskType numBlocks e = some info) :
    info.type = taskType ∧ info.index = some nodeIndex ∧ info.numBlocks = numBlocks % 256 ∧
      info.relatedType = node.kernelInfos.kernelType := by
  have hloop : ∀ (l : List ℕ) (t t' : TaskInfo),
      l.foldlM (addFuncEntry opts node.kernelInfos isCub taskType) t = some t' →
        t'.type = t.type ∧ t'.index = t.index ∧ t'.numBlocks = t.numBlocks ∧
          t'.relatedType = t.relatedType := by
    intro l
    induction l with
    | nil =>
      intro t t' ht
      have hsame : t = t' := by simpa using ht
      subst hsame
      exact ⟨rfl, rfl, rfl, rfl⟩
    | cons i l ih =>
      intro t t' ht
      simp only [List.foldlM_cons, Option.bind_eq_bind, Option.bind_eq_some_iff] at ht
      rcases ht with ⟨mid, hmid, hrest⟩
      rcases ih mid t' hrest with ⟨htype, hindex, hblocks, hrelated⟩
      rcases addFuncEntry_spec hmid with ⟨htype', hindex', hblocks', hrelated'⟩
      exact ⟨htype.trans htype', hindex.trans hindex', hblocks.trans hblocks',
        hrelated.trans hrelated'⟩
  rcases Option.map_eq_some_iff.mp h with ⟨t, ht, rfl⟩
  rcases hloop _ _ _ ht with ⟨htype, hindex, hblocks, hrelated⟩
  split <;> exact ⟨htype, hindex, hblocks, hrelated⟩

/-- `AddFuncTask`. -/
def addFuncTask (skTask : SkTask) (node : SuperKernelBaseNode) (nodeIndex : ℕ) (isCub : Bool)
    (binCount : ℕ) (taskType : SkTaskType) (numBlocks : ℕ) (earlyStartInfo : EarlyStartInfo) :
    Option SkTask :=
  if node.nodeType ≠ .nodeKernel then none
  else
    (funcTaskInfo opts node nodeIndex isCub binCount taskType numBlocks earlyStartInfo).map
      fun taskInfo =>
        let skTask :=
          if taskType = .typeFunc then
            { skTask with
              numBlocks := max skTask.numBlocks taskInfo.numBlocks
              funcCnt := skTask.funcCnt + 1 }
          else skTask
        skTask.push taskInfo

/-! ## Dispatching a task to its queues -/

/-- `DispatchFuncTask`. -/
def dispatchFuncTask (skTasks : SkTasks) (node : SuperKernelBaseNode) (nodeIndex binCount : ℕ)
    (taskType : SkTaskType) (queueType : SkQueueType) (earlyStartInfo : EarlyStartInfo) :
    Option SkTasks :=
  if node.nodeType ≠ .nodeKernel then none
  else
    let numBlocks := node.kernelInfos.numBlocks
    let add := fun (skTasks : SkTasks) (isCub : Bool) (numBlocks : ℕ) =>
      (addFuncTask opts (skTasks isCub) node nodeIndex isCub binCount taskType numBlocks
        earlyStartInfo).map (Function.update skTasks isCub)
    match queueType with
    | .aiv => add skTasks false numBlocks
    | .aic => add skTasks true numBlocks
    | .mix11 => do
      let skTasks ← add skTasks true numBlocks
      add skTasks false numBlocks
    | .mix12 => do
      let skTasks ← add skTasks true numBlocks
      let skTasks ← add skTasks false (numBlocks * 2 % 4294967296)
      some fun isCub => { skTasks isCub with nodeType := .mixAic12 }
    | .unknown => none

/-- `DispatchEventTask`. -/
def dispatchEventTask (skTasks : SkTasks) (node : SuperKernelBaseNode) (nodeIndex : Option ℕ)
    (taskType : SkTaskType) (queueType : SkQueueType) : Option SkTasks :=
  if node.nodeType ≠ .nodeNotify ∧ node.nodeType ≠ .nodeWait ∧ node.nodeType ≠ .nodeReset then none
  else
    let isCub : Bool := queueType = .aic
    some (Function.update skTasks isCub (addEventTask (skTasks isCub) node nodeIndex taskType))

/-- `GetSyncTypesForDirection`. -/
def getSyncTypesForDirection (dir : SyncDirection) (isSend : Bool) : SkCoreSyncType :=
  match dir with
  | .cubToVec => if isSend then .interSyncSetAicToAiv else .interSyncWaitAicToAiv
  | .vecToCub => if isSend then .interSyncSetAivToAic else .interSyncWaitAivToAic
  | .cubToCub => .crossSyncAicToAic
  | .vecToVec => .crossSyncAivToAiv
  | .mixToMix => .syncNone
  | .none => .syncNone
  | .allSync => .allSync

/-- The queues a sync task goes to: `(addToAicQue, addToAivQue)`. -/
def syncTargets : SkCoreSyncType → Option (Bool × Bool)
  | .crossSyncAicToAic => some (true, false)
  | .crossSyncAivToAiv => some (false, true)
  | .interSyncSetAivToAic => some (false, true)
  | .interSyncWaitAivToAic => some (true, false)
  | .interSyncSetAicToAiv => some (true, false)
  | .interSyncWaitAicToAiv => some (false, true)
  | .allSync => some (true, true)
  | .syncNone => none

/-- One entry of the loop in `DispatchSyncTasks`. -/
def dispatchSyncTask (nodeIndex : ℕ) (isSend : Bool) (skTasks : SkTasks) (dir : SyncDirection) :
    Option SkTasks :=
  let syncType := getSyncTypesForDirection dir isSend
  (syncTargets syncType).map fun targets isCub =>
    if (if isCub then targets.1 else targets.2) then
      addSyncTask opts (skTasks isCub) nodeIndex syncType 0 0 .default
    else skTasks isCub

/-- The values of a map in key order; all keys are below the bound. -/
def SyncMap.values (info : SyncMap) (bound : ℕ) : List SyncDirection :=
  (List.range bound).filterMap info

/-- `DispatchSyncTasks` for a map. -/
def dispatchSyncTasks (skTasks : SkTasks) (nodeIndex bound : ℕ) (syncInfo : SyncMap)
    (isSend : Bool) : Option SkTasks :=
  (syncInfo.values bound).foldlM (dispatchSyncTask opts nodeIndex isSend) skTasks

end Add

end GraphAutofusion.SuperKernel
