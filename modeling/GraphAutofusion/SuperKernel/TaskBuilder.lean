import GraphAutofusion.SuperKernel.EarlyStart

/-!
# SuperKernel.TaskBuilder — building the two device queues

`SkTaskBuilder::Build` computes the sync metadata of the task list and emits, task by task,
the WAITs, the call or event access, the preload of the next kernel, the barriers and the
SETs. The second half of the file says which records the result holds, queue by queue.
-/

namespace GraphAutofusion.SuperKernel

open Option List

section Build

variable (opts : TaskOptions) (g : SuperKernelGraph) (tasks customTasks : List SuperKernelBaseNode)

/-- The debug mode drops all other sync metadata. -/
def debugSyncInfo (t : TaskSyncInfo) : TaskSyncInfo :=
  { queueType := t.queueType
    crossSyncInfo := Function.update (fun _ => none) (crossSyncKey true) (some .allSync) }

/-- Phase 1 of `Build`, and the optimization of phase 2. -/
def precomputeSyncRelations : Option TaskSyncInfos :=
  if opts.enableMixKernelSplit = 1 then precomputeSyncRelationsByMixGroups g tasks
  else precomputeSyncRelationsFromGraph g tasks

/-- The early-start pass of phase 2, if it is enabled. -/
def earlyStartPhase (infos : TaskSyncInfos) : Option TaskSyncInfos :=
  if opts.earlyStart = 1 then applyEarlyStartSyncPass opts tasks infos else some infos

/-- Phase 3 of `Build`: an all-core sync before the custom tasks. -/
def attachCustomSync (infos : TaskSyncInfos) : TaskSyncInfos :=
  if customTasks.isEmpty then infos
  else updateTask infos (tasks.length - 1) (·.setCross (crossSyncKey true) .allSync)

/-- The debug mode of `DEBUG_SYNC_ALL`. -/
def isDebugSync : Prop := opts.enableDebug = true ∧ opts.debugSyncAll ≠ 0

instance : Decidable (isDebugSync opts) := inferInstanceAs (Decidable (_ ∧ _))

def applyDebugSync (infos : TaskSyncInfos) : TaskSyncInfos :=
  if isDebugSync opts then fun i => if i < tasks.length then debugSyncInfo (infos i) else infos i
  else infos

/-- Phases 1 to 3 of `Build`. -/
def buildSyncInfos : Option TaskSyncInfos :=
  (precomputeSyncRelations opts g tasks).bind fun infos =>
    (earlyStartPhase opts tasks infos).map fun infos =>
      applyDebugSync opts tasks (attachCustomSync tasks customTasks infos)

/-- The event task type of a node. -/
def eventTaskType : SkNodeType → Option SkTaskType
  | .nodeNotify => some .typeEventNotify
  | .nodeWait => some .typeEventWait
  | .nodeReset => some .typeEventReset
  | _ => none

variable (infos : TaskSyncInfos)

/-- Step 2 of the dispatch of a task. -/
def dispatchTask (i : ℕ) (task : SuperKernelBaseNode) (skTasks : SkTasks) : Option SkTasks :=
  if task.nodeType = .nodeKernel then
    dispatchFuncTask opts skTasks task i opts.splitMode .typeFunc (infos i).queueType
      (infos i).earlyStartInfo
  else
    (eventTaskType task.nodeType).bind fun taskType =>
      dispatchEventTask skTasks task (some i) taskType (infos i).queueType

/-- The preload of a task, if it is a kernel. -/
def dispatchPreload (i : ℕ) (skTasks : SkTasks) : Option SkTasks :=
  match tasks[i]? with
  | none => some skTasks
  | some task =>
    if task.nodeType = .nodeKernel then
      dispatchFuncTask opts skTasks task i opts.splitMode .typePreload (infos i).queueType
        (infos i).earlyStartInfo
    else some skTasks

/-- One iteration of phase 4 of `Build`. -/
def dispatchStep (skTasks : SkTasks) (task : SuperKernelBaseNode × ℕ) : Option SkTasks := do
  let i := task.2
  let info := infos i
  let skTasks :=
    if opts.earlyStart = 1 then dispatchEarlyStartSync opts i info.earlyStartInfo false skTasks
    else skTasks
  let skTasks ← dispatchSyncTasks opts skTasks i tasks.length info.vecRecvInfo false
  let skTasks ← dispatchSyncTasks opts skTasks i tasks.length info.cubRecvInfo false
  let skTasks ← dispatchTask opts infos i task.1 skTasks
  let skTasks ← dispatchPreload opts tasks infos (i + 1) skTasks
  let skTasks :=
    if opts.earlyStart = 1 then dispatchEarlyStartSync opts i info.earlyStartInfo true skTasks
    else skTasks
  let skTasks ← dispatchSyncTasks opts skTasks i 2 info.crossSyncInfo true
  let skTasks ← dispatchSyncTasks opts skTasks i tasks.length info.vecSendInfo true
  dispatchSyncTasks opts skTasks i tasks.length info.cubSendInfo true

/-- The queue of a custom task. -/
def customQueueType (cache : KernelNodeCache) (node : SuperKernelBaseNode) :
    Option (SkQueueType × KernelNodeCache) :=
  let ctx := queueTypeContext tasks
  let found := findKernelNodeInDirection g node.preNodeId .prev cache
  match found.1 with
  | none =>
    if ctx.firstKernelEventQueueType = .unknown then none
    else some (ctx.firstKernelEventQueueType, found.2)
  | some kernel =>
    some (toEventQueueType (toQueueType kernel.kernelInfos.kernelType) ctx.aicAvailable
      ctx.aivAvailable, found.2)

/-- The custom tasks with the types of their event tasks and their queues. -/
def customEvents : List SuperKernelBaseNode → KernelNodeCache →
    Option (List (SuperKernelBaseNode × SkTaskType × SkQueueType))
  | [], _ => some []
  | node :: rest, cache => do
    let (queueType, cache) ← customQueueType g tasks cache node
    let taskType ← eventTaskType node.nodeType
    let events ← customEvents rest cache
    some ((node, taskType, queueType) :: events)

/-- The dispatch of one custom task. -/
def dispatchCustom (skTasks : SkTasks) (event : SuperKernelBaseNode × SkTaskType × SkQueueType) :
    Option SkTasks :=
  dispatchEventTask skTasks event.1 none event.2.1 event.2.2

/-- `SkTaskBuilder::Build` up to the finished queues. -/
def buildTaskQueues : Option SkTasks :=
  if tasks.isEmpty then none
  else do
    let infos ← buildSyncInfos opts g tasks customTasks
    let skTasks ← dispatchPreload opts tasks infos 0 fun _ => {}
    let skTasks ← tasks.zipIdx.foldlM (dispatchStep opts tasks infos) skTasks
    let events ← customEvents g tasks customTasks fun _ => none
    events.foldlM dispatchCustom skTasks

/-! ## The records of the finished queues -/

/-- The records `DispatchFuncTask` appends to a queue. -/
def funcItems (node : SuperKernelBaseNode) (i : ℕ) (taskType : SkTaskType)
    (queueType : SkQueueType) (e : EarlyStartInfo) (q : Bool) : List TaskInfo :=
  if hasPart queueType q = true then
    (funcTaskInfo opts node i q opts.splitMode taskType
      (if queueType = .mix12 ∧ q = false then node.kernelInfos.numBlocks * 2 % 4294967296
      else node.kernelInfos.numBlocks) e).toList
  else []

def eventItems (node : SuperKernelBaseNode) (i : Option ℕ) (taskType : SkTaskType)
    (queueType : SkQueueType) (q : Bool) : List TaskInfo :=
  if q = decide (queueType = .aic) then [eventTaskInfo node i taskType] else []

def syncItems (i bound : ℕ) (info : SyncMap) (isSend q : Bool) : List TaskInfo :=
  (info.values bound).flatMap fun dir =>
    match syncTargets (getSyncTypesForDirection dir isSend) with
    | none => []
    | some targets =>
      if (if q then targets.1 else targets.2) then
        [syncTaskInfo opts i (getSyncTypesForDirection dir isSend) 0 0 .default]
      else []

def earlyStartItem (i : ℕ) (e : EarlyStartInfo) (q : Bool) (mask : SkEarlyStartMask)
    (relatedNode : Option SuperKernelBaseNode) : List TaskInfo :=
  if e.checkSyncMask mask = false then []
  else
    [syncTaskInfo opts i (maskToSyncType mask) (mask.code % 256)
      (if q = false ∧ getKernelType relatedNode = .mixAic12 then
        getKernelNumBlocks relatedNode * 2 % 4294967296
      else getKernelNumBlocks relatedNode) (getKernelType relatedNode)]

/-- The node whose waiting kernel follows on a queue. -/
def EarlyStartInfo.nextRelatedNode (e : EarlyStartInfo) (q : Bool) : Option SuperKernelBaseNode :=
  if q then e.nextAicRelatedNode else e.nextAivRelatedNode

def earlyStartItems (i : ℕ) (e : EarlyStartInfo) (isSend q : Bool) : List TaskInfo :=
  if opts.earlyStart ≠ 1 then []
  else if isSend then
    earlyStartItem opts i e q (selfSetMask q) e.relatedSetNode ++
      (earlyStartItem opts i e q (selfWaitMask q) (e.nextRelatedNode q) ++
        earlyStartItem opts i e q (crossSendMask q) (e.nextRelatedNode q))
  else earlyStartItem opts i e q (crossRecvMask q) e.relatedWaitNode

/-- The call of a kernel, or the access of an event task. -/
def bodyItems (i : ℕ) (task : SuperKernelBaseNode) (q : Bool) : List TaskInfo :=
  if task.nodeType = .nodeKernel then
    funcItems opts task i .typeFunc (infos i).queueType (infos i).earlyStartInfo q
  else
    match eventTaskType task.nodeType with
    | none => []
    | some taskType => eventItems task (some i) taskType (infos i).queueType q

def preloadItems (i : ℕ) (q : Bool) : List TaskInfo :=
  match tasks[i]? with
  | none => []
  | some task =>
    if task.nodeType = .nodeKernel then
      funcItems opts task i .typePreload (infos i).queueType (infos i).earlyStartInfo q
    else []

/-- The WAITs before a task. -/
def recvItems (i : ℕ) (q : Bool) : List TaskInfo :=
  syncItems opts i tasks.length (infos i).vecRecvInfo false q ++
    syncItems opts i tasks.length (infos i).cubRecvInfo false q

/-- The SETs after a task. -/
def sendItems (i : ℕ) (q : Bool) : List TaskInfo :=
  syncItems opts i tasks.length (infos i).vecSendInfo true q ++
    syncItems opts i tasks.length (infos i).cubSendInfo true q

/-- What one iteration of phase 4 appends to a queue. -/
def taskItems (q : Bool) (task : SuperKernelBaseNode × ℕ) : List TaskInfo :=
  let i := task.2
  earlyStartItems opts i (infos i).earlyStartInfo false q ++
    (recvItems opts tasks infos i q ++
      (bodyItems opts infos i task.1 q ++
        (preloadItems opts tasks infos (i + 1) q ++
          (earlyStartItems opts i (infos i).earlyStartInfo true q ++
            (syncItems opts i 2 (infos i).crossSyncInfo true q ++
              sendItems opts tasks infos i q)))))

def customItems (events : List (SuperKernelBaseNode × SkTaskType × SkQueueType)) (q : Bool) :
    List TaskInfo :=
  events.flatMap fun event => eventItems event.1 none event.2.1 event.2.2 q

/-- All records of a queue. -/
def queueItems (events : List (SuperKernelBaseNode × SkTaskType × SkQueueType)) (q : Bool) :
    List TaskInfo :=
  preloadItems opts tasks infos 0 q ++
    (tasks.zipIdx.flatMap (taskItems opts tasks infos q) ++ customItems events q)

end Build

/-- A step of the builder appends these records to each queue. -/
def Appends (items : Bool → List TaskInfo) (skTasks skTasks' : SkTasks) : Prop :=
  ∀ q, (skTasks' q).taskInfos = (skTasks q).taskInfos ++ items q

section Spec

variable {opts : TaskOptions} {g : SuperKernelGraph} {tasks customTasks : List SuperKernelBaseNode}
  {infos : TaskSyncInfos} {skTasks skTasks' skTasks'' : SkTasks} {items items' : Bool → List TaskInfo}
  {node : SuperKernelBaseNode} {i bound : ℕ} {taskType : SkTaskType} {queueType : SkQueueType}
  {e : EarlyStartInfo}

theorem Appends.nil : Appends (fun _ => []) skTasks skTasks := fun _ => (append_nil _).symm

theorem Appends.append (h : Appends items skTasks skTasks') (h' : Appends items' skTasks' skTasks'') :
    Appends (fun q => items q ++ items' q) skTasks skTasks'' := by
  intro q
  rw [h' q, h q, append_assoc]

/-- A loop of steps appends the records of its steps, one after the other. -/
theorem Appends.foldlM {α : Type*} {step : SkTasks → α → Option SkTasks}
    {items : α → Bool → List TaskInfo} {l : List α}
    (hstep : ∀ a ∈ l, ∀ skTasks skTasks', step skTasks a = some skTasks' →
      Appends (items a) skTasks skTasks')
    (h : l.foldlM step skTasks = some skTasks') :
    Appends (fun q => l.flatMap fun a => items a q) skTasks skTasks' := by
  induction l generalizing skTasks with
  | nil =>
    have hsame : skTasks = skTasks' := by simpa using h
    subst hsame
    exact Appends.nil
  | cons a l ih =>
    simp only [foldlM_cons, bind_eq_bind, bind_eq_some_iff] at h
    rcases h with ⟨mid, hmid, hrest⟩
    have hfirst := hstep a mem_cons_self skTasks mid hmid
    exact hfirst.append (ih (fun b hb => hstep b (mem_cons_of_mem a hb)) hrest)

theorem appends_dispatchSyncTask {isSend : Bool} {dir : SyncDirection}
    (h : dispatchSyncTask opts i isSend skTasks dir = some skTasks') :
    Appends (fun q => match syncTargets (getSyncTypesForDirection dir isSend) with
      | none => []
      | some targets =>
        if (if q then targets.1 else targets.2) then
          [syncTaskInfo opts i (getSyncTypesForDirection dir isSend) 0 0 .default]
        else []) skTasks skTasks' := by
  unfold dispatchSyncTask at h
  rcases map_eq_some_iff.mp h with ⟨targets, htargets, rfl⟩
  intro q
  simp only [htargets]
  by_cases htarget : (if q = true then targets.1 else targets.2) = true
  · rw [if_pos htarget, if_pos htarget]
    rfl
  · rw [if_neg htarget, if_neg htarget, append_nil]

theorem appends_dispatchSyncTasks {isSend : Bool} {info : SyncMap}
    (h : dispatchSyncTasks opts skTasks i bound info isSend = some skTasks') :
    Appends (syncItems opts i bound info isSend) skTasks skTasks' :=
  Appends.foldlM (fun _ _ _ _ hstep => appends_dispatchSyncTask hstep) h

/-- Adding one function task to a queue. -/
theorem addFuncTask_eq_some {skTask skTask' : SkTask} {isCub : Bool} {binCount numBlocks : ℕ}
    (h : addFuncTask opts skTask node i isCub binCount taskType numBlocks e = some skTask') :
    ∃ info, funcTaskInfo opts node i isCub binCount taskType numBlocks e = some info ∧
      skTask'.taskInfos = skTask.taskInfos ++ [info] := by
  unfold addFuncTask at h
  split at h
  · exact absurd h (by simp)
  · rcases map_eq_some_iff.mp h with ⟨info, hinfo, rfl⟩
    refine ⟨info, hinfo, ?_⟩
    split <;> rfl

theorem appends_addFuncTask {isCub : Bool} {binCount numBlocks : ℕ}
    (h : (addFuncTask opts (skTasks isCub) node i isCub binCount taskType numBlocks e).map
      (Function.update skTasks isCub) = some skTasks') :
    (funcTaskInfo opts node i isCub binCount taskType numBlocks e).isSome = true ∧
      Appends (fun q => if q = isCub then
        (funcTaskInfo opts node i isCub binCount taskType numBlocks e).toList else [])
        skTasks skTasks' := by
  rcases map_eq_some_iff.mp h with ⟨skTask', hadd, rfl⟩
  rcases addFuncTask_eq_some hadd with ⟨info, hinfo, hitems⟩
  refine ⟨by rw [hinfo]; rfl, fun q => ?_⟩
  by_cases hq : q = isCub
  · subst hq
    simp [hinfo, hitems]
  · simp [hq]

theorem appends_dispatchFuncTask
    (h : dispatchFuncTask opts skTasks node i opts.splitMode taskType queueType e = some skTasks') :
    Appends (funcItems opts node i taskType queueType e) skTasks skTasks' := by
  unfold dispatchFuncTask at h
  split at h
  · exact absurd h (by simp)
  · cases queueType with
    | aic =>
      refine fun q => ((appends_addFuncTask h).2 q).trans ?_
      cases q <;> simp [funcItems, hasPart]
    | aiv =>
      refine fun q => ((appends_addFuncTask h).2 q).trans ?_
      cases q <;> simp [funcItems, hasPart]
    | mix11 =>
      simp only [bind_eq_bind, bind_eq_some_iff] at h
      rcases h with ⟨mid, hmid, hrest⟩
      refine fun q => (((appends_addFuncTask hmid).2.append (appends_addFuncTask hrest).2) q).trans ?_
      cases q <;> simp [funcItems, hasPart]
    | mix12 =>
      simp only [bind_eq_bind, bind_eq_some_iff, Option.some.injEq] at h
      rcases h with ⟨mid, hmid, last, hlast, rfl⟩
      refine fun q => (((appends_addFuncTask hmid).2.append (appends_addFuncTask hlast).2) q).trans ?_
      cases q <;> simp [funcItems, hasPart]
    | unknown => exact absurd h (by simp)

theorem appends_dispatchEventTask {index : Option ℕ}
    (h : dispatchEventTask skTasks node index taskType queueType = some skTasks') :
    Appends (eventItems node index taskType queueType) skTasks skTasks' := by
  unfold dispatchEventTask at h
  split at h
  · exact absurd h (by simp)
  · have hupdate := Option.some.inj h
    subst hupdate
    intro q
    by_cases hq : q = decide (queueType = .aic)
    · subst hq
      simp [eventItems, addEventTask, SkTask.push_taskInfos]
    · rw [Function.update_of_ne hq]
      simp [eventItems, hq]

theorem appends_dispatchTask (h : dispatchTask opts infos i node skTasks = some skTasks') :
    Appends (bodyItems opts infos i node) skTasks skTasks' := by
  unfold dispatchTask at h
  unfold bodyItems
  split at h
  · next hkernel => simpa only [hkernel, if_true] using appends_dispatchFuncTask h
  · next hkernel =>
    rcases bind_eq_some_iff.mp h with ⟨taskType, htype, hevent⟩
    simpa only [hkernel, if_false, htype] using appends_dispatchEventTask hevent

theorem appends_dispatchPreload (h : dispatchPreload opts tasks infos i skTasks = some skTasks') :
    Appends (preloadItems opts tasks infos i) skTasks skTasks' := by
  unfold dispatchPreload at h
  unfold preloadItems
  cases hget : tasks[i]? with
  | none =>
    have hsame : skTasks = skTasks' := by simpa [hget] using h
    subst hsame
    exact Appends.nil
  | some task =>
    simp only [hget] at h
    split at h
    · next hkernel => simpa only [hkernel, if_true] using appends_dispatchFuncTask h
    · next hkernel =>
      have hsame : skTasks = skTasks' := Option.some.inj h
      subst hsame
      simpa only [hkernel, if_false] using Appends.nil

theorem appends_addEarlyStartSync {mask : SkEarlyStartMask} {isCub : Bool}
    {related : Option SuperKernelBaseNode} :
    Appends (fun q => if q = isCub then earlyStartItem opts i e isCub mask related else []) skTasks
      (addEarlyStartSync opts i e skTasks isCub mask related) := by
  intro q
  unfold addEarlyStartSync earlyStartItem
  by_cases hcheck : e.checkSyncMask mask = false
  · simp [hcheck]
  · by_cases hq : q = isCub
    · subst hq
      simp [hcheck, addSyncTask, SkTask.push_taskInfos]
    · simp [hcheck, hq]

theorem appends_dispatchEarlyStartSync {isSend : Bool} :
    Appends (earlyStartItems opts i e isSend) skTasks
      (if opts.earlyStart = 1 then dispatchEarlyStartSync opts i e isSend skTasks else skTasks) := by
  by_cases hearly : opts.earlyStart = 1
  · rw [if_pos hearly]
    unfold dispatchEarlyStartSync
    cases isSend with
    | false =>
      refine fun q => ((appends_addEarlyStartSync.append appends_addEarlyStartSync) q).trans ?_
      cases q <;> simp [earlyStartItems, hearly, crossRecvMask]
    | true =>
      refine fun q => ((((((appends_addEarlyStartSync.append appends_addEarlyStartSync).append
        appends_addEarlyStartSync).append appends_addEarlyStartSync).append
        appends_addEarlyStartSync).append appends_addEarlyStartSync) q).trans ?_
      cases q <;> simp [earlyStartItems, hearly, selfSetMask, selfWaitMask, crossSendMask,
        EarlyStartInfo.nextRelatedNode]
  · rw [if_neg hearly]
    refine fun q => (Appends.nil q).trans ?_
    simp [earlyStartItems, hearly]

/-- One iteration of phase 4 appends the records of its task. -/
theorem appends_dispatchStep {task : SuperKernelBaseNode × ℕ}
    (h : dispatchStep opts tasks infos skTasks task = some skTasks') :
    Appends (fun q => taskItems opts tasks infos q task) skTasks skTasks' := by
  simp only [dispatchStep, bind_eq_bind, bind_eq_some_iff] at h
  rcases h with ⟨s₁, hvecRecv, s₂, hcubRecv, s₃, hbody, s₄, hpreload, s₅, hcross, s₆, hvecSend,
    hcubSend⟩
  have hrecv := (appends_dispatchSyncTasks hvecRecv).append (appends_dispatchSyncTasks hcubRecv)
  have hsend := (appends_dispatchSyncTasks hvecSend).append (appends_dispatchSyncTasks hcubSend)
  have hset := appends_dispatchEarlyStartSync.append ((appends_dispatchSyncTasks hcross).append hsend)
  have hcall := (appends_dispatchTask hbody).append ((appends_dispatchPreload hpreload).append hset)
  exact appends_dispatchEarlyStartSync.append (hrecv.append hcall)

/-- What the dispatch of a task checks: kernels resolve on their queues, all other tasks are
event tasks. -/
def TaskBuilt (opts : TaskOptions) (infos : TaskSyncInfos) (task : SuperKernelBaseNode × ℕ) : Prop :=
  if task.1.nodeType = .nodeKernel then
    ∀ q, hasPart (infos task.2).queueType q = true → ∃ info : TaskInfo,
      bodyItems opts infos task.2 task.1 q = [info] ∧ info.type = .typeFunc ∧
        info.index = some task.2
  else ∃ taskType, eventTaskType task.1.nodeType = some taskType

theorem funcItems_of_dispatchFuncTask
    (h : dispatchFuncTask opts skTasks node i opts.splitMode taskType queueType e = some skTasks')
    {q : Bool} (hpart : hasPart queueType q = true) :
    ∃ info, funcItems opts node i taskType queueType e q = [info] ∧ info.type = taskType ∧
      info.index = some i := by
  have hone : ∀ {isCub : Bool} {n : ℕ} {s s' : SkTasks},
      (addFuncTask opts (s isCub) node i isCub opts.splitMode taskType n e).map
        (Function.update s isCub) = some s' →
      ∃ info, (funcTaskInfo opts node i isCub opts.splitMode taskType n e).toList = [info] ∧
        info.type = taskType ∧ info.index = some i := by
    intro isCub n s s' hadd
    rcases isSome_iff_exists.mp (appends_addFuncTask hadd).1 with ⟨info, hinfo⟩
    have hspec := funcTaskInfo_spec hinfo
    exact ⟨info, by rw [hinfo]; rfl, hspec.1, hspec.2.1⟩
  unfold dispatchFuncTask at h
  split at h
  · exact absurd h (by simp)
  · cases queueType with
    | aic =>
      have hq : q = true := hpart
      subst hq
      exact hone h
    | aiv =>
      have hq : q = false := by simpa [hasPart] using hpart
      subst hq
      exact hone h
    | mix11 =>
      simp only [bind_eq_bind, bind_eq_some_iff] at h
      rcases h with ⟨mid, hmid, hrest⟩
      cases q with
      | true => exact hone hmid
      | false => exact hone hrest
    | mix12 =>
      simp only [bind_eq_bind, bind_eq_some_iff, Option.some.injEq] at h
      rcases h with ⟨mid, hmid, last, hlast, hmix⟩
      cases q with
      | true => exact hone hmid
      | false => exact hone hlast
    | unknown => exact absurd h (by simp)

theorem taskBuilt_of_dispatchTask (h : dispatchTask opts infos i node skTasks = some skTasks') :
    TaskBuilt opts infos (node, i) := by
  unfold dispatchTask at h
  unfold TaskBuilt bodyItems
  split at h
  · next hkernel =>
    simp only [hkernel, if_true]
    exact fun q hpart => funcItems_of_dispatchFuncTask h hpart
  · next hkernel =>
    simp only [hkernel, if_false]
    rcases bind_eq_some_iff.mp h with ⟨taskType, htype, _⟩
    exact ⟨taskType, htype⟩

/-- Each element of a loop that succeeds had its step. -/
theorem exists_step_of_foldlM {α σ : Type*} {step : σ → α → Option σ} {l : List α} {s s' : σ}
    (h : l.foldlM step s = some s') : ∀ a ∈ l, ∃ t t', step t a = some t' := by
  induction l generalizing s with
  | nil => intro a ha; exact absurd ha not_mem_nil
  | cons b l ih =>
    simp only [foldlM_cons, bind_eq_bind, bind_eq_some_iff] at h
    rcases h with ⟨mid, hmid, hrest⟩
    intro a ha
    rcases mem_cons.mp ha with rfl | ha
    · exact ⟨s, mid, hmid⟩
    · exact ih hrest a ha

/-- A built queue holds the records of the tasks in list order, between the first preload and
the custom tasks. -/
theorem buildTaskQueues_taskInfos (h : buildTaskQueues opts g tasks customTasks = some skTasks) :
    ∃ infos events, buildSyncInfos opts g tasks customTasks = some infos ∧
      customEvents g tasks customTasks (fun _ => none) = some events ∧
      (∀ task ∈ tasks.zipIdx, TaskBuilt opts infos task) ∧
      ∀ q, (skTasks q).taskInfos = queueItems opts tasks infos events q := by
  unfold buildTaskQueues at h
  split at h
  · exact absurd h (by simp)
  · simp only [bind_eq_bind, bind_eq_some_iff] at h
    rcases h with ⟨infos, hinfos, s₁, hpreload, s₂, htasks, events, hevents, hcustom⟩
    refine ⟨infos, events, hinfos, hevents, fun task hmem => ?_, fun q => ?_⟩
    · rcases exists_step_of_foldlM htasks task hmem with ⟨t, t', hstep⟩
      simp only [dispatchStep, bind_eq_bind, bind_eq_some_iff] at hstep
      rcases hstep with ⟨_, _, _, _, _, hbody, _⟩
      exact taskBuilt_of_dispatchTask hbody
    have hloop := Appends.foldlM (fun _ _ _ _ hstep => appends_dispatchStep hstep) htasks
    have htail := Appends.foldlM (fun _ _ _ _ hstep => appends_dispatchEventTask hstep) hcustom
    exact ((appends_dispatchPreload hpreload).append (hloop.append htail)) q

end Spec

end GraphAutofusion.SuperKernel
