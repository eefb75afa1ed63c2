import GraphAutofusion.SuperKernel.Graph
import GraphAutofusion.SuperKernel.TaskQueue

/-!
# SuperKernel.TaskSync — the sync metadata of a task list

`SkTaskBuilder` assigns each task a queue type, gives it default cross-core sync hints,
records an edge for every dependency, prunes the edges and drops the hints it holds
redundant. With mix-kernel grouping it does so for each run of split kernels and other tasks on
its own, with an all-core sync between two runs.
-/

namespace GraphAutofusion.SuperKernel

/-! ## Queue types -/

/-- `ToQueueType`. -/
def toQueueType : SkKernelType → SkQueueType
  | .aicOnly | .mixAic10 => .aic
  | .aivOnly | .mixAiv10 => .aiv
  | .mixAic11 => .mix11
  | .mixAic12 => .mix12
  | .default => .aic

/-- `ToEventQueueType`. -/
def toEventQueueType (queueType : SkQueueType) (aicAvailable aivAvailable : Bool) : SkQueueType :=
  let eventQueueType := if queueType = .aic then SkQueueType.aic else .aiv
  if eventQueueType = .aic ∧ aicAvailable = false then .aiv
  else if eventQueueType = .aiv ∧ aivAvailable = false then .aic
  else eventQueueType

variable (tasks : List SuperKernelBaseNode)

/-- `InferFirstKernelEventQueueType`. -/
def inferFirstKernelEventQueueType (aicAvailable aivAvailable : Bool) : SkQueueType :=
  match tasks.find? fun t => t.nodeType = .nodeKernel with
  | some node => toEventQueueType (toQueueType node.kernelInfos.kernelType) aicAvailable aivAvailable
  | none => .unknown

/-- `ResolveMixWaitEventQueueType`. -/
def resolveMixWaitEventQueueType (prevKernel : Option SuperKernelBaseNode)
    (mixKernel : SuperKernelBaseNode) : SkQueueType :=
  match prevKernel with
  | none => .aiv
  | some prevKernel =>
    let prevKernelQueueType := toQueueType prevKernel.kernelInfos.kernelType
    if prevKernelQueueType ≠ .aic ∧ prevKernelQueueType ≠ .aiv then .aiv
    else if prevKernel.streamIdxInGraph = mixKernel.streamIdxInGraph ∨
        mixKernel.nodeId ∈ prevKernel.sendToNodeId ∨ prevKernel.nodeId ∈ mixKernel.receiveNodeId then
      prevKernelQueueType
    else if prevKernelQueueType = .aiv then .aic
    else .aiv

/-- `CheckResourceStatus`, for the AIC (`true`) or the AIV cores. -/
def checkResourceStatus (isCub : Bool) : Bool :=
  tasks.any fun t => t.nodeType = .nodeKernel && hasPart (toQueueType t.kernelInfos.kernelType) isCub

inductive SearchDirection where
  | prev
  | next
deriving DecidableEq, Repr

/-- The kernels that earlier searches attached to a node. -/
abbrev KernelNodeCache := NodeId → Option SuperKernelBaseNode

/-- `ResolveCurrentKernel`. -/
def resolveCurrentKernel (current : SuperKernelBaseNode) (cache : KernelNodeCache) :
    Option SuperKernelBaseNode :=
  match cache current.nodeId with
  | some kernel => some kernel
  | none => if current.nodeType = .nodeKernel then some current else none

/-- `CacheTraversedNodes`; the nodes of the path were just found in the graph. -/
def cacheTraversedNodes (path : List SuperKernelBaseNode) (startNodeType : SkNodeType)
    (result : SuperKernelBaseNode) (cache : KernelNodeCache) : KernelNodeCache :=
  path.foldl (fun cache pathNode =>
    if pathNode.nodeType = .nodeKernel ∨ pathNode.nodeType = startNodeType then
      Function.update cache pathNode.nodeId (some result)
    else cache) cache

section Search

variable (g : SuperKernelGraph)

/-- The loop of `FindKernelNodeInDirection`, with the hops that are left. -/
def findKernelLoop (direction : SearchDirection) (startNodeType : SkNodeType)
    (cache : KernelNodeCache) :
    ℕ → NodeId → List SuperKernelBaseNode → Option SuperKernelBaseNode × KernelNodeCache
  | 0, _, _ => (none, cache)
  | hops + 1, curNodeId, path =>
    match g.getNodeById curNodeId with
    | none => (none, cache)
    | some current =>
      let path := path ++ [current]
      match resolveCurrentKernel current cache with
      | some result => (some result, cacheTraversedNodes path startNodeType result cache)
      | none =>
        match if direction = .prev then current.preNodeId else current.nextNodeId with
        | none => (none, cache)
        | some nodeId =>
          if path.any fun n => n.nodeId = nodeId then (none, cache)
          else findKernelLoop direction startNodeType cache hops nodeId path

def MAX_KERNEL_SEARCH_HOPS : ℕ := 100

/-- `FindKernelNodeInDirection`. -/
def findKernelNodeInDirection (startNodeId : Option NodeId) (direction : SearchDirection)
    (cache : KernelNodeCache) : Option SuperKernelBaseNode × KernelNodeCache :=
  match startNodeId with
  | none => (none, cache)
  | some startNodeId =>
    match g.getNodeById startNodeId with
    | none => (none, cache)
    | some startNode =>
      findKernelLoop g direction startNode.nodeType cache MAX_KERNEL_SEARCH_HOPS startNodeId []

/-- What `InitTaskSyncInfos` computes once for all tasks. -/
structure QueueTypeContext where
  aicAvailable : Bool
  aivAvailable : Bool
  firstKernelEventQueueType : SkQueueType

variable (ctx : QueueTypeContext)

/-- The queue type of an event task, from the kernel a search found. -/
def eventQueueType (toType : SuperKernelBaseNode → SkQueueType) (node : SuperKernelBaseNode)
    (found : Option SuperKernelBaseNode × KernelNodeCache) : Option (SkQueueType × KernelNodeCache) :=
  match found.1 with
  | none =>
    if ctx.firstKernelEventQueueType = .unknown then none
    else some (ctx.firstKernelEventQueueType, found.2)
  | some kernel =>
    some (toEventQueueType (toType kernel) ctx.aicAvailable ctx.aivAvailable,
      Function.update found.2 node.nodeId (some kernel))

/-- The queue a WAIT before this kernel goes to. -/
def waitQueueType (prevKernelTask : Option SuperKernelBaseNode) (kernel : SuperKernelBaseNode) :
    SkQueueType :=
  let nextKernelQueueType := toQueueType kernel.kernelInfos.kernelType
  if nextKernelQueueType ≠ .aic ∧ nextKernelQueueType ≠ .aiv then
    resolveMixWaitEventQueueType prevKernelTask kernel
  else nextKernelQueueType

/-- The queue type of one task, in the loop of `InitTaskSyncInfos`. -/
def taskQueueType (prevKernelTask : Option SuperKernelBaseNode) (cache : KernelNodeCache)
    (node : SuperKernelBaseNode) : Option (SkQueueType × KernelNodeCache) :=
  match node.nodeType with
  | .nodeKernel => some (toQueueType node.kernelInfos.kernelType, cache)
  | .nodeNotify | .nodeReset =>
    eventQueueType ctx (fun kernel => toQueueType kernel.kernelInfos.kernelType) node
      (findKernelNodeInDirection g node.preNodeId .prev cache)
  | .nodeWait =>
    eventQueueType ctx (waitQueueType prevKernelTask) node
      (findKernelNodeInDirection g node.nextNodeId .next cache)
  | _ => none

/-- The queue types of the remaining tasks. -/
def initQueueTypes : List SuperKernelBaseNode → Option SuperKernelBaseNode → KernelNodeCache →
    Option (List SkQueueType)
  | [], _, _ => some []
  | node :: rest, prevKernelTask, cache => do
    let (queueType, cache) ← taskQueueType g ctx prevKernelTask cache node
    let prevKernelTask := if node.nodeType = .nodeKernel then some node else prevKernelTask
    let queueTypes ← initQueueTypes rest prevKernelTask cache
    some (queueType :: queueTypes)

end Search

/-- The direction of the sync between the cores of one queue. -/
def selfSyncDir (isCub : Bool) : SyncDirection := if isCub then .cubToCub else .vecToVec

/-- The key of a queue in `crossSyncInfo`. -/
def crossSyncKey (isCub : Bool) : ℕ := if isCub then 0 else 1

/-- The default cross-sync hints: every task but the last one, unless it writes an event. -/
def defaultCrossSync (nodeType : SkNodeType) (queueType : SkQueueType) (isLast : Bool) : SyncMap :=
  fun key =>
    if nodeType = .nodeNotify ∨ nodeType = .nodeReset ∨ isLast = true then none
    else if key = 0 ∧ hasPart queueType true = true then some .cubToCub
    else if key = 1 ∧ hasPart queueType false = true then some .vecToVec
    else none

/-- The type of a task; positions past the end count as no task. -/
def taskType (i : ℕ) : SkNodeType :=
  match tasks[i]? with
  | some task => task.nodeType
  | none => .nodeDefault

def queueTypeContext : QueueTypeContext :=
  { aicAvailable := checkResourceStatus tasks true
    aivAvailable := checkResourceStatus tasks false
    firstKernelEventQueueType := inferFirstKernelEventQueueType tasks
      (checkResourceStatus tasks true) (checkResourceStatus tasks false) }

/-- `InitTaskSyncInfos`. -/
def initTaskSyncInfos (g : SuperKernelGraph) (tasks : List SuperKernelBaseNode) :
    Option TaskSyncInfos :=
  if checkResourceStatus tasks true = false ∧ checkResourceStatus tasks false = false then none
  else
    (initQueueTypes g (queueTypeContext tasks) tasks none fun _ => none).map fun queueTypes i =>
      { queueType := queueTypes.getD i .unknown
        crossSyncInfo := defaultCrossSync (taskType tasks i) (queueTypes.getD i .unknown)
          (tasks.length ≤ i + 1) }

/-! ## Dependencies -/

/-- `nodeIdToIndex_`: the last task with the id. -/
def nodeIdToIndex (nodeId : NodeId) : Option ℕ :=
  (List.range tasks.length).reverse.find? fun i =>
    tasks[i]?.any fun t => t.nodeId = nodeId

/-- The tasks of a stream, in list order. -/
def streamOps (streamIdx : StreamIdx) : List ℕ :=
  (List.range tasks.length).filter fun i => tasks[i]?.any fun t => t.streamIdxInGraph = streamIdx

/-- The dependencies `ExtractIntraStreamSync` inserts: consecutive tasks of a stream. -/
def intraStreamDeps : List (ℕ × ℕ) :=
  ((tasks.map (·.streamIdxInGraph)).dedup.insertionSort (· ≤ ·)).flatMap fun streamIdx =>
    (streamOps tasks streamIdx).zip (streamOps tasks streamIdx).tail

/-- The dependencies of one task in `ExtractInterStreamSync`. -/
def kernelDeps (node : SuperKernelBaseNode) : List (ℕ × ℕ) :=
  if node.nodeType = .nodeKernel then
    node.sendToNodeId.filterMap fun nextId => do
      let preIdx ← nodeIdToIndex tasks node.nodeId
      let nextIdx ← nodeIdToIndex tasks nextId
      some (preIdx, nextIdx)
  else []

/-- The dependencies `ExtractInterStreamSync` inserts. -/
def interStreamDeps : List (ℕ × ℕ) :=
  tasks.flatMap (kernelDeps tasks)

/-- All dependencies of a task list, in the order of insertion. -/
def taskDeps : List (ℕ × ℕ) :=
  intraStreamDeps tasks ++ interStreamDeps tasks

/-- Both extractions. -/
def extractSync (infos : TaskSyncInfos) : TaskSyncInfos :=
  (taskDeps tasks).foldl (fun infos dep => insertSyncEvent infos dep.1 dep.2) infos

/-! ## Optimizing -/

namespace TaskSyncInfo

variable (t : TaskSyncInfo)

/-- `crossSyncInfo[key] = dir`. -/
def setCross (key : ℕ) (dir : SyncDirection) : TaskSyncInfo :=
  { t with crossSyncInfo := Function.update t.crossSyncInfo key (some dir) }

/-- `crossSyncInfo.erase(key)`. -/
def eraseCross (key : ℕ) : TaskSyncInfo :=
  { t with crossSyncInfo := Function.update t.crossSyncInfo key none }

end TaskSyncInfo

/-- `empty()` of a map whose keys are below the bound. -/
def SyncMap.isEmpty (info : SyncMap) (bound : ℕ) : Bool := (info.values bound).isEmpty

/-- `PickCandidateKernelIdx`, with the queue of the candidate. -/
def pickCandidateKernelIdx (lastKernelIdx : Bool → Option ℕ) (queueType : SkQueueType) :
    Option (Bool × ℕ) :=
  match queueType with
  | .aic => (lastKernelIdx true).map (true, ·)
  | .aiv => (lastKernelIdx false).map (false, ·)
  | _ => none

/-- The metadata and the last kernel of each queue. -/
abbrev CrossSyncState := TaskSyncInfos × (Bool → Option ℕ)

/-- One iteration of `RemoveRedundantCrossSync`. -/
def removeRedundantStep (state : CrossSyncState) (i : ℕ) : CrossSyncState :=
  let (infos, lastKernelIdx) := state
  if taskType tasks i = .nodeKernel then
    (infos, fun isCub =>
      if hasPart (infos i).queueType isCub = true then some i else lastKernelIdx isCub)
  else if taskType tasks i ≠ .nodeWait then state
  else
    match pickCandidateKernelIdx lastKernelIdx (infos i).queueType with
    | none => state
    | some (isCub, candidateIdx) =>
      if SyncMap.isEmpty ((infos candidateIdx).sendInfo isCub) tasks.length then
        (updateTask infos candidateIdx (·.eraseCross (crossSyncKey isCub)), lastKernelIdx)
      else state

/-- `RemoveRedundantCrossSync`. -/
def removeRedundantCrossSync (infos : TaskSyncInfos) : TaskSyncInfos :=
  ((List.range tasks.length).foldl (removeRedundantStep tasks) (infos, fun _ => none)).1

/-- `OptimizeSyncRelations`. -/
def optimizeSyncRelations (infos : TaskSyncInfos) : TaskSyncInfos :=
  removeRedundantCrossSync tasks (pruneSync tasks.length infos)

/-- `PrecomputeSyncRelationsFromGraph` and `OptimizeSyncRelations`. -/
def precomputeSyncRelationsFromGraph (g : SuperKernelGraph) (tasks : List SuperKernelBaseNode) :
    Option TaskSyncInfos :=
  (initTaskSyncInfos g tasks).map fun infos => optimizeSyncRelations tasks (extractSync tasks infos)

/-! ## Mix-kernel groups -/

/-- `IsMixKernelTask`. -/
def isMixKernelTask (task : SuperKernelBaseNode) : Bool :=
  task.nodeType = .nodeKernel && task.kernelInfos.needMixKernelSplit

/-- `SplitTasksByMixGroups`. -/
def splitTasksByMixGroups : List (List SuperKernelBaseNode) :=
  tasks.splitBy fun pre cur => isMixKernelTask pre = isMixKernelTask cur

def rebaseSyncInfo (offset : ℕ) (info : SyncMap) : SyncMap :=
  fun key => if offset ≤ key then info (key - offset) else none

/-- `RebaseTaskSyncInfo`. -/
def rebaseTaskSyncInfo (offset : ℕ) (t : TaskSyncInfo) : TaskSyncInfo :=
  { t with
    vecRecvInfo := rebaseSyncInfo offset t.vecRecvInfo
    cubRecvInfo := rebaseSyncInfo offset t.cubRecvInfo
    vecSendInfo := rebaseSyncInfo offset t.vecSendInfo
    cubSendInfo := rebaseSyncInfo offset t.cubSendInfo }

/-- `AddBoundaryAllSync`, on the last task of a group. -/
def addBoundaryAllSync (t : TaskSyncInfo) : TaskSyncInfo :=
  { t with
    vecSendInfo := fun _ => none
    cubSendInfo := fun _ => none
    crossSyncInfo := Function.update (fun _ => none) (crossSyncKey true) (some .allSync) }

/-- `ProcessSyncRelationSplitGroup`: the metadata of one group, by local index. -/
def processSyncRelationSplitGroup (curSplitTasks : List SuperKernelBaseNode) (groupOffset : ℕ)
    (hasNextGroup : Bool) (taskSyncInfosOrigin : TaskSyncInfos) : TaskSyncInfos :=
  let infos := optimizeSyncRelations curSplitTasks
    (extractSync curSplitTasks fun j => taskSyncInfosOrigin (groupOffset + j))
  if hasNextGroup then updateTask infos (curSplitTasks.length - 1) addBoundaryAllSync else infos

/-- The merged metadata of the groups from `groupOffset` on, by global index. -/
def mergeSplitGroups (taskSyncInfosOrigin : TaskSyncInfos) :
    List (List SuperKernelBaseNode) → ℕ → TaskSyncInfos
  | [], _ => fun _ => {}
  | group :: rest, groupOffset => fun i =>
    if i < groupOffset + group.length then
      rebaseTaskSyncInfo groupOffset
        (processSyncRelationSplitGroup group groupOffset (!rest.isEmpty) taskSyncInfosOrigin
          (i - groupOffset))
    else mergeSplitGroups taskSyncInfosOrigin rest (groupOffset + group.length) i

/-- `PrecomputeSyncRelationsByMixGroups`. -/
def precomputeSyncRelationsByMixGroups (g : SuperKernelGraph) (tasks : List SuperKernelBaseNode) :
    Option TaskSyncInfos :=
  (initTaskSyncInfos g tasks).map fun infos =>
    mergeSplitGroups infos (splitTasksByMixGroups tasks) 0

end GraphAutofusion.SuperKernel
