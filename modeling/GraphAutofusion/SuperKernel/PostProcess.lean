import GraphAutofusion.SuperKernel.FilterCancelled
import GraphAutofusion.SuperKernel.ScopeStreams

/-!
# SuperKernel.PostProcess — planning the slots of a scope and updating its nodes

`SuperKernelScopePostProcessor` picks the stream and node that launch the super kernel and
an order of the other streams, and gives every stream a list of custom tasks that keep
the streams synchronised with the launch. `SuperKernelOptimizer::Update` then rewrites the
scope's nodes: the custom tasks replace the leading nodes of their stream.

Streams are referred to by their position in `scopeStreamInfos`. `alloc k` is the `k`-th
call of `SkResourceManager::ValueMemory`, `none` when it fails. Loops along a stream are
bounded by the number of graph nodes.
-/

namespace GraphAutofusion.SuperKernel

/-- The address of a value memory cell. -/
abbrev Addr := ℕ

inductive ScopeProcessStatus where
  | init
  | success
  | noTargetNode
  | resourceInsufficient
  | unrecoverableFail
deriving DecidableEq, Repr

structure StreamPostPlan where
  needFrontWait : Bool := false
  needBackBlock : Bool := false
deriving DecidableEq, Repr

/-- The `aclmdlRITaskParams` the post processor creates; a wait is for equality. -/
inductive CustomTask where
  | valueWrite (addr : Addr) (value : ℕ)
  | valueWait (addr : Addr) (value : ℕ)
deriving DecidableEq, Repr

/-- A synthesised event node, which the super kernel itself executes. -/
structure SyncEventNode where
  nodeType : SkNodeType
  addr : Addr
deriving DecidableEq, Repr

/-- `ScopeExtInfo`, with the number of value memory cells allocated so far. -/
@[ext]
structure ScopeExtInfo where
  customParamsList : ℕ → List CustomTask := fun _ => []
  eventNodes : List SyncEventNode := []
  allocated : ℕ := 0

/-! ## Finding the launch node -/

section Find

variable (g : SuperKernelGraph) (tailNodeId : NodeId)

/-- Whether a walk may not go past the node. -/
def atBoundary (node : SuperKernelBaseNode) : Bool :=
  node.nodeId = tailNodeId || node.nextNodeId.isNone

/-- `AdvanceNodeWithinScope`. -/
def advanceNodeWithinScope : ℕ → Option SuperKernelBaseNode → Option SuperKernelBaseNode
  | _, none => none
  | 0, some node => some node
  | stepCount + 1, some node =>
    if atBoundary tailNodeId node then none
    else advanceNodeWithinScope stepCount (node.nextNodeId.bind g.getNodeById)

/-- The search loop of `FindKernelNodeWithFrontReserve`. -/
def findKernelFrom : ℕ → Option SuperKernelBaseNode → Option NodeId
  | _, none => none
  | 0, some _ => none
  | fuel + 1, some node =>
    if node.nodeType = .nodeKernel then some node.nodeId
    else if atBoundary tailNodeId node then none
    else findKernelFrom fuel (node.nextNodeId.bind g.getNodeById)

/-- `FindKernelNodeWithFrontReserve`. -/
def findKernelNodeWithFrontReserve (headNode : Option SuperKernelBaseNode) (frontReserveCount : ℕ) :
    Option NodeId :=
  findKernelFrom g tailNodeId g.nodes.length
    (advanceNodeWithinScope g tailNodeId frontReserveCount headNode)

end Find

/-! ## Selecting the streams -/

section Select

variable (g : SuperKernelGraph)

/-- The loop body of `CollectStreamBoundaryPlans`. -/
def streamBoundaryPlan (info : ScopeStreamInfo) : Option StreamPostPlan :=
  match g.getNodeById info.headNodeIdx, g.getNodeById info.tailNodeIdx with
  | some headNode, some tailNode =>
    some { needFrontWait := headNode.preNodeId.isSome, needBackBlock := tailNode.nextNodeId.isSome }
  | _, _ => none

/-- `CollectStreamBoundaryPlans`. -/
def collectStreamBoundaryPlans : List ScopeStreamInfo → Option (List StreamPostPlan)
  | [] => some []
  | info :: rest =>
    match streamBoundaryPlan g info, collectStreamBoundaryPlans rest with
    | some plan, some plans => some (plan :: plans)
    | _, _ => none

/-- `needFrontWaitCount`. -/
def frontWaitCount (plans : List StreamPostPlan) : ℕ := plans.countP (·.needFrontWait)

/-- What one stream of the scope can serve as: its launch node as main stream, and whether
its nodes suffice as sub stream and as the last sub stream. -/
structure StreamFit where
  candidateNodeId : Option NodeId
  isSubStream : Bool
  isSubStreamEntry : Bool
deriving DecidableEq, Repr

/-- The loop body of `CollectStreamCandidates`. -/
def streamFit (needFrontWaitCount : ℕ) (info : ScopeStreamInfo) (plan : StreamPostPlan) : StreamFit :=
  let curFrontWaitCount := if plan.needFrontWait then 1 else 0
  let otherFrontWaitCount := needFrontWaitCount - curFrontWaitCount
  let mainFrontReserveCount := if 0 < otherFrontWaitCount then 1 else 0
  let subStreamNeedCount :=
    2 * (if plan.needFrontWait then 1 else 0) + 2 * (if plan.needBackBlock then 1 else 0)
  { candidateNodeId := findKernelNodeWithFrontReserve g info.tailNodeIdx
      (g.getNodeById info.headNodeIdx) mainFrontReserveCount
    isSubStream := subStreamNeedCount ≤ info.nodeSize
    isSubStreamEntry := subStreamNeedCount - curFrontWaitCount ≤ info.nodeSize }

def StreamFit.isCandidate (fit : StreamFit) : Bool :=
  fit.candidateNodeId.isSome || fit.isSubStream || fit.isSubStreamEntry

/-- `CollectStreamCandidates`, one entry for each stream. -/
def collectStreamCandidates (infos : List ScopeStreamInfo) (plans : List StreamPostPlan) :
    Option (List StreamFit) :=
  let fits := List.zipWith (streamFit g (frontWaitCount plans)) infos plans
  if fits.all (·.isCandidate) then some fits else none

variable (fits : List StreamFit)

/-- The positions of the streams with a property; `candidates` of the source. -/
def candidateStreams (p : StreamFit → Bool) : List ℕ :=
  (List.range fits.length).filter fun i => fits[i]?.any p

/-- The launch node and the streams of a scope; `skMainNodeId` is the launch node. -/
structure MainSelection where
  skMainNodeId : NodeId
  mainStreamIdx : ℕ
  subStreamOrder : List ℕ
deriving DecidableEq, Repr

/-- The count test of `SelectMainAndEntryStream`: every stream is the main stream, the entry
stream or a sub stream. -/
def coversAllStreams (mainStreamIdx entrySubStreamIdx : ℕ) : Bool :=
  let subStream := candidateStreams fits (·.isSubStream)
  subStream.length + (if mainStreamIdx ∈ subStream then 0 else 1)
    + (if entrySubStreamIdx ∈ subStream then 0 else 1) = fits.length

/-- `SelectMainAndEntryStream`. -/
def selectMainAndEntryStream : Option (ℕ × ℕ) :=
  (candidateStreams fits (·.candidateNodeId.isSome)).findSome? fun mainStreamIdx =>
    (candidateStreams fits (·.isSubStreamEntry)).findSome? fun entrySubStreamIdx =>
      if entrySubStreamIdx ≠ mainStreamIdx ∧ coversAllStreams fits mainStreamIdx entrySubStreamIdx then
        some (mainStreamIdx, entrySubStreamIdx)
      else none

/-- `BuildSubStreamOrder`. -/
def buildSubStreamOrder (mainStreamIdx entrySubStreamIdx : ℕ) : List ℕ :=
  (candidateStreams fits (·.isSubStream)).filter (fun i => i ≠ mainStreamIdx && i ≠ entrySubStreamIdx)
    ++ [entrySubStreamIdx]

/-- `GetMainAndSubStreamOrder`. With one stream the main stream index is never read. -/
def getMainAndSubStreamOrder (infos : List ScopeStreamInfo) (plans : List StreamPostPlan) :
    Except ScopeProcessStatus MainSelection :=
  match collectStreamCandidates g infos plans with
  | none => .error .resourceInsufficient
  | some fits =>
    if infos.length = 1 then
      match fits[0]?.bind (·.candidateNodeId) with
      | none => .error .noTargetNode
      | some nodeId => .ok { skMainNodeId := nodeId, mainStreamIdx := 0, subStreamOrder := [] }
    else
      match selectMainAndEntryStream fits with
      | none => .error .noTargetNode
      | some (mainStreamIdx, entrySubStreamIdx) =>
        match fits[mainStreamIdx]?.bind (·.candidateNodeId) with
        | none => .error .noTargetNode
        | some nodeId =>
          .ok { skMainNodeId := nodeId, mainStreamIdx,
                subStreamOrder := buildSubStreamOrder fits mainStreamIdx entrySubStreamIdx }

end Select

/-! ## Building the custom tasks -/

namespace ScopeExtInfo

variable (ext : ScopeExtInfo)

/-- Append tasks to the list of a stream. -/
def appendTasks (i : ℕ) (tasks : List CustomTask) : ScopeExtInfo :=
  { ext with customParamsList := fun j =>
      if j = i then ext.customParamsList j ++ tasks else ext.customParamsList j }

/-- Put a task before the list of a stream. -/
def prependTask (i : ℕ) (task : CustomTask) : ScopeExtInfo :=
  { ext with customParamsList := fun j =>
      if j = i then task :: ext.customParamsList j else ext.customParamsList j }

/-- Record the event node of a newly allocated cell. -/
def addEventNode (nodeType : SkNodeType) (addr : Addr) : ScopeExtInfo :=
  { ext with eventNodes := ext.eventNodes ++ [⟨nodeType, addr⟩], allocated := ext.allocated + 1 }

end ScopeExtInfo

section Build

variable (alloc : ℕ → Option Addr) (infos : List ScopeStreamInfo)

/-- `EnsureStreamCapacity`. -/
def ensureStreamCapacity (ext : ScopeExtInfo) (i : ℕ) : Bool :=
  match infos[i]? with
  | none => false
  | some info => (ext.customParamsList i).length ≤ info.nodeSize

/-- `ProcessFrontWaitForStream`: the stream announces that it has reached the scope, and the
previous stream waits for it. -/
def processFrontWaitForStream (ext : ScopeExtInfo) (curStreamIdx prevWaitStreamIdx : ℕ) :
    Option ScopeExtInfo :=
  match alloc ext.allocated with
  | none => none
  | some addr =>
    let ext := ((ext.addEventNode .nodeReset addr).appendTasks curStreamIdx
      [.valueWrite addr SK_DEFAULT_NOTIFY_VALUE]).prependTask prevWaitStreamIdx
        (.valueWait addr SK_DEFAULT_WAIT_VALUE)
    if ensureStreamCapacity infos ext curStreamIdx && ensureStreamCapacity infos ext prevWaitStreamIdx
    then some ext
    else none

/-- `ProcessBackBlockForStream`: the stream waits for the super kernel and clears the cell. -/
def processBackBlockForStream (ext : ScopeExtInfo) (curStreamIdx : ℕ) : Option ScopeExtInfo :=
  match alloc ext.allocated with
  | none => none
  | some addr =>
    let ext := (ext.addEventNode .nodeNotify addr).appendTasks curStreamIdx
      [.valueWait addr SK_DEFAULT_WAIT_VALUE, .valueWrite addr SK_DEFAULT_RESET_VALUE]
    if ensureStreamCapacity infos ext curStreamIdx then some ext else none

/-- The loop of `ProcessSubStreamSyncEvents`. -/
def processSubStreams (plans : List StreamPostPlan) :
    List ℕ → ScopeExtInfo → ℕ → Option ScopeExtInfo
  | [], ext, _ => some ext
  | curStreamIdx :: rest, ext, prevWaitStreamIdx =>
    let plan := plans.getD curStreamIdx {}
    let front := if plan.needFrontWait then
        processFrontWaitForStream alloc infos ext curStreamIdx prevWaitStreamIdx
      else some ext
    match front with
    | none => none
    | some ext =>
      let back := if plan.needBackBlock then processBackBlockForStream alloc infos ext curStreamIdx
        else some ext
      match back with
      | none => none
      | some ext =>
        processSubStreams plans rest ext
          (if plan.needFrontWait then curStreamIdx else prevWaitStreamIdx)

/-- `ProcessSubStreamSyncEvents`. -/
def processSubStreamSyncEvents (plans : List StreamPostPlan) (sel : MainSelection) :
    Option ScopeExtInfo :=
  processSubStreams alloc infos plans sel.subStreamOrder {} sel.mainStreamIdx

end Build

/-- `PostProcess` up to the custom tasks: the launch node with its streams, and the
synchronisation. The step after it gives memory to the kept event nodes of the scope
and changes neither. -/
def postProcess (g : SuperKernelGraph) (alloc : ℕ → Option Addr) (scope : SuperKernelScopeInfo) :
    Except ScopeProcessStatus (MainSelection × ScopeExtInfo) :=
  if !validateScopeStreamNodes g g.nodes.length scope then .error .unrecoverableFail
  else if (filterCancelledNodes scope.nodes).isEmpty then .error .noTargetNode
  else if !(filterCancelledNodes scope.nodes).any (·.nodeType = .nodeKernel) then
    .error .noTargetNode
  else
    match collectStreamBoundaryPlans g scope.scopeStreamInfos with
    | none => .error .unrecoverableFail
    | some plans =>
      match getMainAndSubStreamOrder g scope.scopeStreamInfos plans with
      | .error status => .error status
      | .ok sel =>
        match processSubStreamSyncEvents alloc scope.scopeStreamInfos plans sel with
        | none => .error .resourceInsufficient
        | some ext => .ok (sel, ext)

/-! ## Updating the nodes -/

/-- What `Update` makes of a node. -/
inductive NodeAction where
  | custom (task : CustomTask)
  | launch
  | disable
  | keep
deriving DecidableEq, Repr

/-- `UpdateContext`: a custom task, the launch, or neither. -/
inductive UpdateContext where
  | customParams (task : CustomTask)
  | launchInfo
  | empty
deriving DecidableEq, Repr

/-- `Update` of the three node classes; the calls of the runtime succeed. -/
def nodeUpdate (node : SuperKernelBaseNode) (ctx : UpdateContext) : NodeAction :=
  match node.nodeType with
  | .nodeDefault => .keep
  | .nodeKernel =>
    match ctx with
    | .customParams task => .custom task
    | .launchInfo => .launch
    | .empty => .disable
  | _ =>
    match ctx with
    | .customParams task => .custom task
    | _ => .disable

/-- The nodes updated so far with what was made of them, and `skMainNodeUpdated`. -/
structure UpdateState where
  updates : List (NodeId × NodeAction) := []
  skMainNodeUpdated : Bool := false
deriving DecidableEq, Repr

section Update

variable (g : SuperKernelGraph) (skMainNodeId : NodeId)

/-- The stream loop of `Update`, from `curNodeId` on with the custom tasks that are left. A
node that was updated before fails. -/
def updateStream (tailNodeIdx : NodeId) :
    ℕ → Option NodeId → List CustomTask → UpdateState → Option UpdateState
  | _, none, _, st => some st
  | 0, some _, _, _ => none
  | fuel + 1, some curNodeId, customParams, st =>
    match g.getNodeById curNodeId with
    | none => none
    | some node =>
      if curNodeId ∈ st.updates.map (·.1) then none
      else
        let (ctx, skMainNodeUpdated) :=
          match customParams with
          | task :: _ => (UpdateContext.customParams task, st.skMainNodeUpdated)
          | [] =>
            if curNodeId = skMainNodeId ∧ !st.skMainNodeUpdated then (.launchInfo, true)
            else (.empty, st.skMainNodeUpdated)
        let st : UpdateState :=
          { updates := st.updates ++ [(curNodeId, nodeUpdate node ctx)], skMainNodeUpdated }
        if curNodeId = tailNodeIdx then some st
        else updateStream tailNodeIdx fuel node.nextNodeId customParams.tail st

/-- The loop of `Update` over the streams, from position `i` on. -/
def updateStreams (ext : ScopeExtInfo) :
    ℕ → List ScopeStreamInfo → UpdateState → Option UpdateState
  | _, [], st => some st
  | i, info :: rest, st =>
    if info.nodeSize < (ext.customParamsList i).length then none
    else
      match updateStream g skMainNodeId info.tailNodeIdx g.nodes.length (some info.headNodeIdx)
          (ext.customParamsList i) st with
      | none => none
      | some st => updateStreams ext (i + 1) rest st

/-- `SuperKernelOptimizer::Update`. -/
def update (ext : ScopeExtInfo) (scope : SuperKernelScopeInfo) :
    Option (List (NodeId × NodeAction)) :=
  match updateStreams g skMainNodeId ext 0 scope.scopeStreamInfos {} with
  | none => none
  | some st => if st.skMainNodeUpdated then some st.updates else none

end Update

end GraphAutofusion.SuperKernel
