import GraphAutofusion.SuperKernel.CandidateHeap
import GraphAutofusion.SuperKernel.ScopeInfo

/-!
# SuperKernel.InitialSplit — the initial scope split pass

`InitialScopeSplitPass` of `sk_scope_split.cpp`. The pass walks all streams at
once: between two scopes every stream skips its unfusible nodes, and within a
scope a candidate heap picks the next node among the stream heads. WAIT nodes
suspend their stream until the NOTIFY has been visited.

Functions that return `bool` in the source return `Option SplitState` here;
`none` is `false`, a read the source does not guard (a missing head node, the
null `currentScope_`), or an exhausted loop counter `fuel`. The parameter
`order` lists the stream indices in the iteration order of `streamStates_`.
-/

namespace GraphAutofusion.SuperKernel

structure StreamState where
  currentNodeId : Option NodeId := none
  isSuspended : Bool := false
  waitingForNotify : Option EventId := none
  isTerminated : Bool := false
deriving DecidableEq, Repr

/-- The members of `InitialScopeSplitPass`; `currentScope = none` is the null
pointer. -/
structure SplitState where
  streamStates : StreamIdx → StreamState
  visitedNotifies : List NodeId := []
  processedNodes : List NodeId := []
  nodeHeap : SkCandidateHeap
  currentScopeBitFlags : ScopeBitFlags := 0
  currentScope : Option SuperKernelScopeInfo := none

namespace SplitState

variable (st : SplitState)
variable (i : StreamIdx)

def setStream (s : StreamState) : SplitState :=
  { st with streamStates := fun j => if j = i then s else st.streamStates j }

def setCurrentNodeId (cur : Option NodeId) : SplitState :=
  st.setStream i { st.streamStates i with currentNodeId := cur }

def suspend (eventId : Option EventId) : SplitState :=
  st.setStream i { st.streamStates i with isSuspended := true, waitingForNotify := eventId }

/-- Clear the suspend state of a stream. -/
def resume : SplitState :=
  st.setStream i { st.streamStates i with isSuspended := false, waitingForNotify := none }

def terminate : SplitState :=
  st.setStream i { st.streamStates i with isTerminated := true }

/-- The test of both resume loops. -/
def isWaitingFor (eventId : Option EventId) : Bool :=
  (st.streamStates i).isSuspended && (st.streamStates i).waitingForNotify = eventId

end SplitState

variable (g : SuperKernelGraph)

/-- `InitStreamStates`: stream `i` starts at `headNodes[i]`. -/
def initStreamStates : Option (StreamIdx → StreamState) :=
  if g.headNodes.length < g.streamNum then none
  else some fun i => if i < g.streamNum then { currentNodeId := g.headNodes[i]? } else {}

/-! ## Skipping unfusible nodes -/

/-- `ProcessUnfusibleWaitNode`: whether the WAIT is skipped, else its stream is
suspended on the event of the NOTIFY. -/
def processUnfusibleWaitNode (st : SplitState) (streamIdx : StreamIdx)
    (waitNode : SuperKernelBaseNode) : Bool × SplitState :=
  match waitNode.syncInfos.correspondingNotifyNodeId with
  | none => (true, st)
  | some notifyId =>
    match g.getNodeById notifyId with
    | none => (true, st)
    | some notifyNode =>
      if notifyId ∈ st.visitedNotifies then
        (true, { st with processedNodes := waitNode.nodeId :: st.processedNodes })
      else
        (false, st.suspend streamIdx notifyNode.syncInfos.eventId)

/-- `ResumeSuspendedWaitStreams`, over the WAIT nodes of the visited NOTIFY;
`skip` is `SkipUnfusibleNodesForStream`. -/
def resumeSuspendedWaitStreams (skip : SplitState → StreamIdx → Option SplitState)
    (eventId : Option EventId) : List NodeId → SplitState → Option SplitState
  | [], st => some st
  | waitNodeId :: rest, st =>
    match g.getNodeById waitNodeId with
    | none => none
    | some waitNode =>
      if st.isWaitingFor waitNode.streamIdxInGraph eventId then
        match skip (st.resume waitNode.streamIdxInGraph) waitNode.streamIdxInGraph with
        | none => none
        | some st' => resumeSuspendedWaitStreams skip eventId rest st'
      else resumeSuspendedWaitStreams skip eventId rest st

/-- `HandleUnfusibleNotifyNode`. -/
def handleUnfusibleNotifyNode (skip : SplitState → StreamIdx → Option SplitState)
    (st : SplitState) (notifyNode : SuperKernelBaseNode) : Option SplitState :=
  resumeSuspendedWaitStreams g skip notifyNode.syncInfos.eventId
    notifyNode.syncInfos.correspondingWaitNodeIds
    { st with
      visitedNotifies := notifyNode.nodeId :: st.visitedNotifies
      processedNodes := notifyNode.nodeId :: st.processedNodes }

/-- `ProcessUnfusibleNodeForSkip`: whether the skip loop continues. -/
def processUnfusibleNodeForSkip (skip : SplitState → StreamIdx → Option SplitState)
    (st : SplitState) (streamIdx : StreamIdx) (node : SuperKernelBaseNode) :
    Option (Bool × SplitState) :=
  match node.nodeType with
  | .nodeWait => some (processUnfusibleWaitNode g st streamIdx node)
  | .nodeNotify => (handleUnfusibleNotifyNode g skip st node).map (true, ·)
  | _ => some (true, { st with processedNodes := node.nodeId :: st.processedNodes })

/-- `SkipUnfusibleNodesForStream`: advance the stream to its next fusible node, to
a WAIT it is suspended on, or to its end. -/
def skipUnfusibleNodesForStream : ℕ → SplitState → StreamIdx → Option SplitState
  | 0, _, _ => none
  | fuel + 1, st, streamIdx =>
    match (st.streamStates streamIdx).currentNodeId with
    | none => some st
    | some cur =>
      match g.getNodeById cur with
      | none => none
      | some node =>
        if node.isFusible then some st
        else
          match processUnfusibleNodeForSkip g (skipUnfusibleNodesForStream fuel) st streamIdx node with
          | none => none
          | some (false, st') => if node.nodeType = .nodeWait then some st' else none
          | some (true, st') =>
            skipUnfusibleNodesForStream fuel (st'.setCurrentNodeId streamIdx node.nextNodeId) streamIdx

/-- `SkipUnfusibleNodes`, over the stream table. -/
def skipUnfusibleNodes (fuel : ℕ) : List StreamIdx → SplitState → Option SplitState
  | [], st => some st
  | i :: rest, st =>
    match skipUnfusibleNodesForStream g fuel st i with
    | none => none
    | some st' => skipUnfusibleNodes fuel rest st'

variable (fuel : ℕ)

/-- `ResetStreamStates`. -/
def resetStreamStates (order : List StreamIdx) (st : SplitState) : Option SplitState :=
  skipUnfusibleNodes g fuel order
    { st with streamStates := fun i =>
        { st.streamStates i with
          isTerminated := false, isSuspended := false, waitingForNotify := none } }

/-! ## Building one scope -/

/-- The active fusible head with the smallest id, scanned in table order. -/
def findMinNode (order : List StreamIdx) (st : SplitState) : Option SuperKernelBaseNode :=
  order.foldl (fun minNode i =>
    let s := st.streamStates i
    match s.currentNodeId with
    | none => minNode
    | some cur =>
      if !s.isTerminated && !s.isSuspended && minNode.all (fun m => cur < m.nodeId) then
        match g.getNodeById cur with
        | none => minNode
        | some node => if node.isFusible then some node else minNode
      else minNode) none

/-- `DetermineCurrentScopeBitFlags`. -/
def determineCurrentScopeBitFlags (order : List StreamIdx) (st : SplitState) : Option SplitState :=
  (findMinNode g order st).map fun minNode =>
    { st with currentScopeBitFlags := minNode.scopeBitFlags }

/-- `HandleWaitNode`, for the WAIT at the head of the stream. -/
def handleWaitNode (st : SplitState) (waitNode : SuperKernelBaseNode) (streamIdx : StreamIdx) :
    SplitState :=
  match waitNode.syncInfos.correspondingNotifyNodeId with
  | none => { st with nodeHeap := st.nodeHeap.push g waitNode.nodeId }
  | some notifyId =>
    match g.getNodeById notifyId with
    | none => st
    | some notifyNode =>
      if notifyId ∈ st.visitedNotifies then
        { st with nodeHeap := st.nodeHeap.push g waitNode.nodeId }
      else
        st.suspend streamIdx notifyNode.syncInfos.eventId

/-- `TryAddNodeToHeap`. An unfusible head sets the break info of
`*currentScope_`, so it needs an open scope. -/
def tryAddNodeToHeap : ℕ → SplitState → StreamIdx → Option SplitState
  | 0, _, _ => none
  | fuel + 1, st, streamIdx =>
    let s := st.streamStates streamIdx
    match s.currentNodeId with
    | none => some st
    | some cur =>
      if s.isTerminated || s.isSuspended then some st
      else
        match g.getNodeById cur with
        | none => some (st.setCurrentNodeId streamIdx none)
        | some node =>
          if cur ∈ st.processedNodes then
            tryAddNodeToHeap fuel (st.setCurrentNodeId streamIdx node.nextNodeId) streamIdx
          else if !node.isFusible then
            if st.currentScope.isSome then some (st.terminate streamIdx) else none
          else if node.scopeBitFlags ≠ st.currentScopeBitFlags then
            some (st.terminate streamIdx)
          else if node.nodeType = .nodeWait then
            some (handleWaitNode g st node streamIdx)
          else
            some { st with nodeHeap := st.nodeHeap.push g cur }

def tryAddNodesToHeap (fuel : ℕ) : List StreamIdx → SplitState → Option SplitState
  | [], st => some st
  | i :: rest, st =>
    match tryAddNodeToHeap g fuel st i with
    | none => none
    | some st' => tryAddNodesToHeap fuel rest st'

/-- `InitNodeHeap`. -/
def initNodeHeap (order : List StreamIdx) (st : SplitState) : Option SplitState :=
  tryAddNodesToHeap g fuel order { st with nodeHeap := st.nodeHeap.reset }

/-- The resume loop of `ProcessNotifyNode`. -/
def resumeWaitStreams (fuel : ℕ) (eventId : Option EventId) :
    List NodeId → SplitState → Option SplitState
  | [], st => some st
  | waitNodeId :: rest, st =>
    match g.getNodeById waitNodeId with
    | none => resumeWaitStreams fuel eventId rest st
    | some waitNode =>
      if st.isWaitingFor waitNode.streamIdxInGraph eventId then
        match tryAddNodeToHeap g fuel (st.resume waitNode.streamIdxInGraph)
            waitNode.streamIdxInGraph with
        | none => none
        | some st' => resumeWaitStreams fuel eventId rest st'
      else resumeWaitStreams fuel eventId rest st

/-- `ProcessNotifyNode`. -/
def processNotifyNode (st : SplitState) (notifyNode : SuperKernelBaseNode) : Option SplitState :=
  match notifyNode.syncInfos.eventId.bind g.getEventInfo with
  | none => some st
  | some eventInfo =>
    resumeWaitStreams g fuel notifyNode.syncInfos.eventId eventInfo.waitNodeIdList
      { st with visitedNotifies := notifyNode.nodeId :: st.visitedNotifies }

/-- The suspend loop of `ProcessResetNode`. -/
def suspendWaitStreams (eventId : Option EventId) : List NodeId → SplitState → SplitState
  | [], st => st
  | waitNodeId :: rest, st =>
    match g.getNodeById waitNodeId with
    | none => suspendWaitStreams eventId rest st
    | some waitNode =>
      if (st.streamStates waitNode.streamIdxInGraph).waitingForNotify = eventId then
        suspendWaitStreams eventId rest (st.suspend waitNode.streamIdxInGraph none)
      else suspendWaitStreams eventId rest st

/-- `ProcessResetNode`. -/
def processResetNode (st : SplitState) (resetNode : SuperKernelBaseNode) : SplitState :=
  match resetNode.syncInfos.eventId.bind g.getEventInfo with
  | none => st
  | some eventInfo =>
    suspendWaitStreams g resetNode.syncInfos.eventId eventInfo.waitNodeIdList
      { st with visitedNotifies :=
          match eventInfo.notifyNodeId with
          | none => st.visitedNotifies
          | some notifyId => st.visitedNotifies.filter (· ≠ notifyId) }

/-- The body of the `BuildCurrentScope` loop, for the popped node. -/
def placeNode (st : SplitState) (scope : SuperKernelScopeInfo)
    (node : SuperKernelBaseNode) : Option SplitState :=
  let st₁ := { st with
    currentScope := some (scope.addNodeWithStreamInfo node)
    processedNodes := node.nodeId :: st.processedNodes }
  let st₂ := st₁.setCurrentNodeId node.streamIdxInGraph node.nextNodeId
  let st₃ :=
    if node.nodeType = .nodeNotify then processNotifyNode g fuel st₂ node
    else if node.nodeType = .nodeReset then some (processResetNode g st₂ node)
    else some st₂
  st₃.bind fun st => tryAddNodeToHeap g fuel st node.streamIdxInGraph

/-- One iteration of the `BuildCurrentScope` loop on a non-empty heap. -/
def buildStep (st : SplitState) (nodeId : NodeId) (heap : SkCandidateHeap) : Option SplitState :=
  let st := { st with nodeHeap := heap }
  match g.getNodeById nodeId, st.currentScope with
  | some node, some scope =>
    if nodeId ∈ st.processedNodes then some st else placeNode g fuel st scope node
  | _, _ => none

/-- The `BuildCurrentScope` loop, at most `n` iterations. -/
def buildLoop (fuel : ℕ) : ℕ → SplitState → Option SplitState
  | 0, _ => none
  | n + 1, st =>
    match st.nodeHeap.pop g with
    | none => some st
    | some (nodeId, heap) =>
      match buildStep g fuel st nodeId heap with
      | none => none
      | some st' => buildLoop fuel n st'

/-- `BuildCurrentScope` opens a scope with the current flags. -/
def openScope (st : SplitState) : SplitState :=
  { st with currentScope := some { scopeBitFlags := st.currentScopeBitFlags } }

/-- `BuildCurrentScope`: the finished scope and the state after it. -/
def buildCurrentScope (st : SplitState) : Option (SuperKernelScopeInfo × SplitState) :=
  match buildLoop g fuel fuel (openScope st) with
  | none => none
  | some st' => st'.currentScope.map fun scope => (scope, { st' with currentScope := none })

/-! ## The pass -/

/-- The `while (true)` loop of `Run`, at most `n` rounds, with the scopes built so
far. -/
def runLoop (fuel : ℕ) (order : List StreamIdx) :
    ℕ → SplitState → List SuperKernelScopeInfo → Option (List SuperKernelScopeInfo)
  | 0, _, _ => none
  | n + 1, st, scopes =>
    match determineCurrentScopeBitFlags g order st with
    | none => some scopes
    | some st =>
      match initNodeHeap g fuel order st with
      | none => none
      | some st =>
        if st.nodeHeap.empty then some scopes
        else
          match buildCurrentScope g fuel st with
          | none => none
          | some (scope, st) =>
            match resetStreamStates g fuel order st with
            | none => none
            | some st =>
              runLoop fuel order n st (if scope.nodes.isEmpty then scopes else scopes ++ [scope])

/-- The state after `InitStreamStates` and the first skip. -/
def initSplitState (heapType : SkHeapType) (fuel : ℕ) (order : List StreamIdx) :
    Option SplitState :=
  match initStreamStates g with
  | none => none
  | some streamStates =>
    skipUnfusibleNodes g fuel order { streamStates, nodeHeap := { heapMode := heapType } }

/-- `InitialScopeSplitPass::Run`: the scopes when it returns true. -/
def initialScopeSplitPass (heapType : SkHeapType) (order : List StreamIdx) (fuel : ℕ) :
    Option (List SuperKernelScopeInfo) :=
  match initSplitState g heapType fuel order with
  | none => none
  | some st => runLoop g fuel order fuel st []

end GraphAutofusion.SuperKernel
