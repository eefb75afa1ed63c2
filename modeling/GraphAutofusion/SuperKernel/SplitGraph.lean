import GraphAutofusion.Lib.PassPipeline
import GraphAutofusion.SuperKernel.InitialSplit
import GraphAutofusion.SuperKernel.LockDetector

/-!
# SuperKernel.SplitGraph — the scope split pipeline

`SuperKernelScopeSplitter::SplitGraph` and the passes after the initial split:
the core split for schedule-mode kernels, the deadlock refinement, the removal of
default nodes and of streams that hold only event nodes, and the single pass of
the per-operator mode. The passes change the graph only through `SetIsFusible`.

`none` is `false`, an unguarded null pointer or an exhausted loop counter `fuel`.
-/

namespace GraphAutofusion.SuperKernel

open Lib

/-- `SetIsFusible` on the nodes with the given ids. -/
def SuperKernelGraph.setIsFusible (g : SuperKernelGraph) (ids : List NodeId) (fusible : Bool) :
    SuperKernelGraph :=
  { g with nodes := g.nodes.map fun n =>
      if n.nodeId ∈ ids then { n with isFusible := fusible } else n }

/-- The options the splitter reads. -/
structure SplitOptions where
  taskBreakerBypass : Bool := false
  valueBreakerBypass : ℕ := 0
  autoOpParallel : SkHeapType := .priorityQueue
  perOpMaxCoreNum : Bool := false
  device : DeviceCores
deriving DecidableEq, Repr

/-- The splitter with its graph and the marks of the lock detector. -/
structure SplitterState where
  graph : SuperKernelGraph
  lock : LockState := {}
  scopes : List SuperKernelScopeInfo := []
  needResplit : Bool := false

/-! ## Walking the streams -/

section Walk

variable (g : SuperKernelGraph)

/-- The nodes of a stream from `nodeId` on. -/
def walkStream : ℕ → Option NodeId → Option (List SuperKernelBaseNode)
  | _, none => some []
  | 0, some _ => none
  | fuel + 1, some nodeId =>
    match g.getNodeById nodeId with
    | none => some []
    | some node => (walkStream fuel node.nextNodeId).map (node :: ·)

/-- The nodes of all streams, from the head nodes on. -/
def walkStreams (fuel : ℕ) : List NodeId → Option (List SuperKernelBaseNode)
  | [] => some []
  | head :: rest =>
    match walkStream g fuel (some head), walkStreams fuel rest with
    | some l, some l' => some (l ++ l')
    | _, _ => none

/-- `InitDefaultNodeFusibility`. -/
def initDefaultNodeFusibility (taskBreakerBypass : Bool) (fuel : ℕ) : Option SuperKernelGraph :=
  if !taskBreakerBypass then some g
  else
    (walkStreams g fuel g.headNodes).map fun l =>
      g.setIsFusible ((l.filter (·.nodeType = .nodeDefault)).map (·.nodeId)) true

/-- `PerOpMaxCoreSplitPass::Run`: one scope for each fusible kernel. -/
def perOpMaxCoreSplitPass (fuel : ℕ) : Option (List SuperKernelScopeInfo) :=
  (walkStreams g fuel g.headNodes).map fun l =>
    (l.filter fun n => n.nodeType = .nodeKernel && n.isFusible).map fun n =>
      rebuildStreamInfos { nodes := [n] }

end Walk

/-! ## ScheModeKernelSplitPass -/

/-- `SplitScopeAtNode`: the nodes before `splitNode` and the rest. -/
def splitScopeAtNode (scope : SuperKernelScopeInfo) (splitNode : SuperKernelBaseNode) :
    SuperKernelScopeInfo × SuperKernelScopeInfo :=
  (rebuildStreamInfos { scopeBitFlags := scope.scopeBitFlags
                        nodes := scope.nodes.takeWhile (·.nodeId ≠ splitNode.nodeId) },
   rebuildStreamInfos { scopeBitFlags := scope.scopeBitFlags
                        nodes := scope.nodes.dropWhile (·.nodeId ≠ splitNode.nodeId) })

structure MergedCores where
  cubeNum : ℕ
  vecNum : ℕ
  hasScheMode : Bool
deriving DecidableEq, Repr

/-- The core need of a kernel; in schedule mode a missing number is derived from the
other one. -/
def scheModeCores (node : SuperKernelBaseNode) : ℕ × ℕ :=
  let cube := node.kernelInfos.cubeNum
  let vec := node.kernelInfos.vecNum
  if node.kernelInfos.isScheModeOn then
    let vec := if vec = 0 then cube * 2 else vec
    (if cube = 0 then (vec + 1) / 2 else cube, vec)
  else (cube, vec)

/-- `CORE_DROP`. -/
def isCoreDrop (merged : MergedCores) (node : SuperKernelBaseNode) : Bool :=
  let cur := scheModeCores node
  node.kernelInfos.isScheModeOn &&
    ((cur.1 ≠ 0 && cur.1 < merged.cubeNum) || (cur.2 ≠ 0 && cur.2 < merged.vecNum))

/-- `CORE_RISE`. -/
def isCoreRise (merged : MergedCores) (node : SuperKernelBaseNode) : Bool :=
  let cur := scheModeCores node
  merged.hasScheMode &&
    ((cur.1 ≠ 0 && merged.cubeNum < cur.1) || (cur.2 ≠ 0 && merged.vecNum < cur.2))

/-- The node scan of `ProcessSingleScope`: the first kernel that needs a split. -/
def findScheModeSplit : Option MergedCores → List SuperKernelBaseNode → Option SuperKernelBaseNode
  | _, [] => none
  | merged, node :: rest =>
    if node.nodeType ≠ .nodeKernel then findScheModeSplit merged rest
    else
      let cur := scheModeCores node
      match merged with
      | none => findScheModeSplit (some ⟨cur.1, cur.2, node.kernelInfos.isScheModeOn⟩) rest
      | some m =>
        if isCoreDrop m node || isCoreRise m node then some node
        else
          findScheModeSplit (some ⟨max m.cubeNum cur.1, max m.vecNum cur.2,
            m.hasScheMode || node.kernelInfos.isScheModeOn⟩) rest

/-- `ScheModeKernelSplitPass`: the pieces of one scope. -/
def scheModeSplitScope : ℕ → SuperKernelScopeInfo → Option (List SuperKernelScopeInfo)
  | 0, _ => none
  | fuel + 1, scope =>
    if scope.nodes.isEmpty then some []
    else
      match findScheModeSplit none scope.nodes with
      | none => some [scope]
      | some node =>
        let (scopeBefore, scopeAfter) := splitScopeAtNode scope node
        let out := if scopeBefore.nodes.isEmpty then [] else [scopeBefore]
        if scopeAfter.nodes.isEmpty then some out
        else (scheModeSplitScope fuel scopeAfter).map (out ++ ·)

/-- `ScheModeKernelSplitPass::Run`. -/
def scheModeKernelSplitPass (fuel : ℕ) : List SuperKernelScopeInfo → Option (List SuperKernelScopeInfo)
  | [] => some []
  | scope :: rest =>
    match scheModeSplitScope fuel scope, scheModeKernelSplitPass fuel rest with
    | some out, some out' => some (out ++ out')
    | _, _ => none

/-! ## DeadlockRefinePass -/

/-- `SplitScopeAtWaitNode`: the nodes before and after the WAIT, which is dropped. -/
def splitScopeAtWaitNode (scope : SuperKernelScopeInfo) (waitNode : SuperKernelBaseNode) :
    SuperKernelScopeInfo × SuperKernelScopeInfo :=
  (rebuildStreamInfos { scopeBitFlags := scope.scopeBitFlags
                        nodes := scope.nodes.takeWhile (·.nodeId ≠ waitNode.nodeId) },
   rebuildStreamInfos { scopeBitFlags := scope.scopeBitFlags
                        nodes := (scope.nodes.dropWhile (·.nodeId ≠ waitNode.nodeId)).filter
                          (·.nodeId ≠ waitNode.nodeId) })

/-- What `FindDeadlockInScope` reports: the last WAIT up to the deadlock, if any. -/
inductive DeadlockSearch where
  | noDeadlock
  | deadlock (waitNode : Option SuperKernelBaseNode)
deriving DecidableEq, Repr

section Deadlock

variable (g : SuperKernelGraph) (opts : SplitOptions) (fuel : ℕ)

/-- The loop of `FindDeadlockInScope`, with the last WAIT seen so far. -/
def findDeadlockFrom : Option SuperKernelBaseNode → List SuperKernelBaseNode → LockState →
    Option (DeadlockSearch × LockState)
  | _, [], ls => some (.noDeadlock, ls)
  | lastWaitNode, node :: rest, ls =>
    let lastWaitNode := if node.nodeType = .nodeWait then some node else lastWaitNode
    match isFusible g opts.device opts.valueBreakerBypass fuel ls node with
    | none => none
    | some (true, ls) => findDeadlockFrom lastWaitNode rest ls
    | some (false, ls) => some (.deadlock lastWaitNode, ls)

/-- `FindDeadlockInScope`. -/
def findDeadlockInScope (scope : SuperKernelScopeInfo) (ls : LockState) :
    Option (DeadlockSearch × LockState) :=
  findDeadlockFrom g opts fuel none scope.nodes ls.reset

/-- `DeadlockRefinePass`: the pieces of one scope. -/
def deadlockRefineScope : ℕ → SuperKernelScopeInfo → LockState →
    Option (List SuperKernelScopeInfo × LockState)
  | 0, _, _ => none
  | n + 1, scope, ls =>
    if scope.nodes.isEmpty then some ([], ls)
    else
      match findDeadlockInScope g opts fuel scope ls with
      | none => none
      | some (.noDeadlock, ls) => some ([scope], setNotifyNodesExpandNumForScope ls scope)
      | some (.deadlock none, _) => none
      | some (.deadlock (some waitNode), ls) =>
        let (scopeBefore, scopeAfter) := splitScopeAtWaitNode scope waitNode
        let out := if scopeBefore.nodes.isEmpty then [] else [scopeBefore]
        let ls := if scopeBefore.nodes.isEmpty then ls
          else setNotifyNodesExpandNumForScope ls scopeBefore
        if scopeAfter.nodes.isEmpty then some (out, ls)
        else (deadlockRefineScope n scopeAfter ls).map fun r => (out ++ r.1, r.2)

def deadlockRefineScopes : List SuperKernelScopeInfo → LockState →
    Option (List SuperKernelScopeInfo × LockState)
  | [], ls => some ([], ls)
  | scope :: rest, ls =>
    match deadlockRefineScope g opts fuel fuel scope ls with
    | none => none
    | some (out, ls) => (deadlockRefineScopes rest ls).map fun r => (out ++ r.1, r.2)

/-- `DeadlockRefinePass::Run`. -/
def deadlockRefinePass (scopes : List SuperKernelScopeInfo) (ls : LockState) :
    Option (List SuperKernelScopeInfo × LockState) :=
  (deadlockRefineScopes g opts fuel scopes ls).map fun r =>
    (r.1, (r.1.foldl resetNotifyExpandNumForScope r.2).reset)

end Deadlock

/-! ## DefaultNodeProcessPass -/

namespace SuperKernelScopeInfo

variable (scope : SuperKernelScopeInfo)

/-- `StreamDefaultInfo::hasKernel`. -/
def hasKernelOn (i : StreamIdx) : Bool := (scope.nodesOn i).any (·.nodeType = .nodeKernel)

def hasDefaultOn (i : StreamIdx) : Bool := (scope.nodesOn i).any (·.nodeType = .nodeDefault)

/-- The default nodes on streams that also hold a kernel. -/
def defaultsToMark : List NodeId :=
  (scope.nodes.filter fun n => n.nodeType = .nodeDefault && scope.hasKernelOn n.streamIdxInGraph).map
    (·.nodeId)

/-- The streams with default nodes but no kernel. -/
def isStreamToRemove (i : StreamIdx) : Bool := scope.hasDefaultOn i && !scope.hasKernelOn i

/-- `RemoveDefaultsAndStreams`. -/
def removeDefaultsAndStreams : SuperKernelScopeInfo :=
  let remaining := scope.nodes.filter (·.nodeType ≠ .nodeDefault)
  rebuildStreamInfos
    { scope with nodes := remaining.filter fun n => !scope.isStreamToRemove n.streamIdxInGraph }

/-- `DefaultNodeProcessPass::ProcessSingleScope`: the marked nodes, and the scope. -/
def processDefaults : List NodeId × SuperKernelScopeInfo :=
  if !scope.nodes.any (·.nodeType = .nodeDefault) then ([], scope)
  else if !scope.defaultsToMark.isEmpty then (scope.defaultsToMark, scope)
  else ([], scope.removeDefaultsAndStreams)

end SuperKernelScopeInfo

/-- `DefaultNodeProcessPass::Run`. -/
def defaultNodeProcessPass (st : SplitterState) : SplitterState :=
  let marked := st.scopes.flatMap fun scope => scope.processDefaults.1
  if marked.isEmpty then
    let valid := (st.scopes.map fun scope => scope.processDefaults.2).filter (!·.nodes.isEmpty)
    { st with scopes := valid }
  else
    { st with graph := st.graph.setIsFusible marked false, scopes := [], needResplit := true }

/-! ## EventOnlyStreamRemovePass -/

/-- `IsEventNode`. -/
def SuperKernelBaseNode.isEventNode (node : SuperKernelBaseNode) : Bool :=
  match node.nodeType with
  | .nodeNotify | .nodeWait | .nodeReset | .nodeMemoryWrite | .nodeMemoryWait => true
  | .nodeKernel | .nodeDefault => false

/-- `ProcessScope`: the fusible nodes of the streams on which the scope has only event
nodes. -/
def SuperKernelScopeInfo.eventOnlyNodes (scope : SuperKernelScopeInfo) : List NodeId :=
  (scope.nodes.filter fun n =>
    (scope.nodesOn n.streamIdxInGraph).all (·.isEventNode) && n.isFusible).map (·.nodeId)

/-- `EventOnlyStreamRemovePass::Run`. -/
def eventOnlyStreamRemovePass (st : SplitterState) : SplitterState :=
  let marked := st.scopes.flatMap (·.eventOnlyNodes)
  if marked.isEmpty then st
  else
    { st with graph := st.graph.setIsFusible marked false, scopes := [], needResplit := true }

/-! ## The pipeline -/

def maxIterations : ℕ := 10

section Pipeline

variable (opts : SplitOptions) (fuel : ℕ)

def runInitialScopeSplit (order : List StreamIdx) (st : SplitterState) : Option SplitterState :=
  (initialScopeSplitPass st.graph opts.autoOpParallel order fuel).map fun scopes =>
    { st with scopes }

def runScheModeKernelSplit (st : SplitterState) : Option SplitterState :=
  (scheModeKernelSplitPass fuel st.scopes).map fun scopes => { st with scopes }

def runDeadlockRefine (st : SplitterState) : Option SplitterState :=
  (deadlockRefinePass st.graph opts fuel st.scopes st.lock).map fun r =>
    { st with scopes := r.1, lock := r.2 }

def runPerOpMaxCoreSplit (st : SplitterState) : Option SplitterState :=
  (perOpMaxCoreSplitPass st.graph fuel).map fun scopes => { st with scopes }

/-- `passes_`. -/
def passes (order : List StreamIdx) : List (SplitterState → Option SplitterState) :=
  if opts.perOpMaxCoreNum then [runPerOpMaxCoreSplit fuel]
  else
    [runInitialScopeSplit opts fuel order, runScheModeKernelSplit fuel, runDeadlockRefine opts fuel]
    ++ (if opts.taskBreakerBypass then
          [fun st => some (defaultNodeProcessPass st), runDeadlockRefine opts fuel] else [])
    ++ [fun st => some (eventOnlyStreamRemovePass st)]

/-- One iteration of the loop: clear the request and the scopes, then run the passes. -/
def splitIteration (order : List StreamIdx) (st : SplitterState) : Option SplitterState :=
  runPasses (·.needResplit) (passes opts fuel order) { st with scopes := [], needResplit := false }

/-- `SplitGraph`: the splitter when it returns true. `orders k` is the iteration order of
the stream table in the `k`-th iteration, counted from 0. -/
def splitGraph (g : SuperKernelGraph) (orders : ℕ → List StreamIdx) : Option SplitterState :=
  match initDefaultNodeFusibility g opts.taskBreakerBypass fuel with
  | none => none
  | some graph =>
    rerunLoop (·.needResplit) (fun k => splitIteration opts fuel (orders k)) (maxIterations - 1) 0
      { graph }

end Pipeline

end GraphAutofusion.SuperKernel
