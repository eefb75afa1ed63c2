import GraphAutofusion.SuperKernel.ScopeInfo
import Mathlib.Algebra.GroupWithZero.Nat
import Mathlib.Algebra.Ring.Int.Defs

/-!
# SuperKernel.LockDetector — core deadlock detection while a scope grows

`LockDetector` of `sk_lock_detector.cpp`. While the nodes of a scope are accepted one
after the other, the super kernel keeps the maximum of their core needs. A fused
WAIT blocks on these cores, so the detector searches backwards from its NOTIFY
for kernels that could not run beside the super kernel.

`LockState` holds the detector's members and the marks it leaves on the graph nodes
(visited flag, expand numbers, scope streams). The searches return `none` when
`fuel` is used up or at an unguarded null pointer.
-/

namespace GraphAutofusion.SuperKernel

/-- `deviceRealCubeNum` and `deviceRealVecNum`. -/
structure DeviceCores where
  cubeNum : ℕ
  vecNum : ℕ
deriving DecidableEq, Repr

/-- `notifyExpand` holds the expand cube and vec numbers of a node. -/
structure LockState where
  visited : List NodeId := []
  notifyExpand : NodeId → ℕ × ℕ := fun _ => (0, 0)
  scopeStreamIds : NodeId → List StreamIdx := fun _ => []
  nodes : List NodeId := []
  tempVisitedNodes : List NodeId := []
  depOpCubeNum : ℕ := 0
  depOpVecNum : ℕ := 0
  superKernelCubeNum : ℕ := 0
  superKernelVecNum : ℕ := 0
  nodeNum : ℕ := 0
  kernelNodeNum : ℕ := 0
  skStreamIds : List StreamIdx := []
  skRangeInStream : StreamIdx → Option (ℕ × ℕ) := fun _ => none

namespace LockState

variable (ls : LockState)

def setVisited (nodeId : NodeId) : LockState :=
  { ls with visited := nodeId :: ls.visited }

variable (node : SuperKernelBaseNode)

/-- `GetCubeNum`: a kernel's own number, the expand number of an event node. -/
def getCubeNum : ℕ :=
  match node.nodeType with
  | .nodeKernel => node.kernelInfos.cubeNum
  | .nodeDefault => 0
  | _ => (ls.notifyExpand node.nodeId).1

/-- `GetVecNum`. -/
def getVecNum : ℕ :=
  match node.nodeType with
  | .nodeKernel => node.kernelInfos.vecNum
  | .nodeDefault => 0
  | _ => (ls.notifyExpand node.nodeId).2

def isInSKStream : Bool :=
  node.streamIdxInGraph ∈ ls.skStreamIds

def isBeforeSKRange : Bool :=
  match ls.skRangeInStream node.streamIdxInGraph with
  | none => false
  | some range => node.nodeIdxInStream < range.1

def isAfterSKRange : Bool :=
  match ls.skRangeInStream node.streamIdxInGraph with
  | none => false
  | some range => range.2 < node.nodeIdxInStream

def updateSKRangeInStream : LockState :=
  { ls with skRangeInStream := fun i =>
      if i = node.streamIdxInGraph then
        match ls.skRangeInStream i with
        | none => some (node.nodeIdxInStream, node.nodeIdxInStream)
        | some range => some (min range.1 node.nodeIdxInStream, max range.2 node.nodeIdxInStream)
      else ls.skRangeInStream i }

/-- `RollbackVisitedState(tempVisitedNodes)`. -/
def rollbackTempVisited : LockState :=
  { ls with
    visited := ls.visited.filter (· ∉ ls.tempVisitedNodes)
    tempVisitedNodes := [] }

/-- `Reset`; the expand numbers and scope streams of the nodes stay. -/
def reset : LockState :=
  { visited := ls.visited.filter fun i => i ∉ ls.nodes && i ∉ ls.tempVisitedNodes
    notifyExpand := ls.notifyExpand
    scopeStreamIds := ls.scopeStreamIds }

end LockState

def hasIntersection (lhsStreams rhsStreams : List StreamIdx) : Bool :=
  lhsStreams.any (· ∈ rhsStreams)

section Cores

variable (dev : DeviceCores) (ls : LockState) (curNode : SuperKernelBaseNode)

/-- The cores that one side leaves free: a 64 bit difference, which `HasEnoughCores` narrows to
32 bits. -/
def coresLeft (deviceNum usedNum : ℕ) : ℕ := (((deviceNum : ℤ) - usedNum) % 2 ^ 32).toNat

/-- `GetAvailableCores`. -/
def getAvailableCores (isSuperKernel : Bool) : ℕ × ℕ :=
  if isSuperKernel then
    (coresLeft dev.cubeNum ls.depOpCubeNum, coresLeft dev.vecNum ls.depOpVecNum)
  else (coresLeft dev.cubeNum ls.superKernelCubeNum, coresLeft dev.vecNum ls.superKernelVecNum)

/-- `HasEnoughCores`: a need within the current limits is free; otherwise it must fit
beside the other side's limits, and the own limits grow to cover it. -/
def hasEnoughCores (isSuperKernel : Bool) : Bool × LockState :=
  let cube := ls.getCubeNum curNode
  let vec := ls.getVecNum curNode
  let available := getAvailableCores dev ls isSuperKernel
  if isSuperKernel then
    if cube ≤ ls.superKernelCubeNum ∧ vec ≤ ls.superKernelVecNum then (true, ls)
    else if cube ≤ available.1 ∧ vec ≤ available.2 then
      (true, { ls with
        superKernelCubeNum := max ls.superKernelCubeNum cube
        superKernelVecNum := max ls.superKernelVecNum vec })
    else (false, ls)
  else
    if cube ≤ ls.depOpCubeNum ∧ vec ≤ ls.depOpVecNum then (true, ls)
    else if cube ≤ available.1 ∧ vec ≤ available.2 then
      (true, { ls with
        depOpCubeNum := max ls.depOpCubeNum cube
        depOpVecNum := max ls.depOpVecNum vec })
    else (false, ls)

end Cores

/-! ## The backward search -/

variable (g : SuperKernelGraph) (dev : DeviceCores)

section Checks

variable (hasDeadlock : LockState → SuperKernelBaseNode → Option (Bool × LockState))

/-- `CheckKernelNodeDeadlock`. -/
def checkKernelNodeDeadlock (ls : LockState) (preNode : SuperKernelBaseNode) :
    Option (Bool × LockState) :=
  match hasEnoughCores dev ls preNode false with
  | (false, ls) => some (true, ls)
  | (true, ls) => hasDeadlock ls preNode

/-- `CheckWaitNodeDeadlock`. -/
def checkWaitNodeDeadlock (ls : LockState) (preNode : SuperKernelBaseNode) :
    Option (Bool × LockState) :=
  match preNode.syncInfos.correspondingNotifyNodeId.bind g.getNodeById with
  | none => some (true, ls)
  | some notifyNode =>
    if ls.isAfterSKRange notifyNode then some (true, ls)
    else
      match hasDeadlock ls preNode with
      | none => none
      | some (true, ls) => some (true, ls)
      | some (false, ls) =>
        if notifyNode.streamIdxInGraph ≠ preNode.streamIdxInGraph ∧ !ls.isInSKStream notifyNode then
          hasDeadlock ls notifyNode
        else some (false, ls)

/-- The loop of `CheckNotifyNodeDeadlock` over the WAITs of the NOTIFY. -/
def checkNotifyWaits (preNode : SuperKernelBaseNode) :
    List NodeId → LockState → Option (Bool × LockState)
  | [], ls => some (false, ls)
  | waitId :: rest, ls =>
    match g.getNodeById waitId with
    | none => none
    | some waitNode =>
      if ls.isBeforeSKRange waitNode then some (false, ls)
      else
        match hasDeadlock ls preNode with
        | none => none
        | some (true, ls) => some (true, ls)
        | some (false, ls) => checkNotifyWaits preNode rest ls

/-- `CheckNotifyNodeDeadlock`. -/
def checkNotifyNodeDeadlock (ls : LockState) (preNode : SuperKernelBaseNode) :
    Option (Bool × LockState) :=
  let (enough, ls) :=
    if 0 < ls.getCubeNum preNode ∨ 0 < ls.getVecNum preNode then hasEnoughCores dev ls preNode false
    else (true, ls)
  if enough then checkNotifyWaits g hasDeadlock preNode preNode.syncInfos.correspondingWaitNodeIds ls
  else some (true, ls)

end Checks

/-- `HasDeadlock`: search everything before `curNode`, which is marked as visited. -/
def hasDeadlock : ℕ → LockState → SuperKernelBaseNode → Option (Bool × LockState)
  | 0, _, _ => none
  | fuel + 1, ls, curNode =>
    let ls := { ls.setVisited curNode.nodeId with
      tempVisitedNodes := ls.tempVisitedNodes ++ [curNode.nodeId] }
    match curNode.preNodeId.bind g.getNodeById with
    | none => some (false, ls)
    | some preNode =>
      if preNode.nodeId ∈ ls.visited then some (false, ls)
      else if hasIntersection (ls.scopeStreamIds preNode.nodeId) ls.skStreamIds then some (false, ls)
      else
        match preNode.nodeType with
        | .nodeKernel => checkKernelNodeDeadlock dev (hasDeadlock fuel) ls preNode
        | .nodeWait => checkWaitNodeDeadlock g (hasDeadlock fuel) ls preNode
        | .nodeNotify => checkNotifyNodeDeadlock g dev (hasDeadlock fuel) ls preNode
        | .nodeDefault => hasDeadlock fuel ls preNode
        | .nodeReset => hasDeadlock fuel ls preNode
        | _ => some (true, ls)

/-! ## Accepting a node -/

/-- `ShouldBypassValueWaitDeadlock`. -/
def shouldBypassValueWaitDeadlock (valueBreakerBypass : ℕ) (curNode : SuperKernelBaseNode) : Bool :=
  curNode.nodeType = .nodeWait && curNode.syncInfos.addrValue.isSome &&
    curNode.syncInfos.correspondingNotifyNodeId.isNone &&
    (valueBreakerBypass &&& ACLSK_VALUE_BREAKER_BYPASS_UNPAIRED_WAIT) ≠ 0

/-- `GetWaitNodeFusibleStatus`. -/
def getWaitNodeFusibleStatus (fuel : ℕ) (ls : LockState) (curNode : SuperKernelBaseNode) :
    Option (Bool × LockState) :=
  match curNode.syncInfos.correspondingNotifyNodeId.bind g.getNodeById with
  | none => some (false, ls)
  | some notifyNode =>
    if ls.nodeNum = 0 then some (false, ls)
    else if ls.isInSKStream notifyNode then some (!ls.isAfterSKRange notifyNode, ls)
    else if hasIntersection ls.skStreamIds (ls.scopeStreamIds notifyNode.nodeId) then some (true, ls)
    else
      let (enough, ls) :=
        if 0 < ls.getCubeNum notifyNode ∨ 0 < ls.getVecNum notifyNode then
          let (canFuse, ls) := hasEnoughCores dev ls notifyNode false
          (canFuse, if canFuse then
            { ls with tempVisitedNodes := ls.tempVisitedNodes ++ [notifyNode.nodeId] } else ls)
        else (true, ls)
      if enough then (hasDeadlock g dev fuel ls notifyNode).map fun r => (!r.1, r.2)
      else some (false, ls)

/-- `GetFusibleStatus`. -/
def getFusibleStatus (valueBreakerBypass fuel : ℕ) (ls : LockState)
    (curNode : SuperKernelBaseNode) : Option (Bool × LockState) :=
  match curNode.nodeType with
  | .nodeNotify => some (ls.getCubeNum curNode = 0 ∧ ls.getVecNum curNode = 0, ls)
  | .nodeWait =>
    if shouldBypassValueWaitDeadlock valueBreakerBypass curNode then some (true, ls)
    else
      match getWaitNodeFusibleStatus g dev fuel { ls with tempVisitedNodes := [] } curNode with
      | none => none
      | some (true, ls) => some (true, { ls with nodes := ls.nodes ++ ls.tempVisitedNodes })
      | some (false, ls) => some (false, ls.rollbackTempVisited)
  | .nodeKernel => some (hasEnoughCores dev ls curNode true)
  | .nodeReset => some (true, ls)
  | .nodeDefault => some (true, ls)
  | _ => some (false, ls)

/-- The state update of `IsFusible` for an accepted node. -/
def acceptNode (ls : LockState) (curNode : SuperKernelBaseNode) : LockState :=
  { (ls.updateSKRangeInStream curNode).setVisited curNode.nodeId with
    skStreamIds := curNode.streamIdxInGraph :: ls.skStreamIds
    nodeNum := ls.nodeNum + 1
    kernelNodeNum :=
      if curNode.nodeType = .nodeKernel then ls.kernelNodeNum + 1 else ls.kernelNodeNum
    nodes := ls.nodes ++ [curNode.nodeId] }

/-- `IsFusible`. -/
def isFusible (valueBreakerBypass fuel : ℕ) (ls : LockState) (curNode : SuperKernelBaseNode) :
    Option (Bool × LockState) :=
  if curNode.nodeId ∈ ls.visited then some (true, ls)
  else
    match getFusibleStatus g dev valueBreakerBypass fuel ls curNode with
    | none => none
    | some (true, ls) => some (true, acceptNode ls curNode)
    | some (false, ls) => some (false, ls)

/-! ## Marks of finished scopes -/

def maxCubeNum (scope : SuperKernelScopeInfo) : ℕ :=
  ((scope.nodes.filter (·.nodeType = .nodeKernel)).map (·.kernelInfos.cubeNum)).foldl max 0

def maxVecNum (scope : SuperKernelScopeInfo) : ℕ :=
  ((scope.nodes.filter (·.nodeType = .nodeKernel)).map (·.kernelInfos.vecNum)).foldl max 0

def isNotifyOf (scope : SuperKernelScopeInfo) (nodeId : NodeId) : Bool :=
  scope.nodes.any fun n => n.nodeType = .nodeNotify && n.nodeId = nodeId

/-- `SetNotifyNodesExpandNumForScope`. -/
def setNotifyNodesExpandNumForScope (ls : LockState) (scope : SuperKernelScopeInfo) : LockState :=
  { ls with
    notifyExpand := fun i =>
      if isNotifyOf scope i then (maxCubeNum scope, maxVecNum scope) else ls.notifyExpand i
    scopeStreamIds := fun i =>
      if i ∈ scope.nodeIds then scope.nodes.map (·.streamIdxInGraph) else ls.scopeStreamIds i }

/-- `ResetNotifyExpandNumForScope`. -/
def resetNotifyExpandNumForScope (ls : LockState) (scope : SuperKernelScopeInfo) : LockState :=
  { ls with
    notifyExpand := fun i => if isNotifyOf scope i then (0, 0) else ls.notifyExpand i
    scopeStreamIds := fun i => if i ∈ scope.nodeIds then [] else ls.scopeStreamIds i }

end GraphAutofusion.SuperKernel
