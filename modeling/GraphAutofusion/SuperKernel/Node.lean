import Mathlib.Data.List.Basic

/-!
# SuperKernel.Node — the nodes of a super kernel graph

The task nodes of `sk_node.h`, with the fields the splitter, the lock
detector, the scope post processor and the task builder read. An id that the
source sets to `INVALID_TASK_ID` is `none` here.
-/

namespace GraphAutofusion.SuperKernel

abbrev NodeId := ℕ
abbrev StreamIdx := ℕ
abbrev EventId := ℕ

def MAX_SCOPE_NUM : ℕ := 1024

/-- The `std::bitset<MAX_SCOPE_NUM>` of the fusible scopes a node lies in. -/
abbrev ScopeBitFlags := BitVec MAX_SCOPE_NUM

inductive SkNodeType where
  | nodeKernel
  | nodeNotify
  | nodeWait
  | nodeReset
  | nodeMemoryWrite
  | nodeMemoryWait
  | nodeDefault
deriving DecidableEq, Repr

inductive SkKernelType where
  | aicOnly
  | aivOnly
  | mixAiv10
  | mixAic10
  | mixAic11
  | mixAic12
  | default
deriving DecidableEq, Repr

def SK_DEFAULT_NOTIFY_VALUE : ℕ := 1
def SK_DEFAULT_WAIT_VALUE : ℕ := 1
def SK_DEFAULT_RESET_VALUE : ℕ := 0
def SK_DEFAULT_WRITE_FLAG : ℕ := 0

def ACLSK_VALUE_BREAKER_BYPASS_PAIRED_WAIT : ℕ := 1
def ACLSK_VALUE_BREAKER_BYPASS_UNPAIRED_WAIT : ℕ := 2

/-- The kernel capabilities the task builder reads. -/
structure KernelCapBits where
  disableDcci : Bool := false
  earlyStartSetFlag : Bool := false
  earlyStartWaitFlag : Bool := false
deriving DecidableEq, Repr

/-- Addresses and prefetch counts of one split binary, on the cube and on the vec cores. -/
structure ResolvedFunctionInfo where
  funcAddrAic : ℕ := 0
  funcAddrAiv : ℕ := 0
  prefetchCntAic : ℕ := 0
  prefetchCntAiv : ℕ := 0
deriving DecidableEq, Repr

structure KernelInfos where
  kernelType : SkKernelType := .default
  vecNum : ℕ := 0
  cubeNum : ℕ := 0
  isScheModeOn : Bool := false
  capBits : KernelCapBits := {}
  numBlocks : ℕ := 0
  devArgs : ℕ := 0
  /-- `kernelTaskParams.argsSize` of the node. -/
  argsSize : ℕ := 0
  funcName : String := "Unknown"
  needMixKernelSplit : Bool := false
  isSimtOp : Bool := false
  resolvedFuncs : List ResolvedFunctionInfo := []
deriving DecidableEq, Repr

/-- Event data of a node; `addrValue = none` is the null pointer. -/
structure SyncInfos where
  eventId : Option EventId := none
  addrValue : Option ℕ := none
  correspondingNotifyNodeId : Option NodeId := none
  correspondingWaitNodeIds : List NodeId := []
  memoryValue : Option ℕ := none
  memoryWaitFlag : ℕ := 4294967295
  correspondingResetNodeIds : List NodeId := []
deriving DecidableEq, Repr

/-- `SuperKernelBaseNode`: one task of a stream. `nodeIdxInStream` counts the
tasks of the stream from 0; `preNodeId` and `nextNodeId` link them. -/
structure SuperKernelBaseNode where
  nodeId : NodeId
  streamIdxInGraph : StreamIdx
  nodeIdxInStream : ℕ
  preNodeId : Option NodeId := none
  nextNodeId : Option NodeId := none
  nodeType : SkNodeType
  isFusible : Bool := false
  isScopeNode : Bool := false
  isScopeBegin : Bool := false
  isScopeEnd : Bool := false
  isPlaceholder : Bool := false
  scopeName : String := ""
  scopeBitFlags : ScopeBitFlags := 0
  kernelInfos : KernelInfos := {}
  syncInfos : SyncInfos := {}
  sendToNodeId : List NodeId := []
  receiveNodeId : List NodeId := []
deriving DecidableEq, Repr

end GraphAutofusion.SuperKernel
