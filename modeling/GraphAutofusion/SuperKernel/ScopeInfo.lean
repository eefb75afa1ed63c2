import GraphAutofusion.SuperKernel.Graph

/-!
# SuperKernel.ScopeInfo — scopes and their per-stream summaries

A scope is a list of graph nodes (`sk_scope_info.h`) together with one
`ScopeStreamInfo` for each stream it touches. The summaries are built by one
fold over the nodes, which `AddStreamInfoToScope` performs node by node and
`RebuildStreamInfos` in one go.
-/

namespace GraphAutofusion.SuperKernel

structure ScopeStreamInfo where
  streamIdx : StreamIdx
  headNodeIdx : NodeId
  tailNodeIdx : NodeId
  nodeSize : ℕ
deriving DecidableEq, Repr

structure SuperKernelScopeInfo where
  nodes : List SuperKernelBaseNode := []
  scopeStreamInfos : List ScopeStreamInfo := []
  scopeBitFlags : ScopeBitFlags := 0
deriving DecidableEq, Repr

/-- One step of both stream-info loops: extend the entry of the node's stream
or append a new one. -/
def addStreamInfo (infos : List ScopeStreamInfo) (node : SuperKernelBaseNode) :
    List ScopeStreamInfo :=
  match infos with
  | [] => [{ streamIdx := node.streamIdxInGraph, headNodeIdx := node.nodeId,
             tailNodeIdx := node.nodeId, nodeSize := 1 }]
  | info :: rest =>
    if info.streamIdx = node.streamIdxInGraph then
      { info with tailNodeIdx := node.nodeId, nodeSize := info.nodeSize + 1 } :: rest
    else
      info :: addStreamInfo rest node

variable (scope : SuperKernelScopeInfo)

/-- `ScopeSplitPass::RebuildStreamInfos`. -/
def rebuildStreamInfos : SuperKernelScopeInfo :=
  { scope with scopeStreamInfos := scope.nodes.foldl addStreamInfo [] }

/-- `AddNode` followed by `AddStreamInfoToScope`. -/
def SuperKernelScopeInfo.addNodeWithStreamInfo
    (node : SuperKernelBaseNode) : SuperKernelScopeInfo :=
  { scope with
    nodes := scope.nodes ++ [node]
    scopeStreamInfos := addStreamInfo scope.scopeStreamInfos node }

namespace SuperKernelScopeInfo

/-- The ids of a scope's nodes, in scope order. -/
def nodeIds : List NodeId :=
  scope.nodes.map (·.nodeId)

/-- The nodes of a scope on one stream, in scope order. -/
def nodesOn (i : StreamIdx) : List SuperKernelBaseNode :=
  scope.nodes.filter (·.streamIdxInGraph = i)

end SuperKernelScopeInfo

/-- The representation invariant of a scope: fusible graph nodes, per stream a run
of consecutive nodes, with the stream infos computed from them. -/
structure ScopeOk (g : SuperKernelGraph) (scope : SuperKernelScopeInfo) : Prop where
  mem : ∀ n ∈ scope.nodes, n ∈ g.nodes
  fusible : ∀ n ∈ scope.nodes, n.isFusible = true
  infos : scope.scopeStreamInfos = scope.nodes.foldl addStreamInfo []
  chain : ∀ i, (scope.nodesOn i).IsChain fun a b => a.nextNodeId = some b.nodeId

end GraphAutofusion.SuperKernel
