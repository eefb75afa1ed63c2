import GraphAutofusion.SuperKernel.ScopeMarks
import GraphAutofusion.SuperKernel.MemoryNodes

/-!
# SuperKernel.InitSKGraph — the passes over a freshly built graph

`InitSKGraph` builds the graph of a model, marks the nodes the user excluded from fusion,
converts the memory nodes to events and links the events. The marks come before the memory
pass, which decides the fusibility of the nodes it converts without looking at them: an
excluded value write or value wait may end up fusible. `initSKGraph_excluded_iff` says
exactly when none does.
-/

namespace GraphAutofusion.SuperKernel

namespace ModelGraph

variable (g : ModelGraph)

def modifyOfType (nodeType : SkNodeType) (f : SuperKernelBaseNode → SuperKernelBaseNode)
    (g : ModelGraph) (nodeId : NodeId) : ModelGraph :=
  g.modifyNode nodeId fun n => if n.nodeType = nodeType then f n else n

def setCorrespondingWaitNodeIds (waitNodeIds : List NodeId) (n : SuperKernelBaseNode) :
    SuperKernelBaseNode :=
  { n with syncInfos := { n.syncInfos with correspondingWaitNodeIds := waitNodeIds } }

def setCorrespondingNotifyNodeId (notifyNodeId : NodeId) (n : SuperKernelBaseNode) :
    SuperKernelBaseNode :=
  { n with syncInfos := { n.syncInfos with correspondingNotifyNodeId := some notifyNodeId } }

def setCorrespondingResetNodeIds (resetNodeIds : List NodeId) (n : SuperKernelBaseNode) :
    SuperKernelBaseNode :=
  { n with syncInfos := { n.syncInfos with correspondingResetNodeIds := resetNodeIds } }

/-- The body of the loop of `BuildEventNodeAssociations`. The waits learn the NOTIFY only when
it is a NOTIFY node; a NOTIFY without waits gets the empty list. -/
def buildEventNodeAssociation (hash : HashOrder) (g : ModelGraph) (eventId : EventId) :
    ModelGraph :=
  let info := g.eventInfo eventId
  let waits := hash.order info.waitNodeIdList
  let resets := hash.order info.resetNodeIdList
  let g :=
    match info.notifyNodeId with
    | some notifyId =>
      let g₁ := g.modifyOfType .nodeNotify (setCorrespondingWaitNodeIds waits) notifyId
      if g.isNodeOfType notifyId .nodeNotify then
        waits.foldl (modifyOfType .nodeWait (setCorrespondingNotifyNodeId notifyId)) g₁
      else g₁
    | none => g
  resets.foldl (modifyOfType .nodeReset (setCorrespondingResetNodeIds resets)) g

def buildEventNodeAssociations (hash : HashOrder) : ModelGraph :=
  (hash.order (g.eventToNodes.map (·.1))).foldl (buildEventNodeAssociation hash) g

/-- From `nodeId` along `link` to the first kernel. A stream has no more nodes than the
graph, so `fuel` need not be larger. -/
def findKernel (link : SuperKernelBaseNode → Option NodeId) : ℕ → Option NodeId → Option NodeId
  | _, none => none
  | 0, some _ => none
  | fuel + 1, some i =>
    match g.getNodeById i with
    | some n => if n.nodeType = .nodeKernel then some i else findKernel link fuel (link n)
    | none => none

def insertId (ids : List NodeId) (i : NodeId) : List NodeId := if i ∈ ids then ids else ids ++ [i]

def addReceiveNodeId (sendId : NodeId) (n : SuperKernelBaseNode) : SuperKernelBaseNode :=
  { n with receiveNodeId := insertId n.receiveNodeId sendId }

def addSendToNodeId (recvId : NodeId) (n : SuperKernelBaseNode) : SuperKernelBaseNode :=
  { n with sendToNodeId := insertId n.sendToNodeId recvId }

def addSendRecv (sendId : NodeId) (g : ModelGraph) (recvId : NodeId) : ModelGraph :=
  (g.modifyNode recvId (addReceiveNodeId sendId)).modifyNode sendId (addSendToNodeId recvId)

/-- The body of the loop of `AddEventAssociate`. -/
def addEventAssociateOf (hash : HashOrder) (g : ModelGraph) (eventId : EventId) : ModelGraph :=
  let info := g.eventInfo eventId
  let preNodeId := (info.notifyNodeId.bind g.getNodeById).bind (·.preNodeId)
  match g.findKernel (·.preNodeId) g.nodes.length preNodeId with
  | some sendId =>
    ((hash.order info.waitNodeIdList).filterMap fun w =>
      g.findKernel (·.nextNodeId) g.nodes.length (some w)).foldl (addSendRecv sendId) g
  | none => g

def addEventAssociate (hash : HashOrder) : ModelGraph :=
  (hash.order (g.eventToNodes.map (·.1))).foldl (addEventAssociateOf hash) g

end ModelGraph

/-- `InitSKGraph` under the option `value_breaker_bypass`; `none` is the return value false.
`ParseOriginalScopes` only reads the nodes and is not part of the graph. -/
def initSKGraph (hash : HashOrder) (valueBreakerBypass : ℕ) (m : ModelRI) :
    Option SuperKernelGraph := do
  let g ← initFromModelRI m
  let g ← g.updateNodeScopeBitFlags
  let g ← g.postProcessMemoryNode hash valueBreakerBypass
  return ((g.buildEventNodeAssociations hash).addEventAssociate hash).toSuperKernelGraph

/-! ## The association passes keep the fusibility -/

namespace ModelGraph

variable {g g' g'' : ModelGraph}

/-- An update of a node that keeps its fusibility. -/
def KeepsNode (f : SuperKernelBaseNode → SuperKernelBaseNode) : Prop :=
  ∀ n, (f n).nodeId = n.nodeId ∧ (f n).isScopeNode = n.isScopeNode ∧
    (f n).isFusible = n.isFusible

/-- The nodes of `g'` are those of `g`, as far as fusibility goes. -/
def KeepsFusible (g g' : ModelGraph) : Prop :=
  ∃ F : SuperKernelBaseNode → SuperKernelBaseNode, g'.nodes = g.nodes.map F ∧ KeepsNode F

theorem KeepsFusible.refl (g : ModelGraph) : KeepsFusible g g :=
  ⟨id, by simp, fun _ => ⟨rfl, rfl, rfl⟩⟩

theorem KeepsFusible.trans (h : KeepsFusible g g') (h' : KeepsFusible g' g'') :
    KeepsFusible g g'' := by
  obtain ⟨F, hF, hkeep⟩ := h
  obtain ⟨F', hF', hkeep'⟩ := h'
  refine ⟨F' ∘ F, by rw [hF', hF, List.map_map], fun n => ?_⟩
  obtain ⟨hid, hscope, hfus⟩ := hkeep n
  obtain ⟨hid', hscope', hfus'⟩ := hkeep' (F n)
  exact ⟨hid'.trans hid, hscope'.trans hscope, hfus'.trans hfus⟩

theorem KeepsFusible.foldl {α : Type*} {step : ModelGraph → α → ModelGraph}
    (hstep : ∀ g a, KeepsFusible g (step g a)) : ∀ (as : List α) (g : ModelGraph),
    KeepsFusible g (as.foldl step g)
  | [], g => .refl g
  | a :: as, g => (hstep g a).trans (KeepsFusible.foldl hstep as (step g a))

variable {f : SuperKernelBaseNode → SuperKernelBaseNode}

theorem KeepsNode.modifyNode (hf : KeepsNode f)
    (i : NodeId) : KeepsFusible g (g.modifyNode i f) := by
  refine ⟨fun n => if n.nodeId = i then f n else n, rfl, fun n => ?_⟩
  dsimp only
  split_ifs
  · exact hf n
  · exact ⟨rfl, rfl, rfl⟩

theorem KeepsNode.modifyOfType (hf : KeepsNode f)
    (ty : SkNodeType) (i : NodeId) : KeepsFusible g (modifyOfType ty f g i) := by
  refine KeepsNode.modifyNode (fun n => ?_) i
  split_ifs
  · exact hf n
  · exact ⟨rfl, rfl, rfl⟩

theorem KeepsNode.foldl_modifyOfType (hf : KeepsNode f) (ty : SkNodeType) (is : List NodeId) :
    KeepsFusible g (is.foldl (ModelGraph.modifyOfType ty f) g) :=
  KeepsFusible.foldl (fun _ i => hf.modifyOfType ty i) is g

theorem keepsNode_setCorrespondingWaitNodeIds (is : List NodeId) :
    KeepsNode (setCorrespondingWaitNodeIds is) := fun _ => ⟨rfl, rfl, rfl⟩

theorem keepsNode_setCorrespondingNotifyNodeId (i : NodeId) :
    KeepsNode (setCorrespondingNotifyNodeId i) := fun _ => ⟨rfl, rfl, rfl⟩

theorem keepsNode_setCorrespondingResetNodeIds (is : List NodeId) :
    KeepsNode (setCorrespondingResetNodeIds is) := fun _ => ⟨rfl, rfl, rfl⟩

theorem keepsNode_addReceiveNodeId (i : NodeId) : KeepsNode (addReceiveNodeId i) :=
  fun _ => ⟨rfl, rfl, rfl⟩

theorem keepsNode_addSendToNodeId (i : NodeId) : KeepsNode (addSendToNodeId i) :=
  fun _ => ⟨rfl, rfl, rfl⟩

theorem buildEventNodeAssociations_keepsFusible (hash : HashOrder) :
    KeepsFusible g (g.buildEventNodeAssociations hash) := by
  refine KeepsFusible.foldl (fun g e => ?_) _ g
  unfold buildEventNodeAssociation
  refine KeepsFusible.trans ?_
    ((keepsNode_setCorrespondingResetNodeIds _).foldl_modifyOfType .nodeReset _)
  split
  · have hnotify := fun i is => (keepsNode_setCorrespondingWaitNodeIds is).modifyOfType
      (g := g) .nodeNotify i
    split_ifs
    · exact (hnotify _ _).trans
        ((keepsNode_setCorrespondingNotifyNodeId _).foldl_modifyOfType .nodeWait _)
    · exact hnotify _ _
  · exact .refl g

theorem addEventAssociate_keepsFusible (hash : HashOrder) :
    KeepsFusible g (g.addEventAssociate hash) := by
  refine KeepsFusible.foldl (fun g e => ?_) _ g
  unfold addEventAssociateOf
  dsimp only
  split
  · refine KeepsFusible.foldl (fun g i => ?_) _ g
    unfold addSendRecv
    exact ((keepsNode_addReceiveNodeId _).modifyNode i).trans
      ((keepsNode_addSendToNodeId i).modifyNode _)
  · exact .refl g

end ModelGraph

/-! ## Excluded positions -/

/-- The user excluded the position of id `i` of the model from fusion. -/
def ModelRI.Excluded (m : ModelRI) (i : NodeId) : Prop :=
  ∃ g ∈ initFromModelRI m, g.Excluded i

instance (m : ModelRI) (i : NodeId) : Decidable (m.Excluded i) :=
  decidable_of_iff ((initFromModelRI m).any fun g => g.Excluded i) <| by
    simp [ModelRI.Excluded, Option.any_eq_true]

/-- After `InitSKGraph` a node is fusible as the memory pass says, if that pass converted it;
else, at an excluded position, it is not. -/
theorem initSKGraph_isFusible {hash : HashOrder} {valueBreakerBypass : ℕ} {m : ModelRI}
    {g : SuperKernelGraph} (hg : initSKGraph hash valueBreakerBypass m = some g) :
    (∀ n ∈ g.nodes, ∃ t ∈ m.flatten, n.nodeId = t.seqId ∧
      n.isScopeNode = t.params.scope.isSome ∧
      (t.params.memoryAddr.isSome →
        n.isFusible = madeFusible m.flatten valueBreakerBypass t.params) ∧
      (t.params.memoryAddr = none → n.isScopeNode = false → m.Excluded n.nodeId →
        n.isFusible = false)) ∧
    ∀ t ∈ m.flatten, ∃ n ∈ g.nodes, n.nodeId = t.seqId ∧ n.isScopeNode = t.params.scope.isSome ∧
      (t.params.memoryAddr.isSome →
        n.isFusible = madeFusible m.flatten valueBreakerBypass t.params) := by
  simp only [initSKGraph, Option.bind_eq_bind, Option.bind_eq_some_iff, pure,
    Option.some.injEq] at hg
  obtain ⟨g₀, hg₀, g₁, hg₁, g₂, hg₂, rfl⟩ := hg
  obtain ⟨hb, hmarks⟩ := ModelGraph.updateNodeScopeBitFlags_spec (initFromModelRI_built hg₀) hg₁
  obtain ⟨F, hF, hconv⟩ := ModelGraph.postProcessMemoryNode_spec hb hg₂
  obtain ⟨E, hE, hkeep⟩ := (ModelGraph.buildEventNodeAssociations_keepsFusible hash).trans
    (ModelGraph.addEventAssociate_keepsFusible (g := g₂.buildEventNodeAssociations hash) hash)
  have hnodes : ((g₂.buildEventNodeAssociations hash).addEventAssociate hash).nodes =
      g₁.nodes.map fun n => E (F n) := by
    rw [hE, hF, List.map_map]
    rfl
  have hexcluded : ∀ i, m.Excluded i → g₀.Excluded i := by
    rintro i ⟨g, hg, hi⟩
    rw [hg₀] at hg
    cases hg
    exact hi
  -- the node of a task, followed through the passes
  have hnode : ∀ x ∈ g₁.nodes, ∀ t ∈ m.flatten, NodeOfTask t x →
      (E (F x)).nodeId = t.seqId ∧ (E (F x)).isScopeNode = t.params.scope.isSome ∧
      (E (F x)).isFusible =
        if t.params.memoryAddr.isSome then madeFusible m.flatten valueBreakerBypass t.params
        else x.isFusible := by
    intro x hx t ht hxt
    obtain ⟨hid, hscope, hfus⟩ := hconv x hx
    obtain ⟨hid', hscope', hfus'⟩ := hkeep (F x)
    exact ⟨hid'.trans (hid.trans hxt.nodeId), hscope'.trans (hscope.trans hxt.isScopeNode),
      hfus'.trans (hfus t ht hxt)⟩
  constructor
  · intro n hn
    rw [hnodes] at hn
    obtain ⟨x, hx, rfl⟩ := List.mem_map.mp hn
    obtain ⟨t, ht, hxt⟩ := hb.nodeOf x hx
    obtain ⟨hid, hscope, hfus⟩ := hnode x hx t ht hxt
    refine ⟨t, ht, hid, hscope, fun hmem => by rw [hfus, if_pos hmem], ?_⟩
    intro hmem hnscope hex
    rw [hfus, hmem]
    refine hmarks x hx ?_ (hxt.nodeId ▸ hexcluded _ (hid ▸ hex))
    rw [hxt.isScopeNode, ← hscope]
    exact hnscope
  · intro t ht
    obtain ⟨x, hx, hxt⟩ := hb.taskOf t ht
    obtain ⟨hid, hscope, hfus⟩ := hnode x hx t ht hxt
    refine ⟨E (F x), ?_, hid, hscope, fun hmem => by rw [hfus, if_pos hmem]⟩
    rw [hnodes]
    exact List.mem_map.mpr ⟨x, hx, rfl⟩

/-- No task node at an excluded position is fusible after `InitSKGraph`, exactly when the
memory pass makes no memory task at such a position fusible. -/
theorem initSKGraph_excluded_iff {hash : HashOrder} {valueBreakerBypass : ℕ} {m : ModelRI}
    {g : SuperKernelGraph} (hg : initSKGraph hash valueBreakerBypass m = some g) :
    (∀ n ∈ g.nodes, n.isScopeNode = false → m.Excluded n.nodeId → n.isFusible = false) ↔
      ∀ t ∈ m.flatten, m.Excluded t.seqId →
        madeFusible m.flatten valueBreakerBypass t.params = false := by
  obtain ⟨hnode, htask⟩ := initSKGraph_isFusible hg
  constructor
  · intro h t ht hex
    cases haddr : t.params.memoryAddr with
    | none =>
      obtain ⟨i, p⟩ := t
      cases p <;> first | rfl | cases haddr
    | some a =>
      obtain ⟨n, hn, hid, hscope, hfus⟩ := htask t ht
      rw [← hfus (by simp [haddr])]
      refine h n hn ?_ (hid ▸ hex)
      obtain ⟨i, p⟩ := t
      cases p <;> first | exact hscope | cases haddr
  · intro h n hn hscope hex
    obtain ⟨t, ht, hid, -, hmem, hother⟩ := hnode n hn
    cases haddr : t.params.memoryAddr with
    | none => exact hother haddr hscope hex
    | some a =>
      rw [hmem (by simp [haddr])]
      exact h t ht (hid ▸ hex)

/-- A stream whose tasks `inside` are wrapped in an unfusible scope, followed by `after`. -/
def unfusibleScopeModel (inside after : TaskParams) : ModelRI :=
  [[⟨0, .kernel { scope := some ⟨.scopeBegin, defaultScopeName⟩ }⟩, ⟨1, inside⟩,
    ⟨2, .kernel { scope := some ⟨.scopeEnd, defaultScopeName⟩ }⟩, ⟨3, after⟩]]

/-- A write after the scope and a kernel inside it: the kernel stays unfusible. -/
theorem initSKGraph_excluded_sample :
    ∃ g, initSKGraph .insertion 0 (unfusibleScopeModel (.kernel {}) (.valueWrite 256 1)) = some g ∧
      ∀ n ∈ g.nodes, n.isScopeNode = false →
        ModelRI.Excluded (unfusibleScopeModel (.kernel {}) (.valueWrite 256 1)) n.nodeId →
        n.isFusible = false := by
  have hsome : (initSKGraph .insertion 0
      (unfusibleScopeModel (.kernel {}) (.valueWrite 256 1))).isSome := by decide +kernel
  obtain ⟨g, hg⟩ := Option.isSome_iff_exists.mp hsome
  exact ⟨g, hg, (initSKGraph_excluded_iff hg).mpr (by decide +kernel)⟩

/-- A value write inside an unfusible scope, to an address nobody waits on, ends up fusible. -/
theorem initSKGraph_excluded_fusible :
    ∃ g, initSKGraph .insertion 0 (unfusibleScopeModel (.valueWrite 256 1) (.kernel {})) = some g ∧
      ∃ n ∈ g.nodes, n.isScopeNode = false ∧
        ModelRI.Excluded (unfusibleScopeModel (.valueWrite 256 1) (.kernel {})) n.nodeId ∧
        n.isFusible = true := by
  have hsome : (initSKGraph .insertion 0
      (unfusibleScopeModel (.valueWrite 256 1) (.kernel {}))).isSome := by decide +kernel
  refine ⟨_, (Option.some_get hsome).symm, ?_⟩
  decide +kernel +revert

end GraphAutofusion.SuperKernel
