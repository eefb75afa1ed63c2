import GraphAutofusion.SuperKernel.Graph
import Mathlib.Data.List.AList

/-!
# SuperKernel.ModelRI — the graph of a captured model

`InitFromModelRI` walks the streams of a model and turns every task into a node of the
graph: `InitNode` reads the task's parameters, `RegisterFusibleScope` gives each named
fusible scope an index, and `AddNode` enters the node into the event or memory table.

What the runtime answers about a task (its parameters, whether the functions of a kernel
resolve, whether it is a SIMT kernel) is data of the task here. A query that fails makes
`InitSKGraph` return false before any pass runs, so such models are not represented.
-/

namespace GraphAutofusion.SuperKernel

open List Option

def UINT64_MAX : BitVec 64 := BitVec.allOnes 64

/-- `SkMemoryWaitFlag`, by its numbers in `sk_common.h`. -/
inductive SkMemoryWaitFlag where
  | geq
  | eq
  | and
  | nor
deriving DecidableEq, Repr

def SkMemoryWaitFlag.ofFlag : ℕ → Option SkMemoryWaitFlag
  | 0 => some .geq
  | 1 => some .eq
  | 2 => some .and
  | 3 => some .nor
  | _ => none

/-- Which of the three marker kernels a scope kernel is. -/
inductive ScopeKernelKind where
  | scopeBegin
  | scopeEnd
  | placeholder
deriving DecidableEq, Repr

/-- What `IsScopeKernel` reads from a marker kernel. -/
structure ScopeKernelArgs where
  kind : ScopeKernelKind
  name : String
deriving DecidableEq, Repr

def defaultScopeName : String := "default_sk_scope_name"

def ScopeKernelArgs.isFuseEnable (s : ScopeKernelArgs) : Bool := s.name != defaultScopeName

/-- A kernel task. `hasFunc` says that its function name and its binary are there,
`funcsResolved` is the answer of `InitKernelResolvedFuncs`, `isSimt` the outcome of
`IdentifyAndHandleSimtKernel`. -/
structure KernelTaskParams where
  scope : Option ScopeKernelArgs := none
  kernelInfos : KernelInfos := {}
  hasFunc : Bool := true
  funcsResolved : Bool := true
  isSimt : Bool := false
  hasTaskGrp : Bool := false
deriving DecidableEq, Repr

/-- An event task: `isDefault` compares its record or wait flag with the default one,
`isExternal` is the bit `ACL_EVENT_EXTERNAL` of the event. -/
structure EventTaskParams where
  event : EventId
  isDefault : Bool := true
  isExternal : Bool := false
deriving DecidableEq, Repr

inductive TaskParams where
  | kernel (params : KernelTaskParams)
  | eventRecord (params : EventTaskParams)
  | eventWait (params : EventTaskParams)
  | eventReset (params : EventTaskParams)
  | valueWrite (devAddr : EventId) (value : BitVec 64)
  | valueWait (devAddr : EventId) (value : BitVec 64) (flag : ℕ)
  | other
deriving DecidableEq, Repr

structure ModelTask where
  seqId : NodeId
  params : TaskParams
deriving DecidableEq, Repr

/-- A captured model: the tasks of each of its streams. -/
abbrev ModelRI := List (List ModelTask)

/-- A memory value as the node keeps it: the largest value stands for "not set". -/
def encodeValue (value : BitVec 64) : Option ℕ :=
  if value = UINT64_MAX then none else some value.toNat

def decodeValue (value : Option ℕ) : BitVec 64 :=
  match value with
  | none => UINT64_MAX
  | some v => BitVec.ofNat 64 v

@[simp]
theorem decodeValue_encodeValue (value : BitVec 64) : decodeValue (encodeValue value) = value := by
  unfold encodeValue decodeValue
  split_ifs with h
  · exact h.symm
  · simp

namespace TaskParams

variable (p : TaskParams)

def nodeType : SkNodeType :=
  match p with
  | .kernel _ => .nodeKernel
  | .eventRecord _ => .nodeNotify
  | .eventWait _ => .nodeWait
  | .eventReset _ => .nodeReset
  | .valueWrite _ _ => .nodeMemoryWrite
  | .valueWait _ _ _ => .nodeMemoryWait
  | .other => .nodeDefault

def scope : Option ScopeKernelArgs :=
  match p with
  | .kernel k => k.scope
  | _ => none

/-- `isFusible` as `InitNode` leaves it. -/
def isFusible : Bool :=
  match p with
  | .kernel k =>
    let fusible :=
      match k.scope with
      | some s => s.isFuseEnable
      | none => k.hasFunc && k.funcsResolved
    fusible && !k.isSimt && !k.hasTaskGrp
  | .eventRecord e | .eventWait e => e.isDefault && !e.isExternal
  | _ => false

def syncInfos : SyncInfos :=
  match p with
  | .eventRecord e =>
    { eventId := some e.event, memoryValue := some SK_DEFAULT_NOTIFY_VALUE,
      memoryWaitFlag := SK_DEFAULT_WRITE_FLAG }
  | .eventWait e =>
    { eventId := some e.event, memoryValue := some SK_DEFAULT_WAIT_VALUE, memoryWaitFlag := 1 }
  | .eventReset e =>
    { eventId := some e.event, memoryValue := some SK_DEFAULT_RESET_VALUE,
      memoryWaitFlag := SK_DEFAULT_WRITE_FLAG }
  | .valueWrite devAddr value =>
    { eventId := some devAddr, addrValue := some devAddr, memoryValue := encodeValue value }
  | .valueWait devAddr value flag =>
    { eventId := some devAddr, addrValue := some devAddr, memoryValue := encodeValue value,
      memoryWaitFlag := flag }
  | _ => {}

/-- `InitNode` refuses a memory task without an address. -/
def isNullAddr : Bool :=
  match p with
  | .valueWrite devAddr _ | .valueWait devAddr _ _ => devAddr == 0
  | _ => false

def kernelInfos : KernelInfos :=
  match p with
  | .kernel k => k.kernelInfos
  | _ => {}

end TaskParams

/-- `InitNode` of a task of stream `streamIdx`. A scope kernel keeps its name only when it
asks for fusion, whatever later makes it unfusible. -/
def initNode (streamIdx taskIdx : ℕ) (preNodeId : Option NodeId) (t : ModelTask) :
    Option SuperKernelBaseNode :=
  if t.params.isNullAddr then none
  else some {
    nodeId := t.seqId
    streamIdxInGraph := streamIdx
    nodeIdxInStream := taskIdx
    preNodeId := preNodeId
    nodeType := t.params.nodeType
    isFusible := t.params.isFusible
    isScopeNode := t.params.scope.isSome
    isScopeBegin := t.params.scope.any (·.kind == .scopeBegin)
    isScopeEnd := t.params.scope.any (·.kind == .scopeEnd)
    isPlaceholder := t.params.scope.any (·.kind == .placeholder)
    scopeName := (t.params.scope.filter (·.isFuseEnable)).elim "" (·.name)
    kernelInfos := t.params.kernelInfos
    syncInfos := t.params.syncInfos }

structure MemoryInfos where
  writeNodeIdList : List NodeId := []
  waitNodeIdList : List NodeId := []
deriving DecidableEq, Repr

/-- The graph while `InitSKGraph` builds it: `memoryToNodes`, and `scopeNameToIdx` as the
list of the registered names, each at its index. -/
structure ModelGraph extends SuperKernelGraph where
  memoryToNodes : AList (fun _ : EventId => MemoryInfos) := ∅
  scopeNameToIdx : List String := []

namespace ModelGraph

variable (g : ModelGraph)

def memoryInfo (eventId : EventId) : MemoryInfos :=
  (g.memoryToNodes.lookup eventId).getD {}

/-- `eventToNodes[eventId]`, which makes an empty entry when there is none. -/
def eventInfo (eventId : EventId) : EventInfos := (g.getEventInfo eventId).getD {}

def setEventInfo (eventId : EventId) (info : EventInfos) : ModelGraph :=
  { g with
    eventToNodes :=
      if g.eventToNodes.any (·.1 == eventId) then
        g.eventToNodes.map fun e => if e.1 = eventId then (eventId, info) else e
      else g.eventToNodes ++ [(eventId, info)] }

def setMemoryInfo (eventId : EventId) (info : MemoryInfos) : ModelGraph :=
  { g with memoryToNodes := g.memoryToNodes.insert eventId info }

def modifyNode (nodeId : NodeId) (f : SuperKernelBaseNode → SuperKernelBaseNode) : ModelGraph :=
  { g with nodes := g.nodes.map fun n => if n.nodeId = nodeId then f n else n }

def addEventAssociateNotify (eventId : EventId) (nodeId : NodeId) : Option ModelGraph :=
  let info := g.eventInfo eventId
  if info.notifyNodeId.isSome then none
  else some (g.setEventInfo eventId { info with notifyNodeId := some nodeId })

def addEventAssociateWait (eventId : EventId) (nodeId : NodeId) : Option ModelGraph :=
  let info := g.eventInfo eventId
  if nodeId ∈ info.waitNodeIdList then none
  else some (g.setEventInfo eventId { info with waitNodeIdList := info.waitNodeIdList ++ [nodeId] })

def addEventAssociateReset (eventId : EventId) (nodeId : NodeId) : Option ModelGraph :=
  let info := g.eventInfo eventId
  if nodeId ∈ info.resetNodeIdList then none
  else some
    (g.setEventInfo eventId { info with resetNodeIdList := info.resetNodeIdList ++ [nodeId] })

def addMemoryAssociateWrite (eventId : EventId) (nodeId : NodeId) : Option ModelGraph :=
  let info := g.memoryInfo eventId
  if nodeId ∈ info.writeNodeIdList then none
  else some
    (g.setMemoryInfo eventId { info with writeNodeIdList := info.writeNodeIdList ++ [nodeId] })

def addMemoryAssociateWait (eventId : EventId) (nodeId : NodeId) : Option ModelGraph :=
  let info := g.memoryInfo eventId
  if nodeId ∈ info.waitNodeIdList then none
  else some
    (g.setMemoryInfo eventId { info with waitNodeIdList := info.waitNodeIdList ++ [nodeId] })

/-- The table entry `AddNode` makes for a node. -/
def associate (n : SuperKernelBaseNode) : Option ModelGraph :=
  match n.nodeType, n.syncInfos.eventId with
  | .nodeNotify, some e => g.addEventAssociateNotify e n.nodeId
  | .nodeWait, some e => g.addEventAssociateWait e n.nodeId
  | .nodeReset, some e => g.addEventAssociateReset e n.nodeId
  | .nodeMemoryWrite, some e => g.addMemoryAssociateWrite e n.nodeId
  | .nodeMemoryWait, some e => g.addMemoryAssociateWait e n.nodeId
  | _, _ => some g

def addNode (n : SuperKernelBaseNode) : Option ModelGraph := do
  let g ← g.associate n
  if (g.getNodeById n.nodeId).isSome then none
  else some { g with nodes := g.nodes ++ [n] }

/-- `RegisterFusibleScope`: beyond `MAX_SCOPE_NUM` names the scope becomes unfusible, also
when its name is registered already. -/
def registerFusibleScope (n : SuperKernelBaseNode) : ModelGraph × SuperKernelBaseNode :=
  if n.nodeType = .nodeKernel ∧ n.isScopeNode ∧ n.scopeName ≠ "" ∧ n.isFusible then
    if MAX_SCOPE_NUM ≤ g.scopeNameToIdx.length then (g, { n with isFusible := false })
    else if n.scopeName ∈ g.scopeNameToIdx then (g, n)
    else ({ g with scopeNameToIdx := g.scopeNameToIdx ++ [n.scopeName] }, n)
  else (g, n)

def updateNodeRelations (nodeId : NodeId) (taskIdx : ℕ) (preNodeId : Option NodeId) : ModelGraph :=
  let g := if taskIdx = 0 then { g with headNodes := g.headNodes ++ [nodeId] } else g
  match preNodeId with
  | some p => g.modifyNode p fun n => { n with nextNodeId := some nodeId }
  | none => g

def processSingleTask (streamIdx taskIdx : ℕ) (preNodeId : Option NodeId) (t : ModelTask) :
    Option ModelGraph := do
  let n ← initNode streamIdx taskIdx preNodeId t
  let (g, n) := g.registerFusibleScope n
  let g ← g.addNode n
  return g.updateNodeRelations n.nodeId taskIdx preNodeId

/-- The tasks of one stream, from its task `taskIdx` on. -/
def processStream (g : ModelGraph) (streamIdx taskIdx : ℕ) (preNodeId : Option NodeId) :
    List ModelTask → Option ModelGraph
  | [] => some g
  | t :: ts => do
    let g ← g.processSingleTask streamIdx taskIdx preNodeId t
    processStream g streamIdx (taskIdx + 1) (some t.seqId) ts

/-- `ProcessAllStreamsAndTasks`, from stream `streamIdx` on. -/
def processAllStreams (g : ModelGraph) (streamIdx : ℕ) : List (List ModelTask) → Option ModelGraph
  | [] => some g
  | ts :: streams => do
    let g ← g.processStream streamIdx 0 none ts
    processAllStreams g (streamIdx + 1) streams

end ModelGraph

/-- `InitFromModelRI`; `none` is the return value false. -/
def initFromModelRI (m : ModelRI) : Option ModelGraph :=
  ({ nodes := [], eventToNodes := [], headNodes := [], streamNum := m.length } :
    ModelGraph).processAllStreams 0 m

/-! ## What the built graph holds -/

/-- Node `n` is the node of task `t`. -/
structure NodeOfTask (t : ModelTask) (n : SuperKernelBaseNode) : Prop where
  nodeId : n.nodeId = t.seqId
  nodeType : n.nodeType = t.params.nodeType
  isScopeNode : n.isScopeNode = t.params.scope.isSome
  syncInfos : n.syncInfos = t.params.syncInfos
  noMarker : n.isScopeNode = false → n.isScopeBegin = false ∧ n.isScopeEnd = false
  notFusible : t.params.scope = none → t.params.isFusible = false → n.isFusible = false

/-- The graph built from the tasks `ts`. -/
structure Built (ts : List ModelTask) (g : ModelGraph) : Prop where
  nodeOf : ∀ n ∈ g.nodes, ∃ t ∈ ts, NodeOfTask t n
  taskOf : ∀ t ∈ ts, ∃ n ∈ g.nodes, NodeOfTask t n
  nodup : (g.nodes.map (·.nodeId)).Nodup
  write : ∀ a i, i ∈ (g.memoryInfo a).writeNodeIdList ↔ ∃ v, ⟨i, .valueWrite a v⟩ ∈ ts
  wait : ∀ a i, i ∈ (g.memoryInfo a).waitNodeIdList ↔ ∃ v f, ⟨i, .valueWait a v f⟩ ∈ ts

namespace ModelGraph

variable {g g' : ModelGraph}

@[simp]
theorem memoryInfo_setMemoryInfo_self (a : EventId) (info : MemoryInfos) :
    (g.setMemoryInfo a info).memoryInfo a = info := by
  simp [memoryInfo, setMemoryInfo]

theorem memoryInfo_setMemoryInfo_of_ne {a b : EventId} (h : b ≠ a) (info : MemoryInfos) :
    (g.setMemoryInfo a info).memoryInfo b = g.memoryInfo b := by
  simp [memoryInfo, setMemoryInfo, AList.lookup_insert_ne h]

/-- What the event association steps leave alone. -/
structure SameNodes (g g' : ModelGraph) : Prop where
  nodes : g'.nodes = g.nodes
  memoryToNodes : g'.memoryToNodes = g.memoryToNodes
  scopeNameToIdx : g'.scopeNameToIdx = g.scopeNameToIdx

theorem SameNodes.memoryInfo (h : SameNodes g g') (a : EventId) :
    g'.memoryInfo a = g.memoryInfo a := by
  rw [ModelGraph.memoryInfo, h.memoryToNodes, ← ModelGraph.memoryInfo]

variable {e : EventId} {i : NodeId}

theorem addEventAssociateNotify_same
    (h : g.addEventAssociateNotify e i = some g') : SameNodes g g' := by
  simp only [addEventAssociateNotify, ite_none_left_eq_some, some.injEq] at h
  obtain ⟨-, rfl⟩ := h
  exact ⟨rfl, rfl, rfl⟩

theorem addEventAssociateWait_same
    (h : g.addEventAssociateWait e i = some g') : SameNodes g g' := by
  simp only [addEventAssociateWait, ite_none_left_eq_some, some.injEq] at h
  obtain ⟨-, rfl⟩ := h
  exact ⟨rfl, rfl, rfl⟩

theorem addEventAssociateReset_same
    (h : g.addEventAssociateReset e i = some g') : SameNodes g g' := by
  simp only [addEventAssociateReset, ite_none_left_eq_some, some.injEq] at h
  obtain ⟨-, rfl⟩ := h
  exact ⟨rfl, rfl, rfl⟩

theorem addMemoryAssociateWrite_spec (h : g.addMemoryAssociateWrite e i = some g') :
    g'.nodes = g.nodes ∧
      (∀ a j, j ∈ (g'.memoryInfo a).writeNodeIdList ↔
        j ∈ (g.memoryInfo a).writeNodeIdList ∨ a = e ∧ j = i) ∧
      ∀ a, (g'.memoryInfo a).waitNodeIdList = (g.memoryInfo a).waitNodeIdList := by
  simp only [addMemoryAssociateWrite, ite_none_left_eq_some, some.injEq] at h
  obtain ⟨-, rfl⟩ := h
  refine ⟨rfl, fun a j => ?_, fun a => ?_⟩
  · by_cases ha : a = e
    · subst ha; simp
    · simp [memoryInfo_setMemoryInfo_of_ne ha, ha]
  · by_cases ha : a = e
    · subst ha; simp
    · simp [memoryInfo_setMemoryInfo_of_ne ha]

theorem addMemoryAssociateWait_spec (h : g.addMemoryAssociateWait e i = some g') :
    g'.nodes = g.nodes ∧
      (∀ a j, j ∈ (g'.memoryInfo a).waitNodeIdList ↔
        j ∈ (g.memoryInfo a).waitNodeIdList ∨ a = e ∧ j = i) ∧
      ∀ a, (g'.memoryInfo a).writeNodeIdList = (g.memoryInfo a).writeNodeIdList := by
  simp only [addMemoryAssociateWait, ite_none_left_eq_some, some.injEq] at h
  obtain ⟨-, rfl⟩ := h
  refine ⟨rfl, fun a j => ?_, fun a => ?_⟩
  · by_cases ha : a = e
    · subst ha; simp
    · simp [memoryInfo_setMemoryInfo_of_ne ha, ha]
  · by_cases ha : a = e
    · subst ha; simp
    · simp [memoryInfo_setMemoryInfo_of_ne ha]

/-- `associate` enters a memory node under its address and no other node. -/
theorem associate_spec {t : ModelTask} {n : SuperKernelBaseNode} (hn : NodeOfTask t n)
    (h : g.associate n = some g') :
    g'.nodes = g.nodes ∧
      (∀ a i, i ∈ (g'.memoryInfo a).writeNodeIdList ↔
        i ∈ (g.memoryInfo a).writeNodeIdList ∨ ∃ v, t = ⟨i, .valueWrite a v⟩) ∧
      ∀ a i, i ∈ (g'.memoryInfo a).waitNodeIdList ↔
        i ∈ (g.memoryInfo a).waitNodeIdList ∨ ∃ v f, t = ⟨i, .valueWait a v f⟩ := by
  obtain ⟨i, p⟩ := t
  rw [associate, hn.nodeType, hn.syncInfos, hn.nodeId] at h
  cases p with
  | kernel k | other =>
    obtain rfl : g = g' := by simpa [TaskParams.nodeType] using h
    simp
  | eventRecord e =>
    have hs := addEventAssociateNotify_same (e := e.event) (i := i) h
    simp [hs.nodes, hs.memoryInfo]
  | eventWait e =>
    have hs := addEventAssociateWait_same (e := e.event) (i := i) h
    simp [hs.nodes, hs.memoryInfo]
  | eventReset e =>
    have hs := addEventAssociateReset_same (e := e.event) (i := i) h
    simp [hs.nodes, hs.memoryInfo]
  | valueWrite b v =>
    obtain ⟨hnodes, hwrite, hwait⟩ := addMemoryAssociateWrite_spec (e := b) (i := i) h
    refine ⟨hnodes, fun a j => ?_, fun a j => ?_⟩
    · rw [hwrite]
      apply or_congr_right
      constructor
      · rintro ⟨rfl, rfl⟩
        exact ⟨v, rfl⟩
      · rintro ⟨w, hw⟩
        cases hw
        exact ⟨rfl, rfl⟩
    · simp [hwait]
  | valueWait b v f =>
    obtain ⟨hnodes, hwait, hwrite⟩ := addMemoryAssociateWait_spec (e := b) (i := i) h
    refine ⟨hnodes, fun a j => ?_, fun a j => ?_⟩
    · simp [hwrite]
    · rw [hwait]
      apply or_congr_right
      constructor
      · rintro ⟨rfl, rfl⟩
        exact ⟨v, f, rfl⟩
      · rintro ⟨w, f', hw⟩
        cases hw
        exact ⟨rfl, rfl⟩

theorem NodeOfTask_initNode {streamIdx taskIdx : ℕ} {pre : Option NodeId} {t : ModelTask}
    {n : SuperKernelBaseNode} (h : initNode streamIdx taskIdx pre t = some n) : NodeOfTask t n := by
  simp only [initNode, ite_none_left_eq_some, some.injEq] at h
  obtain ⟨-, rfl⟩ := h
  refine ⟨rfl, rfl, rfl, rfl, fun hscope => ?_, fun _ => id⟩
  obtain hnone : t.params.scope = none := by simpa using hscope
  simp [hnone]

/-- Registering a scope touches the registry and, beyond the limit, the fusibility. -/
theorem registerFusibleScope_spec (n : SuperKernelBaseNode) :
    (g.registerFusibleScope n).1.nodes = g.nodes ∧
      (g.registerFusibleScope n).1.memoryToNodes = g.memoryToNodes ∧
      ∀ t, NodeOfTask t n → NodeOfTask t (g.registerFusibleScope n).2 := by
  unfold registerFusibleScope
  split_ifs with h₁ h₂ h₃
  · exact ⟨rfl, rfl, fun t ht => ⟨ht.1, ht.2, ht.3, ht.4, ht.5, fun _ _ => rfl⟩⟩
  all_goals exact ⟨rfl, rfl, fun t ht => ht⟩

/-- Linking the previous node changes only its `nextNodeId`. -/
theorem updateNodeRelations_nodes (i : NodeId) (taskIdx : ℕ) (pre : Option NodeId) :
    ∃ f : SuperKernelBaseNode → SuperKernelBaseNode,
      (g.updateNodeRelations i taskIdx pre).nodes = g.nodes.map f ∧
      (g.updateNodeRelations i taskIdx pre).memoryToNodes = g.memoryToNodes ∧
      (∀ n, (f n).nodeId = n.nodeId) ∧ ∀ t n, NodeOfTask t n → NodeOfTask t (f n) := by
  unfold updateNodeRelations
  cases pre with
  | none => exact ⟨id, by split_ifs <;> simp, by split_ifs <;> rfl, fun _ => rfl, fun _ _ h => h⟩
  | some p =>
    refine ⟨fun n => if n.nodeId = p then { n with nextNodeId := some i } else n, ?_, ?_, ?_, ?_⟩
    · split_ifs <;> rfl
    · split_ifs <;> rfl
    · intro n
      dsimp only
      split_ifs <;> rfl
    · intro t n ht
      dsimp only
      split_ifs
      · exact ⟨ht.1, ht.2, ht.3, ht.4, ht.5, ht.6⟩
      · exact ht

/-- One more task keeps the graph built from its tasks. -/
theorem processSingleTask_built {ts : List ModelTask} {t : ModelTask} {streamIdx taskIdx : ℕ}
    {pre : Option NodeId} (hb : Built ts g)
    (h : g.processSingleTask streamIdx taskIdx pre t = some g') : Built (ts ++ [t]) g' := by
  simp only [processSingleTask, bind_eq_bind, bind_eq_some_iff, pure,
    some.injEq, addNode, ite_none_left_eq_some] at h
  obtain ⟨n, hn, g₂, ⟨g₁, hg₁, hnew, rfl⟩, rfl⟩ := h
  obtain ⟨hrnodes, hrmem, hrtask⟩ := g.registerFusibleScope_spec n
  have htask := hrtask t (NodeOfTask_initNode hn)
  obtain ⟨hanodes, hawrite, hawait⟩ := associate_spec htask hg₁
  set m := (g.registerFusibleScope n).2
  obtain ⟨f, hfnodes, hfmem, hfid, hftask⟩ :=
    updateNodeRelations_nodes (g := { g₁ with nodes := g₁.nodes ++ [m] }) m.nodeId taskIdx pre
  have hmem : ∀ a, (({ g₁ with nodes := g₁.nodes ++ [m] } : ModelGraph).updateNodeRelations
      m.nodeId taskIdx pre).memoryInfo a = g₁.memoryInfo a := by
    intro a
    rw [memoryInfo, hfmem, ← memoryInfo]
    rfl
  have hreg : ∀ a, (g.registerFusibleScope n).1.memoryInfo a = g.memoryInfo a := by
    intro a
    rw [memoryInfo, hrmem, ← memoryInfo]
  have hnodes : g₁.nodes = g.nodes := hanodes.trans hrnodes
  refine ⟨?_, ?_, ?_, fun a i => ?_, fun a i => ?_⟩
  · rw [hfnodes, hnodes]
    intro x hx
    obtain ⟨y, hy, rfl⟩ := List.mem_map.mp hx
    rcases mem_append.mp hy with hy | hy
    · obtain ⟨u, hu, hyu⟩ := hb.nodeOf y hy
      exact ⟨u, mem_append_left _ hu, hftask u y hyu⟩
    · obtain rfl : y = m := by simpa using hy
      exact ⟨t, by simp, hftask t _ htask⟩
  · rw [hfnodes, hnodes]
    intro u hu
    rcases mem_append.mp hu with hu | hu
    · obtain ⟨y, hy, hyu⟩ := hb.taskOf u hu
      exact ⟨f y, List.mem_map_of_mem (mem_append_left _ hy), hftask u y hyu⟩
    · obtain rfl : u = t := by simpa using hu
      exact ⟨f m, List.mem_map_of_mem (by simp), hftask u m htask⟩
  · have hids : (g.nodes ++ [m]).map (fun n => (f n).nodeId) = g.nodes.map (·.nodeId) ++ [m.nodeId] := by
      simp [hfid]
    rw [hfnodes, hnodes, List.map_map]
    refine (congrArg Nodup hids).mpr (nodup_append.mpr ⟨hb.nodup, by simp, ?_⟩)
    -- the new id is fresh: `AddNode` refuses a duplicate
    intro i hi j hj hij
    obtain rfl : j = m.nodeId := by simpa using hj
    obtain ⟨x, hx, hxi⟩ := List.mem_map.mp hi
    apply hnew
    rw [SuperKernelGraph.getNodeById, find?_isSome]
    exact ⟨x, hnodes ▸ hx, by simp [hxi, hij]⟩
  · rw [hmem, hawrite, hreg, hb.write]
    simp only [mem_append, mem_singleton, exists_or, eq_comm]
  · rw [hmem, hawait, hreg, hb.wait]
    simp only [mem_append, mem_singleton, exists_or, eq_comm]

theorem processStream_built {streamIdx : ℕ} : ∀ {ts done : List ModelTask} {g : ModelGraph}
    {taskIdx : ℕ} {pre : Option NodeId}, Built done g →
    g.processStream streamIdx taskIdx pre ts = some g' → Built (done ++ ts) g'
  | [], done, g, taskIdx, pre, hb, h => by
    obtain rfl : g = g' := by simpa [processStream] using h
    simpa using hb
  | t :: ts, done, g, taskIdx, pre, hb, h => by
    simp only [processStream, bind_eq_bind, bind_eq_some_iff] at h
    obtain ⟨g₁, hg₁, h⟩ := h
    simpa using processStream_built (processSingleTask_built hb hg₁) h

theorem processAllStreams_built : ∀ {streams : List (List ModelTask)} {done : List ModelTask}
    {g : ModelGraph} {streamIdx : ℕ}, Built done g →
    g.processAllStreams streamIdx streams = some g' → Built (done ++ streams.flatten) g'
  | [], done, g, streamIdx, hb, h => by
    obtain rfl : g = g' := by simpa [processAllStreams] using h
    simpa using hb
  | ts :: streams, done, g, streamIdx, hb, h => by
    simp only [processAllStreams, bind_eq_bind, bind_eq_some_iff] at h
    obtain ⟨g₁, hg₁, h⟩ := h
    simpa using processAllStreams_built (processStream_built hb hg₁) h

end ModelGraph

/-- `InitFromModelRI` makes one node for each task of the model. -/
theorem initFromModelRI_built {m : ModelRI} {g : ModelGraph} (h : initFromModelRI m = some g) :
    Built m.flatten g := by
  have hb : Built [] ({ nodes := [], eventToNodes := [], headNodes := [], streamNum := m.length } :
      ModelGraph) :=
    ⟨by simp, by simp, by simp, by simp [ModelGraph.memoryInfo], by simp [ModelGraph.memoryInfo]⟩
  simpa using ModelGraph.processAllStreams_built hb h

end GraphAutofusion.SuperKernel
