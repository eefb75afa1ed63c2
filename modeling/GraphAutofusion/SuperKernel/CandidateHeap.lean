import GraphAutofusion.SuperKernel.Graph

/-!
# SuperKernel.CandidateHeap — the candidate node heap of the splitter

`SkCandidateHeap` is a plain min-heap of node ids in `PRIORITY_QUEUE` mode and
three id-ordered node sets with a selection rule in every other mode. All four
containers are kept as ascending id lists; the sets do not store an id twice.
-/

namespace GraphAutofusion.SuperKernel

open List Option

inductive SkHeapType where
  | priorityQueue
  | customizeQueue
  | defaultQueue
deriving DecidableEq, Repr

inductive KernelTypeClass where
  | mix
  | vec
  | cube
  | other
deriving DecidableEq, Repr

structure SkCandidateHeap where
  heapMode : SkHeapType
  nodeHeap : List NodeId := []
  defaultNodes : List NodeId := []
  kernelNodes : List NodeId := []
  nonKernelNodes : List NodeId := []
  prevKernelTypeClass : KernelTypeClass := .other
  prevKernelStreamIdx : StreamIdx := 0
  isFirstSelection : Bool := true
deriving DecidableEq, Repr

variable (type : SkKernelType)

def isMixKernelType : Bool :=
  type = .mixAic11 || type = .mixAic12

def isVecKernelType : Bool :=
  type = .aivOnly || type = .mixAiv10

def isCubeKernelType : Bool :=
  type = .aicOnly || type = .mixAic10

def getKernelTypeClass : KernelTypeClass :=
  if isMixKernelType type then .mix
  else if isVecKernelType type then .vec
  else if isCubeKernelType type then .cube
  else .other

/-- `std::set::insert` on an ascending id list. -/
def setInsert (s : List NodeId) (nodeId : NodeId) : List NodeId :=
  if nodeId ∈ s then s else s.orderedInsert (· ≤ ·) nodeId

@[simp] theorem mem_setInsert {s : List NodeId} {a b : NodeId} :
    a ∈ setInsert s b ↔ a = b ∨ a ∈ s := by
  unfold setInsert
  split
  · rename_i hb
    constructor
    · exact Or.inr
    · rintro (rfl | ha)
      · exact hb
      · exact ha
  · exact mem_orderedInsert _

theorem length_setInsert_le (s : List NodeId) (a : NodeId) :
    (setInsert s a).length ≤ s.length + 1 := by
  unfold setInsert
  split
  · omega
  · rw [orderedInsert_length]

namespace SkCandidateHeap

variable (g : SuperKernelGraph) (h : SkCandidateHeap)

/-- `SkCandidateHeap::push`; outside `PRIORITY_QUEUE` mode unknown nodes and
memory nodes are ignored. -/
def push (nodeId : NodeId) : SkCandidateHeap :=
  if h.heapMode = .priorityQueue then
    { h with nodeHeap := h.nodeHeap.orderedInsert (· ≤ ·) nodeId }
  else
    match g.getNodeById nodeId with
    | none => h
    | some node =>
      match node.nodeType with
      | .nodeDefault => { h with defaultNodes := setInsert h.defaultNodes nodeId }
      | .nodeKernel =>
        if node.isScopeNode then { h with nonKernelNodes := setInsert h.nonKernelNodes nodeId }
        else { h with kernelNodes := setInsert h.kernelNodes nodeId }
      | .nodeNotify | .nodeWait | .nodeReset =>
        { h with nonKernelNodes := setInsert h.nonKernelNodes nodeId }
      | .nodeMemoryWrite | .nodeMemoryWait => h

def empty : Bool :=
  if h.heapMode = .priorityQueue then h.nodeHeap.isEmpty
  else h.defaultNodes.isEmpty && h.kernelNodes.isEmpty && h.nonKernelNodes.isEmpty

def size : ℕ :=
  if h.heapMode = .priorityQueue then h.nodeHeap.length
  else h.defaultNodes.length + h.kernelNodes.length + h.nonKernelNodes.length

/-- `SkCandidateHeap::reset`: drop all nodes and the selection state. -/
def reset : SkCandidateHeap := { heapMode := h.heapMode }

/-- The first kernel node, in id order, that satisfies `p`. -/
def findKernel (p : SuperKernelBaseNode → Bool) : Option NodeId :=
  h.kernelNodes.find? fun id => (g.getNodeById id).any p

/-- `SelectNextKernelNode`: the first selection prefers a MIX kernel; later ones
prefer the class that complements the previous kernel, on another stream. -/
def selectNextKernelNode : Option NodeId :=
  let otherStream (n : SuperKernelBaseNode) : Bool := n.streamIdxInGraph ≠ h.prevKernelStreamIdx
  if h.isFirstSelection then
    (h.findKernel g fun n => isMixKernelType n.kernelInfos.kernelType).or h.kernelNodes.head?
  else
    let byRule := match h.prevKernelTypeClass with
      | .mix => h.findKernel g fun n => isMixKernelType n.kernelInfos.kernelType && otherStream n
      | .vec => h.findKernel g fun n => isCubeKernelType n.kernelInfos.kernelType && otherStream n
      | .cube => h.findKernel g fun n => isVecKernelType n.kernelInfos.kernelType && otherStream n
      | .other => none
    (byRule.or (h.findKernel g otherStream)).or h.kernelNodes.head?

/-- `SkCandidateHeap::pop`: the selected id and the remaining heap, `none` when
the heap is empty. -/
def pop : Option (NodeId × SkCandidateHeap) :=
  if h.heapMode = .priorityQueue then
    match h.nodeHeap with
    | [] => none
    | id :: rest => some (id, { h with nodeHeap := rest })
  else
    match h.defaultNodes with
    | id :: rest => some (id, { h with defaultNodes := rest })
    | [] =>
      match h.nonKernelNodes with
      | id :: rest => some (id, { h with nonKernelNodes := rest })
      | [] =>
        match h.selectNextKernelNode g with
        | none => none
        | some id =>
          match g.getNodeById id with
          | none => none
          | some node => some (id, { h with
              kernelNodes := h.kernelNodes.erase id
              prevKernelTypeClass := getKernelTypeClass node.kernelInfos.kernelType
              prevKernelStreamIdx := node.streamIdxInGraph
              isFirstSelection := false })

/-- The ids stored in the heap. -/
def ids : List NodeId :=
  h.nodeHeap ++ h.defaultNodes ++ h.kernelNodes ++ h.nonKernelNodes

@[simp] theorem ids_reset : h.reset.ids = [] := rfl

/-- A push stores nothing but the pushed id. -/
theorem mem_ids_push {nodeId a : NodeId} (ha : a ∈ (h.push g nodeId).ids) :
    a = nodeId ∨ a ∈ h.ids := by
  unfold push at ha
  repeat' split at ha
  all_goals
    simp only [ids, mem_append, mem_orderedInsert, mem_setInsert] at ha ⊢
    tauto

/-- A push stores the pushed id, unless the heap ignores the node. -/
theorem mem_ids_push_self {nodeId : NodeId} {n : SuperKernelBaseNode}
    (hn : g.getNodeById nodeId = some n) (hw : n.nodeType ≠ .nodeMemoryWrite)
    (hwait : n.nodeType ≠ .nodeMemoryWait) : nodeId ∈ (h.push g nodeId).ids := by
  unfold push
  split
  · simp [ids]
  · rw [hn]
    cases htype : n.nodeType <;> simp_all [ids]
    split <;> simp

theorem mem_ids_push_of_mem {nodeId a : NodeId} (ha : a ∈ h.ids) : a ∈ (h.push g nodeId).ids := by
  unfold push
  repeat' split
  all_goals
    simp only [ids, mem_append, mem_orderedInsert, mem_setInsert] at ha ⊢
    tauto

theorem length_ids_push_le (nodeId : NodeId) : (h.push g nodeId).ids.length ≤ h.ids.length + 1 := by
  have hd := length_setInsert_le h.defaultNodes nodeId
  have hk := length_setInsert_le h.kernelNodes nodeId
  have hn := length_setInsert_le h.nonKernelNodes nodeId
  unfold push
  repeat' split
  all_goals simp only [ids, length_append, orderedInsert_length]; omega

/-- The containers agree with the heap mode, and stored kernels are in the graph. -/
structure Consistent : Prop where
  sets_empty : h.heapMode = .priorityQueue →
    h.defaultNodes = [] ∧ h.kernelNodes = [] ∧ h.nonKernelNodes = []
  heap_empty : h.heapMode ≠ .priorityQueue → h.nodeHeap = []
  kernels : ∀ id ∈ h.kernelNodes, (g.getNodeById id).isSome

theorem consistent_reset : h.reset.Consistent g :=
  ⟨fun _ => ⟨rfl, rfl, rfl⟩, fun _ => rfl, by simp [reset]⟩

variable {g h}

theorem Consistent.push (hc : h.Consistent g) (nodeId : NodeId) :
    (h.push g nodeId).Consistent g := by
  unfold SkCandidateHeap.push
  split
  · rename_i hmode
    exact ⟨fun _ => hc.sets_empty hmode, fun hne => absurd hmode hne, hc.kernels⟩
  · rename_i hmode
    split
    · exact hc
    · rename_i node hnode
      have hks : ∀ id ∈ setInsert h.kernelNodes nodeId, (g.getNodeById id).isSome := by
        intro id hid
        rcases mem_setInsert.mp hid with rfl | hid
        · simp [hnode]
        · exact hc.kernels id hid
      repeat' split
      all_goals
        first
        | exact hc
        | exact ⟨fun hp => absurd hp hmode, fun _ => hc.heap_empty hmode, hc.kernels⟩
        | exact ⟨fun hp => absurd hp hmode, fun _ => hc.heap_empty hmode, hks⟩

variable {id : NodeId}

theorem findKernel_mem {p : SuperKernelBaseNode → Bool}
    (hf : h.findKernel g p = some id) : id ∈ h.kernelNodes :=
  mem_of_find?_eq_some hf

theorem selectNextKernelNode_mem (hs : h.selectNextKernelNode g = some id) :
    id ∈ h.kernelNodes := by
  have hfind : ∀ {p : SuperKernelBaseNode → Bool} {o : Option NodeId},
      (∀ a ∈ o, a ∈ h.kernelNodes) → ∀ a ∈ (h.findKernel g p).or o, a ∈ h.kernelNodes := by
    intro p o ho a ha
    rcases Option.or_eq_some_iff.mp ha with hf | ⟨_, hf⟩
    · exact findKernel_mem hf
    · exact ho a hf
  have hhead : ∀ a ∈ h.kernelNodes.head?, a ∈ h.kernelNodes := fun a => mem_of_mem_head?
  unfold selectNextKernelNode at hs
  split at hs
  · exact hfind hhead id hs
  · have hrule : ∀ o : Option NodeId, (∀ a ∈ o, a ∈ h.kernelNodes) →
        ∀ a ∈ (o.or (h.findKernel g fun n => n.streamIdxInGraph ≠ h.prevKernelStreamIdx)).or
          h.kernelNodes.head?, a ∈ h.kernelNodes := by
      intro o ho a ha
      rcases Option.or_eq_some_iff.mp ha with ha | ⟨_, ha⟩
      · rcases Option.or_eq_some_iff.mp ha with ha | ⟨_, ha⟩
        · exact ho a ha
        · exact findKernel_mem ha
      · exact hhead a ha
    refine hrule _ ?_ id hs
    intro a ha
    split at ha
    · exact findKernel_mem ha
    · exact findKernel_mem ha
    · exact findKernel_mem ha
    · simp at ha

theorem selectNextKernelNode_isSome (hne : h.kernelNodes ≠ []) :
    (h.selectNextKernelNode g).isSome := by
  obtain ⟨a, rest, hcons⟩ := exists_cons_of_ne_nil hne
  unfold selectNextKernelNode
  split <;> simp [hcons]

/-- `pop` takes one stored id out of the heap. -/
theorem pop_spec {h' : SkCandidateHeap} (hp : h.pop g = some (id, h')) :
    id ∈ h.ids ∧ (∀ a ∈ h'.ids, a ∈ h.ids) ∧ h'.ids.length + 1 = h.ids.length ∧
      h'.heapMode = h.heapMode := by
  unfold pop at hp
  split at hp
  · split at hp
    · simp at hp
    · rename_i hheap
      obtain ⟨rfl, rfl⟩ := by simpa using hp
      simp [ids, hheap]
      tauto
  · split at hp
    · rename_i hd
      obtain ⟨rfl, rfl⟩ := by simpa using hp
      simp [ids, hd]
      refine ⟨?_, by omega⟩
      tauto
    · split at hp
      · rename_i hn
        obtain ⟨rfl, rfl⟩ := by simpa using hp
        simp [ids, hn]
        refine ⟨?_, by omega⟩
        tauto
      · split at hp
        · simp at hp
        · rename_i id' hsel
          have hmem := selectNextKernelNode_mem hsel
          split at hp
          · simp at hp
          · obtain ⟨rfl, rfl⟩ := by simpa using hp
            have hlen := length_erase_of_mem hmem
            have hpos := length_pos_of_mem hmem
            refine ⟨by simp [ids, hmem], ?_, by simp [ids, hlen]; omega, rfl⟩
            intro a ha
            simp only [ids, mem_append] at ha ⊢
            have herase : a ∈ h.kernelNodes.erase id' → a ∈ h.kernelNodes := mem_of_mem_erase
            tauto

/-- A consistent heap with no selectable id is empty. -/
theorem ids_eq_nil_of_pop (hc : h.Consistent g) (hp : h.pop g = none) : h.ids = [] := by
  unfold pop at hp
  split at hp
  · rename_i hmode
    obtain ⟨hd, hk, hn⟩ := hc.sets_empty hmode
    split at hp
    · rename_i hh
      simp [ids, hh, hd, hk, hn]
    · simp at hp
  · rename_i hmode
    have hh := hc.heap_empty hmode
    split at hp
    · simp at hp
    · rename_i hd
      split at hp
      · simp at hp
      · rename_i hn
        by_cases hk : h.kernelNodes = []
        · simp [ids, hh, hd, hk, hn]
        · obtain ⟨id, hsel⟩ := isSome_iff_exists.mp (selectNextKernelNode_isSome (g := g) hk)
          obtain ⟨node, hnode⟩ :=
            isSome_iff_exists.mp (hc.kernels id (selectNextKernelNode_mem hsel))
          simp [hsel, hnode] at hp

theorem Consistent.pop {h' : SkCandidateHeap} (hc : h.Consistent g)
    (hp : h.pop g = some (id, h')) : h'.Consistent g := by
  unfold SkCandidateHeap.pop at hp
  split at hp
  · rename_i hmode
    split at hp
    · simp at hp
    · obtain ⟨rfl, rfl⟩ := by simpa using hp
      exact ⟨fun _ => hc.sets_empty hmode, fun hne => absurd hmode hne, hc.kernels⟩
  · rename_i hmode
    split at hp
    · obtain ⟨rfl, rfl⟩ := by simpa using hp
      exact ⟨fun hp => absurd hp hmode, fun _ => hc.heap_empty hmode, hc.kernels⟩
    · split at hp
      · obtain ⟨rfl, rfl⟩ := by simpa using hp
        exact ⟨fun hp => absurd hp hmode, fun _ => hc.heap_empty hmode, hc.kernels⟩
      · split at hp
        · simp at hp
        · split at hp
          · simp at hp
          · obtain ⟨rfl, rfl⟩ := by simpa using hp
            exact ⟨fun hp => absurd hp hmode, fun _ => hc.heap_empty hmode,
              fun a ha => hc.kernels a (mem_of_mem_erase ha)⟩

theorem empty_iff (hc : h.Consistent g) : h.empty = true ↔ h.ids = [] := by
  unfold empty
  split
  · rename_i hmode
    obtain ⟨hd, hk, hn⟩ := hc.sets_empty hmode
    simp [ids, hd, hk, hn]
  · rename_i hmode
    simp [ids, hc.heap_empty hmode, and_assoc]

end SkCandidateHeap

end GraphAutofusion.SuperKernel
