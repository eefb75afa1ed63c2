import GraphAutofusion.SuperKernel.InitialSplit
import GraphAutofusion.SuperKernel.ModelRI

/-!
# SuperKernel.StreamHeads — the heads the initial split starts from

`UpdateNodeRelations` pushes the first task of a stream on `headNodes`, so an empty stream
leaves no entry there. `InitStreamStates` reads the vector by stream index. The other tasks
of the stream are chained behind the head.
-/

namespace GraphAutofusion.SuperKernel

open List Option

/-- The head a stream should start from. -/
def firstTask (ts : List ModelTask) : Option NodeId := ts.head?.map (·.seqId)

variable {ts : List ModelTask}

namespace ModelGraph

variable {g g' : ModelGraph} {streamIdx taskIdx : ℕ} {pre : Option NodeId}

/-- The step leaves the heads and the streams alone. -/
structure SameHeads (g g' : ModelGraph) : Prop where
  headNodes : g'.headNodes = g.headNodes
  streamNum : g'.streamNum = g.streamNum

theorem associate_sameHeads {n : SuperKernelBaseNode} (h : g.associate n = some g') :
    SameHeads g g' := by
  unfold associate at h
  split at h
  -- the five tables: each association only rewrites its own table
  iterate 5
    simp only [addEventAssociateNotify, addEventAssociateWait, addEventAssociateReset,
      addMemoryAssociateWrite, addMemoryAssociateWait, ite_none_left_eq_some,
      some.injEq] at h
    rw [← h.2]
    exact ⟨rfl, rfl⟩
  cases h
  exact ⟨rfl, rfl⟩

theorem registerFusibleScope_sameHeads (n : SuperKernelBaseNode) :
    SameHeads g (g.registerFusibleScope n).1 ∧ (g.registerFusibleScope n).2.nodeId = n.nodeId := by
  unfold registerFusibleScope
  split_ifs
  all_goals exact ⟨⟨rfl, rfl⟩, rfl⟩

theorem updateNodeRelations_headNodes (i : NodeId) :
    (g.updateNodeRelations i taskIdx pre).headNodes =
        (if taskIdx = 0 then g.headNodes ++ [i] else g.headNodes) ∧
      (g.updateNodeRelations i taskIdx pre).streamNum = g.streamNum := by
  unfold updateNodeRelations
  cases pre
  all_goals
    dsimp only
    split
    · exact ⟨rfl, rfl⟩
    · exact ⟨rfl, rfl⟩

/-- Only the task at position 0 of its stream becomes a head. -/
theorem processSingleTask_headNodes {t : ModelTask}
    (h : g.processSingleTask streamIdx taskIdx pre t = some g') :
    g'.headNodes = (if taskIdx = 0 then g.headNodes ++ [t.seqId] else g.headNodes) ∧
      g'.streamNum = g.streamNum := by
  simp only [processSingleTask, bind_eq_bind, bind_eq_some_iff, pure,
    some.injEq, addNode, ite_none_left_eq_some] at h
  obtain ⟨n, hn, g₂, ⟨g₁, hg₁, -, rfl⟩, rfl⟩ := h
  have hid : n.nodeId = t.seqId := (NodeOfTask_initNode hn).nodeId
  obtain ⟨hreg, hregId⟩ := registerFusibleScope_sameHeads (g := g) n
  have hassoc := associate_sameHeads hg₁
  obtain ⟨hheads, hnum⟩ := @updateNodeRelations_headNodes
    { g₁ with nodes := g₁.nodes ++ [(g.registerFusibleScope n).2] } taskIdx pre
    (g.registerFusibleScope n).2.nodeId
  rw [hheads, hnum, hregId, hid]
  dsimp only
  rw [hassoc.headNodes, hreg.headNodes, hassoc.streamNum, hreg.streamNum]
  exact ⟨rfl, rfl⟩

/-- The later tasks of a stream leave the heads alone. -/
theorem processStream_sameHeads (hidx : taskIdx ≠ 0)
    (h : g.processStream streamIdx taskIdx pre ts = some g') : SameHeads g g' := by
  induction ts generalizing g taskIdx pre with
  | nil =>
    cases h
    exact ⟨rfl, rfl⟩
  | cons t ts ih =>
    simp only [processStream, bind_eq_bind, bind_eq_some_iff] at h
    obtain ⟨g₁, hg₁, h⟩ := h
    obtain ⟨hheads, hnum⟩ := processSingleTask_headNodes hg₁
    have hrest := ih (Nat.succ_ne_zero taskIdx) h
    rw [if_neg hidx] at hheads
    exact ⟨hrest.headNodes.trans hheads, hrest.streamNum.trans hnum⟩

/-- A stream adds its first task to the heads, an empty one nothing. -/
theorem processStream_headNodes (h : g.processStream streamIdx 0 pre ts = some g') :
    g'.headNodes = g.headNodes ++ (firstTask ts).toList ∧ g'.streamNum = g.streamNum := by
  cases ts with
  | nil =>
    cases h
    exact ⟨(append_nil _).symm, rfl⟩
  | cons t ts =>
    simp only [processStream, bind_eq_bind, bind_eq_some_iff] at h
    obtain ⟨g₁, hg₁, h⟩ := h
    obtain ⟨hheads, hnum⟩ := processSingleTask_headNodes hg₁
    have hrest := processStream_sameHeads Nat.one_ne_zero h
    exact ⟨hrest.headNodes.trans hheads, hrest.streamNum.trans hnum⟩

theorem processAllStreams_headNodes {streams : List (List ModelTask)}
    (h : g.processAllStreams streamIdx streams = some g') :
    g'.headNodes = g.headNodes ++ streams.filterMap firstTask ∧ g'.streamNum = g.streamNum := by
  induction streams generalizing g streamIdx with
  | nil =>
    cases h
    exact ⟨(append_nil _).symm, rfl⟩
  | cons ts streams ih =>
    simp only [processAllStreams, bind_eq_bind, bind_eq_some_iff] at h
    obtain ⟨g₁, hg₁, h⟩ := h
    obtain ⟨hheads₁, hnum₁⟩ := processStream_headNodes hg₁
    obtain ⟨hheads, hnum⟩ := ih h
    refine ⟨?_, hnum.trans hnum₁⟩
    rw [hheads, hheads₁, append_assoc]
    cases hfirst : firstTask ts with
    | none => rw [filterMap_cons_none hfirst]; rfl
    | some i => rw [filterMap_cons_some hfirst]; rfl

end ModelGraph

theorem initFromModelRI_headNodes {m : ModelRI} {g : ModelGraph} (h : initFromModelRI m = some g) :
    g.headNodes = m.filterMap firstTask ∧ g.streamNum = m.length :=
  ModelGraph.processAllStreams_headNodes h

theorem firstTask_isSome : (firstTask ts).isSome ↔ ts ≠ [] := by
  cases ts with
  | nil => simp [firstTask]
  | cons t ts => simp [firstTask]

/-- With no empty stream the heads are the first tasks, stream by stream. -/
theorem filterMap_firstTask {m : ModelRI} (hm : ∀ ts ∈ m, ts ≠ []) :
    (m.filterMap firstTask).map some = m.map firstTask := by
  induction m with
  | nil => rfl
  | cons ts m ih =>
    obtain ⟨i, hi⟩ := isSome_iff_exists.mp (firstTask_isSome.mpr (hm ts (by simp)))
    rw [filterMap_cons_some hi, map_cons, map_cons, hi,
      ih fun ts' hts' => hm ts' (mem_cons_of_mem ts hts')]

/-- As many heads as streams means that no stream is empty. -/
theorem ne_nil_of_length_le {m : ModelRI} (h : m.length ≤ (m.filterMap firstTask).length) :
    ∀ ts ∈ m, ts ≠ [] := by
  have hcount : m.countP (fun ts => (firstTask ts).isSome) = m.length := by
    rw [← length_filterMap_eq_countP]
    exact le_antisymm (length_filterMap_le _ _) h
  intro ts hts
  exact firstTask_isSome.mp (countP_eq_length.mp hcount ts hts)

/-- `InitStreamStates` stays inside `headNodes` and gives every stream its own first task exactly
when no stream is empty. -/
theorem initStreamStates_eq_firstTask_iff (m : ModelRI) (g : ModelGraph)
    (h : initFromModelRI m = some g) :
    (∃ states, initStreamStates g.toSuperKernelGraph = some states ∧
      ∀ i ts, m[i]? = some ts → (states i).currentNodeId = firstTask ts) ↔ ∀ ts ∈ m, ts ≠ [] := by
  obtain ⟨hheads, hnum⟩ := initFromModelRI_headNodes h
  unfold initStreamStates
  rw [hheads, hnum]
  constructor
  · intro hstates
    obtain ⟨states, hsome, -⟩ := hstates
    rw [ite_none_left_eq_some] at hsome
    exact ne_nil_of_length_le (not_lt.mp hsome.1)
  · intro hm
    have hmap := filterMap_firstTask hm
    have hlen : (m.filterMap firstTask).length = m.length := by
      simpa using congrArg length hmap
    refine ⟨_, if_neg hlen.not_lt, ?_⟩
    intro i ts hts
    obtain ⟨hi, -⟩ := List.getElem?_eq_some_iff.mp hts
    rw [if_pos hi]
    have hget := congrArg (·[i]?) hmap
    simp only [getElem?_map, hts, map_some] at hget
    cases hhead : (m.filterMap firstTask)[i]? with
    | none =>
      rw [hhead] at hget
      cases hget
    | some j =>
      rw [hhead] at hget
      exact Option.some.inj hget

/-- Two streams with a task each. -/
def twoHeadedStreams : ModelRI := [[⟨4, .other⟩, ⟨5, .other⟩], [⟨6, .other⟩]]

/-- A stream without tasks before a stream with one. -/
def emptyFirstStream : ModelRI := [[], [⟨4, .other⟩]]

theorem initStreamStates_twoHeadedStreams :
    ∃ g, initFromModelRI twoHeadedStreams = some g ∧
      ∃ states, initStreamStates g.toSuperKernelGraph = some states ∧
        ∀ i ts, twoHeadedStreams[i]? = some ts → (states i).currentNodeId = firstTask ts :=
  ⟨_, rfl, (initStreamStates_eq_firstTask_iff twoHeadedStreams _ rfl).mpr (by decide)⟩

/-- The second stream's head stands at index 0 and index 1 is outside the vector. -/
theorem initStreamStates_emptyFirstStream :
    ∃ g, initFromModelRI emptyFirstStream = some g ∧ g.headNodes = [4] ∧ g.streamNum = 2 ∧
      initStreamStates g.toSuperKernelGraph = none :=
  ⟨_, rfl, rfl, rfl, rfl⟩

/-! ## The chains of the streams -/

/-- The fields that chain a node into its stream. -/
structure Links where
  nodeId : NodeId
  streamIdx : StreamIdx
  nodeIdx : ℕ
  pre : Option NodeId
  next : Option NodeId

def SuperKernelBaseNode.links (n : SuperKernelBaseNode) : Links :=
  ⟨n.nodeId, n.streamIdxInGraph, n.nodeIdxInStream, n.preNodeId, n.nextNodeId⟩

/-- The chain of the tasks of stream `s` from task `k` on. -/
def chain (s : StreamIdx) : ℕ → Option NodeId → List ModelTask → List Links
  | _, _, [] => []
  | k, pre, t :: ts => ⟨t.seqId, s, k, pre, firstTask ts⟩ :: chain s (k + 1) (some t.seqId) ts

/-- The chains of the streams from stream `s` on. -/
def layout : StreamIdx → ModelRI → List Links
  | _, [] => []
  | s, ts :: m => chain s 0 none ts ++ layout (s + 1) m

/-- The node `pre` is linked to what comes next, if anything does. -/
def linkNext (pre next : Option NodeId) (l : Links) : Links :=
  if next.isSome ∧ pre = some l.nodeId then { l with next := next } else l

theorem linkNext_none_left (next : Option NodeId) : linkNext none next = id :=
  funext fun l => by simp [linkNext]

theorem linkNext_none_right (pre : Option NodeId) : linkNext pre none = id :=
  funext fun l => by simp [linkNext]

namespace ModelGraph

def links (g : ModelGraph) : List Links := g.nodes.map (·.links)

variable {g g' : ModelGraph} {m : ModelRI} {t : ModelTask} {s k : ℕ} {pre : Option NodeId}

theorem updateNodeRelations_links (i : NodeId) :
    (g.updateNodeRelations i k pre).links =
      g.links.map (linkNext pre (some i)) := by
  have hmod : ∀ (p : NodeId) (ns : List SuperKernelBaseNode),
      (ns.map fun n => if n.nodeId = p then { n with nextNodeId := some i } else n).map (·.links)
        = (ns.map (·.links)).map (linkNext (some p) (some i)) := by
    intro p ns
    rw [List.map_map, List.map_map]
    refine map_congr_left fun n _ => ?_
    simp only [Function.comp_apply, linkNext, isSome_some, true_and, some.injEq, eq_comm (a := p)]
    show _ = if n.nodeId = p then _ else _
    split_ifs
    · rfl
    · rfl
  unfold links updateNodeRelations
  cases pre with
  | none =>
    rw [linkNext_none_left, List.map_id]
    split_ifs
    · rfl
    · rfl
  | some p =>
    split_ifs
    · exact hmod p _
    · exact hmod p _

theorem processSingleTask_links (h : g.processSingleTask s k pre t = some g') :
    (∀ l ∈ g.links, l.nodeId ≠ t.seqId) ∧ g'.links =
      (g.links ++ [Links.mk t.seqId s k pre none]).map (linkNext pre (some t.seqId)) := by
  simp only [processSingleTask, bind_eq_bind, bind_eq_some_iff, pure, some.injEq, addNode,
    ite_none_left_eq_some] at h
  obtain ⟨n, hn, g₂, ⟨g₁, hg₁, hnew, rfl⟩, rfl⟩ := h
  obtain ⟨hreg, -, htask⟩ := g.registerFusibleScope_spec n
  have hnodes := (associate_spec (htask t (NodeOfTask_initNode hn)) hg₁).1.trans hreg
  have hlinks : (g.registerFusibleScope n).2.links = ⟨t.seqId, s, k, pre, none⟩ := by
    simp only [initNode, ite_none_left_eq_some, some.injEq] at hn
    obtain ⟨-, rfl⟩ := hn
    unfold registerFusibleScope
    split_ifs
    all_goals rfl
  have hid : (g.registerFusibleScope n).2.nodeId = t.seqId := congrArg Links.nodeId hlinks
  rw [SuperKernelGraph.getNodeById, find?_isSome, hnodes, hid] at hnew
  constructor
  · intro l hl heq
    obtain ⟨x, hx, rfl⟩ := List.mem_map.mp hl
    exact hnew ⟨x, hx, beq_iff_eq.mpr heq⟩
  · rw [updateNodeRelations_links, hid, links, hnodes, map_append, map_singleton, hlinks, ← links]

theorem processStream_links (hpre : ∀ p ∈ pre, ∃ l ∈ g.links, l.nodeId = p)
    (h : g.processStream s k pre ts = some g') : g'.links =
      g.links.map (linkNext pre (firstTask ts)) ++ chain s k pre ts := by
  induction ts generalizing g k pre with
  | nil =>
    cases h
    have hnone : firstTask [] = none := rfl
    rw [hnone, linkNext_none_right, List.map_id, chain, append_nil]
  | cons t ts ih =>
    simp only [processStream, bind_eq_bind, bind_eq_some_iff] at h
    obtain ⟨g₁, hg₁, h⟩ := h
    obtain ⟨hfresh, hlinks⟩ := processSingleTask_links hg₁
    have hown : pre ≠ some t.seqId := by
      intro hp
      obtain ⟨l, hl, hlt⟩ := hpre _ hp
      exact hfresh l hl hlt
    have hnew : linkNext pre (some t.seqId) ⟨t.seqId, s, k, pre, none⟩ = ⟨t.seqId, s, k, pre, none⟩ :=
      if_neg fun h => hown h.2
    rw [map_append, map_singleton, hnew] at hlinks
    rw [ih (by simp [hlinks]) h, hlinks, map_append, map_singleton, chain, List.map_map, append_assoc]
    congr 1
    · -- the nodes before the task are linked to it at most
      refine map_congr_left fun l hl => if_neg fun h => hfresh l hl ?_
      have hid : (linkNext pre (some t.seqId) l).nodeId = l.nodeId := by
        unfold linkNext
        split_ifs
        · rfl
        · rfl
      rw [← hid]
      exact (some.inj h.2).symm
    · unfold linkNext
      cases firstTask ts with
      | none => rfl
      | some i => simp

theorem processAllStreams_links (h : g.processAllStreams s m = some g') :
    g'.links = g.links ++ layout s m := by
  induction m generalizing g s with
  | nil =>
    cases h
    exact (append_nil _).symm
  | cons ts m ih =>
    simp only [processAllStreams, bind_eq_bind, bind_eq_some_iff] at h
    obtain ⟨g₁, hg₁, h⟩ := h
    rw [ih h, processStream_links (by simp) hg₁, linkNext_none_left, List.map_id, append_assoc, layout]

end ModelGraph

/-- `InitFromModelRI` makes one chain of nodes out of each stream: the nodes stand in the order of
the tasks, each knows its stream, its place in it and the tasks before and behind it, and the heads
are the first tasks of the streams. -/
theorem initFromModelRI_layout {m : ModelRI} {g : ModelGraph} (h : initFromModelRI m = some g) :
    g.nodes.map (·.links) = layout 0 m ∧ g.headNodes = m.filterMap firstTask := by
  refine ⟨?_, (initFromModelRI_headNodes h).1⟩
  have hlinks := ModelGraph.processAllStreams_links h
  rwa [ModelGraph.links, ModelGraph.links, map_nil, nil_append] at hlinks

theorem twoHeadedStreams_layout : ∃ g, initFromModelRI twoHeadedStreams = some g ∧
    g.nodes.map (·.links) = [⟨4, 0, 0, none, some 5⟩, ⟨5, 0, 1, some 4, none⟩, ⟨6, 1, 0, none, none⟩] ∧
      g.headNodes = [4, 6] := by
  refine ⟨_, rfl, ?_⟩
  exact @initFromModelRI_layout twoHeadedStreams _ rfl

end GraphAutofusion.SuperKernel
