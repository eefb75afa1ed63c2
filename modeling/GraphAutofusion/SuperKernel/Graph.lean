import GraphAutofusion.SuperKernel.Node
import Mathlib.Data.List.Sort

/-!
# SuperKernel.Graph — the stream graph and its happens-before relation

`SuperKernelGraph` holds the nodes of all streams, the event table and the
head node of every non-empty stream. `WellFormed` collects what
`InitSKGraph` establishes: each stream is one finite chain linked by next and
previous ids, and the event table agrees with the event nodes.
-/

namespace GraphAutofusion.SuperKernel

open List Option

structure EventInfos where
  notifyNodeId : Option NodeId := none
  resetNodeIdList : List NodeId := []
  waitNodeIdList : List NodeId := []
deriving DecidableEq, Repr

/-- The graph after `InitSKGraph`: `graphMap`, `eventToNodes`, `headNodes` and
the number of streams. The order of the event lists is the iteration order of
the unordered sets they stand for. -/
structure SuperKernelGraph where
  nodes : List SuperKernelBaseNode
  eventToNodes : List (EventId × EventInfos)
  headNodes : List NodeId
  streamNum : ℕ
deriving Repr

namespace SuperKernelGraph

variable (g : SuperKernelGraph)

def getNodeById (nodeId : NodeId) : Option SuperKernelBaseNode :=
  g.nodes.find? fun n => n.nodeId == nodeId

def getEventInfo (eventId : EventId) : Option EventInfos :=
  (g.eventToNodes.find? fun e => e.1 == eventId).map (·.2)

/-- One dependency of the original graph: consecutive tasks of a stream, or a
NOTIFY and a WAIT that corresponds to it. -/
inductive HbEdge : NodeId → NodeId → Prop where
  | stream {y x : NodeId} {n : SuperKernelBaseNode} (hn : g.getNodeById y = some n)
      (hnext : n.nextNodeId = some x) : HbEdge y x
  | event {y x : NodeId} {n : SuperKernelBaseNode} (hn : g.getNodeById x = some n)
      (hwait : n.nodeType = .nodeWait)
      (hnotify : n.syncInfos.correspondingNotifyNodeId = some y) : HbEdge y x

/-- Happens-before: the transitive closure of stream order and
NOTIFY → WAIT edges. -/
def HappensBefore : NodeId → NodeId → Prop := Relation.TransGen g.HbEdge

/-- What `InitSKGraph` guarantees of a graph it returns. -/
structure WellFormed : Prop where
  nodup : (g.nodes.map (·.nodeId)).Nodup
  stream_lt : ∀ x ∈ g.nodes, x.streamIdxInGraph < g.streamNum
  next : ∀ x ∈ g.nodes, ∀ y ∈ x.nextNodeId, ∃ n ∈ g.nodes, n.nodeId = y ∧
    n.preNodeId = some x.nodeId ∧ n.streamIdxInGraph = x.streamIdxInGraph ∧
    n.nodeIdxInStream = x.nodeIdxInStream + 1
  pre : ∀ x ∈ g.nodes, ∀ y ∈ x.preNodeId, ∃ n ∈ g.nodes, n.nodeId = y ∧
    n.nextNodeId = some x.nodeId ∧ n.streamIdxInGraph = x.streamIdxInGraph ∧
    x.nodeIdxInStream = n.nodeIdxInStream + 1
  pre_none : ∀ x ∈ g.nodes, x.preNodeId = none → x.nodeIdxInStream = 0 ∧ x.nodeId ∈ g.headNodes
  heads : ∀ h ∈ g.headNodes, ∃ x ∈ g.nodes, x.nodeId = h ∧ x.preNodeId = none
  heads_sorted : (g.headNodes.filterMap g.getNodeById).Pairwise
    fun a b => a.streamIdxInGraph < b.streamIdxInGraph
  no_memory : ∀ x ∈ g.nodes, x.nodeType ≠ .nodeMemoryWrite ∧ x.nodeType ≠ .nodeMemoryWait
  notify_info : ∀ x ∈ g.nodes, x.nodeType = .nodeNotify →
    ∃ e ∈ x.syncInfos.eventId, ∃ info ∈ g.getEventInfo e, info.notifyNodeId = some x.nodeId ∧
      x.syncInfos.correspondingWaitNodeIds.Perm info.waitNodeIdList
  wait_info : ∀ x ∈ g.nodes, x.nodeType = .nodeWait →
    ∃ e ∈ x.syncInfos.eventId, ∃ info ∈ g.getEventInfo e, x.nodeId ∈ info.waitNodeIdList ∧
      x.syncInfos.correspondingNotifyNodeId = info.notifyNodeId
  reset_info : ∀ x ∈ g.nodes, x.nodeType = .nodeReset →
    ∃ e ∈ x.syncInfos.eventId, ∃ info ∈ g.getEventInfo e, x.nodeId ∈ info.resetNodeIdList
  event_notify : ∀ e ∈ g.eventToNodes, ∀ n ∈ e.2.notifyNodeId, ∃ x ∈ g.nodes, x.nodeId = n ∧
    x.nodeType = .nodeNotify ∧ x.syncInfos.eventId = some e.1
  event_wait : ∀ e ∈ g.eventToNodes, ∀ w ∈ e.2.waitNodeIdList, ∃ x ∈ g.nodes, x.nodeId = w ∧
    x.nodeType = .nodeWait ∧ x.syncInfos.eventId = some e.1
  event_wait_nodup : ∀ e ∈ g.eventToNodes, e.2.waitNodeIdList.Nodup

variable {g}

/-- Happens-before is acyclic when every edge raises a rank. -/
theorem acyclic_of_rank (rank : NodeId → ℕ)
    (hstream : ∀ n ∈ g.nodes, ∀ x ∈ n.nextNodeId, rank n.nodeId < rank x)
    (hevent : ∀ n ∈ g.nodes, n.nodeType = .nodeWait →
      ∀ y ∈ n.syncInfos.correspondingNotifyNodeId, rank y < rank n.nodeId) (x : NodeId) :
    ¬ g.HappensBefore x x := by
  have hedge : ∀ {y x}, g.HbEdge y x → rank y < rank x := by
    intro y x h
    cases h with
    | @stream n hn hnext =>
      have hid : n.nodeId = y := by simpa using find?_some hn
      exact hid ▸ hstream n (mem_of_find?_eq_some hn) x hnext
    | @event n hn hwait hnotify =>
      have hid : n.nodeId = x := by simpa using find?_some hn
      exact hid ▸ hevent n (mem_of_find?_eq_some hn) hwait y hnotify
  have hlt : ∀ {y}, g.HappensBefore x y → rank x < rank y := by
    intro y h
    induction h with
    | single h => exact hedge h
    | tail _ h ih => exact ih.trans (hedge h)
  intro h
  exact lt_irrefl _ (hlt h)

variable {n : SuperKernelBaseNode}

theorem getNodeById_some {i : NodeId} (hn : g.getNodeById i = some n) :
    n ∈ g.nodes ∧ n.nodeId = i := by
  refine ⟨mem_of_find?_eq_some hn, ?_⟩
  have hid := find?_some hn
  simpa using hid

theorem getEventInfo_mem {e : EventId} {info : EventInfos} (hinfo : g.getEventInfo e = some info) :
    (e, info) ∈ g.eventToNodes := by
  obtain ⟨⟨k, v⟩, hentry, rfl⟩ := map_eq_some_iff.mp hinfo
  have hkey : k = e := by simpa using find?_some hentry
  exact hkey ▸ mem_of_find?_eq_some hentry

theorem map_nodeId_filterMap {l : List NodeId} (hl : ∀ h ∈ l, ∃ x, g.getNodeById h = some x) :
    (l.filterMap g.getNodeById).map (·.nodeId) = l := by
  induction l with
  | nil => rfl
  | cons h l ih =>
    rcases hl h (mem_cons_self ..) with ⟨x, hx⟩
    have hid := (getNodeById_some hx).2
    rw [filterMap_cons_some hx, map_cons, hid, ih fun a ha => hl a (mem_cons_of_mem _ ha)]

/-- Ascending numbers below `k` that fill at least `k` places are `0, 1, ...`. -/
theorem eq_range_of_ascending {l : List ℕ} {k : ℕ} (hasc : l.Pairwise (· < ·))
    (hlt : ∀ x ∈ l, x < k) (hlen : k ≤ l.length) : l = range k := by
  have hnodup : l.Nodup := hasc.imp fun h => ne_of_lt h
  have hsub := subperm_of_subset hnodup fun x hx => mem_range.mpr (hlt x hx)
  have hperm := hsub.perm_of_length_le (by simpa using hlen)
  exact hperm.eq_of_pairwise (fun a b _ _ hab hba => absurd hab (Nat.lt_asymm hba)) hasc
    pairwise_lt_range

namespace WellFormed

variable (hg : g.WellFormed)
include hg

variable {x y : SuperKernelBaseNode}

theorem eq_of_nodeId (hx : x ∈ g.nodes) (hy : y ∈ g.nodes) (hid : x.nodeId = y.nodeId) : x = y :=
  inj_on_of_nodup_map hg.nodup hx hy hid

theorem getNodeById_of_mem {x : SuperKernelBaseNode} (hx : x ∈ g.nodes) :
    g.getNodeById x.nodeId = some x := by
  cases hfind : g.getNodeById x.nodeId with
  | none => simpa using find?_eq_none.mp hfind x hx
  | some y =>
    obtain ⟨hy, hid⟩ := getNodeById_some hfind
    rw [hg.eq_of_nodeId hy hx hid]

/-- Two heads of one stream are the same node. -/
theorem head_unique (hx : x ∈ g.nodes) (hy : y ∈ g.nodes) (hxh : x.nodeId ∈ g.headNodes)
    (hyh : y.nodeId ∈ g.headNodes) (hstream : x.streamIdxInGraph = y.streamIdxInGraph) : x = y := by
  have hmem : ∀ z ∈ g.nodes, z.nodeId ∈ g.headNodes →
      z ∈ g.headNodes.filterMap g.getNodeById := fun z hz hzh =>
    mem_filterMap.mpr ⟨z.nodeId, hzh, hg.getNodeById_of_mem hz⟩
  obtain ⟨i, hi, hix⟩ := mem_iff_getElem.mp (hmem x hx hxh)
  obtain ⟨j, hj, hjy⟩ := mem_iff_getElem.mp (hmem y hy hyh)
  have hsorted := pairwise_iff_getElem.mp hg.heads_sorted
  rcases Nat.lt_trichotomy i j with hij | rfl | hji
  · have hlt := hsorted i j hi hj hij
    rw [hix, hjy] at hlt
    exact absurd hstream (ne_of_lt hlt)
  · exact hix.symm.trans hjy
  · have hlt := hsorted j i hj hi hji
    rw [hix, hjy] at hlt
    exact absurd hstream (ne_of_gt hlt)

theorem head_idx {h : NodeId} (hh : h ∈ g.headNodes) :
    ∃ x ∈ g.nodes, x.nodeId = h ∧ x.nodeIdxInStream = 0 := by
  obtain ⟨x, hx, hxh, hpre⟩ := hg.heads h hh
  exact ⟨x, hx, hxh, (hg.pre_none x hx hpre).1⟩

/-- A node is determined by its stream and its position there. -/
theorem eq_of_idx (hx : x ∈ g.nodes) (hy : y ∈ g.nodes)
    (hstream : x.streamIdxInGraph = y.streamIdxInGraph)
    (hidx : x.nodeIdxInStream = y.nodeIdxInStream) : x = y := by
  -- walk both streams back to their common head
  induction hk : x.nodeIdxInStream generalizing x y with
  | zero =>
    have hhead : ∀ z ∈ g.nodes, z.nodeIdxInStream = 0 → z.nodeId ∈ g.headNodes := by
      intro z hz hz0
      cases hpre : z.preNodeId with
      | none => exact (hg.pre_none z hz hpre).2
      | some p =>
        obtain ⟨n, _, _, _, _, hidx⟩ := hg.pre z hz p hpre
        omega
    exact hg.head_unique hx hy (hhead x hx hk) (hhead y hy (hidx ▸ hk)) hstream
  | succ k ih =>
    have hpred : ∀ z ∈ g.nodes, z.nodeIdxInStream = k + 1 → ∃ p ∈ g.nodes,
        p.nextNodeId = some z.nodeId ∧ p.streamIdxInGraph = z.streamIdxInGraph ∧
        p.nodeIdxInStream = k := by
      intro z hz hzk
      cases hpre : z.preNodeId with
      | none =>
        have := (hg.pre_none z hz hpre).1
        omega
      | some p =>
        obtain ⟨n, hn, _, hnext, hs, hidx⟩ := hg.pre z hz p hpre
        exact ⟨n, hn, hnext, hs, by omega⟩
    obtain ⟨p, hp, hpnext, hps, hpk⟩ := hpred x hx hk
    obtain ⟨q, hq, hqnext, hqs, hqk⟩ := hpred y hy (hidx ▸ hk)
    obtain rfl : p = q :=
      ih hp hq (hps.trans (hstream.trans hqs.symm)) (hpk.trans hqk.symm) hpk
    exact hg.eq_of_nodeId hx hy (some.inj (hpnext.symm.trans hqnext))

/-- Every earlier position of a stream holds a node. -/
theorem exists_at_idx {x : SuperKernelBaseNode} (hx : x ∈ g.nodes) {k : ℕ}
    (hk : k ≤ x.nodeIdxInStream) : ∃ m ∈ g.nodes,
      m.streamIdxInGraph = x.streamIdxInGraph ∧ m.nodeIdxInStream = k := by
  induction hd : x.nodeIdxInStream - k generalizing x with
  | zero => exact ⟨x, hx, rfl, by omega⟩
  | succ d ih =>
    cases hpre : x.preNodeId with
    | none =>
      have := (hg.pre_none x hx hpre).1
      omega
    | some p =>
      obtain ⟨n, hn, _, _, hs, hidx⟩ := hg.pre x hx p hpre
      obtain ⟨m, hm, hms, hmk⟩ := ih hn (by omega) (by omega)
      exact ⟨m, hm, hms.trans hs, hmk⟩

/-- Consecutive positions of a stream are linked by the next id. -/
theorem next_eq (hx : x ∈ g.nodes) (hy : y ∈ g.nodes)
    (hstream : y.streamIdxInGraph = x.streamIdxInGraph)
    (hidx : y.nodeIdxInStream = x.nodeIdxInStream + 1) : x.nextNodeId = some y.nodeId := by
  cases hpre : y.preNodeId with
  | none =>
    have := (hg.pre_none y hy hpre).1
    omega
  | some p =>
    obtain ⟨n, hn, _, hnext, hs, hnidx⟩ := hg.pre y hy p hpre
    obtain rfl : n = x := hg.eq_of_idx hn hx (hs.trans hstream) (by omega)
    exact hnext

/-- A node without a next id is the last one of its stream. -/
theorem le_of_next_none (hx : x ∈ g.nodes) (hy : y ∈ g.nodes)
    (hstream : y.streamIdxInGraph = x.streamIdxInGraph) (hnext : x.nextNodeId = none) :
    y.nodeIdxInStream ≤ x.nodeIdxInStream := by
  by_contra hlt
  obtain ⟨m, hm, hms, hmk⟩ := hg.exists_at_idx hy (k := x.nodeIdxInStream + 1) (by omega)
  have := hg.next_eq hx hm (hms.trans hstream) hmk
  simp [hnext] at this

/-- A stream edge leads to the next position of the stream. -/
theorem next_node {x : SuperKernelBaseNode} (hx : x ∈ g.nodes) {y : NodeId}
    (hnext : x.nextNodeId = some y) : ∃ n, g.getNodeById y = some n ∧
      n.streamIdxInGraph = x.streamIdxInGraph ∧ n.nodeIdxInStream = x.nodeIdxInStream + 1 := by
  obtain ⟨n, hn, rfl, _, hs, hidx⟩ := hg.next x hx y hnext
  exact ⟨n, hg.getNodeById_of_mem hn, hs, hidx⟩

/-- When no stream is empty, `headNodes[i]` is the head of stream `i`. -/
theorem headNodes_stream (hlen : g.streamNum ≤ g.headNodes.length) {i : ℕ}
    {h : NodeId} (hi : g.headNodes[i]? = some h) (hn : g.getNodeById h = some n) : n.streamIdxInGraph = i := by
  have hheads : ∀ h ∈ g.headNodes, ∃ x, g.getNodeById h = some x := by
    intro h hh
    rcases hg.heads h hh with ⟨x, hx, rfl, _⟩
    exact ⟨x, hg.getNodeById_of_mem hx⟩
  have hids := map_nodeId_filterMap hheads
  have hlength : (g.headNodes.filterMap g.getNodeById).length = g.headNodes.length := by
    rw [← length_map (·.nodeId), hids]
  have hrange := eq_range_of_ascending (k := g.streamNum)
    (l := (g.headNodes.filterMap g.getNodeById).map (·.streamIdxInGraph))
    (pairwise_map.mpr hg.heads_sorted)
    (by
      intro x hx
      rcases mem_map.mp hx with ⟨m, hm, rfl⟩
      rcases mem_filterMap.mp hm with ⟨a, _, ha⟩
      exact hg.stream_lt m (getNodeById_some ha).1)
    (by rw [length_map, hlength]; exact hlen)
  -- the node at place `i` has id `h` and stream `i`
  have hplace : (g.headNodes.filterMap g.getNodeById)[i]? = some n := by
    have hmap : ((g.headNodes.filterMap g.getNodeById).map (·.nodeId))[i]? = some h := by
      rw [hids, hi]
    rw [getElem?_map] at hmap
    rcases map_eq_some_iff.mp hmap with ⟨m, hm, hmid⟩
    rcases mem_filterMap.mp (mem_of_getElem? hm) with ⟨a, _, ha⟩
    have hmn := hg.getNodeById_of_mem (getNodeById_some ha).1
    rw [hmid, hn] at hmn
    rw [hm, hmn]
  have hstream : ((g.headNodes.filterMap g.getNodeById).map (·.streamIdxInGraph))[i]?
      = some n.streamIdxInGraph := by
    rw [getElem?_map, hplace]
    rfl
  rw [hrange] at hstream
  rcases List.getElem?_eq_some_iff.mp hstream with ⟨hlt, heq⟩
  rw [getElem_range] at heq
  exact heq.symm
/-- A WAIT's NOTIFY is a NOTIFY of the same event that lists the WAIT. -/
theorem wait_notify {x : SuperKernelBaseNode} (hx : x ∈ g.nodes) (hwait : x.nodeType = .nodeWait)
    {y : NodeId} (hnotify : x.syncInfos.correspondingNotifyNodeId = some y) :
    ∃ n, g.getNodeById y = some n ∧ n.nodeType = .nodeNotify ∧
      n.syncInfos.eventId = x.syncInfos.eventId ∧
      x.nodeId ∈ n.syncInfos.correspondingWaitNodeIds := by
  obtain ⟨e, he, info, hinfo, hmem, hcorr⟩ := hg.wait_info x hx hwait
  obtain ⟨n, hn, rfl, htype, hev⟩ := hg.event_notify _ (getEventInfo_mem hinfo) y
    (hcorr.symm.trans hnotify)
  obtain ⟨e', he', info', hinfo', _, hperm⟩ := hg.notify_info n hn htype
  obtain rfl : e' = e := some.inj (he'.symm.trans hev)
  obtain rfl : info' = info := some.inj (hinfo'.symm.trans hinfo)
  exact ⟨n, hg.getNodeById_of_mem hn, htype, hev.trans he.symm, hperm.mem_iff.mpr hmem⟩

/-- A WAIT that a NOTIFY lists corresponds to that NOTIFY. -/
theorem notify_wait (hn : n ∈ g.nodes) (htype : n.nodeType = .nodeNotify)
    {w : NodeId} (hw : w ∈ n.syncInfos.correspondingWaitNodeIds) :
    ∃ x, g.getNodeById w = some x ∧ x.nodeType = .nodeWait ∧
      x.syncInfos.correspondingNotifyNodeId = some n.nodeId := by
  obtain ⟨e, he, info, hinfo, hnotify, hperm⟩ := hg.notify_info n hn htype
  obtain ⟨x, hx, rfl, hwait, hev⟩ := hg.event_wait _ (getEventInfo_mem hinfo) w
    (hperm.mem_iff.mp hw)
  obtain ⟨e', he', info', hinfo', _, hcorr⟩ := hg.wait_info x hx hwait
  obtain rfl : e' = e := some.inj (he'.symm.trans hev)
  obtain rfl : info' = info := some.inj (hinfo'.symm.trans hinfo)
  exact ⟨x, hg.getNodeById_of_mem hx, hwait, hcorr.trans hnotify⟩

end WellFormed

end SuperKernelGraph

end GraphAutofusion.SuperKernel
