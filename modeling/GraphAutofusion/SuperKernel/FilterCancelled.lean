import GraphAutofusion.SuperKernel.Graph
import Mathlib.Data.List.Induction
import Mathlib.Algebra.GroupWithZero.Nat
import Mathlib.Algebra.Order.Group.Int

/-!
# SuperKernel.FilterCancelled — cancelling notify/wait pairs inside a scope

`FilterCancelledNodes` of `sk_scope_postprocess.cpp` drops the NOTIFY, WAIT and RESET
nodes of an event whose waits all lie in the scope, since the order they enforce is
kept by the super kernel itself. What the dropped writes would leave in the event's
cell is lost with them, and this module says exactly when that shows.
-/

namespace GraphAutofusion.SuperKernel

open SuperKernelGraph List Option

/-- `GetEventId`; `none` is the invalid id. -/
abbrev SuperKernelBaseNode.eventId (n : SuperKernelBaseNode) : Option EventId := n.syncInfos.eventId

/-- `HasAddrValue`. -/
def hasAddrValue (node : SuperKernelBaseNode) : Bool :=
  match node.nodeType with
  | .nodeNotify | .nodeWait | .nodeReset => node.syncInfos.addrValue.isSome
  | _ => false

/-- `ShouldCancelNotify`: a write-only value NOTIFY is kept. -/
def shouldCancelNotify (node : SuperKernelBaseNode) : Bool :=
  !hasAddrValue node || !node.syncInfos.correspondingWaitNodeIds.isEmpty

variable (counts : Option EventId → Option ℤ)

/-- `counts[eventId] += d`. -/
def addCount (eventId : Option EventId) (d : ℤ) : Option EventId → Option ℤ :=
  fun k => if k = eventId then some ((counts eventId).getD 0 + d) else counts k

def countStep (node : SuperKernelBaseNode) : Option EventId → Option ℤ :=
  match node.nodeType with
  | .nodeNotify => addCount counts node.eventId node.syncInfos.correspondingWaitNodeIds.length
  | .nodeWait => addCount counts node.eventId (-1)
  | _ => counts

/-- `eventCounts`: expected minus observed waits; `none` is a missing key. -/
def eventCounts (nodes : List SuperKernelBaseNode) : Option EventId → Option ℤ :=
  nodes.foldl countStep fun _ => none

/-- The cancellation rules of the second loop. -/
def isCancelled (node : SuperKernelBaseNode) : Bool :=
  match node.nodeType with
  | .nodeNotify => (counts node.eventId).getD 0 = 0 && shouldCancelNotify node
  | .nodeReset => counts node.eventId = some 0
  | .nodeWait => 0 ≤ (counts node.eventId).getD 0
  | _ => false

/-- `FilterCancelledNodes`. -/
def filterCancelledNodes (nodes : List SuperKernelBaseNode) : List SuperKernelBaseNode :=
  nodes.filter fun n => !isCancelled (eventCounts nodes) n && !n.isScopeNode

/-! ## Event cells -/

/-- `ResolveEventValue` of a NOTIFY. -/
def notifyValue (node : SuperKernelBaseNode) : ℕ :=
  node.syncInfos.memoryValue.getD SK_DEFAULT_NOTIFY_VALUE

/-- What a node writes to the cell of an event. -/
def cellWrite (e : Option EventId) (node : SuperKernelBaseNode) : Option ℕ :=
  if node.eventId = e then
    match node.nodeType with
    | .nodeNotify => some (notifyValue node)
    | .nodeReset => some SK_DEFAULT_RESET_VALUE
    | _ => none
  else none

/-- The cell after the list is executed in order, from value `v`. -/
def runCell (e : Option EventId) (v : ℕ) (nodes : List SuperKernelBaseNode) : ℕ :=
  nodes.foldl (fun v n => (cellWrite e n).getD v) v

/-- The cell after the list is executed in order; cells start at 0. -/
def cellValue (e : Option EventId) (nodes : List SuperKernelBaseNode) : ℕ := runCell e 0 nodes

def isResetOf (e : Option EventId) (node : SuperKernelBaseNode) : Bool :=
  node.nodeType = .nodeReset && node.eventId = e

variable {g : SuperKernelGraph} {nodes pre post : List SuperKernelBaseNode}
  {n w r : SuperKernelBaseNode} {e : Option EventId}

theorem runCell_append (e : Option EventId) (v : ℕ) (l l' : List SuperKernelBaseNode) :
    runCell e v (l ++ l') = runCell e (runCell e v l) l' :=
  foldl_append

variable {l : List SuperKernelBaseNode}

/-- Dropping nodes that do not write a cell does not change it. -/
theorem runCell_filter {p : SuperKernelBaseNode → Bool}
    (hkeep : ∀ n ∈ l, (cellWrite e n).isSome → p n = true) (v : ℕ) :
    runCell e v (l.filter p) = runCell e v l := by
  induction l generalizing v with
  | nil => rfl
  | cons n l ih =>
    have htail : ∀ v, runCell e v (l.filter p) = runCell e v l :=
      fun v => ih (fun m hm => hkeep m (mem_cons_of_mem _ hm)) v
    cases hp : p n with
    | true =>
      rw [filter_cons_of_pos hp]
      exact htail _
    | false =>
      have hnone : cellWrite e n = none := by
        by_contra hsome
        have := hkeep n (mem_cons_self ..) (isSome_iff_ne_none.mpr hsome)
        simp [hp] at this
      rw [filter_cons_of_neg (by simp [hp]), htail v]
      show _ = runCell e ((cellWrite e n).getD v) l
      rw [hnone, getD_none]

/-- Without a write the cell keeps its value. -/
theorem runCell_none (h : ∀ n ∈ l, cellWrite e n = none) (v : ℕ) : runCell e v l = v := by
  induction l generalizing v with
  | nil => rfl
  | cons n l ih =>
    show runCell e ((cellWrite e n).getD v) l = v
    rw [h n (mem_cons_self ..), getD_none]
    exact ih (fun m hm => h m (mem_cons_of_mem _ hm)) v

/-- A list whose only writers are RESETs clears the cell if it has one. -/
theorem runCell_resets (h : ∀ n ∈ l, (cellWrite e n).isSome → isResetOf e n = true) (v : ℕ) :
    runCell e v l = if l.any (isResetOf e) then 0 else v := by
  induction l generalizing v with
  | nil => rfl
  | cons n l ih =>
    show runCell e ((cellWrite e n).getD v) l = _
    rw [ih fun m hm => h m (mem_cons_of_mem _ hm), any_cons]
    cases hreset : isResetOf e n with
    | true =>
      have hzero : cellWrite e n = some 0 := by
        simp only [isResetOf, Bool.and_eq_true, decide_eq_true_eq] at hreset
        simp [cellWrite, hreset.1, hreset.2, SK_DEFAULT_RESET_VALUE]
      simp [hzero]
    | false =>
      have hnone : cellWrite e n = none := by
        by_contra hsome
        have := h n (mem_cons_self ..) (isSome_iff_ne_none.mpr hsome)
        simp [hreset] at this
      simp [hnone]

/-! ## The counters -/

def isEventOf (type : SkNodeType) (e : Option EventId) (n : SuperKernelBaseNode) : Bool :=
  n.nodeType = type && n.eventId = e

theorem isEventOf_iff {type : SkNodeType} :
    isEventOf type e n = true ↔ n.nodeType = type ∧ n.eventId = e := by
  simp [isEventOf]

/-- Expected minus observed waits of an event. -/
def balance (nodes : List SuperKernelBaseNode) (e : Option EventId) : ℤ :=
  (((nodes.filter (isEventOf .nodeNotify e)).map
      (·.syncInfos.correspondingWaitNodeIds.length)).sum : ℕ)
    - (nodes.filter (isEventOf .nodeWait e)).length

theorem eventCounts_append_singleton (nodes : List SuperKernelBaseNode) (n : SuperKernelBaseNode) :
    eventCounts (nodes ++ [n]) = countStep (eventCounts nodes) n :=
  foldl_append

@[simp] theorem countStep_self (n : SuperKernelBaseNode) :
    (countStep counts n e).getD 0 = (counts e).getD 0 +
      ((if isEventOf .nodeNotify e n then n.syncInfos.correspondingWaitNodeIds.length else 0 : ℕ)
        - (if isEventOf .nodeWait e n then 1 else 0 : ℕ)) := by
  by_cases he : n.eventId = e
  · subst he
    cases htype : n.nodeType <;> simp [countStep, addCount, isEventOf, htype, sub_eq_add_neg]
  · have hne : e ≠ n.eventId := Ne.symm he
    cases htype : n.nodeType <;> simp [countStep, addCount, isEventOf, htype, he, hne]

theorem countStep_isSome (n : SuperKernelBaseNode) :
    (countStep counts n e).isSome = ((counts e).isSome ||
      (isEventOf .nodeNotify e n || isEventOf .nodeWait e n)) := by
  by_cases he : n.eventId = e
  · subst he
    cases htype : n.nodeType <;> simp [countStep, addCount, isEventOf, htype]
  · have hne : e ≠ n.eventId := Ne.symm he
    cases htype : n.nodeType <;> simp [countStep, addCount, isEventOf, htype, he, hne]

/-- The counter of an event is its balance. -/
theorem eventCounts_getD (nodes : List SuperKernelBaseNode) (e : Option EventId) :
    (eventCounts nodes e).getD 0 = balance nodes e := by
  induction nodes using reverseRecOn with
  | nil => rfl
  | append_singleton nodes n ih =>
    rw [eventCounts_append_singleton, countStep_self, ih]
    unfold balance
    rw [filter_append, filter_append, map_append, sum_append, length_append]
    cases hnotify : isEventOf .nodeNotify e n <;> cases hwait : isEventOf .nodeWait e n <;>
      simp [hnotify, hwait] <;> omega

/-- An event has a counter once a NOTIFY or WAIT of it does. -/
theorem eventCounts_isSome (nodes : List SuperKernelBaseNode) (e : Option EventId) :
    (eventCounts nodes e).isSome
      = nodes.any fun n => isEventOf .nodeNotify e n || isEventOf .nodeWait e n := by
  induction nodes using reverseRecOn with
  | nil => rfl
  | append_singleton nodes n ih =>
    rw [eventCounts_append_singleton, countStep_isSome, ih, any_append]
    simp

/-- Without a NOTIFY the counter is missing or negative. -/
theorem eventCounts_no_notify (hnone : ∀ n ∈ nodes, ¬ isEventOf .nodeNotify e n = true) :
    eventCounts nodes e ≠ some 0 ∧
      ∀ w ∈ nodes, isEventOf .nodeWait e w = true → (eventCounts nodes e).getD 0 < 0 := by
  have hfilter : nodes.filter (isEventOf .nodeNotify e) = [] := filter_eq_nil_iff.mpr hnone
  have hwaits : ∀ w ∈ nodes, isEventOf .nodeWait e w = true → (eventCounts nodes e).getD 0 < 0 := by
    intro w hw hev
    rw [eventCounts_getD]
    unfold balance
    rw [hfilter]
    have hpos := length_pos_of_mem (mem_filter.mpr ⟨hw, hev⟩)
    simp only [map_nil, sum_nil]
    omega
  refine ⟨fun hzero => ?_, hwaits⟩
  have hsome : (eventCounts nodes e).isSome = true := by rw [hzero]; rfl
  rw [eventCounts_isSome, List.any_eq_true] at hsome
  rcases hsome with ⟨w, hw, hev⟩
  have hwait : isEventOf .nodeWait e w = true := by simpa [hnone w hw] using hev
  have hneg := hwaits w hw hwait
  rw [hzero] at hneg
  simp at hneg

/-! ## Counting the waits of a scope -/

/-- What the splitter promises of a scope's nodes; scope markers are kernels. -/
structure ScopeNodes (g : SuperKernelGraph) (nodes : List SuperKernelBaseNode) : Prop where
  mem : ∀ n ∈ nodes, n ∈ g.nodes
  nodup : (nodes.map (·.nodeId)).Nodup
  marker : ∀ n ∈ nodes, n.isScopeNode = true → n.nodeType = .nodeKernel

/-- All waits the NOTIFY corresponds to lie in the list. -/
def allWaitsInside (nodes : List SuperKernelBaseNode) (n : SuperKernelBaseNode) : Bool :=
  n.syncInfos.correspondingWaitNodeIds.all fun w => w ∈ nodes.map (·.nodeId)

namespace ScopeNodes

variable (hs : ScopeNodes g nodes) (hg : g.WellFormed)
include hs hg

/-- The graph has one NOTIFY for each event. -/
theorem notify_unique {m : SuperKernelBaseNode} (hn : n ∈ nodes) (hm : m ∈ nodes)
    (hntype : n.nodeType = .nodeNotify) (hmtype : m.nodeType = .nodeNotify)
    (heq : m.eventId = n.eventId) : m = n := by
  rcases hg.notify_info n (hs.mem n hn) hntype with ⟨e, he, info, hinfo, hnid, _⟩
  rcases hg.notify_info m (hs.mem m hm) hmtype with ⟨e', he', info', hinfo', hmid, _⟩
  have hee : e' = e := some.inj (he'.symm.trans (heq.trans he))
  subst hee
  have hii : info' = info := some.inj (hinfo'.symm.trans hinfo)
  subst hii
  exact hg.eq_of_nodeId (hs.mem m hm) (hs.mem n hn) (some.inj (hmid.symm.trans hnid))

theorem filter_notify (hn : n ∈ nodes) (htype : n.nodeType = .nodeNotify) :
    nodes.filter (isEventOf .nodeNotify n.eventId) = [n] := by
  have hnodup : (nodes.filter (isEventOf .nodeNotify n.eventId)).Nodup :=
    (Nodup.of_map _ hs.nodup).filter _
  apply perm_singleton.mp
  refine (perm_ext_iff_of_nodup hnodup (nodup_singleton n)).mpr fun m => ?_
  rw [mem_filter, isEventOf_iff, mem_singleton]
  constructor
  · rintro ⟨hm, hmtype, heq⟩
    exact hs.notify_unique hg hn hm htype hmtype heq
  · rintro rfl
    exact ⟨hn, htype, rfl⟩

/-- The WAITs a NOTIFY corresponds to are the graph's WAITs of its event. -/
theorem corresponding_waits (hn : n ∈ nodes) (htype : n.nodeType = .nodeNotify) :
    n.syncInfos.correspondingWaitNodeIds.Nodup ∧
    ∀ c, c ∈ n.syncInfos.correspondingWaitNodeIds ↔
      ∃ x ∈ g.nodes, x.nodeId = c ∧ x.nodeType = .nodeWait ∧ x.eventId = n.eventId := by
  rcases hg.notify_info n (hs.mem n hn) htype with ⟨e, he, info, hinfo, _, hperm⟩
  have hmem := getEventInfo_mem hinfo
  refine ⟨hperm.nodup_iff.mpr (hg.event_wait_nodup _ hmem), fun c => ?_⟩
  rw [hperm.mem_iff]
  constructor
  · intro hc
    rcases hg.event_wait _ hmem c hc with ⟨x, hx, hxc, hwait, hev⟩
    exact ⟨x, hx, hxc, hwait, hev.trans he.symm⟩
  · rintro ⟨x, hx, rfl, hwait, hev⟩
    rcases hg.wait_info x hx hwait with ⟨e', he', info', hinfo', hxmem, _⟩
    have hee : e' = e := some.inj (he'.symm.trans (hev.trans he))
    subst hee
    have hii : info' = info := some.inj (hinfo'.symm.trans hinfo)
    exact hii ▸ hxmem

/-- The WAITs of the event in the list, as ids. -/
theorem waitIds_spec (hn : n ∈ nodes) (htype : n.nodeType = .nodeNotify) :
    ((nodes.filter (isEventOf .nodeWait n.eventId)).map (·.nodeId)).Nodup ∧
    ∀ c, c ∈ (nodes.filter (isEventOf .nodeWait n.eventId)).map (·.nodeId) ↔
      c ∈ n.syncInfos.correspondingWaitNodeIds ∧ c ∈ nodes.map (·.nodeId) := by
  have hcorr := (hs.corresponding_waits hg hn htype).2
  refine ⟨hs.nodup.sublist (filter_sublist.map _), fun c => ?_⟩
  rw [hcorr c]
  constructor
  · intro hc
    rcases List.mem_map.mp hc with ⟨w, hw, rfl⟩
    rcases mem_filter.mp hw with ⟨hwmem, hev⟩
    rcases isEventOf_iff.mp hev with ⟨hwtype, hwe⟩
    exact ⟨⟨w, hs.mem w hwmem, rfl, hwtype, hwe⟩, List.mem_map.mpr ⟨w, hwmem, rfl⟩⟩
  · rintro ⟨⟨x, hx, rfl, hxtype, hxe⟩, hin⟩
    rcases List.mem_map.mp hin with ⟨w, hw, hwx⟩
    have hsame := hg.eq_of_nodeId (hs.mem w hw) hx hwx
    subst hsame
    exact List.mem_map.mpr ⟨w, mem_filter.mpr ⟨hw, isEventOf_iff.mpr ⟨hxtype, hxe⟩⟩, rfl⟩

/-- With its NOTIFY in the list, an event's balance counts the waits outside. -/
theorem balance_notify (hn : n ∈ nodes) (htype : n.nodeType = .nodeNotify) :
    0 ≤ balance nodes n.eventId ∧
      (balance nodes n.eventId = 0 ↔ allWaitsInside nodes n = true) := by
  rcases hs.waitIds_spec hg hn htype with ⟨hnodup, hmem⟩
  have hcorr := (hs.corresponding_waits hg hn htype).1
  have hbalance : balance nodes n.eventId = (n.syncInfos.correspondingWaitNodeIds.length : ℤ)
      - ((nodes.filter (isEventOf .nodeWait n.eventId)).map (·.nodeId)).length := by
    unfold balance
    rw [hs.filter_notify hg hn htype, length_map]
    simp
  generalize (nodes.filter (isEventOf .nodeWait n.eventId)).map (·.nodeId) = ids
    at hnodup hmem hbalance
  have hsub : ids.Subperm n.syncInfos.correspondingWaitNodeIds :=
    subperm_of_subset hnodup fun c hc => ((hmem c).mp hc).1
  have hle := hsub.length_le
  refine ⟨by omega, ?_⟩
  unfold allWaitsInside
  rw [List.all_eq_true]
  constructor
  · intro hzero c hc
    have hperm := hsub.perm_of_length_le (by omega)
    simpa using ((hmem c).mp (hperm.mem_iff.mpr hc)).2
  · intro hall
    have hsub' : n.syncInfos.correspondingWaitNodeIds.Subperm ids :=
      subperm_of_subset hcorr fun c hc => (hmem c).mpr ⟨hc, by simpa using hall c hc⟩
    have hle' := hsub'.length_le
    omega

end ScopeNodes

/-! ## Which nodes are kept -/

theorem mem_filterCancelledNodes : n ∈ filterCancelledNodes nodes ↔
    n ∈ nodes ∧ isCancelled (eventCounts nodes) n = false ∧ n.isScopeNode = false := by
  simp [filterCancelledNodes, mem_filter]

theorem cellWrite_isSome : (cellWrite e n).isSome = true ↔
    (n.nodeType = .nodeNotify ∨ n.nodeType = .nodeReset) ∧ n.eventId = e := by
  by_cases he : n.eventId = e
  · cases htype : n.nodeType <;> simp [cellWrite, he, htype]
  · simp [cellWrite, he]

theorem isResetOf_iff : isResetOf e n = true ↔ n.nodeType = .nodeReset ∧ n.eventId = e := by
  simp [isResetOf]

namespace ScopeNodes

variable (hs : ScopeNodes g nodes)
include hs

/-- Event nodes are no scope markers. -/
theorem not_marker (hn : n ∈ nodes) (htype : n.nodeType ≠ .nodeKernel) : n.isScopeNode = false := by
  cases hmark : n.isScopeNode with
  | false => rfl
  | true => exact absurd (hs.marker n hn hmark) htype

/-- Unless the balance of an event is 0, all writes to its cell are kept. -/
theorem cellValue_filter (he : eventCounts nodes e ≠ some 0) :
    cellValue e (filterCancelledNodes nodes) = cellValue e nodes := by
  refine runCell_filter (fun n hn hwrite => ?_) 0
  rcases cellWrite_isSome.mp hwrite with ⟨htype | htype, rfl⟩
  · have hmark := hs.not_marker hn (by simp [htype])
    have hsome : (eventCounts nodes n.eventId).isSome = true := by
      rw [eventCounts_isSome, List.any_eq_true]
      exact ⟨n, hn, by simp [isEventOf, htype]⟩
    rcases isSome_iff_exists.mp hsome with ⟨b, hb⟩
    have hne : b ≠ 0 := by
      rintro rfl
      exact he hb
    simp [isCancelled, htype, hb, hne, hmark]
  · have hmark := hs.not_marker hn (by simp [htype])
    simp [isCancelled, htype, he, hmark]

variable (hg : g.WellFormed)
include hg

/-- A WAIT is removed if and only if its NOTIFY is in the list. -/
theorem wait_removed_iff (hw : w ∈ nodes) (htype : w.nodeType = .nodeWait) :
    w ∉ filterCancelledNodes nodes ↔
      ∃ n ∈ nodes, n.nodeType = .nodeNotify ∧
        w.syncInfos.correspondingNotifyNodeId = some n.nodeId := by
  have hmark := hs.not_marker hw (by simp [htype])
  have hcancel : w ∉ filterCancelledNodes nodes ↔ 0 ≤ (eventCounts nodes w.eventId).getD 0 := by
    rw [mem_filterCancelledNodes]
    simp [hw, hmark, isCancelled, htype]
  rw [hcancel]
  constructor
  · intro hnonneg
    by_contra hnone
    have hno : ∀ n ∈ nodes, ¬ isEventOf .nodeNotify w.eventId n = true := by
      intro n hn hev
      rcases isEventOf_iff.mp hev with ⟨hntype, heq⟩
      have hcorr := (hs.corresponding_waits hg hn hntype).2 w.nodeId
      have hwait := hcorr.mpr ⟨w, hs.mem w hw, rfl, htype, heq.symm⟩
      rcases hg.notify_wait (hs.mem n hn) hntype hwait with ⟨x, hx, _, hnotify⟩
      have hxw : x = w := by
        rcases getNodeById_some hx with ⟨hxmem, hxid⟩
        exact hg.eq_of_nodeId hxmem (hs.mem w hw) hxid
      exact hnone ⟨n, hn, hntype, hxw ▸ hnotify⟩
    have hneg := (eventCounts_no_notify hno).2 w hw (isEventOf_iff.mpr ⟨htype, rfl⟩)
    omega
  · rintro ⟨n, hn, hntype, hnotify⟩
    rcases hg.wait_notify (hs.mem w hw) htype hnotify with ⟨m, hm, _, hev, _⟩
    rw [hg.getNodeById_of_mem (hs.mem n hn)] at hm
    have heq : n.eventId = w.eventId := by
      have hmn := some.inj hm
      rw [← hmn] at hev
      exact hev
    rw [← heq, eventCounts_getD]
    exact (hs.balance_notify hg hn hntype).1

/-- A NOTIFY that is awaited outside the list, or a value write that nobody waits on,
is kept. -/
theorem notify_kept (hn : n ∈ nodes) (htype : n.nodeType = .nodeNotify)
    (hneeded : (∃ c ∈ n.syncInfos.correspondingWaitNodeIds, c ∉ nodes.map (·.nodeId)) ∨
      n.syncInfos.addrValue.isSome ∧ n.syncInfos.correspondingWaitNodeIds = []) :
    n ∈ filterCancelledNodes nodes := by
  refine mem_filterCancelledNodes.mpr ⟨hn, ?_, hs.not_marker hn (by simp [htype])⟩
  rcases hneeded with ⟨c, hc, hout⟩ | ⟨haddr, hnil⟩
  · have hopen : ¬ allWaitsInside nodes n = true := by
      intro hall
      have hin := List.all_eq_true.mp hall c hc
      exact hout (by simpa using hin)
    have hne := mt (hs.balance_notify hg hn htype).2.mp hopen
    simp [isCancelled, htype, eventCounts_getD, hne]
  · simp [isCancelled, htype, shouldCancelNotify, hasAddrValue, haddr, hnil]

/-- Behind the NOTIFY of an event, only RESETs write its cell. -/
theorem cellValue_notify (hsplit : nodes = pre ++ n :: post) (htype : n.nodeType = .nodeNotify) :
    cellValue n.eventId nodes
      = if post.any (isResetOf n.eventId) then 0 else notifyValue n := by
  have hn : n ∈ nodes := hsplit ▸ mem_append_right _ (mem_cons_self ..)
  have hpost : ∀ m ∈ post, (cellWrite n.eventId m).isSome → isResetOf n.eventId m = true := by
    intro m hm hwrite
    rcases cellWrite_isSome.mp hwrite with ⟨hmtype | hmtype, heq⟩
    · have hmem : m ∈ nodes := hsplit ▸ mem_append_right _ (mem_cons_of_mem _ hm)
      have hsame := hs.notify_unique hg hn hmem htype hmtype heq
      subst hsame
      have hnodup := hs.nodup
      rw [hsplit, map_append, map_cons] at hnodup
      have hnot := (nodup_cons.mp (nodup_append.mp hnodup).2.1).1
      exact absurd (List.mem_map.mpr ⟨m, hm, rfl⟩) hnot
    · exact isResetOf_iff.mpr ⟨hmtype, heq⟩
  have hwrite : cellWrite n.eventId n = some (notifyValue n) := by simp [cellWrite, htype]
  unfold cellValue
  rw [hsplit, runCell_append]
  show runCell n.eventId ((cellWrite n.eventId n).getD _) post = _
  rw [hwrite, getD_some, runCell_resets hpost]

/-- A fully matched event keeps at most its NOTIFY. -/
theorem cellValue_cancelled (hn : n ∈ nodes) (htype : n.nodeType = .nodeNotify)
    (hinside : allWaitsInside nodes n = true) :
    cellValue n.eventId (filterCancelledNodes nodes)
      = if shouldCancelNotify n then 0 else notifyValue n := by
  have hsome : (eventCounts nodes n.eventId).isSome = true := by
    rw [eventCounts_isSome, List.any_eq_true]
    exact ⟨n, hn, by simp [isEventOf, htype]⟩
  have hzero : eventCounts nodes n.eventId = some 0 := by
    rcases isSome_iff_exists.mp hsome with ⟨b, hb⟩
    have hb0 := eventCounts_getD nodes n.eventId
    rw [(hs.balance_notify hg hn htype).2.mpr hinside, hb, getD_some] at hb0
    rw [hb, hb0]
  -- the only write that can be left is the NOTIFY's
  have honly : ∀ m ∈ filterCancelledNodes nodes, (cellWrite n.eventId m).isSome →
      m = n ∧ shouldCancelNotify n = false := by
    intro m hm hwrite
    rcases mem_filterCancelledNodes.mp hm with ⟨hmem, hkept, _⟩
    rcases cellWrite_isSome.mp hwrite with ⟨hmtype | hmtype, heq⟩
    · have hsame := hs.notify_unique hg hn hmem htype hmtype heq
      subst hsame
      exact ⟨rfl, by simpa [isCancelled, htype, hzero] using hkept⟩
    · simp [isCancelled, hmtype, heq, hzero] at hkept
  cases hcancel : shouldCancelNotify n with
  | true =>
    have hnone : ∀ m ∈ filterCancelledNodes nodes, cellWrite n.eventId m = none := by
      intro m hm
      by_contra hsome'
      have := (honly m hm (isSome_iff_ne_none.mpr hsome')).2
      simp [hcancel] at this
    exact runCell_none hnone 0
  | false =>
    have hkept : n ∈ filterCancelledNodes nodes := by
      refine mem_filterCancelledNodes.mpr ⟨hn, ?_, hs.not_marker hn (by simp [htype])⟩
      simp [isCancelled, htype, hcancel]
    rcases append_of_mem hkept with ⟨pre, post, hsplit⟩
    have hnodup : (filterCancelledNodes nodes).Nodup := (Nodup.of_map _ hs.nodup).filter _
    have hpost : ∀ m ∈ post, cellWrite n.eventId m = none := by
      intro m hm
      by_contra hsome'
      have hmem : m ∈ filterCancelledNodes nodes :=
        hsplit ▸ mem_append_right _ (mem_cons_of_mem _ hm)
      have hsame := (honly m hmem (isSome_iff_ne_none.mpr hsome')).1
      rw [hsplit] at hnodup
      have hnot := (nodup_cons.mp (nodup_append.mp hnodup).2.1).1
      exact hnot (hsame ▸ hm)
    have hwrite : cellWrite n.eventId n = some (notifyValue n) := by simp [cellWrite, htype]
    unfold cellValue
    rw [hsplit, runCell_append]
    show runCell n.eventId ((cellWrite n.eventId n).getD _) post = _
    rw [hwrite, getD_some, runCell_none hpost]
    rfl

end ScopeNodes

/-! ## Which cells keep their value -/

/-- The filtered list has the synchronisation effect of the whole list. -/
structure FilterPreserves (nodes : List SuperKernelBaseNode) : Prop where
  sublist : (filterCancelledNodes nodes).Sublist nodes
  no_marker : ∀ n ∈ filterCancelledNodes nodes, n.isScopeNode = false
  wait : ∀ w ∈ nodes, w.nodeType = .nodeWait → (w ∉ filterCancelledNodes nodes ↔
    ∃ n ∈ nodes, n.nodeType = .nodeNotify ∧
      w.syncInfos.correspondingNotifyNodeId = some n.nodeId)
  notify : ∀ n ∈ nodes, n.nodeType = .nodeNotify →
    (∃ c ∈ n.syncInfos.correspondingWaitNodeIds, c ∉ nodes.map (·.nodeId)) ∨
      n.syncInfos.addrValue.isSome ∧ n.syncInfos.correspondingWaitNodeIds = [] →
    n ∈ filterCancelledNodes nodes
  cells : ∀ e, (∃ n ∈ filterCancelledNodes nodes, (cellWrite e n).isSome) ∨
      (∃ r ∈ nodes, isResetOf e r = true) →
    cellValue e (filterCancelledNodes nodes) = cellValue e nodes

/-- No RESET is missed: behind a kept NOTIFY whose waits are all inside there is none,
and behind a cancelled one there is one if its event is reset in the list at all. -/
def ResetsCovered (nodes : List SuperKernelBaseNode) : Prop :=
  ∀ pre n post, nodes = pre ++ n :: post → n.nodeType = .nodeNotify →
    allWaitsInside nodes n = true → notifyValue n ≠ 0 →
    if shouldCancelNotify n then
      nodes.any (isResetOf n.eventId) = true → post.any (isResetOf n.eventId) = true
    else post.any (isResetOf n.eventId) = false

/-- `FilterCancelledNodes` preserves the synchronisation effect if and only if the RESETs of
every fully matched event are covered. -/
theorem filterCancelledNodes_preserves_iff (hg : g.WellFormed) (hs : ScopeNodes g nodes) :
    FilterPreserves nodes ↔ ResetsCovered nodes := by
  constructor
  · intro hp pre n post hsplit htype hinside hvalue
    have hn : n ∈ nodes := hsplit ▸ mem_append_right _ (mem_cons_self ..)
    have hfull := hs.cellValue_notify hg hsplit htype
    have hleft := hs.cellValue_cancelled hg hn htype hinside
    split
    · next hcancel =>
      intro hreset
      have hcell := hp.cells n.eventId (.inr (List.any_eq_true.mp hreset))
      rw [hfull, hleft, if_pos hcancel] at hcell
      by_contra hnone
      rw [if_neg hnone] at hcell
      exact hvalue hcell.symm
    · next hkeep =>
      have hkept : n ∈ filterCancelledNodes nodes := by
        refine mem_filterCancelledNodes.mpr ⟨hn, ?_, hs.not_marker hn (by simp [htype])⟩
        simp [isCancelled, htype, hkeep]
      have hcell := hp.cells n.eventId
        (.inl ⟨n, hkept, cellWrite_isSome.mpr ⟨.inl htype, rfl⟩⟩)
      rw [hfull, hleft, if_neg hkeep] at hcell
      by_contra hreset
      rw [if_pos (by simpa using hreset)] at hcell
      exact hvalue hcell
  · intro hcovered
    refine ⟨filter_sublist, fun n hn => (mem_filterCancelledNodes.mp hn).2.2,
      fun w hw htype => hs.wait_removed_iff hg hw htype,
      fun n hn htype hneeded => hs.notify_kept hg hn htype hneeded, fun e hrelevant => ?_⟩
    by_cases hzero : eventCounts nodes e = some 0
    swap
    · exact hs.cellValue_filter hzero
    -- a balance of 0 comes from a NOTIFY with all its waits inside
    have hnotify : ∃ n ∈ nodes, isEventOf .nodeNotify e n = true := by
      by_contra hnone
      push Not at hnone
      exact (eventCounts_no_notify hnone).1 hzero
    rcases hnotify with ⟨n, hn, hev⟩
    rcases isEventOf_iff.mp hev with ⟨htype, rfl⟩
    have hinside : allWaitsInside nodes n = true := by
      refine (hs.balance_notify hg hn htype).2.mp ?_
      rw [← eventCounts_getD, hzero]
      rfl
    rcases append_of_mem hn with ⟨pre, post, hsplit⟩
    rw [hs.cellValue_notify hg hsplit htype, hs.cellValue_cancelled hg hn htype hinside]
    by_cases hvalue : notifyValue n = 0
    · simp [hvalue]
    have hcond := hcovered pre n post hsplit htype hinside hvalue
    split at hcond
    · next hcancel =>
      have hreset : nodes.any (isResetOf n.eventId) = true := by
        rcases hrelevant with ⟨m, hm, hwrite⟩ | hreset
        · -- nothing that writes the cell is kept
          rcases mem_filterCancelledNodes.mp hm with ⟨hmem, hkept, _⟩
          rcases cellWrite_isSome.mp hwrite with ⟨hmtype | hmtype, heq⟩
          · have hsame := hs.notify_unique hg hn hmem htype hmtype heq
            subst hsame
            simp [isCancelled, htype, hzero, hcancel] at hkept
          · simp [isCancelled, hmtype, heq, hzero] at hkept
        · exact List.any_eq_true.mpr hreset
      rw [if_pos hcancel, if_pos (hcond hreset)]
    · next hkeep =>
      rw [if_neg hkeep, hcond]
      rfl

/-- A kernel and a NOTIFY of event 7 on one stream, its WAIT and RESET on another, and a
value NOTIFY of event 8 that nobody waits on. -/
def cancelGraph : SuperKernelGraph where
  nodes :=
    [{ nodeId := 0, streamIdxInGraph := 0, nodeIdxInStream := 0, nextNodeId := some 1,
       nodeType := .nodeKernel, isFusible := true },
     { nodeId := 1, streamIdxInGraph := 0, nodeIdxInStream := 1, preNodeId := some 0,
       nextNodeId := some 2, nodeType := .nodeNotify, isFusible := true,
       syncInfos := { eventId := some 7, correspondingWaitNodeIds := [4] } },
     { nodeId := 2, streamIdxInGraph := 0, nodeIdxInStream := 2, preNodeId := some 1,
       nextNodeId := some 3, nodeType := .nodeNotify, isFusible := true,
       syncInfos := { eventId := some 8, addrValue := some 64, memoryValue := some 5 } },
     { nodeId := 3, streamIdxInGraph := 0, nodeIdxInStream := 3, preNodeId := some 2,
       nodeType := .nodeReset, isFusible := true,
       syncInfos := { eventId := some 8, addrValue := some 64, memoryValue := some 0 } },
     { nodeId := 4, streamIdxInGraph := 1, nodeIdxInStream := 0, nextNodeId := some 5,
       nodeType := .nodeWait, isFusible := true,
       syncInfos := { eventId := some 7, correspondingNotifyNodeId := some 1 } },
     { nodeId := 5, streamIdxInGraph := 1, nodeIdxInStream := 1, preNodeId := some 4,
       nodeType := .nodeReset, isFusible := true, syncInfos := { eventId := some 7 } }]
  eventToNodes := [(7, { notifyNodeId := some 1, resetNodeIdList := [5], waitNodeIdList := [4] }),
    (8, { notifyNodeId := some 2, resetNodeIdList := [3] })]
  headNodes := [0, 4]
  streamNum := 2

theorem cancelGraph_wellFormed : cancelGraph.WellFormed := by
  constructor <;> decide

/-- Event 7 is cancelled with its RESET behind; the list stops before the RESET of event 8. -/
def cancelledPair : List SuperKernelBaseNode :=
  cancelGraph.nodes.filter (·.nodeId ≠ 3)

theorem filterCancelledNodes_preserves_iff_sample :
    FilterPreserves cancelledPair ↔ ResetsCovered cancelledPair :=
  filterCancelledNodes_preserves_iff cancelGraph_wellFormed
    ⟨by decide +kernel, by decide +kernel, by decide +kernel⟩

/-- The RESET of the write-only event 8 is dropped although its NOTIFY is kept: the cell
ends at 5 and not at 0. -/
theorem filterCancelledNodes_drops_reset : cancelGraph.WellFormed ∧
    ScopeNodes cancelGraph cancelGraph.nodes ∧
    (filterCancelledNodes cancelGraph.nodes).map (·.nodeId) = [0, 2] ∧
    cellValue (some 8) (filterCancelledNodes cancelGraph.nodes) = 5 ∧
    cellValue (some 8) cancelGraph.nodes = 0 ∧ ¬ FilterPreserves cancelGraph.nodes := by
  have hfiltered : cellValue (some 8) (filterCancelledNodes cancelGraph.nodes) = 5 := by
    decide +kernel
  have hfull : cellValue (some 8) cancelGraph.nodes = 0 := by decide +kernel
  refine ⟨by constructor <;> decide, ⟨by decide +kernel, by decide +kernel, by decide +kernel⟩,
    by decide +kernel, hfiltered, hfull, fun hp => ?_⟩
  have hcell := hp.cells (some 8) (.inr (by decide +kernel))
  rw [hfiltered, hfull] at hcell
  cases hcell

end GraphAutofusion.SuperKernel
