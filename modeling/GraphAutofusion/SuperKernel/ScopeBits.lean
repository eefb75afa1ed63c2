import GraphAutofusion.SuperKernel.ScopeRegistry

/-!
# SuperKernel.ScopeBits — the scopes of a node

The walk over the nodes keeps the open scopes on one stack and pops them by name, so that each name
has a stack of its own. The bit of a registered scope is set on a node iff a fusible scope
of its name is open there: its begins outnumber its matched ends.
-/

namespace GraphAutofusion.SuperKernel

open Lib.NamedStack List

variable {names : List String} {stack : List ScopeStackEntry}

/-! ## The stack of the walk -/

def ScopeStackEntry.named (e : ScopeStackEntry) : String × Bool := (e.scopeName, e.isFusible)

/-- A fusible entry has the index of its name. -/
def Indexed (names : List String) (stack : List ScopeStackEntry) : Prop :=
  ∀ e ∈ stack, e.isFusible = true → e.scopeName ∈ names ∧ e.scopeIdx = names.idxOf e.scopeName

/-- The begin of a fusible scope has a registered name. -/
def NamesRegistered (names : List String) (n : SuperKernelBaseNode) : Prop :=
  n.isScopeBegin = true → n.isFusible = true → n.scopeName ∈ names

theorem scopeStackAfter_named (n : SuperKernelBaseNode) :
    (scopeStackAfter names stack n).map (·.named) = step (stack.map (·.named)) n.marker.event := by
  unfold scopeStackAfter ScopeMarker.event
  show _ = step _ (if n.isScopeBegin then .push n.scopeName (n.isScopeBegin && n.isFusible)
    else if n.isScopeEnd then .pop n.scopeName else .skip)
  cases hbegin : n.isScopeBegin with
  | true => rfl
  | false =>
    cases hend : n.isScopeEnd with
    | true =>
      simp only [Bool.false_eq_true, if_false, if_true, step, popScopeByName, eraseP_map]
      rfl
    | false => rfl

theorem foldl_scopeStackAfter_named (ns : List SuperKernelBaseNode) :
    (ns.foldl (scopeStackAfter names) stack).map (·.named) =
      (ns.map fun n => n.marker.event).foldl step (stack.map (·.named)) := by
  induction ns generalizing stack with
  | nil => rfl
  | cons n ns ih => rw [foldl_cons, ih, scopeStackAfter_named, map_cons, foldl_cons]

theorem Indexed.after (h : Indexed names stack) {n : SuperKernelBaseNode}
    (hn : NamesRegistered names n) : Indexed names (scopeStackAfter names stack n) := by
  unfold scopeStackAfter
  split
  · next hbegin =>
    intro e he hfusible
    rcases mem_cons.mp he with rfl | he
    · have hname := hn hbegin hfusible
      have hflag : n.isFusible = true := hfusible
      refine ⟨hname, ?_⟩
      show getScopeIdx names n = _
      rw [getScopeIdx, hflag, if_pos (by simpa using hname)]
    · exact h e he hfusible
  · split
    · intro e he hfusible
      exact h e (mem_of_mem_eraseP he) hfusible
    · exact h

variable {ns : List SuperKernelBaseNode}

theorem Indexed.foldl (h : Indexed names stack) (hns : ∀ n ∈ ns, NamesRegistered names n) :
    Indexed names (ns.foldl (scopeStackAfter names) stack) := by
  induction ns generalizing stack with
  | nil => exact h
  | cons n ns ih =>
    exact ih (h.after (hns n mem_cons_self)) fun m hm => hns m (mem_cons_of_mem _ hm)

/-! ## The bits -/

theorem setScopeFlag_bit {flags : ScopeBitFlags} {scopeIdx : ℕ} (h : scopeIdx < MAX_SCOPE_NUM) :
    ∃ flags', setScopeFlag flags scopeIdx = some flags' ∧
      ∀ i, flags'.getLsbD i = true ↔ flags.getLsbD i = true ∨ scopeIdx = i := by
  refine ⟨_, if_pos h, fun i => ?_⟩
  rw [BitVec.getLsbD_or, BitVec.getLsbD_twoPow, Bool.or_eq_true, Bool.and_eq_true,
    decide_eq_true_eq, decide_eq_true_eq]
  exact or_congr_right (and_iff_right h)

theorem foldlM_bit {flags : ScopeBitFlags}
    (h : ∀ e ∈ stack, e.isFusible = true → e.scopeIdx < MAX_SCOPE_NUM) :
    ∃ flags', stack.foldlM (fun flags entry =>
        if entry.isFusible then setScopeFlag flags entry.scopeIdx else some flags) flags = some flags' ∧
      ∀ i, flags'.getLsbD i = true ↔
        flags.getLsbD i = true ∨ ∃ e ∈ stack, e.isFusible = true ∧ e.scopeIdx = i := by
  induction stack generalizing flags with
  | nil => exact ⟨flags, rfl, fun i => by simp⟩
  | cons e rest ih =>
    have hrest := fun x hx => h x (mem_cons_of_mem _ hx)
    cases hfusible : e.isFusible with
    | false =>
      obtain ⟨flags', heq, hbit⟩ := @ih flags hrest
      refine ⟨flags', ?_, fun i => ?_⟩
      · rw [foldlM_cons, hfusible]
        exact heq
      · rw [hbit]
        simp [hfusible]
    | true =>
      obtain ⟨mid, hset, hmid⟩ := @setScopeFlag_bit flags e.scopeIdx (h e mem_cons_self hfusible)
      obtain ⟨flags', heq, hbit⟩ := @ih mid hrest
      refine ⟨flags', ?_, fun i => ?_⟩
      · rw [foldlM_cons, hfusible, if_pos rfl, hset]
        exact heq
      · rw [hbit, hmid, or_assoc]
        simp [hfusible]

/-- The bit of a registered scope is set iff a fusible scope of its name is open. -/
theorem computeScopeBitFlags_spec (hindexed : Indexed names stack)
    (hlen : names.length ≤ MAX_SCOPE_NUM) :
    ∃ flags, computeScopeBitFlags stack = some flags ∧ ∀ s ∈ names,
      flags.getLsbD (names.idxOf s) = true ↔ true ∈ onName s (stack.map (·.named)) := by
  have hbound : ∀ e ∈ stack, e.isFusible = true → e.scopeIdx < MAX_SCOPE_NUM := by
    intro e he hfusible
    obtain ⟨hname, hidx⟩ := hindexed e he hfusible
    rw [hidx]
    exact lt_of_lt_of_le (idxOf_lt_length_of_mem hname) hlen
  obtain ⟨flags, heq, hbit⟩ := @foldlM_bit _ 0 hbound
  refine ⟨flags, heq, fun s hs => ?_⟩
  have hzero : BitVec.getLsbD (0 : ScopeBitFlags) (names.idxOf s) = false := BitVec.getLsbD_zero
  rw [hbit, hzero]
  simp only [onName, mem_map, mem_filter, decide_eq_true_eq, Bool.false_eq_true, false_or]
  constructor
  · intro h
    rcases h with ⟨e, he, hfusible, hidx⟩
    obtain ⟨hname, hidx'⟩ := hindexed e he hfusible
    have heq : e.scopeName = s := (idxOf_inj hname).mp (hidx'.symm.trans hidx)
    exact ⟨e.named, ⟨⟨e, he, rfl⟩, heq⟩, hfusible⟩
  · intro h
    rcases h with ⟨_, ⟨⟨e, he, hnamed⟩, hname⟩, hfusible⟩
    rw [← hnamed] at hname hfusible
    refine ⟨e, he, hfusible, ?_⟩
    rw [(hindexed e he hfusible).2]
    exact congrArg names.idxOf hname

/-! ## The walk -/

/-- The events that count for a node: all up to it, without its own if it ends a scope. -/
def eventsUpTo (front : List SuperKernelBaseNode) (n : SuperKernelBaseNode) :
    List (Event String Bool) :=
  (if n.isScopeEnd then front else front ++ [n]).map fun m => m.marker.event

theorem markNode_bits (hindexed : Indexed names stack) (hlen : names.length ≤ MAX_SCOPE_NUM)
    {n : SuperKernelBaseNode} (hn : NamesRegistered names n) :
    ∃ n', markNode names stack n = some n' ∧ ∀ s ∈ names,
      n'.scopeBitFlags.getLsbD (names.idxOf s) = true ↔
        true ∈ onName s ((if n.isScopeEnd then stack else scopeStackAfter names stack n).map (·.named)) := by
  unfold markNode
  cases hend : n.isScopeEnd with
  | true =>
    obtain ⟨flags, heq, hbit⟩ := computeScopeBitFlags_spec hindexed hlen
    exact ⟨_, by rw [heq]; rfl, hbit⟩
  | false =>
    obtain ⟨flags, heq, hbit⟩ := computeScopeBitFlags_spec (hindexed.after hn) hlen
    exact ⟨_, by simp only [heq]; rfl, hbit⟩

theorem markNodes_bits (hindexed : Indexed names stack) (hlen : names.length ≤ MAX_SCOPE_NUM)
    (hns : ∀ n ∈ ns, NamesRegistered names n) : ∃ ns', markNodes names stack ns = some ns' := by
  induction ns generalizing stack with
  | nil => exact ⟨[], rfl⟩
  | cons n ns ih =>
    have hn := hns n mem_cons_self
    obtain ⟨n', hmark, -⟩ := markNode_bits hindexed hlen hn
    obtain ⟨ns', hrest⟩ := ih (hindexed.after hn) fun m hm => hns m (mem_cons_of_mem _ hm)
    refine ⟨n' :: ns', ?_⟩
    rw [markNodes, hmark]
    simp only [hrest]
    rfl

/-- The walk goes through. A bit of a node is set iff a fusible scope of the name is open after the
events that count for the node. -/
theorem markNodes_run (hlen : names.length ≤ MAX_SCOPE_NUM)
    (hns : ∀ n ∈ ns, NamesRegistered names n) :
    ∃ ns', markNodes names [] ns = some ns' ∧ ∀ n' ∈ ns', ∃ front n back, ns = front ++ n :: back ∧
      n'.nodeId = n.nodeId ∧ ∀ s ∈ names,
        n'.scopeBitFlags.getLsbD (names.idxOf s) = true ↔ true ∈ onName s (run (eventsUpTo front n)) := by
  have hempty : Indexed names [] := fun e he => absurd he not_mem_nil
  obtain ⟨ns', hwalk⟩ := markNodes_bits hempty hlen hns
  refine ⟨ns', hwalk, fun n' hn' => ?_⟩
  obtain ⟨front, n, back, hsplit, hmark⟩ := (markNodes_spec hwalk).2.2 n' hn'
  have hfront : ∀ m ∈ front, NamesRegistered names m := fun m hm =>
    hns m (by rw [hsplit]; exact mem_append_left _ hm)
  have hn : NamesRegistered names n :=
    hns n (by rw [hsplit]; exact mem_append_right _ mem_cons_self)
  obtain ⟨marked, heq, hbit⟩ := markNode_bits (hempty.foldl hfront) hlen hn
  rw [hmark] at heq
  cases heq
  refine ⟨front, n, back, hsplit, (markNode_spec hmark).1, fun s hs => ?_⟩
  rw [hbit s hs, run, eventsUpTo]
  have hopen : ∀ ms : List SuperKernelBaseNode, (ms.foldl (scopeStackAfter names) []).map (·.named) =
      (ms.map fun m => m.marker.event).foldl step [] := fun ms => foldl_scopeStackAfter_named ms
  cases n.isScopeEnd with
  | true => rw [if_pos rfl, if_pos rfl, hopen]
  | false =>
    have hafter : scopeStackAfter names (front.foldl (scopeStackAfter names) []) n =
        (front ++ [n]).foldl (scopeStackAfter names) [] := by
      rw [foldl_append]
      rfl
    rw [if_neg Bool.false_ne_true, if_neg Bool.false_ne_true, hafter, hopen]

/-! ## The scopes of the tasks -/

/-- What a task does to the open scopes. -/
def ModelTask.scopeEvent (t : ModelTask) : Event String Bool :=
  if t.isScopeBegin then .push t.scopeName t.params.isFusible
  else if t.isScopeEnd then .pop t.scopeName
  else .skip

/-- The begins that open a fusible scope of a name. -/
def scopeBegins (s : String) (ts : List ModelTask) : ℕ := pushes s id (ts.map (·.scopeEvent))

/-- The ends that close such a begin. -/
def matchedScopeEnds (s : String) (ts : List ModelTask) : ℕ :=
  matchedPops s id [] (ts.map (·.scopeEvent))

def sortedTasks (ts : List ModelTask) : List ModelTask :=
  ts.insertionSort fun a b => a.seqId ≤ b.seqId

/-- The tasks up to `t`, without `t` itself if it ends a scope. -/
def tasksUpTo (ts : List ModelTask) (t : ModelTask) : List ModelTask :=
  (sortedTasks ts).filter fun u => u.seqId < t.seqId || (u.seqId = t.seqId && !t.isScopeEnd)

/-- The walk computes the scopes of the nodes. It goes through, and since setting a bit past the
end throws, no index beyond `MAX_SCOPE_NUM` is set. -/
structure ScopeMembership (ts : List ModelTask) (g : ModelGraph) : Prop where
  bits : ∃ g', g.updateNodeScopeBitFlags = some g' ∧ ∀ n ∈ g'.nodes, ∃ t ∈ ts, t.seqId = n.nodeId ∧
    ∀ s ∈ g.scopeNameToIdx, n.scopeBitFlags.getLsbD (g.scopeNameToIdx.idxOf s) = true ↔
      matchedScopeEnds s (tasksUpTo ts t) < scopeBegins s (tasksUpTo ts t)
  staysFusible : ∀ t ∈ ts, t.isScopeBegin = true → t.asksFusion = true →
    t.scopeName ∈ g.scopeNameToIdx → ∀ n ∈ g.nodes, n.nodeId = t.seqId → n.isFusible = true
  bound : ∀ s ∈ g.scopeNameToIdx, g.scopeNameToIdx.idxOf s < MAX_SCOPE_NUM
  distinct : ∀ s ∈ g.scopeNameToIdx, ∀ s' ∈ g.scopeNameToIdx,
    g.scopeNameToIdx.idxOf s = g.scopeNameToIdx.idxOf s' → s = s'

section Sorted

variable {ts front back : List ModelTask} {t : ModelTask}

theorem tasksUpTo_eq (hsorted : sortedTasks ts = front ++ t :: back)
    (h : (front ++ t :: back).Pairwise fun a b => a.seqId < b.seqId) :
    tasksUpTo ts t = if t.isScopeEnd then front else front ++ [t] := by
  obtain ⟨-, hback, hfront⟩ := pairwise_append.mp h
  rw [tasksUpTo, hsorted, filter_append, filter_eq_self.mpr, filter_cons,
    filter_eq_nil_iff.mpr]
  · cases t.isScopeEnd with
    | true => simp
    | false => simp
  · intro u hu
    have hlt := (pairwise_cons.mp hback).1 u hu
    have hne : u.seqId ≠ t.seqId := fun heq => absurd hlt (by rw [heq]; exact lt_irrefl _)
    simp [hne, le_of_lt hlt]
  · intro u hu
    have hlt := hfront u hu t mem_cons_self
    simp [hlt]

/-- Distinct ids are in strict order after sorting. -/
theorem sortedTasks_pairwise (hnodup : (ts.map (·.seqId)).Nodup) :
    (sortedTasks ts).Pairwise fun a b => a.seqId < b.seqId := by
  have hperm := ts.perm_insertionSort fun a b => a.seqId ≤ b.seqId
  have hle : (sortedTasks ts).Pairwise fun a b => a.seqId ≤ b.seqId :=
    pairwise_insertionSort (fun a b : ModelTask => a.seqId ≤ b.seqId) ts
  have hne : (sortedTasks ts).Pairwise fun a b => a.seqId ≠ b.seqId :=
    pairwise_map.mp ((hperm.map _).nodup_iff.mpr hnodup)
  exact (hle.and hne).imp fun h => lt_of_le_of_ne h.1 h.2

/-- Nodes with the markers of the tasks are sorted like the tasks. -/
theorem sortedNodes_markers {g : ModelGraph} {f : ModelTask → ScopeMarker}
    (hid : ∀ t, (f t).nodeId = t.seqId) (h : g.nodes.map (·.marker) = ts.map f) :
    g.sortedNodes.map (·.marker) = (sortedTasks ts).map f := by
  have hnodes := map_insertionSort (fun a b : SuperKernelBaseNode => a.nodeId ≤ b.nodeId)
    (fun a b : ScopeMarker => a.nodeId ≤ b.nodeId) (·.marker) g.nodes fun a _ b _ => Iff.rfl
  have htasks := map_insertionSort (fun a b : ModelTask => a.seqId ≤ b.seqId)
    (fun a b : ScopeMarker => a.nodeId ≤ b.nodeId) f ts fun a _ b _ => by rw [hid, hid]
  rw [ModelGraph.sortedNodes, sortedTasks, hnodes, htasks, h]

end Sorted

/-- On a registered name, the scopes that open in the graph are those that the tasks open. -/
theorem onName_scopeEvents {s : String} (hs : s ∈ names) (us : List ModelTask) :
    onName s (run (us.map fun u => (u.registeredMarker names).event)) =
      onName s (run (us.map (·.scopeEvent))) := by
  rw [onName_run, onName_run, foldl_map, foldl_map]
  congr 1
  funext vals u
  unfold ScopeMarker.event ModelTask.scopeEvent ModelTask.registeredMarker ModelTask.marker
  cases hbegin : u.isScopeBegin with
  | false => rfl
  | true =>
    by_cases hname : u.scopeName = s
    · have hin : names.contains u.scopeName = true := by simpa [hname] using hs
      rw [hin, Bool.and_true]
      rfl
    · simp [stepOn, hname]

theorem events_of_markers {ms : List SuperKernelBaseNode} {us : List ModelTask}
    (h : us.map (·.registeredMarker names) = ms.map (·.marker)) :
    (ms.map fun m => m.marker.event) = us.map fun u => (u.registeredMarker names).event := by
  have hevents := congrArg (map ScopeMarker.event) h
  rw [map_map, map_map] at hevents
  exact hevents.symm

section Membership

variable {ts : List ModelTask} {g : ModelGraph}

theorem seqIds_eq (h : g.nodes.map (·.marker) = ts.map (·.registeredMarker names)) :
    ts.map (·.seqId) = g.nodes.map (·.nodeId) := by
  have hids := congrArg (map ScopeMarker.nodeId) h
  rw [map_map, map_map] at hids
  exact hids.symm

/-- If all begins of registered names opened fusible scopes, the walk computes the scopes. -/
theorem updateNodeScopeBitFlags_bits (hlen : g.scopeNameToIdx.length ≤ MAX_SCOPE_NUM)
    (hnodup : (g.nodes.map (·.nodeId)).Nodup)
    (h : g.nodes.map (·.marker) = ts.map (·.registeredMarker g.scopeNameToIdx)) :
    ∃ g', g.updateNodeScopeBitFlags = some g' ∧ ∀ n ∈ g'.nodes, ∃ t ∈ ts, t.seqId = n.nodeId ∧
      ∀ s ∈ g.scopeNameToIdx, n.scopeBitFlags.getLsbD (g.scopeNameToIdx.idxOf s) = true ↔
        matchedScopeEnds s (tasksUpTo ts t) < scopeBegins s (tasksUpTo ts t) := by
  have hsorted := sortedNodes_markers (fun t => rfl) h
  have hregistered : ∀ n ∈ g.sortedNodes, NamesRegistered g.scopeNameToIdx n := by
    intro n hn hbegin hfusible
    obtain ⟨t, -, ht⟩ := mem_map.mp (hsorted ▸ mem_map_of_mem hn)
    have hname : t.scopeName = n.scopeName := congrArg ScopeMarker.scopeName ht
    have hflag : (t.isScopeBegin && (t.params.isFusible && g.scopeNameToIdx.contains t.scopeName)) =
        (n.isScopeBegin && n.isFusible) := congrArg ScopeMarker.opensFusible ht
    rw [hbegin, hfusible, Bool.and_self, Bool.and_eq_true, Bool.and_eq_true] at hflag
    rw [← hname]
    simpa using hflag.2.2
  obtain ⟨ns', hwalk, hbits⟩ := markNodes_run hlen hregistered
  refine ⟨{ g with nodes := ns' }, ?_, ?_⟩
  · rw [ModelGraph.updateNodeScopeBitFlags, hwalk]
    rfl
  · intro n' hn'
    obtain ⟨front, n, back, hsplit, hid, hbit⟩ := hbits n' hn'
    -- the tasks split where the nodes do
    rw [hsplit, map_append, map_cons] at hsorted
    obtain ⟨front', rest, htasks, hfront, hrest⟩ := map_eq_append_iff.mp hsorted.symm
    obtain ⟨t, back', hrest', ht, -⟩ := map_eq_cons_iff.mp hrest
    rw [hrest'] at htasks
    have htid : t.seqId = n.nodeId := congrArg ScopeMarker.nodeId ht
    have hend : t.isScopeEnd = n.isScopeEnd := congrArg ScopeMarker.isScopeEnd ht
    have hmem : t ∈ ts := by
      have hperm := ts.perm_insertionSort fun a b => a.seqId ≤ b.seqId
      refine hperm.mem_iff.mp ?_
      rw [← sortedTasks, htasks]
      exact mem_append_right _ mem_cons_self
    refine ⟨t, hmem, htid.trans hid.symm, fun s hs => ?_⟩
    have hupTo := tasksUpTo_eq htasks (htasks ▸ sortedTasks_pairwise (seqIds_eq h ▸ hnodup))
    have hevents : eventsUpTo front n = (tasksUpTo ts t).map fun u =>
        (u.registeredMarker g.scopeNameToIdx).event := by
      rw [eventsUpTo, hupTo, hend]
      cases n.isScopeEnd with
      | true => exact events_of_markers hfront
      | false =>
        refine events_of_markers ?_
        rw [if_neg Bool.false_ne_true, if_neg Bool.false_ne_true, map_append, map_append,
          hfront, map_singleton, map_singleton, ht]
    rw [hbit s hs, hevents, onName_scopeEvents hs, matchedScopeEnds, scopeBegins,
      matchedPops_lt_pushes_iff]
    simp

/-- Begins that stay fusible are never late. -/
theorem noLateBegin_of_staysFusible (hnames : g.scopeNameToIdx = (askedNames ts).take MAX_SCOPE_NUM)
    (h : g.nodes.map (·.marker) = markersFrom [] ts)
    (hstays : ∀ t ∈ ts, t.isScopeBegin = true → t.asksFusion = true →
      t.scopeName ∈ g.scopeNameToIdx → ∀ n ∈ g.nodes, n.nodeId = t.seqId → n.isFusible = true) :
    NoLateBegin ts := by
  intro front t back hsplit hbegin hasks hfull hold
  have hregistry : front.foldl registerName [] = (askedNames front).take MAX_SCOPE_NUM :=
    foldl_registerName front
  have hlen : MAX_SCOPE_NUM ≤ (front.foldl registerName []).length := by
    rw [hregistry, length_take]
    omega
  -- the registry is full, so it is the final one
  have hlast : g.scopeNameToIdx = front.foldl registerName [] := by
    rw [hnames, ← foldl_registerName, hsplit, foldl_append]
    exact foldl_registerName_full hlen _
  have hmarker : t.marker (fusibleAfter (front.foldl registerName []) t) ∈ g.nodes.map (·.marker) := by
    rw [h, hsplit, ModelGraph.markersFrom_append]
    exact mem_append_right _ mem_cons_self
  obtain ⟨n, hn, heq⟩ := mem_map.mp hmarker
  have hmem : t ∈ ts := by
    rw [hsplit]
    exact mem_append_right _ mem_cons_self
  have hregistered : t.scopeName ∈ g.scopeNameToIdx := by
    rw [hlast, hregistry]
    exact hold
  have hfusible := hstays t hmem hbegin hasks hregistered n hn (congrArg ScopeMarker.nodeId heq)
  have hflag : (n.isScopeBegin && n.isFusible) =
      (t.isScopeBegin && fusibleAfter (front.foldl registerName []) t) :=
    congrArg ScopeMarker.opensFusible heq
  have hnbegin : n.isScopeBegin = t.isScopeBegin := congrArg ScopeMarker.isScopeBegin heq
  rw [hfusible, hnbegin, hbegin, fusibleAfter, hasks] at hflag
  simp [hlen] at hflag

end Membership

/-- A begin whose task is fusible asks for the fusion of a named scope. -/
theorem asksFusion_of_isFusible {t : ModelTask}
    (hname : ∀ scope, t.params.scope = some scope → scope.name ≠ "") (hbegin : t.isScopeBegin = true)
    (hfusible : t.params.isFusible = true) : t.asksFusion = true := by
  unfold ModelTask.isScopeBegin at hbegin
  unfold ModelTask.asksFusion ModelTask.scopeName
  cases hparams : t.params with
  | kernel k =>
    rw [hparams] at hbegin hfusible hname
    cases hscope : k.scope with
    | none => simp [TaskParams.scope, hscope] at hbegin
    | some scope =>
      have henabled : scope.isFuseEnable = true := by
        simp only [TaskParams.isFusible, hscope, Bool.and_eq_true] at hfusible
        exact hfusible.1.1
      have hne := hname scope hscope
      simp [TaskParams.scope, hscope, henabled, hne, hfusible, Option.filter]
  | _ => simp [hparams, TaskParams.scope] at hbegin

/-- One stream with a scope of one kernel. -/
def oneScope : ModelRI :=
  [[⟨0, .kernel { scope := some ⟨.scopeBegin, "a"⟩ }⟩, ⟨1, .kernel {}⟩,
    ⟨2, .kernel { scope := some ⟨.scopeEnd, "a"⟩ }⟩]]

/-! ## The limit of the registry -/

section Limit

/-- The model's scope names: strings of different lengths. -/
def nthName (i : ℕ) : String := String.ofList (replicate (i + 1) 'a')

def nthMarker (i : ℕ) : ScopeKernelArgs :=
  if i < MAX_SCOPE_NUM then ⟨.scopeBegin, nthName i⟩
  else if i = MAX_SCOPE_NUM then ⟨.scopeBegin, nthName 0⟩
  else if i = MAX_SCOPE_NUM + 1 then ⟨.scopeEnd, nthName 0⟩
  else ⟨.scopeEnd, nthName (2 * MAX_SCOPE_NUM + 1 - i)⟩

def nthTask (i : ℕ) : ModelTask := ⟨i, .kernel { scope := some (nthMarker i) }⟩

theorem processSingleTask_kernel {t : ModelTask} {k : KernelTaskParams} {g : ModelGraph}
    {streamIdx taskIdx : ℕ} {pre : Option NodeId} (hk : t.params = .kernel k)
    (hfresh : t.seqId ∉ g.nodes.map (·.nodeId)) :
    ∃ g', g.processSingleTask streamIdx taskIdx pre t = some g' := by
  have haddr : t.params.isNullAddr = false := by rw [hk]; rfl
  unfold ModelGraph.processSingleTask
  cases hinit : initNode streamIdx taskIdx pre t with
  | none => simp [initNode, haddr] at hinit
  | some n =>
    obtain ⟨hnodes, -, htask⟩ := g.registerFusibleScope_spec n
    have hn := htask t (ModelGraph.NodeOfTask_initNode hinit)
    have htype : (g.registerFusibleScope n).2.nodeType = .nodeKernel := by rw [hn.nodeType, hk]; rfl
    have hassociate : (g.registerFusibleScope n).1.associate (g.registerFusibleScope n).2 =
        some (g.registerFusibleScope n).1 := by
      unfold ModelGraph.associate
      rw [htype]
    have hnone : ((g.registerFusibleScope n).1.getNodeById (g.registerFusibleScope n).2.nodeId).isSome =
        false := by
      rw [SuperKernelGraph.getNodeById, hnodes, hn.nodeId, Option.isSome_eq_false_iff,
        Option.isNone_iff_eq_none, find?_eq_none]
      intro x hx hid
      refine hfresh (mem_map.mpr ⟨x, hx, ?_⟩)
      simpa using hid
    simp [ModelGraph.addNode, hassociate, hnone]

/-- A stream of kernels with fresh ids is read to its end. -/
theorem processStream_kernels {ts : List ModelTask} {g : ModelGraph} {streamIdx taskIdx : ℕ}
    {pre : Option NodeId} (hkernel : ∀ t ∈ ts, ∃ k, t.params = .kernel k)
    (hnodup : (g.nodes.map (·.nodeId) ++ ts.map (·.seqId)).Nodup) :
    ∃ g', g.processStream streamIdx taskIdx pre ts = some g' := by
  induction ts generalizing g taskIdx pre with
  | nil => exact ⟨g, rfl⟩
  | cons t ts ih =>
    obtain ⟨k, hk⟩ := hkernel t mem_cons_self
    have hfresh : t.seqId ∉ g.nodes.map (·.nodeId) := by
      intro hold
      exact (nodup_append.mp hnodup).2.2 _ hold _ mem_cons_self rfl
    have htask : ∃ g₁, g.processSingleTask streamIdx taskIdx pre t = some g₁ :=
      processSingleTask_kernel hk hfresh
    obtain ⟨g₁, hg₁⟩ := htask
    have hids : g₁.nodes.map (·.nodeId) = g.nodes.map (·.nodeId) ++ [t.seqId] := by
      have hids := congrArg (map ScopeMarker.nodeId) (ModelGraph.processSingleTask_marker hg₁).2
      rw [map_append, map_map, map_map] at hids
      exact hids
    obtain ⟨g', hg'⟩ := @ih g₁ (taskIdx + 1) (some t.seqId)
      (fun u hu => hkernel u (mem_cons_of_mem _ hu)) (by
        rw [hids, append_assoc]
        exact hnodup)
    refine ⟨g', ?_⟩
    rw [ModelGraph.processStream]
    simp only [hg₁]
    exact hg'

theorem initFromModelRI_kernels {ts : List ModelTask} (hkernel : ∀ t ∈ ts, ∃ k, t.params = .kernel k)
    (hnodup : (ts.map (·.seqId)).Nodup) : ∃ g, initFromModelRI [ts] = some g := by
  obtain ⟨g, hg⟩ := @processStream_kernels ts
    { nodes := [], eventToNodes := [], headNodes := [], streamNum := 1 } 0 0 none hkernel hnodup
  refine ⟨g, ?_⟩
  rw [initFromModelRI, ModelGraph.processAllStreams]
  simp only [length_singleton, hg]
  rfl

/-- Nested scopes with as many names as can be registered, and within them the first scope
once more. -/
def fullRegistry : ModelRI := [(range (MAX_SCOPE_NUM + (MAX_SCOPE_NUM + 2))).map nthTask]

theorem nthName_injective {i j : ℕ} (h : nthName i = nthName j) : i = j := by
  have hlist := congrArg String.toList h
  rw [nthName, nthName, String.toList_ofList, String.toList_ofList] at hlist
  have hlen := congrArg length hlist
  rw [length_replicate, length_replicate] at hlen
  omega

theorem nthName_ne (i : ℕ) : nthName i ≠ "" ∧ nthName i ≠ defaultScopeName := by
  constructor
  · intro h
    have hlist := congrArg String.toList h
    rw [nthName, String.toList_ofList] at hlist
    simp at hlist
  · intro h
    have hlist := congrArg String.toList h
    rw [nthName, String.toList_ofList] at hlist
    have hhead := congrArg head? hlist
    rw [replicate_succ, head?_cons] at hhead
    exact absurd hhead (by decide)

theorem nthTask_asks {i : ℕ} (h : i ≤ MAX_SCOPE_NUM) :
    (nthTask i).asksFusion = true ∧ (nthTask i).isScopeBegin = true ∧
      (nthTask i).scopeName = nthName (if i < MAX_SCOPE_NUM then i else 0) := by
  have hmarker : nthMarker i = ⟨.scopeBegin, nthName (if i < MAX_SCOPE_NUM then i else 0)⟩ := by
    unfold nthMarker
    by_cases hlt : i < MAX_SCOPE_NUM
    · rw [if_pos hlt, if_pos hlt]
    · rw [if_neg hlt, if_neg hlt, if_pos (by omega)]
  obtain ⟨hne, hdefault⟩ := nthName_ne (if i < MAX_SCOPE_NUM then i else 0)
  have hscope : (nthTask i).params.scope =
      some ⟨.scopeBegin, nthName (if i < MAX_SCOPE_NUM then i else 0)⟩ := congrArg some hmarker
  have henabled : ScopeKernelArgs.isFuseEnable
      ⟨.scopeBegin, nthName (if i < MAX_SCOPE_NUM then i else 0)⟩ = true := by
    simp [ScopeKernelArgs.isFuseEnable, hdefault]
  have hname : (nthTask i).scopeName = nthName (if i < MAX_SCOPE_NUM then i else 0) := by
    rw [ModelTask.scopeName, hscope, Option.filter_some, if_pos henabled]
    rfl
  have hfusible : (nthTask i).params.isFusible = true := by
    rw [nthTask, hmarker]
    simp [TaskParams.isFusible, henabled]
  refine ⟨?_, ?_, hname⟩
  · rw [ModelTask.asksFusion, hscope, hname, hfusible]
    simp [hne]
  · rw [ModelTask.isScopeBegin, hscope]
    rfl

theorem askedNames_nthTask {k : ℕ} (h : k ≤ MAX_SCOPE_NUM) :
    askedNames ((range k).map nthTask) = (range k).map nthName := by
  induction k with
  | zero => rfl
  | succ k ih =>
    have hlt : k < MAX_SCOPE_NUM := h
    obtain ⟨hasks, -, hname⟩ := nthTask_asks (le_of_lt hlt)
    rw [if_pos hlt] at hname
    rw [range_succ, map_append, map_append, map_singleton, map_singleton,
      askedNames_snoc, ih (le_of_lt hlt), hasks, hname]
    have hnew : nthName k ∉ (range k).map nthName := by
      intro hold
      obtain ⟨j, hj, heq⟩ := mem_map.mp hold
      have hjk := nthName_injective heq
      have hlt := mem_range.mp hj
      omega
    rw [if_pos (by simpa using hnew)]

end Limit

end GraphAutofusion.SuperKernel
