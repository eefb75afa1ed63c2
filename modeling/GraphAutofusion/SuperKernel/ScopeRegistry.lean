import GraphAutofusion.SuperKernel.ScopeMarks
import GraphAutofusion.Lib.NamedStack
import Mathlib.Data.List.Induction

/-!
# SuperKernel.ScopeRegistry — the registered scope names of a model

`RegisterFusibleScope` runs once for each task, in the order of the streams, and sees the names that
the earlier markers asked for. It registers the first `MAX_SCOPE_NUM` of them. Once these are there
every marker that asks for fusion becomes unfusible, also one whose name is registered.
-/

namespace GraphAutofusion.SuperKernel

open List Option

namespace ModelTask

variable (t : ModelTask)

/-- The scope name that `InitNode` keeps. -/
def scopeName : String := (t.params.scope.filter (·.isFuseEnable)).elim "" (·.name)

def isScopeBegin : Bool := t.params.scope.any (·.kind == .scopeBegin)

def isScopeEnd : Bool := t.params.scope.any (·.kind == .scopeEnd)

/-- The task is a marker that asks for the fusion of a named scope. -/
def asksFusion : Bool := t.params.scope.isSome && t.scopeName ≠ "" && t.params.isFusible

end ModelTask

variable (ts : List ModelTask)

/-- The names that the markers of a list ask fusion for, in the order of their first marker. -/
def askedNames : List String :=
  ((ts.filter (·.asksFusion)).map (·.scopeName)).eraseDups

variable (names : List String)

/-- The registry after one more task. -/
def registerName (t : ModelTask) : List String :=
  if t.asksFusion && names.length < MAX_SCOPE_NUM && !names.contains t.scopeName then
    names ++ [t.scopeName]
  else names

theorem askedNames_snoc (t : ModelTask) :
    askedNames (ts ++ [t]) =
      if t.asksFusion && !(askedNames ts).contains t.scopeName then askedNames ts ++ [t.scopeName]
      else askedNames ts := by
  have hmem : (askedNames ts).contains t.scopeName =
      ((ts.filter (·.asksFusion)).map (·.scopeName)).contains t.scopeName := by
    rw [Bool.eq_iff_iff, contains_iff_mem, contains_iff_mem]
    exact mem_eraseDups
  rw [hmem]
  unfold askedNames
  cases hasks : t.asksFusion with
  | true =>
    rw [filter_append, map_append, eraseDups_append,
      filter_cons_of_pos (by simpa using hasks), filter_nil, map_cons, map_nil]
    cases hold : ((ts.filter (·.asksFusion)).map (·.scopeName)).contains t.scopeName with
    | true =>
      rw [removeAll, filter_cons_of_neg (by simp only [elem_eq_contains, hold]; simp)]
      simp
    | false =>
      rw [removeAll, filter_cons_of_pos (by simp only [elem_eq_contains, hold]; simp)]
      simp [eraseDups_cons]
  | false =>
    rw [filter_append, filter_cons_of_neg (by simp [hasks])]
    simp

/-- The registry holds the first names that were asked for. -/
theorem foldl_registerName : ts.foldl registerName [] = (askedNames ts).take MAX_SCOPE_NUM := by
  induction ts using reverseRecOn with
  | nil => rfl
  | append_singleton ts t ih =>
    rw [foldl_append, foldl_cons, foldl_nil, ih, askedNames_snoc, registerName,
      length_take]
    by_cases hfull : MAX_SCOPE_NUM ≤ (askedNames ts).length
    · have hlen : ¬min MAX_SCOPE_NUM (askedNames ts).length < MAX_SCOPE_NUM := by omega
      rw [if_neg (by simp [hlen])]
      split
      · rw [take_append_of_le_length hfull]
      · rfl
    · have hlen : min MAX_SCOPE_NUM (askedNames ts).length < MAX_SCOPE_NUM := by omega
      rw [take_of_length_le (by omega : (askedNames ts).length ≤ MAX_SCOPE_NUM)]
      simp only [hlen, decide_true, Bool.and_true]
      split
      · rw [take_of_length_le]
        rw [length_append, length_singleton]
        omega
      · rw [take_of_length_le (by omega : (askedNames ts).length ≤ MAX_SCOPE_NUM)]

/-- What the walk over the scopes reads from a node. -/
structure ScopeMarker where
  nodeId : NodeId
  isScopeBegin : Bool
  isScopeEnd : Bool
  scopeName : String
  opensFusible : Bool

def ScopeMarker.event (m : ScopeMarker) : Lib.NamedStack.Event String Bool :=
  if m.isScopeBegin then .push m.scopeName m.opensFusible
  else if m.isScopeEnd then .pop m.scopeName
  else .skip

def SuperKernelBaseNode.marker (n : SuperKernelBaseNode) : ScopeMarker where
  nodeId := n.nodeId
  isScopeBegin := n.isScopeBegin
  isScopeEnd := n.isScopeEnd
  scopeName := n.scopeName
  opensFusible := n.isScopeBegin && n.isFusible

/-- The marker of a task whose scope opens as fusible or not. -/
def ModelTask.marker (t : ModelTask) (fusible : Bool) : ScopeMarker where
  nodeId := t.seqId
  isScopeBegin := t.isScopeBegin
  isScopeEnd := t.isScopeEnd
  scopeName := t.scopeName
  opensFusible := t.isScopeBegin && fusible

/-- A task is fusible in the graph unless it asks when the registry is full. -/
def fusibleAfter (t : ModelTask) : Bool :=
  t.params.isFusible && !(t.asksFusion && MAX_SCOPE_NUM ≤ names.length)

/-- The markers of a list of tasks, from a registry on. -/
def markersFrom (names : List String) : List ModelTask → List ScopeMarker
  | [] => []
  | t :: ts => t.marker (fusibleAfter names t) :: markersFrom (registerName names t) ts

namespace ModelGraph

variable {g g' : ModelGraph} {streamIdx taskIdx : ℕ} {pre : Option NodeId}

theorem registerFusibleScope_marker {t : ModelTask} {n : SuperKernelBaseNode}
    (h : initNode streamIdx taskIdx pre t = some n) :
    (g.registerFusibleScope n).1.scopeNameToIdx = registerName g.scopeNameToIdx t ∧
      (g.registerFusibleScope n).2.marker = t.marker (fusibleAfter g.scopeNameToIdx t) := by
  simp only [initNode, ite_none_left_eq_some, some.injEq] at h
  obtain ⟨-, hn⟩ := h
  have hname : n.scopeName = t.scopeName := by rw [← hn]; rfl
  have hmarker : n.marker = t.marker t.params.isFusible := by rw [← hn]; rfl
  have hasks : (n.nodeType = .nodeKernel ∧ n.isScopeNode ∧ n.scopeName ≠ "" ∧ n.isFusible) ↔
      t.asksFusion = true := by
    have hkernel : t.params.scope.isSome = true → t.params.nodeType = .nodeKernel := by
      cases t.params with
      | kernel k => exact fun _ => rfl
      | _ => exact fun h => by cases h
    rw [hname, ← hn, ModelTask.asksFusion]
    simp only [Bool.and_eq_true, decide_eq_true_eq]
    constructor
    · intro h
      exact ⟨⟨h.2.1, h.2.2.1⟩, h.2.2.2⟩
    · intro h
      exact ⟨hkernel h.1.1, h.1.1, h.1.2, h.2⟩
  unfold ModelGraph.registerFusibleScope registerName fusibleAfter
  cases hask : t.asksFusion with
  | false =>
    rw [if_neg fun h => by simp [hasks.mp h] at hask]
    simpa using hmarker
  | true =>
    rw [if_pos (hasks.mpr hask)]
    by_cases hfull : MAX_SCOPE_NUM ≤ g.scopeNameToIdx.length
    · rw [if_pos hfull, if_neg (by simp [not_lt.mpr hfull])]
      refine ⟨rfl, ?_⟩
      rw [← hn]
      simp [SuperKernelBaseNode.marker, ModelTask.marker, hfull, ModelTask.isScopeBegin,
        ModelTask.isScopeEnd, ModelTask.scopeName]
    · rw [if_neg hfull]
      have hroom : g.scopeNameToIdx.length < MAX_SCOPE_NUM := Nat.lt_of_not_le hfull
      split
      · next hold =>
        rw [hname] at hold
        rw [if_neg (by simp [hold])]
        simpa [hfull] using hmarker
      · next hnew =>
        rw [hname] at hnew
        rw [if_pos (by simp [hroom, hnew])]
        simpa [hfull, hname] using hmarker

theorem associate_same {n : SuperKernelBaseNode} (h : g.associate n = some g') :
    g'.scopeNameToIdx = g.scopeNameToIdx ∧ g'.nodes = g.nodes := by
  unfold associate at h
  split at h
  · have hs := addEventAssociateNotify_same h
    exact ⟨hs.scopeNameToIdx, hs.nodes⟩
  · have hs := addEventAssociateWait_same h
    exact ⟨hs.scopeNameToIdx, hs.nodes⟩
  · have hs := addEventAssociateReset_same h
    exact ⟨hs.scopeNameToIdx, hs.nodes⟩
  · simp only [addMemoryAssociateWrite, ite_none_left_eq_some, some.injEq] at h
    rw [← h.2]
    exact ⟨rfl, rfl⟩
  · simp only [addMemoryAssociateWait, ite_none_left_eq_some, some.injEq] at h
    rw [← h.2]
    exact ⟨rfl, rfl⟩
  · cases h
    exact ⟨rfl, rfl⟩

/-- Linking the nodes of a stream changes no marker. -/
theorem updateNodeRelations_marker (i : NodeId) :
    (g.updateNodeRelations i taskIdx pre).scopeNameToIdx = g.scopeNameToIdx ∧
      (g.updateNodeRelations i taskIdx pre).nodes.map (·.marker) = g.nodes.map (·.marker) := by
  have hlink : ∀ (g : ModelGraph) p, (g.modifyNode p fun n => { n with nextNodeId := some i }).nodes.map
      (·.marker) = g.nodes.map (·.marker) := by
    intro g p
    rw [modifyNode, List.map_map]
    refine map_congr_left fun n _ => ?_
    dsimp only [Function.comp_apply]
    split
    · rfl
    · rfl
  unfold updateNodeRelations
  cases pre with
  | none =>
    dsimp only
    split
    · exact ⟨rfl, rfl⟩
    · exact ⟨rfl, rfl⟩
  | some p =>
    dsimp only
    split
    · exact ⟨rfl, hlink _ p⟩
    · exact ⟨rfl, hlink _ p⟩

theorem processSingleTask_marker {t : ModelTask}
    (h : g.processSingleTask streamIdx taskIdx pre t = some g') :
    g'.scopeNameToIdx = registerName g.scopeNameToIdx t ∧
      g'.nodes.map (·.marker) = g.nodes.map (·.marker) ++ [t.marker (fusibleAfter g.scopeNameToIdx t)] := by
  simp only [processSingleTask, bind_eq_bind, bind_eq_some_iff, pure,
    some.injEq, addNode, ite_none_left_eq_some] at h
  obtain ⟨n, hn, g₂, ⟨g₁, hg₁, -, rfl⟩, rfl⟩ := h
  obtain ⟨hnames, hmarker⟩ := registerFusibleScope_marker (g := g) hn
  obtain ⟨hnames₁, hnodes₁⟩ := associate_same hg₁
  obtain ⟨hnames₂, hnodes₂⟩ := @updateNodeRelations_marker
    { g₁ with nodes := g₁.nodes ++ [(g.registerFusibleScope n).2] } taskIdx pre
    (g.registerFusibleScope n).2.nodeId
  constructor
  · rw [hnames₂, ← hnames]
    exact hnames₁
  · rw [hnodes₂]
    show (g₁.nodes ++ [(g.registerFusibleScope n).2]).map (·.marker) = _
    rw [map_append, hnodes₁, (g.registerFusibleScope_spec n).1, map_singleton, hmarker]

theorem processStream_marker {ts : List ModelTask}
    (h : g.processStream streamIdx taskIdx pre ts = some g') :
    g'.scopeNameToIdx = ts.foldl registerName g.scopeNameToIdx ∧
      g'.nodes.map (·.marker) = g.nodes.map (·.marker) ++ markersFrom g.scopeNameToIdx ts := by
  induction ts generalizing g taskIdx pre with
  | nil =>
    cases h
    exact ⟨rfl, (append_nil _).symm⟩
  | cons t ts ih =>
    simp only [processStream, bind_eq_bind, bind_eq_some_iff] at h
    obtain ⟨g₁, hg₁, h⟩ := h
    obtain ⟨hnames₁, hnodes₁⟩ := processSingleTask_marker hg₁
    obtain ⟨hnames, hnodes⟩ := ih h
    rw [hnames₁] at hnames hnodes
    refine ⟨hnames, ?_⟩
    rw [hnodes, hnodes₁, append_assoc]
    rfl

theorem markersFrom_append (front back : List ModelTask) :
    markersFrom names (front ++ back) =
      markersFrom names front ++ markersFrom (front.foldl registerName names) back := by
  induction front generalizing names with
  | nil => rfl
  | cons t front ih =>
    rw [cons_append, markersFrom, ih, markersFrom, cons_append, foldl_cons]

theorem processAllStreams_marker {streams : List (List ModelTask)}
    (h : g.processAllStreams streamIdx streams = some g') :
    g'.scopeNameToIdx = streams.flatten.foldl registerName g.scopeNameToIdx ∧
      g'.nodes.map (·.marker) =
        g.nodes.map (·.marker) ++ markersFrom g.scopeNameToIdx streams.flatten := by
  induction streams generalizing g streamIdx with
  | nil =>
    cases h
    exact ⟨rfl, (append_nil _).symm⟩
  | cons ts streams ih =>
    simp only [processAllStreams, bind_eq_bind, bind_eq_some_iff] at h
    obtain ⟨g₁, hg₁, h⟩ := h
    obtain ⟨hnames₁, hnodes₁⟩ := processStream_marker hg₁
    obtain ⟨hnames, hnodes⟩ := ih h
    rw [hnames₁] at hnames hnodes
    rw [flatten_cons, foldl_append, markersFrom_append, ← append_assoc, ← hnodes₁]
    exact ⟨hnames, hnodes⟩

end ModelGraph

/-- The graph of a model holds the markers of its tasks and the first names that were asked for. -/
theorem initFromModelRI_marker {m : ModelRI} {g : ModelGraph} (h : initFromModelRI m = some g) :
    g.scopeNameToIdx = (askedNames m.flatten).take MAX_SCOPE_NUM ∧
      g.nodes.map (·.marker) = markersFrom [] m.flatten := by
  obtain ⟨hnames, hnodes⟩ := ModelGraph.processAllStreams_marker h
  exact ⟨hnames.trans (foldl_registerName m.flatten), hnodes⟩

/-! ## Late begins -/

/-- No scope begin asks for fusion under one of the first `MAX_SCOPE_NUM` names after all of these
names have been asked for. -/
def NoLateBegin : Prop :=
  ∀ front t back, ts = front ++ t :: back → t.isScopeBegin = true → t.asksFusion = true →
    MAX_SCOPE_NUM ≤ (askedNames front).length →
    t.scopeName ∉ (askedNames front).take MAX_SCOPE_NUM

theorem registerName_grows (t : ModelTask) : names <+: registerName names t := by
  unfold registerName
  split
  · exact prefix_append _ _
  · exact prefix_rfl

theorem foldl_registerName_grows : names <+: ts.foldl registerName names := by
  induction ts generalizing names with
  | nil => exact prefix_rfl
  | cons t ts ih => exact (registerName_grows names t).trans (ih _)

/-- A full registry stays as it is. -/
theorem foldl_registerName_full {names : List String} (h : MAX_SCOPE_NUM ≤ names.length)
    (ts : List ModelTask) : ts.foldl registerName names = names := by
  induction ts with
  | nil => rfl
  | cons t ts ih =>
    rw [foldl_cons, registerName, if_neg (by simp [not_lt.mpr h])]
    exact ih

/-- The marker of a task whose scope opens as fusible iff the task is and its name is registered. -/
def ModelTask.registeredMarker (t : ModelTask) : ScopeMarker :=
  t.marker (t.params.isFusible && names.contains t.scopeName)

/-- Without late begins, the begins of registered names open fusible scopes, if their
tasks are fusible. -/
theorem markersFrom_eq_map {ts : List ModelTask} {names last : List String}
    (hasks : ∀ t ∈ ts, t.isScopeBegin = true → t.params.isFusible = true → t.asksFusion = true)
    (hlast : last = ts.foldl registerName names)
    (hlate : ∀ front t back, ts = front ++ t :: back → t.isScopeBegin = true → t.asksFusion = true →
      MAX_SCOPE_NUM ≤ (front.foldl registerName names).length →
      t.scopeName ∉ front.foldl registerName names) :
    markersFrom names ts = ts.map (·.registeredMarker last) := by
  induction ts generalizing names with
  | nil => rfl
  | cons t ts ih =>
    rw [markersFrom, map_cons, ih (fun u hu => hasks u (mem_cons_of_mem _ hu)) hlast
      fun front u back hsplit => hlate (t :: front) u back (congrArg (t :: ·) hsplit)]
    congr 1
    have hfirst := hlate [] t ts rfl
    cases hbegin : t.isScopeBegin with
    | false => simp [ModelTask.registeredMarker, ModelTask.marker, hbegin]
    | true =>
      cases hfusible : t.params.isFusible with
      | false => simp [ModelTask.registeredMarker, fusibleAfter, hfusible]
      | true =>
        have hask := hasks t mem_cons_self hbegin hfusible
        rw [ModelTask.registeredMarker, fusibleAfter, hfusible, hask]
        by_cases hfull : MAX_SCOPE_NUM ≤ names.length
        · -- the registry is full, and the name is not in it
          have hnew : t.scopeName ∉ last := by
            rw [hlast, foldl_registerName_full hfull]
            exact hfirst hbegin hask hfull
          simp [hfull, hnew]
        · have hmem : t.scopeName ∈ registerName names t := by
            unfold registerName
            rw [hask]
            by_cases hold : t.scopeName ∈ names
            · simp [hold]
            · simp [hold, Nat.lt_of_not_le hfull]
          have hold : t.scopeName ∈ last := by
            rw [hlast]
            exact (foldl_registerName_grows ts _).subset hmem
          simp [hfull, hold]

end GraphAutofusion.SuperKernel
