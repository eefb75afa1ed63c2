import GraphAutofusion.SuperKernel.LockSearch

/-!
# SuperKernel.LockMarks — the marks that the detector leaves on the nodes

A node is only marked as visited together with an entry in one of the detector's two lists, so
`Reset` takes all visited flags back. It leaves the expand numbers and the stream sets of the
finished scopes: after `Reset`, these scopes are all the detector remembers.
-/

namespace GraphAutofusion.SuperKernel

open Relation List

variable {g : SuperKernelGraph} {dev : DeviceCores} {ls ls' : LockState} {node : SuperKernelBaseNode}
  {valueBreakerBypass fuel : ℕ} {b : Bool}

/-- Every visited node is in `nodes`. -/
def Tracked (ls : LockState) : Prop := ∀ i ∈ ls.visited, i ∈ ls.nodes

/-- A call of `IsFusible` leaves the marks of finished scopes alone, and what is visited stays
tracked. -/
theorem isFusible_marks (h : isFusible g dev valueBreakerBypass fuel ls node = some (b, ls')) :
    ls'.notifyExpand = ls.notifyExpand ∧ ls'.scopeStreamIds = ls.scopeStreamIds ∧
      (Tracked ls → Tracked ls') := by
  rcases isFusible_cases h with ⟨-, -, rfl⟩ | ⟨-, mid, hstatus, hls'⟩
  · exact ⟨rfl, rfl, id⟩
  -- an accepted node is entered in `nodes`
  have hadd : ls'.notifyExpand = mid.notifyExpand ∧ ls'.scopeStreamIds = mid.scopeStreamIds ∧
      (Tracked mid → Tracked ls') := by
    rw [hls']
    cases b with
    | false => exact ⟨rfl, rfl, id⟩
    | true =>
      refine ⟨rfl, rfl, fun hmid i hi => ?_⟩
      show i ∈ mid.nodes ++ [node.nodeId]
      rcases mem_cons.mp hi with rfl | hi
      · exact mem_append_right _ mem_cons_self
      · exact mem_append_left _ (hmid i hi)
  rw [hadd.1, hadd.2.1]
  rcases getFusibleStatus_cases hstatus with ⟨-, rfl⟩ | ⟨-, heq⟩ | ⟨-, found, hrun, hmid⟩
  · exact ⟨rfl, rfl, hadd.2.2⟩
  · obtain ⟨hvisited, hnodes, -, hexpand, hstreams⟩ := @hasEnoughCores_marks dev ls node true
    rw [← heq] at hvisited hnodes hexpand hstreams
    refine ⟨hexpand, hstreams, fun htracked => hadd.2.2 ?_⟩
    intro i hi
    have hi' : i ∈ ls.visited := hvisited ▸ hi
    exact hnodes ▸ htracked i hi'
  · have hmarks := hrun.marks
    have hsame : mid.notifyExpand = found.notifyExpand ∧ mid.scopeStreamIds = found.scopeStreamIds := by
      rw [hmid]
      cases b with
      | true => exact ⟨rfl, rfl⟩
      | false => exact ⟨rfl, rfl⟩
    refine ⟨hsame.1.trans hmarks.notifyExpand, hsame.2.trans hmarks.scopeStreamIds, ?_⟩
    intro htracked
    refine hadd.2.2 ?_
    rw [hmid]
    have hfound : ∀ i ∈ found.visited, i ∈ found.nodes ∨ i ∈ found.tempVisitedNodes := by
      intro i hi
      have hnodes : found.nodes = ls.nodes := hmarks.nodes
      rw [hnodes]
      exact (hmarks.visited i hi).imp_left (htracked i)
    cases b with
    | true =>
      -- the marks are kept, with their entries
      intro i hi
      exact mem_append.mpr (hfound i hi)
    | false =>
      intro i hi
      obtain ⟨hi, hrolled⟩ := mem_filter.mp hi
      exact (hfound i hi).resolve_right (by simpa using hrolled)

/-- `Reset` of a tracked state leaves nothing but the marks of the finished scopes. -/
theorem reset_of_tracked (h : Tracked ls) :
    ls.reset = { notifyExpand := ls.notifyExpand, scopeStreamIds := ls.scopeStreamIds } := by
  have hnone : ls.visited.filter (fun i => i ∉ ls.nodes && i ∉ ls.tempVisitedNodes) = [] := by
    rw [filter_eq_nil_iff]
    intro i hi
    simp [h i hi]
  rw [LockState.reset, hnone]

/-! ## Runs over the nodes of a scope -/

/-- The state after all nodes were accepted one after the other; `none` if one is not. -/
def acceptAll (g : SuperKernelGraph) (dev : DeviceCores) (valueBreakerBypass fuel : ℕ) :
    List SuperKernelBaseNode → LockState → Option LockState
  | [], ls => some ls
  | node :: rest, ls =>
    match isFusible g dev valueBreakerBypass fuel ls node with
    | some (true, ls) => acceptAll g dev valueBreakerBypass fuel rest ls
    | _ => none

theorem acceptAll_cons (h : isFusible g dev valueBreakerBypass fuel ls node = some (true, ls'))
    (rest : List SuperKernelBaseNode) :
    acceptAll g dev valueBreakerBypass fuel (node :: rest) ls =
      acceptAll g dev valueBreakerBypass fuel rest ls' := by
  rw [acceptAll, h]

theorem acceptAll_cons_cases {rest : List SuperKernelBaseNode} {last : LockState}
    (h : acceptAll g dev valueBreakerBypass fuel (node :: rest) ls = some last) :
    ∃ mid, isFusible g dev valueBreakerBypass fuel ls node = some (true, mid) ∧
      acceptAll g dev valueBreakerBypass fuel rest mid = some last := by
  rw [acceptAll] at h
  split at h
  · next mid heq => exact ⟨mid, heq, h⟩
  · simp at h

/-- What is accepted as the front of a list is accepted alone. -/
theorem acceptAll_append {front back : List SuperKernelBaseNode} {last : LockState}
    (h : acceptAll g dev valueBreakerBypass fuel (front ++ back) ls = some last) :
    ∃ mid, acceptAll g dev valueBreakerBypass fuel front ls = some mid := by
  induction front generalizing ls with
  | nil => exact ⟨ls, rfl⟩
  | cons node front ih =>
    obtain ⟨mid, hcall, hrest⟩ := acceptAll_cons_cases h
    rw [acceptAll_cons hcall]
    exact ih hrest

theorem acceptAll_marks {nodes : List SuperKernelBaseNode} {last : LockState}
    (h : acceptAll g dev valueBreakerBypass fuel nodes ls = some last) :
    last.notifyExpand = ls.notifyExpand ∧ last.scopeStreamIds = ls.scopeStreamIds ∧
      (Tracked ls → Tracked last) := by
  induction nodes generalizing ls with
  | nil =>
    cases h
    exact ⟨rfl, rfl, id⟩
  | cons node rest ih =>
    obtain ⟨mid, hcall, hrest⟩ := acceptAll_cons_cases h
    obtain ⟨hexpand, hstreams, htracked⟩ := isFusible_marks hcall
    obtain ⟨hexpand', hstreams', htracked'⟩ := ih hrest
    exact ⟨hexpand'.trans hexpand, hstreams'.trans hstreams, fun h => htracked' (htracked h)⟩

/-! ## The marks of finished scopes -/

variable (scopes : List SuperKernelScopeInfo)

/-- A fresh detector after the given scopes were finished. -/
def scopeMarks : LockState :=
  scopes.foldl setNotifyNodesExpandNumForScope {}

theorem scopeMarks_append (scope : SuperKernelScopeInfo) :
    scopeMarks (scopes ++ [scope]) = setNotifyNodesExpandNumForScope (scopeMarks scopes) scope := by
  rw [scopeMarks, foldl_append]
  rfl

/-- The state is the initial one but for the two marks. -/
def OnlyMarks (ls : LockState) : Prop :=
  ls = { notifyExpand := ls.notifyExpand, scopeStreamIds := ls.scopeStreamIds }

theorem OnlyMarks.setNotify (h : OnlyMarks ls) (scope : SuperKernelScopeInfo) :
    OnlyMarks (setNotifyNodesExpandNumForScope ls scope) := by
  rw [h]
  rfl

theorem OnlyMarks.resetNotify (h : OnlyMarks ls) (scope : SuperKernelScopeInfo) :
    OnlyMarks (resetNotifyExpandNumForScope ls scope) := by
  rw [h]
  rfl

theorem OnlyMarks.foldl {α : Type} {step : LockState → α → LockState}
    (hstep : ∀ ls x, OnlyMarks ls → OnlyMarks (step ls x)) (h : OnlyMarks ls)
    (xs : List α) : OnlyMarks (xs.foldl step ls) := by
  induction xs generalizing ls with
  | nil => exact h
  | cons x rest ih => exact ih (hstep ls x h)

theorem onlyMarks_scopeMarks : OnlyMarks (scopeMarks scopes) := by
  have hinit : OnlyMarks {} := rfl
  exact hinit.foldl (fun _ scope h => h.setNotify scope) scopes

theorem reset_setNotify (scope : SuperKernelScopeInfo) :
    (setNotifyNodesExpandNumForScope ls scope).reset =
      setNotifyNodesExpandNumForScope ls.reset scope := rfl

theorem reset_foldl_resetNotify :
    (scopes.foldl resetNotifyExpandNumForScope ls).reset =
      scopes.foldl resetNotifyExpandNumForScope ls.reset := by
  induction scopes generalizing ls with
  | nil => rfl
  | cons scope rest ih => exact ih

/-- The marks of a node that no scope of a list holds are left alone. -/
theorem foldl_setNotify_of_notMem {scopes : List SuperKernelScopeInfo} {i : NodeId} :
    ((∀ scope ∈ scopes, isNotifyOf scope i = false) →
      (scopes.foldl setNotifyNodesExpandNumForScope ls).notifyExpand i = ls.notifyExpand i) ∧
    ((∀ scope ∈ scopes, i ∉ scope.nodeIds) →
      (scopes.foldl setNotifyNodesExpandNumForScope ls).scopeStreamIds i = ls.scopeStreamIds i) := by
  induction scopes generalizing ls with
  | nil => exact ⟨fun _ => rfl, fun _ => rfl⟩
  | cons scope rest ih =>
    constructor
    · intro hnone
      have hfirst := hnone scope mem_cons_self
      refine (ih.1 fun s hs => hnone s (mem_cons_of_mem _ hs)).trans ?_
      show (if isNotifyOf scope i = true then _ else ls.notifyExpand i) = _
      rw [hfirst, if_neg Bool.false_ne_true]
    · intro hnone
      refine (ih.2 fun s hs => hnone s (mem_cons_of_mem _ hs)).trans ?_
      show (if i ∈ scope.nodeIds then _ else ls.scopeStreamIds i) = _
      rw [if_neg (hnone scope mem_cons_self)]

/-- Taking the marks of a list of scopes back clears their nodes and leaves the others alone. -/
theorem foldl_resetNotify {scopes : List SuperKernelScopeInfo} {i : NodeId} :
    ((∃ scope ∈ scopes, isNotifyOf scope i = true) ∨ ls.notifyExpand i = (0, 0) →
      (scopes.foldl resetNotifyExpandNumForScope ls).notifyExpand i = (0, 0)) ∧
    ((∃ scope ∈ scopes, i ∈ scope.nodeIds) ∨ ls.scopeStreamIds i = [] →
      (scopes.foldl resetNotifyExpandNumForScope ls).scopeStreamIds i = []) := by
  induction scopes generalizing ls with
  | nil =>
    constructor
    · intro h
      exact h.resolve_left fun ⟨scope, hscope, _⟩ => not_mem_nil hscope
    · intro h
      exact h.resolve_left fun ⟨scope, hscope, _⟩ => not_mem_nil hscope
  | cons scope rest ih =>
    constructor
    · intro h
      refine ih.1 ?_
      by_cases hfirst : isNotifyOf scope i = true
      · exact .inr (if_pos hfirst)
      · rcases h with ⟨s, hs, hmark⟩ | hclear
        · rcases mem_cons.mp hs with rfl | hs
          · exact absurd hmark hfirst
          · exact .inl ⟨s, hs, hmark⟩
        · exact .inr ((if_neg hfirst).trans hclear)
    · intro h
      refine ih.2 ?_
      by_cases hfirst : i ∈ scope.nodeIds
      · exact .inr (if_pos hfirst)
      · rcases h with ⟨s, hs, hmark⟩ | hclear
        · rcases mem_cons.mp hs with rfl | hs
          · exact absurd hmark hfirst
          · exact .inl ⟨s, hs, hmark⟩
        · exact .inr ((if_neg hfirst).trans hclear)

/-- The marks of finished scopes are gone after they are taken back. -/
theorem foldl_resetNotify_scopeMarks :
    (scopes.foldl resetNotifyExpandNumForScope (scopeMarks scopes)).notifyExpand = (fun _ => (0, 0)) ∧
      (scopes.foldl resetNotifyExpandNumForScope (scopeMarks scopes)).scopeStreamIds = fun _ => [] := by
  constructor
  · funext i
    refine foldl_resetNotify.1 ?_
    by_cases hmark : ∃ scope ∈ scopes, isNotifyOf scope i = true
    · exact .inl hmark
    · refine .inr (foldl_setNotify_of_notMem.1 fun scope hscope => ?_)
      exact Bool.eq_false_iff.mpr fun h => hmark ⟨scope, hscope, h⟩
  · funext i
    refine foldl_resetNotify.2 ?_
    by_cases hmark : ∃ scope ∈ scopes, i ∈ scope.nodeIds
    · exact .inl hmark
    · exact .inr (foldl_setNotify_of_notMem.2 fun scope hscope h => hmark ⟨scope, hscope, h⟩)

/-- No mark is left on any node. -/
structure MarksClear (ls : LockState) : Prop where
  visited : ls.visited = []
  notifyExpand : ls.notifyExpand = fun _ => (0, 0)
  scopeStreamIds : ls.scopeStreamIds = fun _ => []

theorem MarksClear.tracked (h : MarksClear ls) : Tracked ls := by
  intro i hi
  rw [h.visited] at hi
  exact absurd hi not_mem_nil

theorem MarksClear.reset (h : MarksClear ls) : ls.reset = {} := by
  rw [reset_of_tracked h.tracked, h.notifyExpand, h.scopeStreamIds]

/-! ## Runs of calls -/

/-- The public calls of the detector. -/
inductive DetectorCall where
  | isFusible (node : SuperKernelBaseNode)
  | reset
  | setNotifyNodesExpandNumForScope (scope : SuperKernelScopeInfo)
  | resetNotifyExpandNumForScope (scope : SuperKernelScopeInfo)

/-- The state after a call, whatever `IsFusible` answers. -/
def runCall (g : SuperKernelGraph) (dev : DeviceCores) (valueBreakerBypass fuel : ℕ) (ls : LockState) :
    DetectorCall → Option LockState
  | .isFusible node => (isFusible g dev valueBreakerBypass fuel ls node).map (·.2)
  | .reset => some ls.reset
  | .setNotifyNodesExpandNumForScope scope => some (setNotifyNodesExpandNumForScope ls scope)
  | .resetNotifyExpandNumForScope scope => some (resetNotifyExpandNumForScope ls scope)

/-- What a call does to the marks of finished scopes. -/
def markCall (ls : LockState) : DetectorCall → LockState
  | .setNotifyNodesExpandNumForScope scope => setNotifyNodesExpandNumForScope ls scope
  | .resetNotifyExpandNumForScope scope => resetNotifyExpandNumForScope ls scope
  | _ => ls

theorem runCall_reset {call : DetectorCall} (htracked : Tracked ls)
    (h : runCall g dev valueBreakerBypass fuel ls call = some ls') :
    Tracked ls' ∧ ls'.reset = markCall ls.reset call := by
  cases call with
  | isFusible node =>
    obtain ⟨r, hcall, rfl⟩ := Option.map_eq_some_iff.mp h
    obtain ⟨hexpand, hstreams, hkept⟩ := isFusible_marks hcall
    refine ⟨hkept htracked, ?_⟩
    rw [reset_of_tracked (hkept htracked), hexpand, hstreams]
    exact (reset_of_tracked htracked).symm
  | reset =>
    cases h
    rw [reset_of_tracked htracked]
    exact ⟨fun i hi => absurd hi not_mem_nil, rfl⟩
  | setNotifyNodesExpandNumForScope scope =>
    cases h
    exact ⟨htracked, reset_setNotify scope⟩
  | resetNotifyExpandNumForScope scope =>
    cases h
    exact ⟨htracked, rfl⟩

theorem runCalls_reset {calls : List DetectorCall} (htracked : Tracked ls)
    (h : calls.foldlM (runCall g dev valueBreakerBypass fuel) ls = some ls') :
    ls'.reset = calls.foldl markCall ls.reset := by
  induction calls generalizing ls with
  | nil =>
    cases h
    rfl
  | cons call rest ih =>
    rw [foldlM_cons, Option.bind_eq_bind, Option.bind_eq_some_iff] at h
    obtain ⟨mid, hcall, hrest⟩ := h
    obtain ⟨hmid, hreset⟩ := runCall_reset htracked hcall
    rw [foldl_cons, ← hreset]
    exact ih hmid hrest

theorem OnlyMarks.markCall (h : OnlyMarks ls) : ∀ call, OnlyMarks (markCall ls call)
  | .isFusible _ => h
  | .reset => h
  | .setNotifyNodesExpandNumForScope scope => h.setNotify scope
  | .resetNotifyExpandNumForScope scope => h.resetNotify scope

/-- After any calls on a new detector, `Reset` leaves what the calls on finished scopes alone leave:
every other call is forgotten, with all visited flags, and only the marks of scopes stay. -/
theorem detectorCalls_reset {calls : List DetectorCall}
    (h : calls.foldlM (runCall g dev valueBreakerBypass fuel) {} = some ls) :
    ls.reset = calls.foldl markCall {} ∧ OnlyMarks ls.reset := by
  have hfresh : Tracked {} := fun i hi => absurd hi not_mem_nil
  have hreset : ls.reset = calls.foldl markCall {} := runCalls_reset hfresh h
  have hinit : OnlyMarks {} := rfl
  refine ⟨hreset, ?_⟩
  rw [hreset]
  exact hinit.foldl (fun _ call h => h.markCall call) calls

/-- A kernel on three cubes and a NOTIFY behind it. -/
def kernelThenNotify : SuperKernelScopeInfo where
  nodes := [
    { nodeId := 0, streamIdxInGraph := 0, nodeIdxInStream := 0, nextNodeId := some 1,
      nodeType := .nodeKernel, kernelInfos := { cubeNum := 3 } },
    { nodeId := 1, streamIdxInGraph := 0, nodeIdxInStream := 1, preNodeId := some 0,
      nodeType := .nodeNotify, syncInfos := { eventId := some 0 } }]

/-- Both nodes are accepted, then their scope is finished. -/
def kernelThenNotifyCalls : List DetectorCall :=
  kernelThenNotify.nodes.map DetectorCall.isFusible ++
    [.setNotifyNodesExpandNumForScope kernelThenNotify]

theorem kernelThenNotify_reset : ∃ ls,
    kernelThenNotifyCalls.foldlM
        (runCall ⟨kernelThenNotify.nodes, [], [0], 1⟩ ⟨8, 8⟩ 0 1) {} = some ls ∧
      ls.visited = [1, 0] ∧ ls.reset = setNotifyNodesExpandNumForScope {} kernelThenNotify ∧
      OnlyMarks ls.reset := by
  refine ⟨_, rfl, rfl, ?_⟩
  exact @detectorCalls_reset ⟨kernelThenNotify.nodes, [], [0], 1⟩ ⟨8, 8⟩ _ 0 1 kernelThenNotifyCalls rfl

end GraphAutofusion.SuperKernel
