import GraphAutofusion.SuperKernel.LockMarks
import GraphAutofusion.SuperKernel.SplitGraph

/-!
# SuperKernel.DeadlockRefine — `DeadlockRefinePass::Run` with its failure exit

`Run` gives up when it finds a deadlock with no WAIT in front of it. `deadlockRefineRun` is the pass
with the state at both exits; where it succeeds it is `deadlockRefinePass`.

A scope that the pass emits was accepted by a detector that remembered only the scopes emitted
before. A second run over the output meets the same detector states, so it accepts every scope
again.
-/

namespace GraphAutofusion.SuperKernel

open List Option

section Run

variable (g : SuperKernelGraph) (opts : SplitOptions) (fuel : ℕ)

/-- `ProcessSingleScope` in the loop over the pending scope. The pieces are `none` for
`DEADLOCK_UNRESOLVED`. -/
def processSingleScope : ℕ → SuperKernelScopeInfo → LockState →
    Option (Option (List SuperKernelScopeInfo) × LockState)
  | 0, _, _ => none
  | n + 1, scope, ls =>
    if scope.nodes.isEmpty then some (some [], ls)
    else
      match findDeadlockInScope g opts fuel scope ls with
      | none => none
      | some (.noDeadlock, ls) => some (some [scope], setNotifyNodesExpandNumForScope ls scope)
      | some (.deadlock none, ls) => some (none, ls)
      | some (.deadlock (some waitNode), ls) =>
        let (scopeBefore, scopeAfter) := splitScopeAtWaitNode scope waitNode
        let out := if scopeBefore.nodes.isEmpty then [] else [scopeBefore]
        let ls := if scopeBefore.nodes.isEmpty then ls
          else setNotifyNodesExpandNumForScope ls scopeBefore
        if scopeAfter.nodes.isEmpty then some (some out, ls)
        else (processSingleScope n scopeAfter ls).map fun r => (r.1.map (out ++ ·), r.2)

/-- The loop of `Run` over the scopes. -/
def refineScopes : List SuperKernelScopeInfo → LockState →
    Option (Option (List SuperKernelScopeInfo) × LockState)
  | [], ls => some (some [], ls)
  | scope :: rest, ls =>
    match processSingleScope g opts fuel fuel scope ls with
    | none => none
    | some (none, ls) => some (none, ls)
    | some (some out, ls) => (refineScopes rest ls).map fun r => (r.1.map (out ++ ·), r.2)

/-- `DeadlockRefinePass::Run`; its scopes are `none` when it returns false. -/
def deadlockRefineRun (scopes : List SuperKernelScopeInfo) (ls : LockState) :
    Option (Option (List SuperKernelScopeInfo) × LockState) :=
  (refineScopes g opts fuel scopes ls).map fun r =>
    match r.1 with
    -- the failure exit returns from the middle of the loop
    | none => (none, r.2)
    | some out => (some out, (out.foldl resetNotifyExpandNumForScope r.2).reset)

end Run

variable {g : SuperKernelGraph} {opts : SplitOptions} {fuel : ℕ} {scope : SuperKernelScopeInfo}
  {scopes acc out : List SuperKernelScopeInfo} {ls ls' : LockState}

/-! ## The pass of the pipeline -/

/-! ## One search -/

/-- The last WAIT of a list, or the one seen before. -/
def lastWait : Option SuperKernelBaseNode → List SuperKernelBaseNode → Option SuperKernelBaseNode
  | last, [] => last
  | last, node :: rest => lastWait (if node.nodeType = .nodeWait then some node else last) rest

variable {last : Option SuperKernelBaseNode} {nodes : List SuperKernelBaseNode}

theorem lastWait_some {w : SuperKernelBaseNode} (h : lastWait last nodes = some w) :
    last = some w ∨ w ∈ nodes ∧ w.nodeType = .nodeWait := by
  induction nodes generalizing last with
  | nil => exact .inl h
  | cons node rest ih =>
    rw [lastWait] at h
    rcases ih h with hlast | ⟨hmem, htype⟩
    · by_cases hwait : node.nodeType = .nodeWait
      · rw [if_pos hwait, some.injEq] at hlast
        exact .inr ⟨hlast ▸ mem_cons_self, hlast ▸ hwait⟩
      · rw [if_neg hwait] at hlast
        exact .inl hlast
    · exact .inr ⟨mem_cons_of_mem _ hmem, htype⟩

/-- The search accepts all nodes, or the nodes up to one that it rejects. -/
theorem findDeadlockFrom_cases
    {res : DeadlockSearch} (h : findDeadlockFrom g opts fuel last nodes ls = some (res, ls')) :
    res = .noDeadlock ∧
      acceptAll g opts.device opts.valueBreakerBypass fuel nodes ls = some ls' ∨
    ∃ front node back mid, nodes = front ++ node :: back ∧
      acceptAll g opts.device opts.valueBreakerBypass fuel front ls = some mid ∧
      isFusible g opts.device opts.valueBreakerBypass fuel mid node = some (false, ls') ∧
      res = .deadlock (lastWait last (front ++ [node])) := by
  induction nodes generalizing last ls with
  | nil =>
    cases h
    exact .inl ⟨rfl, rfl⟩
  | cons node rest ih =>
    rw [findDeadlockFrom] at h
    split at h
    · simp at h
    · next mid heq =>
      rw [acceptAll_cons heq]
      rcases ih h with hdone | ⟨front, node', back, mid', rfl, haccept, hreject, hres⟩
      · exact .inl hdone
      · refine .inr ⟨node :: front, node', back, mid', rfl, ?_, hreject, hres⟩
        rw [acceptAll_cons heq]
        exact haccept
    · next mid heq =>
      cases h
      exact .inr ⟨[], node, rest, ls, rfl, rfl, heq, rfl⟩

theorem findDeadlockFrom_of_acceptAll
    (h : acceptAll g opts.device opts.valueBreakerBypass fuel nodes ls = some ls') :
    findDeadlockFrom g opts fuel last nodes ls = some (.noDeadlock, ls') := by
  induction nodes generalizing last ls with
  | nil =>
    cases h
    rfl
  | cons node rest ih =>
    obtain ⟨mid, hcall, hrest⟩ := acceptAll_cons_cases h
    rw [findDeadlockFrom, hcall]
    exact ih hrest

/-! ## The pieces of a scope -/

/-- A node list cut at WAITs, which are dropped; a part may be empty. -/
inductive CutAtWaits : List SuperKernelBaseNode → List (List SuperKernelBaseNode) → Prop where
  | whole (nodes : List SuperKernelBaseNode) : CutAtWaits nodes [nodes]
  | cut {before after : List SuperKernelBaseNode} {waitNode : SuperKernelBaseNode}
      {parts : List (List SuperKernelBaseNode)} (hwait : waitNode.nodeType = .nodeWait)
      (hafter : CutAtWaits after parts) : CutAtWaits (before ++ waitNode :: after) (before :: parts)

/-- The emitted scopes are the parts of the scope that are not empty, in this order. -/
structure PiecesCut (scope : SuperKernelScopeInfo) (out : List SuperKernelScopeInfo) : Prop where
  parts : ∃ parts, CutAtWaits scope.nodes parts ∧
    out.map (·.nodes) = parts.filter fun part => !part.isEmpty
  flags : ∀ piece ∈ out, piece.scopeBitFlags = scope.scopeBitFlags

/-- Each scope of the list is not empty, and a detector that remembers the scopes before it accepts
all its nodes. -/
def AcceptedInTurn (g : SuperKernelGraph) (opts : SplitOptions) (fuel : ℕ)
    (scopes : List SuperKernelScopeInfo) : Prop :=
  ∀ front scope back, scopes = front ++ scope :: back → scope.nodes ≠ [] ∧
    ∃ last, acceptAll g opts.device opts.valueBreakerBypass fuel scope.nodes (scopeMarks front) = some last

theorem AcceptedInTurn.nil : AcceptedInTurn g opts fuel [] := by
  intro front scope back h
  simp at h

theorem AcceptedInTurn.snoc (h : AcceptedInTurn g opts fuel acc) (hne : scope.nodes ≠ [])
    (haccept : acceptAll g opts.device opts.valueBreakerBypass fuel scope.nodes (scopeMarks acc) = some ls) :
    AcceptedInTurn g opts fuel (acc ++ [scope]) := by
  intro front scope' back heq
  rcases eq_nil_or_concat back with rfl | ⟨back', last, rfl⟩
  · -- the new scope itself
    obtain ⟨rfl, hscope⟩ := append_inj' heq rfl
    obtain rfl : scope = scope' := by simpa using hscope
    exact ⟨hne, ls, haccept⟩
  · have heq' : acc ++ [scope] = (front ++ scope' :: back') ++ [last] := by
      rw [heq, concat_eq_append]
      simp
    exact h front scope' back' (append_inj' heq' rfl).1

/-- Where the split finds its WAIT, the front part lies in what the search accepted. -/
theorem splitScopeAtWaitNode_parts {front back : List SuperKernelBaseNode}
    {node w : SuperKernelBaseNode} (hnodup : scope.nodeIds.Nodup)
    (hnodes : scope.nodes = front ++ node :: back) (hmem : w ∈ front ++ [node]) :
    ∃ before after, scope.nodes = before ++ w :: after ∧ before <+: front ∧
      (splitScopeAtWaitNode scope w).1.nodes = before ∧
      (splitScopeAtWaitNode scope w).2.nodes = after := by
  obtain ⟨before, middle, hsplit⟩ := append_of_mem hmem
  have hscope : scope.nodes = before ++ w :: (middle ++ back) := by
    have hassoc : front ++ node :: back = (front ++ [node]) ++ back := by simp
    rw [hnodes, hassoc, hsplit]
    simp
  have hids : (before.map (·.nodeId) ++ w.nodeId :: (middle ++ back).map (·.nodeId)).Nodup := by
    have hids := hnodup
    rw [SuperKernelScopeInfo.nodeIds, hscope, map_append, map_cons] at hids
    exact hids
  obtain ⟨-, htail, hdisjoint⟩ := nodup_append.mp hids
  -- no node before or after the WAIT has its id
  have hbefore : ∀ n ∈ before, decide (n.nodeId ≠ w.nodeId) = true := by
    intro n hn
    exact decide_eq_true (hdisjoint _ (mem_map_of_mem hn) _ mem_cons_self)
  have hafter : ∀ n ∈ middle ++ back, decide (n.nodeId ≠ w.nodeId) = true := by
    intro n hn
    refine decide_eq_true fun heq => (nodup_cons.mp htail).1 ?_
    exact heq ▸ mem_map_of_mem hn
  refine ⟨before, middle ++ back, hscope, ?_, ?_, ?_⟩
  · have hprefix : before <+: front ++ [node] := ⟨w :: middle, hsplit.symm⟩
    refine prefix_of_prefix_length_le hprefix (prefix_append _ _) ?_
    have hlen := congrArg length hsplit
    simp only [length_append, length_cons, length_nil] at hlen
    omega
  · show scope.nodes.takeWhile _ = before
    rw [hscope, takeWhile_append_of_pos hbefore]
    simp
  · show (scope.nodes.dropWhile _).filter _ = middle ++ back
    rw [hscope, dropWhile_append_of_pos hbefore, dropWhile_cons_of_neg (by simp),
      filter_cons_of_neg (by simp)]
    exact filter_eq_self.mpr hafter

/-! ## The run over one scope and over all -/

theorem tracked_scopeMarks (acc : List SuperKernelScopeInfo) : Tracked (scopeMarks acc) := by
  intro i hi
  rw [onlyMarks_scopeMarks acc] at hi
  exact absurd hi not_mem_nil

theorem reset_eq_scopeMarks (hexpand : ls.notifyExpand = (scopeMarks acc).notifyExpand)
    (hstreams : ls.scopeStreamIds = (scopeMarks acc).scopeStreamIds) (htracked : Tracked ls) :
    ls.reset = scopeMarks acc := by
  rw [reset_of_tracked htracked, hexpand, hstreams, ← onlyMarks_scopeMarks acc]

/-- A search, whatever it finds, leaves no more than the finished scopes behind. -/
theorem findDeadlockInScope_reset {res : DeadlockSearch} (hls : ls.reset = scopeMarks acc)
    (h : findDeadlockInScope g opts fuel scope ls = some (res, ls')) : ls'.reset = scopeMarks acc := by
  rw [findDeadlockInScope, hls] at h
  rcases findDeadlockFrom_cases h with ⟨-, haccept⟩ | ⟨front, node, back, mid, -, haccept, hreject, -⟩
  · obtain ⟨hexpand, hstreams, htracked⟩ := acceptAll_marks haccept
    exact reset_eq_scopeMarks hexpand hstreams (htracked (tracked_scopeMarks acc))
  · obtain ⟨hexpand, hstreams, htracked⟩ := acceptAll_marks haccept
    obtain ⟨hexpand', hstreams', htracked'⟩ := isFusible_marks hreject
    exact reset_eq_scopeMarks (hexpand'.trans hexpand) (hstreams'.trans hstreams)
      (htracked' (htracked (tracked_scopeMarks acc)))

/-- Cutting off a front part that may be empty. -/
theorem PiecesCut.cons {before after : SuperKernelScopeInfo} {w : SuperKernelBaseNode}
    (hnodes : scope.nodes = before.nodes ++ w :: after.nodes) (hwait : w.nodeType = .nodeWait)
    (hbefore : before.scopeBitFlags = scope.scopeBitFlags)
    (hafter : after.scopeBitFlags = scope.scopeBitFlags) (h : PiecesCut after out) :
    PiecesCut scope ((if before.nodes.isEmpty then [] else [before]) ++ out) := by
  obtain ⟨parts, hcut, hout⟩ := h.parts
  refine ⟨⟨before.nodes :: parts, ?_, ?_⟩, ?_⟩
  · rw [hnodes]
    exact CutAtWaits.cut hwait hcut
  · rw [map_append, hout, filter_cons]
    cases before.nodes.isEmpty with
    | true => rfl
    | false => rfl
  · intro piece hpiece
    rcases mem_append.mp hpiece with hpiece | hpiece
    · split at hpiece
      · simp at hpiece
      · obtain rfl : piece = before := by simpa using hpiece
        exact hbefore
    · exact (h.flags piece hpiece).trans hafter

theorem PiecesCut.of_isEmpty (h : scope.nodes.isEmpty = true) : PiecesCut scope [] := by
  have hnil : scope.nodes = [] := List.isEmpty_iff.mp h
  refine ⟨⟨[[]], ?_, rfl⟩, ?_⟩
  · rw [hnil]
    exact CutAtWaits.whole []
  · intro piece hpiece
    simp at hpiece

theorem PiecesCut.whole (h : scope.nodes.isEmpty = false) : PiecesCut scope [scope] := by
  refine ⟨⟨[scope.nodes], CutAtWaits.whole _, ?_⟩, ?_⟩
  · rw [filter_cons_of_pos (by rw [h]; rfl)]
    rfl
  · intro piece hpiece
    obtain rfl : piece = scope := by simpa using hpiece
    rfl

/-- One scope: what is emitted was accepted in turn, and the marks afterwards are those of all
emitted scopes, also when the run gives up. -/
theorem processSingleScope_spec {n : ℕ} {res : Option (List SuperKernelScopeInfo)}
    (hnodup : scope.nodeIds.Nodup) (hls : ls.reset = scopeMarks acc)
    (hacc : AcceptedInTurn g opts fuel acc)
    (h : processSingleScope g opts fuel n scope ls = some (res, ls')) :
    ∃ emitted, AcceptedInTurn g opts fuel (acc ++ emitted) ∧
      ls'.reset = scopeMarks (acc ++ emitted) ∧
      ∀ out, res = some out → out = emitted ∧ PiecesCut scope out := by
  induction n generalizing scope acc ls res ls' with
  | zero => simp [processSingleScope] at h
  | succ n ih =>
    rw [processSingleScope] at h
    split at h
    · next hempty =>
      cases h
      refine ⟨[], by simpa using hacc, by simpa using hls, ?_⟩
      intro out hout
      cases hout
      exact ⟨rfl, PiecesCut.of_isEmpty hempty⟩
    · next hempty =>
      have hne : scope.nodes ≠ [] := by simpa using hempty
      split at h
      · simp at h
      · next mid hfind =>
        -- the whole scope is emitted
        have hmid := findDeadlockInScope_reset hls hfind
        rw [findDeadlockInScope, hls] at hfind
        cases h
        rcases findDeadlockFrom_cases hfind with ⟨-, haccept⟩ | ⟨_, _, _, _, -, -, -, hres⟩
        · refine ⟨[scope], hacc.snoc hne haccept, ?_, ?_⟩
          · rw [reset_setNotify, hmid, scopeMarks_append]
          · intro out hout
            cases hout
            exact ⟨rfl, PiecesCut.whole (by simpa using hempty)⟩
        · simp at hres
      · next mid hfind =>
        -- no WAIT to cut at
        cases h
        refine ⟨[], by simpa using hacc, ?_, ?_⟩
        · rw [append_nil]
          exact findDeadlockInScope_reset hls hfind
        · intro out hout
          simp at hout
      · next w mid hfind =>
        have hmid := findDeadlockInScope_reset hls hfind
        rw [findDeadlockInScope, hls] at hfind
        rcases findDeadlockFrom_cases hfind with ⟨hres, -⟩ | ⟨front, node, back, _, hnodes, haccept, -, hres⟩
        · simp at hres
        have hlast : lastWait none (front ++ [node]) = some w := by simpa using hres.symm
        obtain ⟨hmem, hwait⟩ := (lastWait_some hlast).resolve_left (by simp)
        obtain ⟨before, after, hsplit, ⟨rest, hfront⟩, hbefore, hafter⟩ :=
          splitScopeAtWaitNode_parts hnodup hnodes hmem
        have hcut : scope.nodes = (splitScopeAtWaitNode scope w).1.nodes ++
            w :: (splitScopeAtWaitNode scope w).2.nodes := by
          rw [hbefore, hafter, hsplit]
        -- the front part was accepted on the way to the deadlock
        have hturn : ∃ acc', AcceptedInTurn g opts fuel (acc ++ acc') ∧
            (if (splitScopeAtWaitNode scope w).1.nodes.isEmpty then mid
              else setNotifyNodesExpandNumForScope mid (splitScopeAtWaitNode scope w).1).reset =
              scopeMarks (acc ++ acc') ∧
            acc' = if (splitScopeAtWaitNode scope w).1.nodes.isEmpty then []
              else [(splitScopeAtWaitNode scope w).1] := by
          split
          · refine ⟨[], by simpa using hacc, by simpa using hmid, rfl⟩
          · next hbeforeNe =>
            obtain ⟨last, hlast⟩ := acceptAll_append (hfront ▸ haccept)
            rw [← hbefore] at hlast
            refine ⟨_, hacc.snoc (by simpa using hbeforeNe) hlast, ?_, rfl⟩
            rw [reset_setNotify, hmid, scopeMarks_append]
        obtain ⟨acc', hacc', hreset, hacc'eq⟩ := hturn
        dsimp only at h
        split at h
        · next hafterEmpty =>
          cases h
          refine ⟨acc', hacc', hreset, ?_⟩
          intro out hout
          cases hout
          refine ⟨hacc'eq.symm, ?_⟩
          have hpieces := PiecesCut.cons hcut hwait rfl rfl (PiecesCut.of_isEmpty hafterEmpty)
          rw [append_nil] at hpieces
          exact hpieces
        · obtain ⟨⟨res', last⟩, hrec, heq⟩ := map_eq_some_iff.mp h
          cases heq
          have hnodup' : (splitScopeAtWaitNode scope w).2.nodeIds.Nodup := by
            rw [SuperKernelScopeInfo.nodeIds, hafter]
            rw [SuperKernelScopeInfo.nodeIds, hsplit, map_append, map_cons] at hnodup
            exact (nodup_cons.mp (nodup_append.mp hnodup).2.1).2
          obtain ⟨emitted, hemitted, hreset', hout⟩ := ih hnodup' hreset hacc' hrec
          rw [append_assoc] at hemitted hreset'
          refine ⟨acc' ++ emitted, hemitted, hreset', ?_⟩
          intro out hsome
          obtain ⟨out', hout', rfl⟩ := map_eq_some_iff.mp hsome
          obtain ⟨rfl, hpieces⟩ := hout out' hout'
          rw [hacc'eq]
          exact ⟨rfl, PiecesCut.cons hcut hwait rfl rfl hpieces⟩

theorem refineScopes_spec {res : Option (List SuperKernelScopeInfo)}
    (hnodup : ∀ scope ∈ scopes, scope.nodeIds.Nodup) (hls : ls.reset = scopeMarks acc)
    (hacc : AcceptedInTurn g opts fuel acc)
    (h : refineScopes g opts fuel scopes ls = some (res, ls')) :
    ∃ emitted, AcceptedInTurn g opts fuel (acc ++ emitted) ∧
      ls'.reset = scopeMarks (acc ++ emitted) ∧
      ∀ out, res = some out → out = emitted ∧
        ∃ pieces, out = pieces.flatten ∧ Forall₂ PiecesCut scopes pieces := by
  induction scopes generalizing acc ls res ls' with
  | nil =>
    cases h
    refine ⟨[], by simpa using hacc, by simpa using hls, ?_⟩
    intro out hout
    cases hout
    exact ⟨rfl, [], rfl, Forall₂.nil⟩
  | cons scope rest ih =>
    rw [refineScopes] at h
    split at h
    · simp at h
    · next mid hfirst =>
      cases h
      obtain ⟨emitted, hemitted, hreset, -⟩ :=
        processSingleScope_spec (hnodup scope mem_cons_self) hls hacc hfirst
      refine ⟨emitted, hemitted, hreset, ?_⟩
      intro out hout
      simp at hout
    · next pieces mid hfirst =>
      obtain ⟨emitted, hemitted, hreset, hout⟩ :=
        processSingleScope_spec (hnodup scope mem_cons_self) hls hacc hfirst
      obtain ⟨rfl, hcut⟩ := hout pieces rfl
      obtain ⟨⟨res', last⟩, hrec, heq⟩ := map_eq_some_iff.mp h
      cases heq
      obtain ⟨emitted', hemitted', hreset', hout'⟩ :=
        ih (fun s hs => hnodup s (mem_cons_of_mem _ hs)) hreset hemitted hrec
      rw [append_assoc] at hemitted' hreset'
      refine ⟨pieces ++ emitted', hemitted', hreset', ?_⟩
      intro out hsome
      obtain ⟨out', hout'', rfl⟩ := map_eq_some_iff.mp hsome
      obtain ⟨rfl, parts, hparts, hall⟩ := hout' out' hout''
      refine ⟨rfl, pieces :: parts, ?_, Forall₂.cons hcut hall⟩
      rw [flatten_cons, ← hparts]

/-- Scopes that were accepted in turn are emitted as they are. -/
theorem refineScopes_of_accepted (hfuel : 0 < fuel) (hls : ls.reset = scopeMarks acc)
    (hacc : AcceptedInTurn g opts fuel (acc ++ scopes)) :
    ∃ last, refineScopes g opts fuel scopes ls = some (some scopes, last) ∧
      last.reset = scopeMarks (acc ++ scopes) := by
  induction scopes generalizing acc ls with
  | nil => exact ⟨ls, rfl, by simpa using hls⟩
  | cons scope rest ih =>
    obtain ⟨hne, last, haccept⟩ := hacc acc scope rest rfl
    have hfind : findDeadlockInScope g opts fuel scope ls = some (.noDeadlock, last) := by
      rw [findDeadlockInScope, hls]
      exact findDeadlockFrom_of_acceptAll haccept
    have hreset := findDeadlockInScope_reset hls hfind
    have hfirst : processSingleScope g opts fuel fuel scope ls =
        some (some [scope], setNotifyNodesExpandNumForScope last scope) := by
      cases fuel with
      | zero => omega
      | succ n => rw [processSingleScope, if_neg (by simpa using hne), hfind]
    have hnext : (setNotifyNodesExpandNumForScope last scope).reset = scopeMarks (acc ++ [scope]) := by
      rw [reset_setNotify, hreset, scopeMarks_append]
    have hacc' : AcceptedInTurn g opts fuel (acc ++ [scope] ++ rest) := by
      rw [append_assoc]
      exact hacc
    obtain ⟨final, hrest, hfinal⟩ := ih hnext hacc'
    rw [append_assoc] at hfinal
    refine ⟨final, ?_, hfinal⟩
    rw [refineScopes, hfirst]
    show (refineScopes g opts fuel rest _).map _ = _
    rw [hrest]
    rfl

/-- The successful exit takes all marks back. -/
theorem exit_marksClear (hls : ls.reset = scopeMarks scopes) :
    (scopes.foldl resetNotifyExpandNumForScope ls).reset = {} := by
  have hmarks := foldl_resetNotify_scopeMarks scopes
  have hshape : OnlyMarks (scopes.foldl resetNotifyExpandNumForScope (scopeMarks scopes)) :=
    OnlyMarks.foldl (fun _ scope h => h.resetNotify scope) (onlyMarks_scopeMarks scopes) scopes
  rw [reset_foldl_resetNotify, hls, hshape, hmarks.1, hmarks.2]

end GraphAutofusion.SuperKernel
