import GraphAutofusion.SuperKernel.DeadlockRefine
import GraphAutofusion.SuperKernel.LockCores
import GraphAutofusion.SuperKernel.LockTermination
import Mathlib.Data.List.Perm.Subperm

/-!
# SuperKernel.DeadlockRefineRun — whole runs of the deadlock refinement

From nodes without marks the pass ends. Where it returns true it has cut every scope at WAITs, and
another run changes nothing. Where it returns false the marks of the scopes emitted so far, and of
the nodes accepted in the last one, stay on the nodes.
-/

namespace GraphAutofusion.SuperKernel

open List Option

variable {g : SuperKernelGraph} {opts : SplitOptions} {fuel : ℕ} {scope : SuperKernelScopeInfo}
  {scopes out : List SuperKernelScopeInfo} {ls ls' : LockState}

/-! ## The run ends -/

theorem findDeadlockFrom_ends (hwaits : WaitsResolve g) (hfuel : g.nodes.length < fuel)
    (last : Option SuperKernelBaseNode) (nodes : List SuperKernelBaseNode) :
    ∃ r, findDeadlockFrom g opts fuel last nodes ls = some r := by
  induction nodes generalizing last ls with
  | nil => exact ⟨_, rfl⟩
  | cons node rest ih =>
    obtain ⟨⟨b, mid⟩, hcall⟩ := @isFusible_ends g opts.device ls node opts.valueBreakerBypass fuel hwaits hfuel
    rw [findDeadlockFrom, hcall]
    cases b with
    | true => exact ih _
    | false => exact ⟨_, rfl⟩

/-- Every cut shortens the scope, so the loop ends within its length. -/
theorem processSingleScope_ends (hwaits : WaitsResolve g) (hfuel : g.nodes.length < fuel) {n : ℕ}
    (hn : scope.nodes.length < n) (hnodup : scope.nodeIds.Nodup) :
    ∃ r, processSingleScope g opts fuel n scope ls = some r := by
  induction n generalizing scope ls with
  | zero => omega
  | succ n ih =>
    obtain ⟨⟨res, mid⟩, hfind⟩ := @findDeadlockFrom_ends g opts fuel ls.reset hwaits hfuel none scope.nodes
    rw [processSingleScope]
    split
    · exact ⟨_, rfl⟩
    · rw [findDeadlockInScope, hfind]
      cases res with
      | noDeadlock => exact ⟨_, rfl⟩
      | deadlock waitNode =>
        cases waitNode with
        | none => exact ⟨_, rfl⟩
        | some w =>
          dsimp only
          split
          · exact ⟨_, rfl⟩
          · rcases findDeadlockFrom_cases hfind with ⟨hres, -⟩ | ⟨front, node, back, _, hnodes, -, -, hres⟩
            · simp at hres
            · have hlast : lastWait none (front ++ [node]) = some w := by simpa using hres.symm
              obtain ⟨hmem, -⟩ := (lastWait_some hlast).resolve_left (by simp)
              obtain ⟨before, after, hsplit, -, -, hafter⟩ := splitScopeAtWaitNode_parts hnodup hnodes hmem
              -- the rest misses at least the WAIT
              have hlen : (splitScopeAtWaitNode scope w).2.nodes.length < n := by
                rw [hafter]
                rw [hsplit, length_append, length_cons] at hn
                omega
              have hnodup' : (splitScopeAtWaitNode scope w).2.nodeIds.Nodup := by
                rw [SuperKernelScopeInfo.nodeIds, hafter]
                rw [SuperKernelScopeInfo.nodeIds, hsplit, map_append, map_cons] at hnodup
                exact (nodup_cons.mp (nodup_append.mp hnodup).2.1).2
              obtain ⟨r, hr⟩ := ih hlen hnodup'
              rw [hr]
              exact ⟨_, rfl⟩

theorem refineScopes_ends (hwaits : WaitsResolve g) (hfuel : g.nodes.length < fuel)
    (hscopes : ∀ scope ∈ scopes, scope.nodeIds.Nodup ∧ scope.nodes.length < fuel) :
    ∃ r, refineScopes g opts fuel scopes ls = some r := by
  induction scopes generalizing ls with
  | nil => exact ⟨_, rfl⟩
  | cons scope rest ih =>
    obtain ⟨hnodup, hlen⟩ := hscopes scope mem_cons_self
    obtain ⟨⟨res, mid⟩, hfirst⟩ := @processSingleScope_ends g opts fuel scope ls hwaits hfuel fuel hlen hnodup
    rw [refineScopes, hfirst]
    cases res with
    | none => exact ⟨_, rfl⟩
    | some pieces =>
      obtain ⟨r, hr⟩ := @ih mid fun s hs => hscopes s (mem_cons_of_mem _ hs)
      dsimp only
      rw [hr]
      exact ⟨_, rfl⟩

/-! ## Partition and idempotence -/

/-- A successful run from a state without marks emits scopes that are accepted in turn, and ends in
the initial state. -/
theorem deadlockRefineRun_success (hclear : MarksClear ls)
    (hnodup : ∀ scope ∈ scopes, scope.nodeIds.Nodup)
    (h : deadlockRefineRun g opts fuel scopes ls = some (some out, ls')) :
    AcceptedInTurn g opts fuel out ∧ ls' = {} ∧
      ∃ pieces, out = pieces.flatten ∧ Forall₂ PiecesCut scopes pieces := by
  obtain ⟨⟨res, last⟩, hrun, heq⟩ := map_eq_some_iff.mp h
  cases res with
  | none => simp at heq
  | some out' =>
    cases heq
    obtain ⟨emitted, hacc, hreset, hout⟩ := refineScopes_spec hnodup hclear.reset AcceptedInTurn.nil hrun
    obtain ⟨rfl, hpieces⟩ := hout _ rfl
    exact ⟨hacc, exit_marksClear hreset, hpieces⟩

theorem marksClear_initial : MarksClear {} := ⟨rfl, rfl, rfl⟩

/-- The run ends. Where it returns true, its output is the input cut at WAITs, without empty scopes,
and a second run returns true with the same scopes. -/
theorem deadlockRefineRun_partition (hwaits : WaitsResolve g) (hfuel : g.nodes.length < fuel)
    (hscopes : ∀ scope ∈ scopes, scope.nodeIds.Nodup ∧ ∀ n ∈ scope.nodes, n ∈ g.nodes)
    (hclear : MarksClear ls) :
    ∃ r, deadlockRefineRun g opts fuel scopes ls = some r ∧ ∀ out ∈ r.1,
      (∃ pieces, out = pieces.flatten ∧ Forall₂ PiecesCut scopes pieces) ∧
      (∀ scope ∈ out, scope.nodes ≠ []) ∧
      ∃ ls'', deadlockRefineRun g opts fuel out r.2 = some (some out, ls'') := by
  have hnodup : ∀ scope ∈ scopes, scope.nodeIds.Nodup := fun scope hscope => (hscopes scope hscope).1
  have hlen : ∀ scope ∈ scopes, scope.nodeIds.Nodup ∧ scope.nodes.length < fuel := by
    intro scope hscope
    obtain ⟨hids, hmem⟩ := hscopes scope hscope
    have hsub : scope.nodes.Subperm g.nodes := Nodup.subperm (Nodup.of_map _ hids) hmem
    exact ⟨hids, Nat.lt_of_le_of_lt hsub.length_le hfuel⟩
  obtain ⟨⟨res, last⟩, hrun⟩ := @refineScopes_ends g opts fuel scopes ls hwaits hfuel hlen
  have hr : ∃ r, deadlockRefineRun g opts fuel scopes ls = some r := by
    rw [deadlockRefineRun, hrun]
    exact ⟨_, rfl⟩
  obtain ⟨⟨r, ls'⟩, hr⟩ := hr
  refine ⟨(r, ls'), hr, ?_⟩
  intro out hout
  obtain rfl : r = some out := hout
  obtain ⟨hacc, rfl, hpieces⟩ := deadlockRefineRun_success hclear hnodup hr
  refine ⟨hpieces, ?_, ?_⟩
  · intro scope hscope
    obtain ⟨front, back, heq⟩ := append_of_mem hscope
    exact (hacc front scope back heq).1
  · -- the second run meets the same detector states
    have hagain := @refineScopes_of_accepted g opts fuel out [] {} (by omega)
      marksClear_initial.reset hacc
    obtain ⟨final, hagain, -⟩ := hagain
    rw [deadlockRefineRun, hagain]
    exact ⟨_, rfl⟩

/-! ## What a failing run leaves behind -/

section Failure

variable {dev : DeviceCores} {node : SuperKernelBaseNode} {valueBreakerBypass : ℕ} {b : Bool}

/-- A WAIT that a detector refuses when it comes first. -/
def isDroppable (valueBreakerBypass : ℕ) (node : SuperKernelBaseNode) : Bool :=
  node.nodeType = .nodeWait && !shouldBypassValueWaitDeadlock valueBreakerBypass node

/-- A node other than a WAIT that no detector accepts: a kernel that does not fit on the device, or a
node of an unsupported type. -/
def isBlocked (dev : DeviceCores) (node : SuperKernelBaseNode) : Bool :=
  match node.nodeType with
  | .nodeKernel => !(hasEnoughCores dev {} node true).1
  | .nodeMemoryWrite | .nodeMemoryWait => true
  | _ => false

/-- Only WAITs are in front of the first blocked node, and all of them are dropped. A WAIT that the
value breaker option keeps is dropped when the blocked node follows it. -/
def stuckAtOnce (dev : DeviceCores) (valueBreakerBypass : ℕ) : List SuperKernelBaseNode → Bool
  | [] => false
  | node :: rest =>
    if isDroppable valueBreakerBypass node then stuckAtOnce dev valueBreakerBypass rest
    else if node.nodeType = .nodeWait then rest.head?.any (isBlocked dev)
    else isBlocked dev node

/-- The scopes in front of the one that is stuck are dropped as a whole. -/
def stuckScopes (dev : DeviceCores) (valueBreakerBypass : ℕ) : List SuperKernelScopeInfo → Bool
  | [] => false
  | scope :: rest =>
    stuckAtOnce dev valueBreakerBypass scope.nodes ||
      (scope.nodes.all (isDroppable valueBreakerBypass) && stuckScopes dev valueBreakerBypass rest)

/-- A detector without marks drops a WAIT that comes first, and forgets it. -/
theorem isFusible_droppable (h : isDroppable valueBreakerBypass node = true) :
    isFusible g dev valueBreakerBypass fuel {} node = some (false, {}) := by
  simp only [isDroppable, Bool.and_eq_true, decide_eq_true_eq, Bool.not_eq_true'] at h
  obtain ⟨htype, hbypass⟩ := h
  have hstatus : getWaitNodeFusibleStatus g dev fuel {} node = some (false, {}) := by
    unfold getWaitNodeFusibleStatus
    split
    · rfl
    · exact if_pos rfl
  have hfusible : getFusibleStatus g dev valueBreakerBypass fuel {} node = some (false, {}) := by
    unfold getFusibleStatus
    rw [htype]
    dsimp only
    rw [hbypass, if_neg Bool.false_ne_true, hstatus]
    rfl
  rw [isFusible, if_neg not_mem_nil, hfusible]

/-- The limits of the super kernel and the visited flag decide about a blocked node. -/
theorem isFusible_blocked (h : isBlocked dev node = true) (hvisited : node.nodeId ∉ ls.visited)
    (hcores : ls.superKernelCubeNum = 0 ∧ ls.superKernelVecNum = 0 ∧ ls.depOpCubeNum = 0 ∧
      ls.depOpVecNum = 0) :
    isFusible g dev valueBreakerBypass fuel ls node = some (false, ls) := by
  have hstatus : getFusibleStatus g dev valueBreakerBypass fuel ls node = some (false, ls) := by
    unfold getFusibleStatus
    unfold isBlocked at h
    split at h
    · next htype =>
      rw [htype]
      dsimp only
      have hfirst : (hasEnoughCores dev {} node true).1 = false := by simpa using h
      have hcube : ∀ ls : LockState, ls.getCubeNum node = node.kernelInfos.cubeNum := by
        intro ls
        rw [LockState.getCubeNum, htype]
      have hvec : ∀ ls : LockState, ls.getVecNum node = node.kernelInfos.vecNum := by
        intro ls
        rw [LockState.getVecNum, htype]
      unfold hasEnoughCores getAvailableCores at hfirst ⊢
      simp only [if_true, hcube, hvec] at hfirst ⊢
      rw [hcores.1, hcores.2.1, hcores.2.2.1, hcores.2.2.2]
      split at hfirst
      · simp at hfirst
      · next hwithin =>
        rw [if_neg hwithin]
        split at hfirst
        · simp at hfirst
        · next hfit => rw [if_neg hfit]
    · next htype =>
      rw [htype]
    · next htype =>
      rw [htype]
    · simp at h
  rw [isFusible, if_neg hvisited, hstatus]

/-- Any other node is accepted when it comes first. -/
theorem isFusible_first (hdrop : isDroppable valueBreakerBypass node = false)
    (hblocked : isBlocked dev node = false) :
    ∃ mid, isFusible g dev valueBreakerBypass fuel {} node = some (true, mid) ∧
      node.nodeId ∈ mid.visited := by
  have hstatus : ∃ mid, getFusibleStatus g dev valueBreakerBypass fuel {} node = some (true, mid) := by
    unfold getFusibleStatus
    unfold isBlocked at hblocked
    split
    · next htype =>
      refine ⟨{}, ?_⟩
      rw [LockState.getCubeNum, LockState.getVecNum, htype]
      rfl
    · next htype =>
      have hbypass : shouldBypassValueWaitDeadlock valueBreakerBypass node = true := by
        simpa [isDroppable, htype] using hdrop
      exact ⟨_, if_pos hbypass⟩
    · next htype =>
      rw [htype] at hblocked
      have hfirst : (hasEnoughCores dev {} node true).1 = true := by simpa using hblocked
      exact ⟨_, congrArg some (Prod.ext hfirst rfl)⟩
    · exact ⟨_, rfl⟩
    · exact ⟨_, rfl⟩
    · next hother =>
      -- what is left is blocked
      cases htype : node.nodeType with
      | nodeMemoryWrite => simp [htype] at hblocked
      | nodeMemoryWait => simp [htype] at hblocked
      | _ => simp_all
  obtain ⟨mid, hmid⟩ := hstatus
  refine ⟨acceptNode mid node, ?_, mem_cons_self⟩
  rw [isFusible, if_neg not_mem_nil, hmid]

/-- A call for a node other than a WAIT only adds visited flags. -/
theorem isFusible_visited_grows (hwait : node.nodeType ≠ .nodeWait)
    (h : isFusible g dev valueBreakerBypass fuel ls node = some (b, ls')) :
    ∀ i ∈ ls.visited, i ∈ ls'.visited := by
  intro i hi
  rcases isFusible_cases h with ⟨-, -, rfl⟩ | ⟨-, mid, hstatus, hls'⟩
  · exact hi
  have hmid : i ∈ mid.visited := by
    rcases getFusibleStatus_cases hstatus with ⟨-, rfl⟩ | ⟨-, heq⟩ | ⟨htype, -⟩
    · exact hi
    · have hvisited := (@hasEnoughCores_marks dev ls node true).1
      rw [← heq] at hvisited
      exact hvisited ▸ hi
    · exact absurd htype hwait
  rw [hls']
  cases b with
  | true => exact mem_cons_of_mem _ hmid
  | false => exact hmid

variable {nodes : List SuperKernelBaseNode}

theorem acceptAll_visited_grows (hwait : ∀ n ∈ nodes, n.nodeType ≠ .nodeWait)
    (h : acceptAll g dev valueBreakerBypass fuel nodes ls = some ls') :
    ∀ i ∈ ls.visited, i ∈ ls'.visited := by
  induction nodes generalizing ls with
  | nil =>
    cases h
    exact fun _ hi => hi
  | cons node rest ih =>
    obtain ⟨mid, hcall, hrest⟩ := acceptAll_cons_cases h
    intro i hi
    exact ih (fun n hn => hwait n (mem_cons_of_mem _ hn)) hrest i
      (isFusible_visited_grows (hwait node mem_cons_self) hcall i hi)

variable {last : Option SuperKernelBaseNode}

/-- A WAIT is the last one of a list if no WAIT follows it. -/
theorem lastWait_none (h : ∀ n ∈ nodes, n.nodeType ≠ .nodeWait) : lastWait last nodes = last := by
  induction nodes with
  | nil => rfl
  | cons node rest ih =>
    rw [lastWait, if_neg (h node mem_cons_self)]
    exact ih fun n hn => h n (mem_cons_of_mem _ hn)

theorem noWait_of_lastWait
    (h : lastWait last nodes = none) : ∀ n ∈ nodes, n.nodeType ≠ .nodeWait := by
  induction nodes generalizing last with
  | nil =>
    intro n hn
    exact absurd hn not_mem_nil
  | cons node rest ih =>
    intro n hn hwait
    rw [lastWait] at h
    rcases mem_cons.mp hn with rfl | hn
    · -- the WAIT is not lost behind it
      rw [if_pos hwait] at h
      have hrest := ih h
      rw [lastWait_none hrest] at h
      simp at h
    · exact ih h n hn hwait

/-! ### Marks that stay -/

/-- Some node lies in a scope that was emitted. -/
def Dirty (ls : LockState) : Prop := ∃ i, ls.scopeStreamIds i ≠ []

theorem Dirty.not_marksClear (h : Dirty ls) : ¬ MarksClear ls := by
  intro hclear
  obtain ⟨i, hi⟩ := h
  rw [hclear.scopeStreamIds] at hi
  exact hi rfl

theorem dirty_setNotify (hne : scope.nodes ≠ []) : Dirty (setNotifyNodesExpandNumForScope ls scope) := by
  obtain ⟨n, rest, hnodes⟩ := exists_cons_of_ne_nil hne
  refine ⟨n.nodeId, ?_⟩
  have hmem : n.nodeId ∈ scope.nodeIds := by
    rw [SuperKernelScopeInfo.nodeIds, hnodes]
    exact mem_cons_self
  show (if n.nodeId ∈ scope.nodeIds then scope.nodes.map (·.streamIdxInGraph) else _) ≠ []
  rw [if_pos hmem, hnodes]
  simp

theorem findDeadlockFrom_streams
    {res : DeadlockSearch} (h : findDeadlockFrom g opts fuel last nodes ls = some (res, ls')) :
    ls'.scopeStreamIds = ls.scopeStreamIds := by
  rcases findDeadlockFrom_cases h with ⟨-, haccept⟩ | ⟨_, _, _, mid, -, haccept, hreject, -⟩
  · exact (acceptAll_marks haccept).2.1
  · exact (isFusible_marks hreject).2.1.trans (acceptAll_marks haccept).2.1

theorem processSingleScope_dirty {n : ℕ} {res : Option (List SuperKernelScopeInfo)} (hdirty : Dirty ls)
    (h : processSingleScope g opts fuel n scope ls = some (res, ls')) : Dirty ls' := by
  induction n generalizing scope ls res ls' with
  | zero => simp [processSingleScope] at h
  | succ n ih =>
    rw [processSingleScope] at h
    split at h
    · cases h
      exact hdirty
    · next hempty =>
      have hkept : ∀ {res mid}, findDeadlockInScope g opts fuel scope ls = some (res, mid) → Dirty mid := by
        intro res mid hfind
        obtain ⟨i, hi⟩ := hdirty
        refine ⟨i, ?_⟩
        rw [findDeadlockFrom_streams hfind]
        exact hi
      split at h
      · simp at h
      · cases h
        exact dirty_setNotify (by simpa using hempty)
      · next mid hfind =>
        cases h
        exact hkept hfind
      · next w mid hfind =>
        have hnext : Dirty (if (splitScopeAtWaitNode scope w).1.nodes.isEmpty then mid
            else setNotifyNodesExpandNumForScope mid (splitScopeAtWaitNode scope w).1) := by
          split
          · exact hkept hfind
          · next hbefore => exact dirty_setNotify (by simpa using hbefore)
        dsimp only at h
        split at h
        · cases h
          exact hnext
        · obtain ⟨⟨res', last⟩, hrec, heq⟩ := map_eq_some_iff.mp h
          cases heq
          exact ih hnext hrec

theorem refineScopes_dirty {res : Option (List SuperKernelScopeInfo)} (hdirty : Dirty ls)
    (h : refineScopes g opts fuel scopes ls = some (res, ls')) : Dirty ls' := by
  induction scopes generalizing ls res ls' with
  | nil =>
    cases h
    exact hdirty
  | cons scope rest ih =>
    rw [refineScopes] at h
    split at h
    · simp at h
    · next mid hfirst =>
      cases h
      exact processSingleScope_dirty hdirty hfirst
    · next mid hfirst =>
      obtain ⟨⟨res', last⟩, hrec, heq⟩ := map_eq_some_iff.mp h
      cases heq
      exact ih (processSingleScope_dirty hdirty hfirst) hrec

/-! ### The first scope that is not dropped -/

variable {first w : SuperKernelBaseNode} {rest : List SuperKernelBaseNode} {mid : LockState} {n : ℕ}
  {res : Option (List SuperKernelScopeInfo)}

theorem splitScopeAtWaitNode_nodes (hnodup : scope.nodeIds.Nodup) (hmem : w ∈ scope.nodes) :
    ∃ before after, scope.nodes = before ++ w :: after ∧
      (splitScopeAtWaitNode scope w).1.nodes = before ∧
      (splitScopeAtWaitNode scope w).2.nodes = after := by
  obtain ⟨front, back, hsplit⟩ := append_of_mem hmem
  have hlast : w ∈ front ++ [w] := by simp
  obtain ⟨before, after, hnodes, -, hbefore, hafter⟩ := splitScopeAtWaitNode_parts hnodup hsplit hlast
  exact ⟨before, after, hnodes, hbefore, hafter⟩

/-- A cut at the first node emits nothing and goes on with the rest. -/
theorem processSingleScope_drop (hnodup : scope.nodeIds.Nodup) (hnodes : scope.nodes = first :: rest)
    (hfind : findDeadlockInScope g opts fuel scope ls = some (.deadlock (some first), mid))
    (h : processSingleScope g opts fuel (n + 1) scope ls = some (res, ls')) :
    rest = [] ∧ res = some [] ∧ ls' = mid ∨
    ∃ after, after.nodes = rest ∧ after.nodeIds.Nodup ∧
      processSingleScope g opts fuel n after mid = some (res, ls') := by
  obtain ⟨before, after, hsplit, hbefore, hafter⟩ := splitScopeAtWaitNode_nodes hnodup (w := first)
    (by rw [hnodes]; exact mem_cons_self)
  have hids : (first.nodeId :: rest.map (·.nodeId)).Nodup := by
    rw [SuperKernelScopeInfo.nodeIds, hnodes] at hnodup
    exact hnodup
  -- the first node does not occur again, so nothing is in front of the cut
  have hnil : before = [] := by
    cases before with
    | nil => rfl
    | cons head before =>
      rw [hnodes, cons_append, List.cons.injEq] at hsplit
      refine absurd ?_ (nodup_cons.mp hids).1
      rw [hsplit.2]
      exact mem_map_of_mem (by simp)
  subst hnil
  rw [hnodes, nil_append, List.cons.injEq] at hsplit
  obtain ⟨-, rfl⟩ := hsplit
  have hne : ¬ scope.nodes.isEmpty = true := by
    rw [hnodes]
    simp
  rw [processSingleScope, if_neg hne, hfind] at h
  dsimp only at h
  rw [hbefore, hafter] at h
  simp only [isEmpty_nil, if_true] at h
  split at h
  · next hrest =>
    cases h
    exact .inl ⟨List.isEmpty_iff.mp hrest, rfl, rfl⟩
  · obtain ⟨⟨res', last⟩, hrec, heq⟩ := map_eq_some_iff.mp h
    refine .inr ⟨_, hafter, ?_, ?_⟩
    · rw [SuperKernelScopeInfo.nodeIds, hafter]
      exact (nodup_cons.mp hids).2
    · rw [hrec]
      cases res' with
      | none => exact congrArg some heq
      | some out => exact congrArg some heq

/-- A cut behind the first node emits a scope. -/
theorem processSingleScope_cut_dirty (hnodup : scope.nodeIds.Nodup)
    (hnodes : scope.nodes = first :: rest) (hmem : w ∈ scope.nodes) (hne : w ≠ first)
    (hfind : findDeadlockInScope g opts fuel scope ls = some (.deadlock (some w), mid))
    (h : processSingleScope g opts fuel (n + 1) scope ls = some (res, ls')) : Dirty ls' := by
  obtain ⟨before, after, hsplit, hbefore, -⟩ := splitScopeAtWaitNode_nodes hnodup hmem
  have hcons : before ≠ [] := by
    rintro rfl
    rw [hnodes, nil_append, List.cons.injEq] at hsplit
    exact hne hsplit.1.symm
  have hempty : (splitScopeAtWaitNode scope w).1.nodes.isEmpty = false := by
    rw [hbefore]
    simpa using hcons
  have hdirty : Dirty (setNotifyNodesExpandNumForScope mid (splitScopeAtWaitNode scope w).1) :=
    dirty_setNotify (hbefore ▸ hcons)
  have hscope : ¬ scope.nodes.isEmpty = true := by
    rw [hnodes]
    simp
  rw [processSingleScope, if_neg hscope, hfind] at h
  dsimp only at h
  rw [hempty] at h
  simp only [Bool.false_eq_true, if_false] at h
  split at h
  · cases h
    exact hdirty
  · obtain ⟨⟨res', last⟩, hrec, heq⟩ := map_eq_some_iff.mp h
    cases heq
    exact processSingleScope_dirty hdirty hrec

/-- The WAIT that the value breaker option keeps. -/
theorem isFusible_bypassed (hwait : node.nodeType = .nodeWait)
    (hdrop : isDroppable valueBreakerBypass node = false) :
    isFusible g dev valueBreakerBypass fuel {} node = some (true, acceptNode {} node) := by
  have hbypass : shouldBypassValueWaitDeadlock valueBreakerBypass node = true := by
    simpa [isDroppable, hwait] using hdrop
  have hstatus : getFusibleStatus g dev valueBreakerBypass fuel {} node = some (true, {}) := by
    unfold getFusibleStatus
    rw [hwait]
    exact if_pos hbypass
  rw [isFusible, if_neg not_mem_nil, hstatus]

theorem noWait_behind {a : SuperKernelBaseNode}
    (h : lastWait (some a) nodes = some a) (ha : a ∉ nodes) : ∀ n ∈ nodes, n.nodeType ≠ .nodeWait := by
  induction nodes with
  | nil =>
    intro n hn
    exact absurd hn not_mem_nil
  | cons node rest ih =>
    have hnode : node.nodeType ≠ .nodeWait := by
      intro hwait
      rw [lastWait, if_pos hwait] at h
      rcases lastWait_some h with heq | ⟨hmem, -⟩
      · exact ha (some.inj heq ▸ mem_cons_self)
      · exact ha (mem_cons_of_mem _ hmem)
    rw [lastWait, if_neg hnode] at h
    intro n hn
    rcases mem_cons.mp hn with rfl | hn
    · exact hnode
    · exact ih h (fun hmem => ha (mem_cons_of_mem _ hmem)) n hn

/-- The search accepts the scope, whose nodes are then marked, or rejects one of its nodes. -/
theorem processSingleScope_cases (hls : ls.reset = {}) (hnodes : scope.nodes = first :: rest)
    (h : processSingleScope g opts fuel (n + 1) scope ls = some (res, ls')) :
    Dirty ls' ∨ ∃ front node back m mid, first :: rest = front ++ node :: back ∧
      acceptAll g opts.device opts.valueBreakerBypass fuel front {} = some m ∧
      isFusible g opts.device opts.valueBreakerBypass fuel m node = some (false, mid) ∧
      findDeadlockInScope g opts fuel scope ls =
        some (.deadlock (lastWait none (front ++ [node])), mid) := by
  have hempty : ¬ scope.nodes.isEmpty = true := by
    rw [hnodes]
    simp
  cases hfind : findDeadlockInScope g opts fuel scope ls with
  | none =>
    rw [processSingleScope, if_neg hempty, hfind] at h
    simp at h
  | some found =>
    obtain ⟨found, mid⟩ := found
    have hcases := hfind
    rw [findDeadlockInScope, hls, hnodes] at hcases
    rcases findDeadlockFrom_cases hcases with
      ⟨rfl, -⟩ | ⟨front, node, back, m, hsplit, haccept, hreject, rfl⟩
    · rw [processSingleScope, if_neg hempty, hfind] at h
      cases h
      exact .inl (dirty_setNotify (by rw [hnodes]; simp))
    · exact .inr ⟨front, node, back, m, mid, hsplit, haccept, hreject, rfl⟩

theorem mem_of_mem_cut {x node : SuperKernelBaseNode} {front back : List SuperKernelBaseNode}
    (h : x ∈ front ++ [node]) : x ∈ front ++ node :: back := by
  rw [append_cons]
  exact mem_append_left _ h

/-- From a state without marks a scope is stuck at once, or dropped as a whole, or it leaves marks
behind. -/
theorem processSingleScope_first (hnodup : scope.nodeIds.Nodup) (hls : ls.reset = {})
    (h : processSingleScope g opts fuel n scope ls = some (res, ls')) :
    stuckAtOnce opts.device opts.valueBreakerBypass scope.nodes = true ∧ res = none ∧ MarksClear ls' ∨
    stuckAtOnce opts.device opts.valueBreakerBypass scope.nodes = false ∧
      scope.nodes.all (isDroppable opts.valueBreakerBypass) = true ∧ res = some [] ∧ ls'.reset = {} ∨
    stuckAtOnce opts.device opts.valueBreakerBypass scope.nodes = false ∧
      scope.nodes.all (isDroppable opts.valueBreakerBypass) = false ∧
      (Dirty ls' ∨ res = none ∧ ¬ MarksClear ls') := by
  induction n generalizing scope ls res ls' with
  | zero => simp [processSingleScope] at h
  | succ n ih =>
    cases hnodes : scope.nodes with
    | nil =>
      have hempty : scope.nodes.isEmpty = true := by rw [hnodes]; rfl
      rw [processSingleScope, if_pos hempty] at h
      cases h
      exact .inr (.inl ⟨rfl, rfl, rfl, hls⟩)
    | cons first rest =>
      have hempty : ¬ scope.nodes.isEmpty = true := by
        rw [hnodes]
        simp
      have hfirst : first ∈ scope.nodes := by
        rw [hnodes]
        exact mem_cons_self
      have hfresh : first ∉ rest := by
        intro hmem
        rw [SuperKernelScopeInfo.nodeIds, hnodes, map_cons] at hnodup
        exact (nodup_cons.mp hnodup).1 (mem_map_of_mem hmem)
      by_cases hdrop : isDroppable opts.valueBreakerBypass first = true
      · -- a WAIT that is dropped
        have hwait : first.nodeType = .nodeWait := by
          simp only [isDroppable, Bool.and_eq_true, decide_eq_true_eq] at hdrop
          exact hdrop.1
        have hfind : findDeadlockInScope g opts fuel scope ls = some (.deadlock (some first), {}) := by
          rw [findDeadlockInScope, hls, hnodes, findDeadlockFrom, isFusible_droppable hdrop, if_pos hwait]
        have hstuck : stuckAtOnce opts.device opts.valueBreakerBypass (first :: rest) =
            stuckAtOnce opts.device opts.valueBreakerBypass rest := by
          rw [stuckAtOnce, if_pos hdrop]
        rw [hstuck, all_cons, hdrop, Bool.true_and]
        rcases processSingleScope_drop hnodup hnodes hfind h with ⟨rfl, rfl, rfl⟩ | ⟨after, rfl, hids, hrec⟩
        · exact .inr (.inl ⟨rfl, rfl, rfl, rfl⟩)
        · exact ih hids rfl hrec
      rw [Bool.not_eq_true] at hdrop
      have hall : (first :: rest).all (isDroppable opts.valueBreakerBypass) = false := by
        rw [all_cons, hdrop, Bool.false_and]
      -- a cut at another WAIT emits a scope
      have hcut : ∀ {w mid}, w ∈ scope.nodes → w ≠ first →
          findDeadlockInScope g opts fuel scope ls = some (.deadlock (some w), mid) → Dirty ls' :=
        fun hmem hne hfind => processSingleScope_cut_dirty hnodup hnodes hmem hne hfind h
      by_cases hwait : first.nodeType = .nodeWait
      · have hstuck : stuckAtOnce opts.device opts.valueBreakerBypass (first :: rest) =
            rest.head?.any (isBlocked opts.device) := by
          rw [stuckAtOnce, hdrop, if_neg Bool.false_ne_true, if_pos hwait]
        have hcall := @isFusible_bypassed g fuel opts.device first opts.valueBreakerBypass hwait hdrop
        -- a blocked second node is rejected right behind the WAIT
        have hsecond : ∀ m back, rest = m :: back → isBlocked opts.device m = true →
            findDeadlockInScope g opts fuel scope ls = some (.deadlock (some first), acceptNode {} first) := by
          intro m back hrest hblocked
          have hm : m.nodeType ≠ .nodeWait := by
            intro htype
            simp [isBlocked, htype] at hblocked
          have hnew : m.nodeId ∉ (acceptNode {} first).visited := by
            intro hmem
            obtain heq : m.nodeId = first.nodeId := by
              rcases mem_cons.mp hmem with heq | hmem
              · exact heq
              · exact absurd hmem not_mem_nil
            rw [SuperKernelScopeInfo.nodeIds, hnodes, hrest, map_cons, map_cons] at hnodup
            exact (nodup_cons.mp hnodup).1 (heq ▸ mem_cons_self)
          rw [findDeadlockInScope, hls, hnodes, hrest, findDeadlockFrom, hcall, if_pos hwait]
          show findDeadlockFrom g opts fuel (some first) (m :: back) (acceptNode {} first) = _
          rw [findDeadlockFrom, isFusible_blocked hblocked hnew ⟨rfl, rfl, rfl, rfl⟩, if_neg hm]
        -- a node other than a WAIT decides at once whether the rest is stuck
        have hrest : ∀ m back, m.nodeType ≠ .nodeWait →
            stuckAtOnce opts.device opts.valueBreakerBypass (m :: back) = isBlocked opts.device m := by
          intro m back hm
          have hmdrop : isDroppable opts.valueBreakerBypass m = false := by simp [isDroppable, hm]
          rw [stuckAtOnce, hmdrop, if_neg Bool.false_ne_true, if_neg hm]
        have hreset : ∀ {res mid}, findDeadlockInScope g opts fuel scope ls = some (res, mid) →
            mid.reset = {} := by
          intro res mid hfind
          have hmarks : ls.reset = scopeMarks [] := hls
          exact findDeadlockInScope_reset hmarks hfind
        rw [hstuck, hall]
        by_cases hsec : rest.head?.any (isBlocked opts.device) = true
        · cases rest with
          | nil => simp at hsec
          | cons m back =>
            have hblocked : isBlocked opts.device m = true := by simpa using hsec
            have hm : m.nodeType ≠ .nodeWait := by
              intro htype
              simp [isBlocked, htype] at hblocked
            have hfind := hsecond m back rfl hblocked
            rcases processSingleScope_drop hnodup hnodes hfind h with ⟨hnil, -⟩ | ⟨after, hafter, hids, hrec⟩
            · simp at hnil
            · have hfirst' := ih hids (hreset hfind) hrec
              rw [hafter, hrest m back hm, hblocked] at hfirst'
              rcases hfirst' with ⟨-, hstuck'⟩ | ⟨hno, -⟩ | ⟨hno, -⟩
              · exact .inl ⟨hsec, hstuck'⟩
              · simp at hno
              · simp at hno
        rw [Bool.not_eq_true] at hsec
        refine .inr (.inr ⟨hsec, rfl, ?_⟩)
        rcases processSingleScope_cases hls hnodes h with
          hdirty | ⟨front, node, back, m, mid, hsplit, haccept, hreject, hfind⟩
        · exact .inl hdirty
        cases front with
        | nil =>
          -- the WAIT itself was accepted
          cases haccept
          obtain ⟨rfl, -⟩ := List.cons.inj hsplit
          rw [hcall] at hreject
          simp at hreject
        | cons head front =>
          rw [cons_append, List.cons.injEq] at hsplit
          obtain ⟨rfl, rfl⟩ := hsplit
          rw [cons_append, lastWait, if_pos hwait] at hfind
          cases hlast : lastWait (some first) (front ++ [node]) with
          | none =>
            have hwhole : lastWait none (first :: (front ++ [node])) = none := by
              rw [lastWait, if_pos hwait, hlast]
            exact absurd hwait (noWait_of_lastWait hwhole first mem_cons_self)
          | some w =>
            rw [hlast] at hfind
            by_cases hw : w = first
            · subst hw
              have hbehind := noWait_behind hlast fun hmem => hfresh (mem_of_mem_cut hmem)
              rcases processSingleScope_drop hnodup hnodes hfind h with
                ⟨hnil, -⟩ | ⟨after, hafter, hids, hrec⟩
              · simp at hnil
              obtain ⟨x, xs, hx, hxwait⟩ : ∃ x xs, front ++ node :: back = x :: xs ∧
                  x.nodeType ≠ .nodeWait := by
                cases front with
                | nil => exact ⟨node, back, rfl, hbehind node (by simp)⟩
                | cons x front => exact ⟨x, front ++ node :: back, rfl, hbehind x (by simp)⟩
              have hxdrop : isDroppable opts.valueBreakerBypass x = false := by
                simp [isDroppable, hxwait]
              have hxblocked : isBlocked opts.device x = false := by
                rw [hx] at hsec
                simpa using hsec
              have hfirst' := ih hids (hreset hfind) hrec
              rw [hafter, hx, hrest x xs hxwait, hxblocked, all_cons, hxdrop,
                Bool.false_and] at hfirst'
              rcases hfirst' with ⟨hno, -⟩ | ⟨-, hno, -⟩ | ⟨-, -, hleft⟩
              · simp at hno
              · simp at hno
              · exact hleft
            · refine .inl (hcut ?_ hw hfind)
              rcases lastWait_some hlast with heq | ⟨hmem, -⟩
              · exact absurd (some.inj heq).symm hw
              · rw [hnodes]
                exact mem_cons_of_mem _ (mem_of_mem_cut hmem)
      · have hstuck : stuckAtOnce opts.device opts.valueBreakerBypass (first :: rest) =
            isBlocked opts.device first := by
          rw [stuckAtOnce, hdrop, if_neg Bool.false_ne_true, if_neg hwait]
        rw [hstuck, hall]
        by_cases hblocked : isBlocked opts.device first = true
        · -- stuck at once
          have hfind : findDeadlockInScope g opts fuel scope ls = some (.deadlock none, {}) := by
            rw [findDeadlockInScope, hls, hnodes, findDeadlockFrom,
              isFusible_blocked hblocked not_mem_nil ⟨rfl, rfl, rfl, rfl⟩, if_neg hwait]
          rw [processSingleScope, if_neg hempty, hfind] at h
          cases h
          exact .inl ⟨hblocked, rfl, marksClear_initial⟩
        rw [Bool.not_eq_true] at hblocked
        refine .inr (.inr ⟨hblocked, rfl, ?_⟩)
        obtain ⟨start, hcall, hvisited⟩ :=
          @isFusible_first g fuel opts.device first opts.valueBreakerBypass hdrop hblocked
        rcases processSingleScope_cases hls hnodes h with
          hdirty | ⟨front, node, back, m, mid, hsplit, haccept, hreject, hfind⟩
        · exact .inl hdirty
        cases hlast : lastWait none (front ++ [node]) with
        | some w =>
          rw [hlast] at hfind
          obtain ⟨hmem, hw⟩ := (lastWait_some hlast).resolve_left (by simp)
          refine .inl (hcut ?_ (fun heq => hwait (heq ▸ hw)) hfind)
          rw [hnodes, hsplit]
          exact mem_of_mem_cut hmem
        | none =>
          -- no WAIT was searched, so the first node is still visited
          rw [processSingleScope, if_neg hempty, hfind, hlast] at h
          cases h
          have hno := noWait_of_lastWait hlast
          refine .inr ⟨rfl, fun hclear => ?_⟩
          cases front with
          | nil =>
            cases haccept
            obtain ⟨rfl, -⟩ := List.cons.inj hsplit
            rw [hcall] at hreject
            simp at hreject
          | cons head front =>
            obtain ⟨rfl, -⟩ := List.cons.inj hsplit
            rw [acceptAll_cons hcall] at haccept
            have hm := acceptAll_visited_grows (fun x hx => hno x (by simp [hx])) haccept _ hvisited
            have hend := isFusible_visited_grows (hno node (by simp)) hreject _ hm
            rw [hclear.visited] at hend
            exact not_mem_nil hend

/-- A run that gives up leaves no marks exactly when it is stuck at once. -/
theorem refineScopes_first (hnodup : ∀ scope ∈ scopes, scope.nodeIds.Nodup) (hls : ls.reset = {})
    (h : refineScopes g opts fuel scopes ls = some (none, ls')) :
    MarksClear ls' ↔ stuckScopes opts.device opts.valueBreakerBypass scopes = true := by
  induction scopes generalizing ls ls' with
  | nil => simp [refineScopes] at h
  | cons scope rest ih =>
    have hscope := hnodup scope mem_cons_self
    rw [refineScopes] at h
    split at h
    · simp at h
    · next mid hfirst =>
      cases h
      rcases processSingleScope_first hscope hls hfirst with
        ⟨hstuck, -, hclear⟩ | ⟨-, -, hres, -⟩ | ⟨hstuck, hall, hleft⟩
      · rw [stuckScopes, hstuck, Bool.true_or]
        exact ⟨fun _ => rfl, fun _ => hclear⟩
      · simp at hres
      · rw [stuckScopes, hstuck, hall, Bool.false_and, Bool.or_false]
        refine ⟨fun hclear => ?_, fun hno => ?_⟩
        · exact absurd hclear (hleft.elim Dirty.not_marksClear fun hleft => hleft.2)
        · simp at hno
    · next pieces mid hfirst =>
      obtain ⟨⟨res', last⟩, hrec, heq⟩ := map_eq_some_iff.mp h
      rcases processSingleScope_first hscope hls hfirst with
        ⟨-, hres, -⟩ | ⟨hstuck, hall, -, hreset⟩ | ⟨hstuck, hall, hleft⟩
      · simp at hres
      · -- the whole scope was dropped
        rw [stuckScopes, hstuck, hall, Bool.false_or, Bool.true_and]
        cases res' with
        | some out => simp at heq
        | none =>
          cases heq
          exact ih (fun s hs => hnodup s (mem_cons_of_mem _ hs)) hreset hrec
      · rw [stuckScopes, hstuck, hall, Bool.false_and, Bool.or_false]
        have hdirty : Dirty mid := hleft.resolve_right fun hleft => by simp at hleft
        have hlast : last = ls' := (Prod.ext_iff.mp heq).2
        refine ⟨fun hclear => ?_, fun hno => ?_⟩
        · exact absurd hclear (hlast ▸ refineScopes_dirty hdirty hrec).not_marksClear
        · simp at hno

end Failure

/-! ## Two streams -/

/-- The kernel and the WAIT of stream 0 in one scope, and the larger kernel in another. -/
def crossScope (head : SkNodeType) (ids : List NodeId) : SuperKernelScopeInfo :=
  rebuildStreamInfos { nodes := ids.map (crossNode head) }

/-- The WAIT of `crossStreams` waits behind an unsupported node, so the scope is cut there. -/
theorem crossStreams_partition :
    ∃ r, deadlockRefineRun (crossStreams .nodeMemoryWait) { device := ⟨8, 8⟩ } 9
        [crossScope .nodeMemoryWait [0, 1]] {} = some r ∧ ∀ out ∈ r.1,
      (∃ pieces, out = pieces.flatten ∧
        Forall₂ PiecesCut [crossScope .nodeMemoryWait [0, 1]] pieces) ∧
      (∀ scope ∈ out, scope.nodes ≠ []) ∧
      ∃ ls'', deadlockRefineRun (crossStreams .nodeMemoryWait) { device := ⟨8, 8⟩ } 9 out r.2 =
        some (some out, ls'') := by
  refine deadlockRefineRun_partition ?_ (by decide) ?_ marksClear_initial
  · intro x hx w hw
    have hone : w = 1 := by
      simp only [crossStreams, mem_cons, not_mem_nil, or_false] at hx
      rcases hx with rfl | rfl | rfl | rfl | rfl
      · simp at hw
      · simp at hw
      · simp at hw
      · simp at hw
      · simpa using hw
    subst hone
    exact ⟨_, rfl⟩
  · intro scope hscope
    obtain rfl := mem_singleton.mp hscope
    refine ⟨by decide, ?_⟩
    intro n hn
    have hn' : n = crossNode .nodeMemoryWait 0 ∨ n = crossNode .nodeMemoryWait 1 := by
      simpa [crossScope, rebuildStreamInfos] using hn
    rcases hn' with rfl | rfl
    · exact mem_cons_self
    · exact mem_cons_of_mem _ mem_cons_self

end GraphAutofusion.SuperKernel
