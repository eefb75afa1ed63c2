import GraphAutofusion.SuperKernel.LockPlan
import Mathlib.Data.List.Infix

/-!
# SuperKernel.LockSearch — what the backward search can do to the detector

However the search goes, it only enters nodes, which marks them, and raises the limits of the
kernels outside; for the WAIT itself its NOTIFY is remembered as well. So an invariant of the search
is a fact about these three steps, and a call of `IsFusible` is one of a few updates around it.
-/

namespace GraphAutofusion.SuperKernel

open Relation SearchPlan List Option

variable {g : SuperKernelGraph} {dev : DeviceCores} {ls ls' : LockState} {node : SuperKernelBaseNode}

inductive SearchStep (dev : DeviceCores) : LockState → LockState → Prop where
  | enter (ls : LockState) (nodeId : NodeId) : SearchStep dev ls (enterNode ls nodeId)
  | account (ls : LockState) (node : SuperKernelBaseNode) :
      SearchStep dev ls (hasEnoughCores dev ls node false).2
  | remember (ls : LockState) (nodeId : NodeId) :
      SearchStep dev ls { ls with tempVisitedNodes := ls.tempVisitedNodes ++ [nodeId] }

abbrev SearchRun (dev : DeviceCores) : LockState → LockState → Prop := ReflTransGen (SearchStep dev)

theorem hasEnoughCores_run : SearchRun dev ls (hasEnoughCores dev ls node false).2 :=
  ReflTransGen.single (SearchStep.account ls node)

theorem hasEnoughCores_marks (isSuperKernel : Bool) :
    (hasEnoughCores dev ls node isSuperKernel).2.visited = ls.visited ∧
      (hasEnoughCores dev ls node isSuperKernel).2.nodes = ls.nodes ∧
      (hasEnoughCores dev ls node isSuperKernel).2.tempVisitedNodes = ls.tempVisitedNodes ∧
      (hasEnoughCores dev ls node isSuperKernel).2.notifyExpand = ls.notifyExpand ∧
      (hasEnoughCores dev ls node isSuperKernel).2.scopeStreamIds = ls.scopeStreamIds := by
  unfold hasEnoughCores
  dsimp only
  split
  · split
    · exact ⟨rfl, rfl, rfl, rfl, rfl⟩
    · split
      · exact ⟨rfl, rfl, rfl, rfl, rfl⟩
      · exact ⟨rfl, rfl, rfl, rfl, rfl⟩
  · split
    · exact ⟨rfl, rfl, rfl, rfl, rfl⟩
    · split
      · exact ⟨rfl, rfl, rfl, rfl, rfl⟩
      · exact ⟨rfl, rfl, rfl, rfl, rfl⟩

/-- A search enters what it marks in `tempVisitedNodes`, and leaves the other marks alone. -/
structure SearchMarks (ls ls' : LockState) : Prop where
  visited : ∀ i ∈ ls'.visited, i ∈ ls.visited ∨ i ∈ ls'.tempVisitedNodes
  grows : ∀ i ∈ ls.visited, i ∈ ls'.visited
  temp : ∀ i ∈ ls.tempVisitedNodes, i ∈ ls'.tempVisitedNodes
  nodes : ls'.nodes = ls.nodes
  notifyExpand : ls'.notifyExpand = ls.notifyExpand
  scopeStreamIds : ls'.scopeStreamIds = ls.scopeStreamIds

theorem SearchRun.marks (h : SearchRun dev ls ls') : SearchMarks ls ls' := by
  induction h with
  | refl => exact ⟨fun _ => Or.inl, fun _ hi => hi, fun _ hi => hi, rfl, rfl, rfl⟩
  | tail _ hstep ih =>
    cases hstep with
    | enter nodeId =>
      refine ⟨?_, ?_, ?_, ih.nodes, ih.notifyExpand, ih.scopeStreamIds⟩
      · intro i hi
        show i ∈ ls.visited ∨ i ∈ _ ++ [nodeId]
        rcases mem_cons.mp hi with rfl | hi
        · exact .inr (mem_append_right _ mem_cons_self)
        · exact (ih.visited i hi).imp_right (mem_append_left _)
      · intro i hi
        exact mem_cons_of_mem _ (ih.grows i hi)
      · intro i hi
        exact mem_append_left _ (ih.temp i hi)
    | account node =>
      obtain ⟨hvisited, hnodes, htemp, hexpand, hstreams⟩ :=
        @hasEnoughCores_marks dev _ node false
      refine ⟨?_, ?_, ?_, hnodes.trans ih.nodes, hexpand.trans ih.notifyExpand,
        hstreams.trans ih.scopeStreamIds⟩
      · rw [hvisited, htemp]
        exact ih.visited
      · rw [hvisited]
        exact ih.grows
      · rw [htemp]
        exact ih.temp
    | remember nodeId =>
      refine ⟨?_, ih.grows, ?_, ih.nodes, ih.notifyExpand, ih.scopeStreamIds⟩
      · intro i hi
        exact (ih.visited i hi).imp_right (mem_append_left _)
      · intro i hi
        exact mem_append_left _ (ih.temp i hi)

/-- A plan runs in these steps when the calls it asks for do. -/
theorem AsksFrom.run {search : LockState → SuperKernelBaseNode → Option (Bool × LockState)}
    {plan : SearchPlan} {r : Bool × LockState} (hplan : AsksFrom g node plan ls)
    (hsearch : ∀ {ls node r}, search ls node = some r → SearchRun dev (enterNode ls node.nodeId) r.2)
    (h : plan.run search = some r) : SearchRun dev ls r.2 := by
  induction plan generalizing ls with
  | answer found ls' =>
    cases hplan
    cases h
    exact .refl
  | nullPointer => cases h
  | ask ls' next plan ih =>
    obtain ⟨rfl, -, hnext⟩ := hplan
    have hcall : ∀ {r}, search ls' next = some r → SearchRun dev ls' r.2 := fun hr =>
      ReflTransGen.head (SearchStep.enter ls' next.nodeId) (hsearch hr)
    rw [SearchPlan.run] at h
    split at h
    · cases h
    · next heq =>
      cases h
      exact hcall heq
    · next mid heq =>
      have hentered := (hsearch heq).marks.grows _ mem_cons_self
      exact (hcall heq).trans (ih mid (hnext mid hentered) h)

theorem accountNode_run : SearchRun dev ls (accountNode dev ls node) := by
  rcases @accountNode_cases dev ls node with heq | heq
  · rw [heq]
  · rw [heq]
    exact hasEnoughCores_run

/-- The backward search enters its node, and what follows is a run of these steps. -/
theorem hasDeadlock_enter_run {fuel : ℕ} {r : Bool × LockState}
    (h : hasDeadlock g dev fuel ls node = some r) : SearchRun dev (enterNode ls node.nodeId) r.2 := by
  induction fuel generalizing ls node r with
  | zero => cases h
  | succ fuel ih =>
    rw [hasDeadlock_succ, searchPlan] at h
    split at h
    · cases h
      exact .refl
    · next preNode hpre =>
      split at h
      · cases h
        exact .refl
      · split at h
        · cases h
          exact .refl
        · obtain ⟨_, _, hget⟩ := bind_eq_some_iff.mp hpre
          have hmem := (SuperKernelGraph.getNodeById_some hget).1
          exact accountNode_run.trans ((asksFrom_checkPlan hmem).run ih h)

theorem hasDeadlock_run {fuel : ℕ} {r : Bool × LockState}
    (h : hasDeadlock g dev fuel ls node = some r) : SearchRun dev ls r.2 :=
  ReflTransGen.head (SearchStep.enter ls node.nodeId) (hasDeadlock_enter_run h)

/-! ## One call -/

variable {valueBreakerBypass fuel : ℕ} {b : Bool}

theorem getWaitNodeFusibleStatus_run
    (h : getWaitNodeFusibleStatus g dev fuel ls node = some (b, ls')) : SearchRun dev ls ls' := by
  unfold getWaitNodeFusibleStatus at h
  split at h
  · cases h
    exact .refl
  · next notifyNode _ =>
    split at h
    · cases h
      exact .refl
    · split at h
      · cases h
        exact .refl
      · split at h
        · cases h
          exact .refl
        · have hcores := @hasEnoughCores_run dev ls notifyNode
          by_cases hneed : 0 < ls.getCubeNum notifyNode ∨ 0 < ls.getVecNum notifyNode
          · simp only [if_pos hneed] at h
            by_cases henough : (hasEnoughCores dev ls notifyNode false).1 = true
            · simp only [henough, if_true, map_eq_some_iff] at h
              obtain ⟨r, hr, heq⟩ := h
              cases heq
              exact (hcores.tail (SearchStep.remember _ notifyNode.nodeId)).trans (hasDeadlock_run hr)
            · simp only [henough] at h
              cases h
              exact hcores
          · simp only [if_neg hneed, if_true, map_eq_some_iff] at h
            obtain ⟨r, hr, heq⟩ := h
            cases heq
            exact hasDeadlock_run hr

/-- What `GetFusibleStatus` does to the detector: nothing, the account of a kernel, or a search from
a WAIT, whose marks are kept if it succeeds and taken back if it fails. -/
theorem getFusibleStatus_cases
    (h : getFusibleStatus g dev valueBreakerBypass fuel ls node = some (b, ls')) :
    node.nodeType ≠ .nodeKernel ∧ ls' = ls ∨
    node.nodeType = .nodeKernel ∧ (b, ls') = hasEnoughCores dev ls node true ∨
    node.nodeType = .nodeWait ∧ ∃ found, SearchRun dev { ls with tempVisitedNodes := [] } found ∧
      ls' = if b then { found with nodes := found.nodes ++ found.tempVisitedNodes }
        else found.rollbackTempVisited := by
  unfold getFusibleStatus at h
  split at h
  · next htype =>
    cases h
    exact .inl ⟨by simp [htype], rfl⟩
  · next htype =>
    split at h
    · cases h
      exact .inl ⟨by simp [htype], rfl⟩
    · refine .inr (.inr ⟨htype, ?_⟩)
      split at h
      · cases h
      · next found heq =>
        cases h
        exact ⟨found, getWaitNodeFusibleStatus_run heq, rfl⟩
      · next found heq =>
        cases h
        exact ⟨found, getWaitNodeFusibleStatus_run heq, rfl⟩
  · next htype =>
    exact .inr (.inl ⟨htype, (some.inj h).symm⟩)
  · next htype =>
    cases h
    exact .inl ⟨by simp [htype], rfl⟩
  · next htype =>
    cases h
    exact .inl ⟨by simp [htype], rfl⟩
  · next hother =>
    cases h
    exact .inl ⟨fun htype => by simp_all, rfl⟩

/-- A call of `IsFusible` answers at once for a visited node; else it keeps what `GetFusibleStatus`
did and, if the node is accepted, adds it. -/
theorem isFusible_cases (h : isFusible g dev valueBreakerBypass fuel ls node = some (b, ls')) :
    node.nodeId ∈ ls.visited ∧ b = true ∧ ls' = ls ∨
    node.nodeId ∉ ls.visited ∧ ∃ mid,
      getFusibleStatus g dev valueBreakerBypass fuel ls node = some (b, mid) ∧
      ls' = if b then acceptNode mid node else mid := by
  unfold isFusible at h
  split at h
  · next hvisited =>
    cases h
    exact .inl ⟨hvisited, rfl, rfl⟩
  · next hvisited =>
    refine .inr ⟨hvisited, ?_⟩
    split at h
    · cases h
    · next mid heq =>
      cases h
      exact ⟨mid, heq, rfl⟩
    · next mid heq =>
      cases h
      exact ⟨_, heq, rfl⟩

end GraphAutofusion.SuperKernel
