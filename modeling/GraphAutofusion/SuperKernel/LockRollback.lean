import GraphAutofusion.SuperKernel.LockCores
import GraphAutofusion.SuperKernel.LockMarks

/-!
# SuperKernel.LockRollback — what a rejected node leaves in the detector

When a WAIT is rejected, the nodes its search entered are marked as unvisited again. The limits of
the kernels outside stay where the search raised them, and a node that was visited before and that
the search entered again loses its mark.

The quiet search follows `HasDeadlock` as long as neither of the two happens. So a rejected
node leaves the detector as it was iff it started no search or its search is quiet to the end.
-/

namespace GraphAutofusion.SuperKernel

open Relation List

variable {g : SuperKernelGraph} {dev : DeviceCores} {before ls ls' : LockState}
  {node : SuperKernelBaseNode} {valueBreakerBypass fuel : ℕ}

/-- Later decisions cannot tell the two states apart. -/
structure SameDetector (ls ls' : LockState) : Prop where
  superKernelCubeNum : ls'.superKernelCubeNum = ls.superKernelCubeNum
  superKernelVecNum : ls'.superKernelVecNum = ls.superKernelVecNum
  depOpCubeNum : ls'.depOpCubeNum = ls.depOpCubeNum
  depOpVecNum : ls'.depOpVecNum = ls.depOpVecNum
  skStreamIds : ls'.skStreamIds = ls.skStreamIds
  skRangeInStream : ls'.skRangeInStream = ls.skRangeInStream
  nodeNum : ls'.nodeNum = ls.nodeNum
  kernelNodeNum : ls'.kernelNodeNum = ls.kernelNodeNum
  visited : ∀ i, i ∈ ls'.visited ↔ i ∈ ls.visited

theorem SameDetector.refl : SameDetector ls ls :=
  ⟨rfl, rfl, rfl, rfl, rfl, rfl, rfl, rfl, fun _ => Iff.rfl⟩

/-! ## The quiet search -/

/-- The node needs more than the limits of the kernels outside, and the device has room for it. -/
def raisesLimits (dev : DeviceCores) (ls : LockState) (node : SuperKernelBaseNode) : Bool :=
  !(ls.getCubeNum node ≤ ls.depOpCubeNum && ls.getVecNum node ≤ ls.depOpVecNum) &&
    (ls.getCubeNum node ≤ (getAvailableCores dev ls false).1 &&
      ls.getVecNum node ≤ (getAvailableCores dev ls false).2)

/-- `HasDeadlock` until it would enter a node that was visited before, or raise the limits of the
kernels outside; then `none`. -/
def quietDeadlock (g : SuperKernelGraph) (dev : DeviceCores) (visitedBefore : List NodeId) :
    ℕ → LockState → SuperKernelBaseNode → Option (Bool × LockState)
  | 0, _, _ => none
  | fuel + 1, ls, curNode =>
    if curNode.nodeId ∈ visitedBefore then none
    else
      let ls := enterNode ls curNode.nodeId
      match curNode.preNodeId.bind g.getNodeById with
      | none => some (false, ls)
      | some preNode =>
        if preNode.nodeId ∈ ls.visited then some (false, ls)
        else if hasIntersection (ls.scopeStreamIds preNode.nodeId) ls.skStreamIds then some (false, ls)
        else
          match preNode.nodeType with
          | .nodeKernel =>
            if raisesLimits dev ls preNode then none
            else checkKernelNodeDeadlock dev (quietDeadlock g dev visitedBefore fuel) ls preNode
          | .nodeWait => checkWaitNodeDeadlock g (quietDeadlock g dev visitedBefore fuel) ls preNode
          | .nodeNotify =>
            if raisesLimits dev ls preNode then none
            else checkNotifyNodeDeadlock g dev (quietDeadlock g dev visitedBefore fuel) ls preNode
          | .nodeDefault => quietDeadlock g dev visitedBefore fuel ls preNode
          | .nodeReset => quietDeadlock g dev visitedBefore fuel ls preNode
          | _ => some (true, ls)

/-- The NOTIFY at which the search for a node starts, if there is one. -/
def searchStart (g : SuperKernelGraph) (valueBreakerBypass : ℕ) (ls : LockState)
    (curNode : SuperKernelBaseNode) : Option SuperKernelBaseNode :=
  if curNode.nodeType = .nodeWait ∧ shouldBypassValueWaitDeadlock valueBreakerBypass curNode = false
  then (curNode.syncInfos.correspondingNotifyNodeId.bind g.getNodeById).filter fun notifyNode =>
    !(ls.nodeNum = 0 || ls.isInSKStream notifyNode ||
      hasIntersection ls.skStreamIds (ls.scopeStreamIds notifyNode.nodeId))
  else none

/-- A call for the node starts no search, or only a quiet one. -/
def keepsDetector (g : SuperKernelGraph) (dev : DeviceCores) (valueBreakerBypass fuel : ℕ)
    (ls : LockState) (curNode : SuperKernelBaseNode) : Bool :=
  match searchStart g valueBreakerBypass ls curNode with
  | none => true
  | some notifyNode =>
    let needsCores := 0 < ls.getCubeNum notifyNode ∨ 0 < ls.getVecNum notifyNode
    -- a NOTIFY of a finished scope that does not fit on the device ends the search at once
    if needsCores ∧ (hasEnoughCores dev ls notifyNode false).1 = false then true
    else
      let temp := if needsCores then [notifyNode.nodeId] else []
      !raisesLimits dev ls notifyNode &&
        (quietDeadlock g dev ls.visited fuel { ls with tempVisitedNodes := temp } notifyNode).isSome

/-! ## The trace of a search -/

/-- The search left no trace so far. -/
structure Calm (before ls : LockState) : Prop where
  depOpCubeNum : ls.depOpCubeNum = before.depOpCubeNum
  depOpVecNum : ls.depOpVecNum = before.depOpVecNum
  temp : ∀ i ∈ ls.tempVisitedNodes, i ∉ before.visited

/-- The search raised a limit or entered a node that was visited before. -/
def Loud (before ls : LockState) : Prop :=
  before.depOpCubeNum < ls.depOpCubeNum ∨ before.depOpVecNum < ls.depOpVecNum ∨
    ∃ i ∈ ls.tempVisitedNodes, i ∈ before.visited

theorem raisesLimits_iff : raisesLimits dev ls node = true ↔
    ¬(ls.getCubeNum node ≤ ls.depOpCubeNum ∧ ls.getVecNum node ≤ ls.depOpVecNum) ∧
      ls.getCubeNum node ≤ (getAvailableCores dev ls false).1 ∧
      ls.getVecNum node ≤ (getAvailableCores dev ls false).2 := by
  simp only [raisesLimits, Bool.and_eq_true, Bool.not_eq_true', Bool.and_eq_false_iff,
    decide_eq_true_eq, decide_eq_false_iff_not, not_and_or]

theorem hasEnoughCores_raises (h : raisesLimits dev ls node = true) :
    ls.depOpCubeNum < (hasEnoughCores dev ls node false).2.depOpCubeNum ∨
      ls.depOpVecNum < (hasEnoughCores dev ls node false).2.depOpVecNum := by
  obtain ⟨hover, hfit⟩ := raisesLimits_iff.mp h
  unfold hasEnoughCores
  simp only [Bool.false_eq_true, if_false, if_neg hover, if_pos hfit]
  show ls.depOpCubeNum < max ls.depOpCubeNum _ ∨ ls.depOpVecNum < max ls.depOpVecNum _
  omega

theorem hasEnoughCores_quiet (h : raisesLimits dev ls node = false) :
    (hasEnoughCores dev ls node false).2 = ls := by
  unfold hasEnoughCores
  simp only [Bool.false_eq_true, if_false]
  split
  · rfl
  · next hover =>
    split
    · next hfit =>
      rw [raisesLimits_iff.mpr ⟨hover, hfit⟩] at h
      exact absurd h (by simp)
    · rfl

theorem hasEnoughCores_refused {isSuperKernel : Bool}
    (h : hasEnoughCores dev ls node isSuperKernel = (false, ls')) : ls' = ls := by
  unfold hasEnoughCores at h
  dsimp only at h
  split at h
  · split at h
    · simp at h
    · split at h
      · simp at h
      · exact (Prod.mk.inj h).2.symm
  · split at h
    · simp at h
    · split at h
      · simp at h
      · exact (Prod.mk.inj h).2.symm

theorem hasEnoughCores_dep_le :
    ls.depOpCubeNum ≤ (hasEnoughCores dev ls node false).2.depOpCubeNum ∧
      ls.depOpVecNum ≤ (hasEnoughCores dev ls node false).2.depOpVecNum := by
  unfold hasEnoughCores
  simp only [Bool.false_eq_true, if_false]
  split
  · exact ⟨le_refl _, le_refl _⟩
  · split
    · exact ⟨le_max_left _ _, le_max_left _ _⟩
    · exact ⟨le_refl _, le_refl _⟩

theorem SearchRun.dep_le (h : SearchRun dev ls ls') :
    ls.depOpCubeNum ≤ ls'.depOpCubeNum ∧ ls.depOpVecNum ≤ ls'.depOpVecNum := by
  induction h with
  | refl => exact ⟨le_refl _, le_refl _⟩
  | @tail mid _ _ hstep ih =>
    cases hstep with
    | enter nodeId => exact ih
    | account node =>
      have hle := @hasEnoughCores_dep_le dev mid node
      exact ⟨le_trans ih.1 hle.1, le_trans ih.2 hle.2⟩
    | remember nodeId => exact ih

/-- A trace stays. -/
theorem Loud.run (h : Loud before ls) (hrun : SearchRun dev ls ls') : Loud before ls' := by
  have hle := hrun.dep_le
  rcases h with hcube | hvec | ⟨i, htemp, hvisited⟩
  · exact .inl (lt_of_lt_of_le hcube hle.1)
  · exact .inr (.inl (lt_of_lt_of_le hvec hle.2))
  · exact .inr (.inr ⟨i, hrun.marks.temp i htemp, hvisited⟩)

theorem Calm.raises (h : Calm before ls) (hraises : raisesLimits dev ls node = true) :
    Loud before (hasEnoughCores dev ls node false).2 := by
  rw [Loud, ← h.depOpCubeNum, ← h.depOpVecNum]
  exact (hasEnoughCores_raises hraises).imp_right Or.inl

/-- The quiet search ends like the search, without a trace, or gives up and the search
leaves a trace. -/
def Follows (before : LockState) (result quiet : Option (Bool × LockState)) : Prop :=
  ∀ r, result = some r → quiet = some r ∧ Calm before r.2 ∨ quiet = none ∧ Loud before r.2

theorem Follows.of_calm {r : Bool × LockState} (h : Calm before r.2) :
    Follows before (some r) (some r) := by
  intro r' heq
  cases heq
  exact .inl ⟨rfl, h⟩

section Checks

variable {search quiet : LockState → SuperKernelBaseNode → Option (Bool × LockState)}

theorem AsksFrom.follows {plan : SearchPlan} (hplan : AsksFrom g node plan ls)
    (hcalm : Calm before ls)
    (hfollows : ∀ {ls node}, Calm before ls → Follows before (search ls node) (quiet ls node))
    (hrun : ∀ {ls node r}, search ls node = some r → SearchRun dev (enterNode ls node.nodeId) r.2) :
    Follows before (plan.run search) (plan.run quiet) := by
  induction plan generalizing ls with
  | answer found ls' =>
    cases hplan
    exact Follows.of_calm hcalm
  | nullPointer => exact nofun
  | ask ls' next plan ih =>
    obtain ⟨rfl, -, hnext⟩ := hplan
    intro r h
    rw [SearchPlan.run] at h ⊢
    cases hfirst : search ls' next with
    | none => simp [hfirst] at h
    | some first =>
      obtain ⟨b, mid⟩ := first
      have hrest := hnext mid ((hrun hfirst).marks.grows _ mem_cons_self)
      rw [hfirst] at h
      rcases hfollows hcalm _ hfirst with ⟨hquiet, hmid⟩ | ⟨hquiet, hloud⟩
      · rw [hquiet]
        cases b with
        | true => exact Follows.of_calm hmid r h
        | false => exact ih mid hrest hmid r h
      · rw [hquiet]
        refine .inr ⟨rfl, ?_⟩
        cases b with
        | true =>
          cases h
          exact hloud
        | false => exact hloud.run (hrest.run hrun h)

/-- The checks of a node, where the quiet search gives up before it would raise a limit. -/
theorem checkPlan_follows (hpre : node ∈ g.nodes) (hcalm : Calm before ls)
    (hfollows : ∀ {ls node}, Calm before ls → Follows before (search ls node) (quiet ls node))
    (hrun : ∀ {ls node r}, search ls node = some r → SearchRun dev (enterNode ls node.nodeId) r.2) :
    Follows before ((checkPlan g dev ls node).run search)
      (if (node.nodeType = .nodeKernel ∨ node.nodeType = .nodeNotify) ∧ raisesLimits dev ls node = true
        then none else (checkPlan g dev ls node).run quiet) := by
  have hasks : AsksFrom g node (checkPlan g dev ls node) (accountNode dev ls node) :=
    asksFrom_checkPlan hpre
  split
  · next hraises =>
    have hover := (raisesLimits_iff.mp hraises.2).1
    have haccount : accountNode dev ls node = (hasEnoughCores dev ls node false).2 := by
      unfold accountNode
      rcases hraises.1 with htype | htype
      · rw [htype]
      · rw [htype]
        exact if_pos (by omega)
    rw [haccount] at hasks
    intro r h
    exact .inr ⟨rfl, (hcalm.raises hraises.2).run (hasks.run hrun h)⟩
  · next hquiet =>
    have haccount : accountNode dev ls node = ls := by
      by_cases hraises : raisesLimits dev ls node = true
      · unfold accountNode
        split
        · next htype => exact absurd ⟨.inl htype, hraises⟩ hquiet
        · next htype => exact absurd ⟨.inr htype, hraises⟩ hquiet
        · rfl
      · rcases @accountNode_cases dev ls node with heq | heq
        · exact heq
        · exact heq.trans (hasEnoughCores_quiet (Bool.eq_false_iff.mpr hraises))
    rw [haccount] at hasks
    exact hasks.follows hcalm hfollows hrun

end Checks

theorem hasDeadlock_follows {fuel : ℕ}
    (hcalm : node.nodeId ∉ before.visited → Calm before (enterNode ls node.nodeId)) :
    Follows before (hasDeadlock g dev fuel ls node)
      (quietDeadlock g dev before.visited fuel ls node) := by
  induction fuel generalizing ls node with
  | zero =>
    intro r h
    cases h
  | succ fuel ih =>
    by_cases hvisited : node.nodeId ∈ before.visited
    · -- the node was visited before, and the rollback will list it
      intro r h
      have htemp := (hasDeadlock_enter_run h).marks.temp node.nodeId
        (mem_append_right _ mem_cons_self)
      refine .inr ⟨?_, .inr (.inr ⟨node.nodeId, htemp, hvisited⟩)⟩
      unfold quietDeadlock
      rw [if_pos hvisited]
    have hfollows : ∀ {ls node}, Calm before ls → Follows before (hasDeadlock g dev fuel ls node)
        (quietDeadlock g dev before.visited fuel ls node) := by
      intro ls node hls
      refine ih fun hnew => ⟨hls.depOpCubeNum, hls.depOpVecNum, ?_⟩
      intro i hi
      rcases mem_append.mp hi with hi | hi
      · exact hls.temp i hi
      · rw [mem_singleton.mp hi]
        exact hnew
    have hentered := hcalm hvisited
    unfold hasDeadlock quietDeadlock
    rw [if_neg hvisited]
    unfold enterNode at hentered ⊢
    dsimp only
    cases hpre : node.preNodeId.bind g.getNodeById with
    | none => exact Follows.of_calm hentered
    | some preNode =>
      dsimp only
      split
      · exact Follows.of_calm hentered
      · split
        · exact Follows.of_calm hentered
        · obtain ⟨_, _, hget⟩ := Option.bind_eq_some_iff.mp hpre
          have hmem := (SuperKernelGraph.getNodeById_some hget).1
          have hchecks := checkPlan_follows hmem hentered hfollows hasDeadlock_enter_run
          rw [run_checkPlan, run_checkPlan] at hchecks
          cases htype : preNode.nodeType <;>
            simp only [htype, reduceCtorEq, or_self, or_false, or_true, true_and, false_and, if_false]
              at hchecks <;>
            exact hchecks

/-! ## A rejected node -/

/-- A search leaves everything but the limits of the kernels outside and the marks alone. -/
structure SearchFrame (ls ls' : LockState) : Prop where
  superKernelCubeNum : ls'.superKernelCubeNum = ls.superKernelCubeNum
  superKernelVecNum : ls'.superKernelVecNum = ls.superKernelVecNum
  skStreamIds : ls'.skStreamIds = ls.skStreamIds
  skRangeInStream : ls'.skRangeInStream = ls.skRangeInStream
  nodeNum : ls'.nodeNum = ls.nodeNum
  kernelNodeNum : ls'.kernelNodeNum = ls.kernelNodeNum

theorem hasEnoughCores_frame : SearchFrame ls (hasEnoughCores dev ls node false).2 := by
  unfold hasEnoughCores
  simp only [Bool.false_eq_true, if_false]
  split
  · exact ⟨rfl, rfl, rfl, rfl, rfl, rfl⟩
  · split
    · exact ⟨rfl, rfl, rfl, rfl, rfl, rfl⟩
    · exact ⟨rfl, rfl, rfl, rfl, rfl, rfl⟩

theorem SearchFrame.trans {mid : LockState} (h : SearchFrame ls mid) (h' : SearchFrame mid ls') :
    SearchFrame ls ls' :=
  ⟨h'.superKernelCubeNum.trans h.superKernelCubeNum, h'.superKernelVecNum.trans h.superKernelVecNum,
    h'.skStreamIds.trans h.skStreamIds, h'.skRangeInStream.trans h.skRangeInStream,
    h'.nodeNum.trans h.nodeNum, h'.kernelNodeNum.trans h.kernelNodeNum⟩

theorem SearchRun.frame (h : SearchRun dev ls ls') : SearchFrame ls ls' := by
  induction h with
  | refl => exact ⟨rfl, rfl, rfl, rfl, rfl, rfl⟩
  | tail _ hstep ih =>
    cases hstep with
    | enter nodeId => exact ih.trans ⟨rfl, rfl, rfl, rfl, rfl, rfl⟩
    | account node => exact ih.trans hasEnoughCores_frame
    | remember nodeId => exact ih.trans ⟨rfl, rfl, rfl, rfl, rfl, rfl⟩

variable {found : LockState}

/-- After the rollback of a search without a trace, the detector is as before. -/
theorem Calm.rollback (hrun : SearchRun dev { ls with tempVisitedNodes := [] } found)
    (h : Calm ls found) : SameDetector ls found.rollbackTempVisited := by
  have hframe := hrun.frame
  have hmarks := hrun.marks
  refine ⟨hframe.superKernelCubeNum, hframe.superKernelVecNum, h.depOpCubeNum, h.depOpVecNum,
    hframe.skStreamIds, hframe.skRangeInStream, hframe.nodeNum, hframe.kernelNodeNum, ?_⟩
  intro i
  constructor
  · intro hi
    obtain ⟨hfound, hrolled⟩ := mem_filter.mp hi
    exact (hmarks.visited i hfound).resolve_right (by simpa using hrolled)
  · intro hi
    refine mem_filter.mpr ⟨hmarks.grows i hi, ?_⟩
    have htemp : i ∉ found.tempVisitedNodes := fun htemp => h.temp i htemp hi
    simpa using htemp

theorem Loud.rollback (h : Loud ls found) : ¬SameDetector ls found.rollbackTempVisited := by
  intro hsame
  have hcube : found.depOpCubeNum = ls.depOpCubeNum := hsame.depOpCubeNum
  have hvec : found.depOpVecNum = ls.depOpVecNum := hsame.depOpVecNum
  rcases h with hlt | hlt | ⟨i, htemp, hvisited⟩
  · omega
  · omega
  · -- the mark of the earlier visit is taken back
    have hkept := (mem_filter.mp ((hsame.visited i).mpr hvisited)).2
    simp [htemp] at hkept

theorem hasEnoughCores_fst : (hasEnoughCores dev ls node false).1 = decide
    ((ls.getCubeNum node ≤ ls.depOpCubeNum ∧ ls.getVecNum node ≤ ls.depOpVecNum) ∨
      (ls.getCubeNum node ≤ (getAvailableCores dev ls false).1 ∧
        ls.getVecNum node ≤ (getAvailableCores dev ls false).2)) := by
  unfold hasEnoughCores
  simp only [Bool.false_eq_true, if_false]
  split
  · next hwithin => exact (decide_eq_true (.inl hwithin)).symm
  · next hover =>
    split
    · next hfit => exact (decide_eq_true (.inr hfit)).symm
    · next hfit => exact (decide_eq_false (not_or.mpr ⟨hover, hfit⟩)).symm

/-- The answer of `HasEnoughCores` does not depend on the nodes that the search entered. -/
theorem hasEnoughCores_temp {temp : List NodeId} {enough : Bool} {mid : LockState}
    (h : hasEnoughCores dev { ls with tempVisitedNodes := temp } node false = (enough, mid)) :
    (hasEnoughCores dev ls node false).1 = enough := by
  have hanswer := @hasEnoughCores_fst dev { ls with tempVisitedNodes := temp } node
  rw [h] at hanswer
  exact hasEnoughCores_fst.trans hanswer.symm

/-- A search from a NOTIFY is calm iff the NOTIFY raises no limit and the quiet search goes through.
Before it, the NOTIFY was counted and at most itself remembered. -/
theorem hasDeadlock_start_follows {start : LockState} {temp : List NodeId} {r : Bool × LockState}
    (htemp : ∀ i ∈ temp, i = node.nodeId) (h : hasDeadlock g dev fuel start node = some r)
    (hstart : raisesLimits dev ls node = true ∧ Loud ls start ∨
      raisesLimits dev ls node = false ∧ start = { ls with tempVisitedNodes := temp }) :
    (!raisesLimits dev ls node && (quietDeadlock g dev ls.visited fuel
        { ls with tempVisitedNodes := temp } node).isSome) = true ∧ Calm ls r.2 ∨
      (!raisesLimits dev ls node && (quietDeadlock g dev ls.visited fuel
        { ls with tempVisitedNodes := temp } node).isSome) = false ∧ Loud ls r.2 := by
  rcases hstart with ⟨hraises, hloud⟩ | ⟨hraises, rfl⟩
  · rw [hraises]
    exact .inr ⟨rfl, hloud.run (hasDeadlock_run h)⟩
  have hcalm : node.nodeId ∉ ls.visited →
      Calm ls (enterNode { ls with tempVisitedNodes := temp } node.nodeId) := by
    intro hnew
    refine ⟨rfl, rfl, fun i hi => ?_⟩
    rcases mem_append.mp hi with hi | hi
    · rw [htemp i hi]
      exact hnew
    · rw [mem_singleton.mp hi]
      exact hnew
  rcases hasDeadlock_follows hcalm r h with ⟨hquiet, hcalm⟩ | ⟨hquiet, hloud⟩
  · rw [hraises, hquiet]
    exact .inl ⟨rfl, hcalm⟩
  · rw [hraises, hquiet]
    exact .inr ⟨rfl, hloud⟩

/-- The rejection of a WAIT is calm or loud, as `keepsDetector` says. -/
theorem getWaitNodeFusibleStatus_follows (htype : node.nodeType = .nodeWait)
    (hbypass : shouldBypassValueWaitDeadlock valueBreakerBypass node = false)
    (h : getWaitNodeFusibleStatus g dev fuel { ls with tempVisitedNodes := [] } node =
      some (false, found)) :
    keepsDetector g dev valueBreakerBypass fuel ls node = true ∧ Calm ls found ∨
      keepsDetector g dev valueBreakerBypass fuel ls node = false ∧ Loud ls found := by
  have hnone : Calm ls { ls with tempVisitedNodes := [] } :=
    ⟨rfl, rfl, fun i hi => absurd hi not_mem_nil⟩
  unfold keepsDetector searchStart
  rw [if_pos ⟨htype, hbypass⟩]
  unfold getWaitNodeFusibleStatus at h
  cases hnotify : node.syncInfos.correspondingNotifyNodeId.bind g.getNodeById with
  | none =>
    rw [hnotify] at h
    cases h
    exact .inl ⟨rfl, hnone⟩
  | some notifyNode =>
    rw [hnotify] at h
    dsimp only at h
    split at h
    · next hnum =>
      cases h
      rw [Option.filter_some, if_neg (by simp [hnum])]
      exact .inl ⟨rfl, hnone⟩
    · next hnum =>
      split at h
      · next hstream =>
        have hin : ls.isInSKStream notifyNode = true := hstream
        rw [Option.filter_some, if_neg (by simp [hin])]
        obtain ⟨-, rfl⟩ := Prod.mk.inj (Option.some.inj h)
        exact .inl ⟨rfl, hnone⟩
      · next hstream =>
        have hout : ls.isInSKStream notifyNode = false := Bool.eq_false_iff.mpr hstream
        split at h
        · simp at h
        · next hinter =>
          rw [Option.filter_some, if_pos (by simp [hnum, hout, hinter])]
          dsimp only
          by_cases hneed : 0 < ls.getCubeNum notifyNode ∨ 0 < ls.getVecNum notifyNode
          · have hneed' : 0 < LockState.getCubeNum { ls with tempVisitedNodes := [] } notifyNode ∨
                0 < LockState.getVecNum { ls with tempVisitedNodes := [] } notifyNode := hneed
            simp only [if_pos hneed'] at h
            cases hcores : hasEnoughCores dev { ls with tempVisitedNodes := [] } notifyNode false with
            | mk enough mid =>
              rw [hcores] at h
              rw [hasEnoughCores_temp hcores, if_pos hneed]
              cases enough with
              | false =>
                -- the NOTIFY does not fit: there is no search
                cases hasEnoughCores_refused hcores
                rw [if_pos ⟨hneed, rfl⟩]
                cases h
                exact .inl ⟨rfl, hnone⟩
              | true =>
                rw [if_neg (by simp)]
                simp only [if_true, Option.map_eq_some_iff] at h
                obtain ⟨r, hr, heq⟩ := h
                obtain ⟨-, rfl⟩ := Prod.mk.inj heq
                refine hasDeadlock_start_follows (by simp) hr ?_
                cases hraises : raisesLimits dev ls notifyNode with
                | true =>
                  have hloud : Loud ls (hasEnoughCores dev { ls with tempVisitedNodes := [] } notifyNode
                      false).2 := hnone.raises hraises
                  rw [hcores] at hloud
                  have hrun : SearchRun dev mid _ :=
                    ReflTransGen.single (SearchStep.remember mid notifyNode.nodeId)
                  exact .inl ⟨rfl, hloud.run hrun⟩
                | false =>
                  have hsame : (hasEnoughCores dev { ls with tempVisitedNodes := [] } notifyNode
                      false).2 = _ := hasEnoughCores_quiet hraises
                  rw [hcores] at hsame
                  cases hsame
                  exact .inr ⟨rfl, rfl⟩
          · have hneed' : ¬(0 < LockState.getCubeNum { ls with tempVisitedNodes := [] } notifyNode ∨
                0 < LockState.getVecNum { ls with tempVisitedNodes := [] } notifyNode) := hneed
            simp only [if_neg hneed', if_true, Option.map_eq_some_iff] at h
            rw [if_neg fun h => hneed h.1, if_neg hneed]
            obtain ⟨r, hr, heq⟩ := h
            obtain ⟨-, rfl⟩ := Prod.mk.inj heq
            refine hasDeadlock_start_follows (by simp) hr (.inr ⟨?_, rfl⟩)
            refine Bool.eq_false_iff.mpr fun hraises => ?_
            have hover := (raisesLimits_iff.mp hraises).1
            omega

/-- A rejected node leaves the detector as it was, with the visited flags of all nodes, iff it
started no search or only a quiet one. -/
theorem isFusible_rejected_iff
    (h : isFusible g dev valueBreakerBypass fuel ls node = some (false, ls')) :
    SameDetector ls ls' ↔ keepsDetector g dev valueBreakerBypass fuel ls node = true := by
  have hnoStart : node.nodeType ≠ .nodeWait →
      keepsDetector g dev valueBreakerBypass fuel ls node = true := by
    intro htype
    rw [keepsDetector, searchStart, if_neg fun h => htype h.1]
  rcases isFusible_cases h with ⟨-, htrue, -⟩ | ⟨-, mid, hstatus, hls'⟩
  · simp at htrue
  cases hls'
  unfold getFusibleStatus at hstatus
  split at hstatus
  · next htype =>
    obtain ⟨-, rfl⟩ := Prod.mk.inj (Option.some.inj hstatus)
    exact iff_of_true SameDetector.refl (hnoStart (by simp [htype]))
  · next htype =>
    split at hstatus
    · simp at hstatus
    · next hbypass =>
      have hsearched : shouldBypassValueWaitDeadlock valueBreakerBypass node = false :=
        Bool.eq_false_iff.mpr hbypass
      split at hstatus
      · cases hstatus
      · simp at hstatus
      · next found heq =>
        cases hstatus
        rcases getWaitNodeFusibleStatus_follows htype hsearched heq with ⟨hkeeps, hcalm⟩ |
          ⟨hkeeps, hloud⟩
        · exact iff_of_true (hcalm.rollback (getWaitNodeFusibleStatus_run heq)) hkeeps
        · exact iff_of_false hloud.rollback (by simp [hkeeps])
  · next htype =>
    cases hasEnoughCores_refused (Option.some.inj hstatus)
    exact iff_of_true SameDetector.refl (hnoStart (by simp [htype]))
  · simp at hstatus
  · simp at hstatus
  · next hother =>
    cases hstatus
    exact iff_of_true SameDetector.refl (hnoStart fun htype => by simp_all)

theorem crossStreams_kept : ∃ ls ls',
    isFusible (crossStreams .nodeMemoryWait) ⟨8, 8⟩ 0 9 ls (crossNode .nodeMemoryWait 1) =
      some (false, ls') ∧
    (SameDetector ls ls' ↔ keepsDetector (crossStreams .nodeMemoryWait) ⟨8, 8⟩ 0 9 ls
      (crossNode .nodeMemoryWait 1) = true) :=
  ⟨{}, _, rfl, isFusible_rejected_iff rfl⟩

/-- The search from the WAIT counts the larger kernel before it meets a node it cannot pass. The
WAIT is rejected, and the limit of the kernels outside stays at three cores. -/
theorem crossStreams_raised : ∃ ls accepted ls',
    LockReached (crossStreams .nodeMemoryWait) ⟨8, 8⟩ 0 9 ls accepted ∧
    isFusible (crossStreams .nodeMemoryWait) ⟨8, 8⟩ 0 9 ls (crossNode .nodeMemoryWait 1) =
      some (false, ls') ∧
    ¬SameDetector ls ls' := by
  have hstart := @LockReached.init (crossStreams .nodeMemoryWait) ⟨8, 8⟩ 0 9 {} ⟨rfl, rfl⟩ ⟨rfl, rfl⟩
  have hkernel := @LockReached.isFusible _ _ _ _ _ _ _ (crossNode .nodeMemoryWait 0) true hstart rfl
  refine ⟨_, _, _, hkernel, rfl, fun hsame => ?_⟩
  have hlimit := hsame.depOpCubeNum
  exact absurd hlimit (by decide)

end GraphAutofusion.SuperKernel
