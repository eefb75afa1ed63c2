import GraphAutofusion.SuperKernel.LockDetector

/-!
# SuperKernel.LockPlan — one call of the backward search

What one call of `HasDeadlock` does, as a plan that asks for further calls. A plan accounts for the cores
of a node before anything else, and leaves the detector to the calls it asks for.
-/

namespace GraphAutofusion.SuperKernel

/-- The first step of `HasDeadlock`. -/
def enterNode (ls : LockState) (nodeId : NodeId) : LockState :=
  { ls.setVisited nodeId with tempVisitedNodes := ls.tempVisitedNodes ++ [nodeId] }

/-- An answer, or a null pointer, or a further call: a deadlock that it finds is the answer, else the
plan goes on. -/
inductive SearchPlan where
  | answer (found : Bool) (ls : LockState)
  | nullPointer
  | ask (ls : LockState) (node : SuperKernelBaseNode) (next : LockState → SearchPlan)

namespace SearchPlan

def run (search : LockState → SuperKernelBaseNode → Option (Bool × LockState)) :
    SearchPlan → Option (Bool × LockState)
  | answer found ls => some (found, ls)
  | nullPointer => none
  | ask ls node next =>
    match search ls node with
    | none => none
    | some (true, ls) => some (true, ls)
    | some (false, ls) => (next ls).run search

end SearchPlan

open SearchPlan

section Plans

variable (g : SuperKernelGraph) (dev : DeviceCores)

/-- The loop of `CheckNotifyNodeDeadlock`. -/
def notifyPlan (preNode : SuperKernelBaseNode) : List NodeId → LockState → SearchPlan
  | [], ls => answer false ls
  | waitId :: rest, ls =>
    match g.getNodeById waitId with
    | none => nullPointer
    | some waitNode =>
      if ls.isBeforeSKRange waitNode then answer false ls
      else ask ls preNode (notifyPlan preNode rest)

/-- `CheckWaitNodeDeadlock`. -/
def waitPlan (ls : LockState) (preNode : SuperKernelBaseNode) : SearchPlan :=
  match preNode.syncInfos.correspondingNotifyNodeId.bind g.getNodeById with
  | none => answer true ls
  | some notifyNode =>
    if ls.isAfterSKRange notifyNode then answer true ls
    else ask ls preNode fun ls =>
      if notifyNode.streamIdxInGraph ≠ preNode.streamIdxInGraph ∧ !ls.isInSKStream notifyNode then
        ask ls notifyNode (answer false)
      else answer false ls

/-- The checks of a node that is neither visited nor fused. -/
def checkPlan (ls : LockState) (preNode : SuperKernelBaseNode) : SearchPlan :=
  let cores := hasEnoughCores dev ls preNode false
  match preNode.nodeType with
  | .nodeKernel => if cores.1 then ask cores.2 preNode (answer false) else answer true cores.2
  | .nodeWait => waitPlan g ls preNode
  | .nodeNotify =>
    let waitIds := preNode.syncInfos.correspondingWaitNodeIds
    if 0 < ls.getCubeNum preNode ∨ 0 < ls.getVecNum preNode then
      if cores.1 then notifyPlan g preNode waitIds cores.2 else answer true cores.2
    else notifyPlan g preNode waitIds ls
  | .nodeDefault => ask ls preNode (answer false)
  | .nodeReset => ask ls preNode (answer false)
  | _ => answer true ls

/-- `HasDeadlock`. -/
def searchPlan (ls : LockState) (curNode : SuperKernelBaseNode) : SearchPlan :=
  let ls := enterNode ls curNode.nodeId
  match curNode.preNodeId.bind g.getNodeById with
  | none => answer false ls
  | some preNode =>
    if preNode.nodeId ∈ ls.visited then answer false ls
    else if hasIntersection (ls.scopeStreamIds preNode.nodeId) ls.skStreamIds then answer false ls
    else checkPlan g dev ls preNode

end Plans

variable {g : SuperKernelGraph} {dev : DeviceCores} {ls : LockState} {node preNode : SuperKernelBaseNode}
  {search : LockState → SuperKernelBaseNode → Option (Bool × LockState)} {fuel : ℕ}

/-! ## The plans are those of the code -/

theorem run_ask_answer : (ask ls node (answer false)).run search = search ls node := by
  rw [run]
  split
  · next h => exact h.symm
  · next h => exact h.symm
  · next h => exact h.symm

theorem run_notifyPlan (waitIds : List NodeId) :
    (notifyPlan g preNode waitIds ls).run search = checkNotifyWaits g search preNode waitIds ls := by
  induction waitIds generalizing ls with
  | nil => rfl
  | cons waitId rest ih =>
    rw [notifyPlan, checkNotifyWaits]
    cases g.getNodeById waitId with
    | none => rfl
    | some waitNode =>
      dsimp only
      by_cases hbefore : ls.isBeforeSKRange waitNode
      · rw [if_pos hbefore, if_pos hbefore, run]
      · rw [if_neg hbefore, if_neg hbefore, run]
        rcases search ls preNode with _ | ⟨_ | _, mid⟩
        · rfl
        · exact ih
        · rfl

theorem run_waitPlan : (waitPlan g ls preNode).run search = checkWaitNodeDeadlock g search ls preNode := by
  unfold waitPlan checkWaitNodeDeadlock
  cases preNode.syncInfos.correspondingNotifyNodeId.bind g.getNodeById with
  | none => rfl
  | some notifyNode =>
    dsimp only
    by_cases hafter : ls.isAfterSKRange notifyNode
    · rw [if_pos hafter, if_pos hafter, run]
    · rw [if_neg hafter, if_neg hafter, run]
      rcases search ls preNode with _ | ⟨_ | _, mid⟩
      · rfl
      · dsimp only
        split
        · exact run_ask_answer
        · rfl
      · rfl

theorem run_checkPlan : (checkPlan g dev ls preNode).run search =
    match preNode.nodeType with
    | .nodeKernel => checkKernelNodeDeadlock dev search ls preNode
    | .nodeWait => checkWaitNodeDeadlock g search ls preNode
    | .nodeNotify => checkNotifyNodeDeadlock g dev search ls preNode
    | .nodeDefault => search ls preNode
    | .nodeReset => search ls preNode
    | _ => some (true, ls) := by
  unfold checkPlan checkKernelNodeDeadlock checkNotifyNodeDeadlock
  rcases hasEnoughCores dev ls preNode false with ⟨enough, mid⟩
  cases preNode.nodeType with
  | nodeKernel =>
    cases enough with
    | true => exact run_ask_answer
    | false => rfl
  | nodeWait => exact run_waitPlan
  | nodeNotify =>
    dsimp only
    by_cases hneed : 0 < ls.getCubeNum preNode ∨ 0 < ls.getVecNum preNode
    · rw [if_pos hneed, if_pos hneed]
      cases enough with
      | true => exact run_notifyPlan _
      | false => rfl
    · rw [if_neg hneed, if_neg hneed]
      exact run_notifyPlan _
  | nodeDefault => exact run_ask_answer
  | nodeReset => exact run_ask_answer
  | _ => rfl

theorem hasDeadlock_succ :
    hasDeadlock g dev (fuel + 1) ls node = (searchPlan g dev ls node).run (hasDeadlock g dev fuel) := by
  rw [hasDeadlock, searchPlan]
  cases node.preNodeId.bind g.getNodeById with
  | none => rfl
  | some preNode =>
    dsimp only
    split
    · next hseen =>
      refine Eq.trans ?_ (congrArg (run _) (if_pos hseen)).symm
      rfl
    · next hnew =>
      refine Eq.trans ?_ (congrArg (run _) (if_neg hnew)).symm
      split
      · next hfused =>
        refine Eq.trans ?_ (congrArg (run _) (if_pos hfused)).symm
        rfl
      · next hfree => exact run_checkPlan.symm.trans (congrArg (run _) (if_neg hfree)).symm

/-! ## Where the plans ask -/

/-- The WAITs that the NOTIFYs name are nodes of the graph. -/
def WaitsResolve (g : SuperKernelGraph) : Prop :=
  ∀ x ∈ g.nodes, ∀ w ∈ x.syncInfos.correspondingWaitNodeIds, ∃ waitNode, g.getNodeById w = some waitNode

/-- The plan asks for `preNode`, or once `preNode` is visited, and it changes nothing itself. -/
def AsksFrom (g : SuperKernelGraph) (preNode : SuperKernelBaseNode) : SearchPlan → LockState → Prop
  | answer _ ls', ls => ls' = ls
  | nullPointer, _ => ¬ WaitsResolve g
  | ask ls' node next, ls =>
    ls' = ls ∧ (preNode.nodeId = node.nodeId ∨ preNode.nodeId ∈ ls.visited) ∧
      ∀ mid, node.nodeId ∈ mid.visited → AsksFrom g preNode (next mid) mid

/-- The check of a kernel, or of a NOTIFY that needs cores, accounts for the node first. -/
def accountNode (dev : DeviceCores) (ls : LockState) (preNode : SuperKernelBaseNode) : LockState :=
  match preNode.nodeType with
  | .nodeKernel => (hasEnoughCores dev ls preNode false).2
  | .nodeNotify =>
    if 0 < ls.getCubeNum preNode ∨ 0 < ls.getVecNum preNode then (hasEnoughCores dev ls preNode false).2
    else ls
  | _ => ls

theorem accountNode_cases :
    accountNode dev ls preNode = ls ∨
      accountNode dev ls preNode = (hasEnoughCores dev ls preNode false).2 := by
  unfold accountNode
  split
  · exact .inr rfl
  · exact (ite_eq_or_eq _ _ _).symm
  · exact .inl rfl

theorem asksFrom_ask_answer : AsksFrom g preNode (ask ls preNode (answer false)) ls :=
  ⟨rfl, .inl rfl, fun _ _ => rfl⟩

theorem asksFrom_notifyPlan {waitIds : List NodeId}
    (hwaits : ∀ w ∈ waitIds, g.getNodeById w = none → ¬ WaitsResolve g) :
    AsksFrom g preNode (notifyPlan g preNode waitIds ls) ls := by
  induction waitIds generalizing ls with
  | nil => rfl
  | cons waitId rest ih =>
    obtain ⟨hwait, hwaits⟩ := List.forall_mem_cons.mp hwaits
    rw [notifyPlan]
    split
    · next hnone => exact hwait hnone
    · split
      · rfl
      · exact ⟨rfl, .inl rfl, fun _ _ => ih hwaits⟩

theorem asksFrom_waitPlan : AsksFrom g preNode (waitPlan g ls preNode) ls := by
  unfold waitPlan
  split
  · rfl
  · split
    · rfl
    · refine ⟨rfl, .inl rfl, fun mid hentered => ?_⟩
      dsimp only
      split
      · exact ⟨rfl, .inr hentered, fun _ _ => rfl⟩
      · rfl

theorem asksFrom_checkPlan (hpre : preNode ∈ g.nodes) :
    AsksFrom g preNode (checkPlan g dev ls preNode) (accountNode dev ls preNode) := by
  have hwaits : ∀ w ∈ preNode.syncInfos.correspondingWaitNodeIds, g.getNodeById w = none →
      ¬ WaitsResolve g := by
    intro w hw hnone hresolve
    obtain ⟨waitNode, hwait⟩ := hresolve preNode hpre w hw
    simp [hnone] at hwait
  unfold checkPlan accountNode
  cases preNode.nodeType with
  | nodeKernel =>
    dsimp only
    split
    · exact asksFrom_ask_answer
    · rfl
  | nodeWait => exact asksFrom_waitPlan
  | nodeNotify =>
    dsimp only
    split
    · split
      · exact asksFrom_notifyPlan hwaits
      · rfl
    · exact asksFrom_notifyPlan hwaits
  | nodeDefault => exact asksFrom_ask_answer
  | nodeReset => exact asksFrom_ask_answer
  | _ => rfl

end GraphAutofusion.SuperKernel
