import GraphAutofusion.SuperKernel.LockMarks

/-!
# SuperKernel.LockCalls — the calls of the backward search

Every call that a plan asks for comes after one more node was visited, so the calls of a search are
counted, also where the program stops at the null pointer of a WAIT that is no node of the graph.
-/

namespace GraphAutofusion.SuperKernel

open SearchPlan Option

/-- The calls of the plan, where `num` counts those of each call it asks for. -/
def SearchPlan.count (search : LockState → SuperKernelBaseNode → Option (Bool × LockState))
    (num : LockState → SuperKernelBaseNode → Option ℕ) : SearchPlan → Option ℕ
  | answer _ _ => some 0
  | nullPointer => some 0
  | ask ls node next =>
    match num ls node, search ls node with
    | none, _ => none
    | some n, some (false, ls) => ((next ls).count search num).map (n + ·)
    | some n, _ => some n

/-- All calls of a search, itself included; `none` if some are nested deeper than `fuel`. -/
def callNum (g : SuperKernelGraph) (dev : DeviceCores) : ℕ → LockState → SuperKernelBaseNode → Option ℕ
  | 0, _, _ => none
  | fuel + 1, ls, curNode =>
    ((searchPlan g dev ls curNode).count (hasDeadlock g dev fuel) (callNum g dev fuel)).map (· + 1)

variable {g : SuperKernelGraph} {dev : DeviceCores} {ls ls' : LockState} {node preNode : SuperKernelBaseNode}
  {search : LockState → SuperKernelBaseNode → Option (Bool × LockState)} {fuel : ℕ}

/-- The nodes that the search can still enter. -/
def unvisitedNum (g : SuperKernelGraph) (ls : LockState) : ℕ :=
  g.nodes.countP fun n => n.nodeId ∉ ls.visited

theorem unvisitedNum_le_length : unvisitedNum g ls ≤ g.nodes.length := List.countP_le_length

/-- Visiting one more node leaves fewer. -/
theorem unvisitedNum_lt {x : SuperKernelBaseNode} (hx : x ∈ g.nodes) (hnew : x.nodeId ∉ ls.visited)
    (hgrows : ∀ i ∈ ls.visited, i ∈ ls'.visited) (hvisited : x.nodeId ∈ ls'.visited) :
    unvisitedNum g ls' < unvisitedNum g ls := by
  obtain ⟨front, back, hsplit⟩ := List.append_of_mem hx
  have hmono : ∀ l : List SuperKernelBaseNode, (l.countP fun n => n.nodeId ∉ ls'.visited) ≤
      l.countP fun n => n.nodeId ∉ ls.visited := by
    intro l
    refine List.countP_mono_left fun n _ hn => ?_
    have hn' : n.nodeId ∉ ls'.visited := of_decide_eq_true hn
    exact decide_eq_true fun h => hn' (hgrows _ h)
  have hfront := hmono front
  have hback := hmono back
  rw [unvisitedNum, unvisitedNum, hsplit, List.countP_append, List.countP_append,
    List.countP_cons_of_neg (by simpa using hvisited), List.countP_cons_of_pos (by simpa using hnew)]
  omega

/-! ## The calls are counted -/

/-- Two searches from `ls` agree, stop only at a WAIT that does not resolve, and make the same finite
number of calls, one for each node that the answer adds to the entered ones. -/
def SameCalls (g : SuperKernelGraph) (ls : LockState) (a b : Option (Bool × LockState))
    (m n : Option ℕ) : Prop :=
  a = b ∧ (a = none → ¬ WaitsResolve g) ∧ ∃ k, m = some k ∧ n = some k ∧
    ∀ r, a = some r → r.2.tempVisitedNodes.length = ls.tempVisitedNodes.length + k

theorem accountNode_marks : (accountNode dev ls node).visited = ls.visited ∧
    (accountNode dev ls node).tempVisitedNodes = ls.tempVisitedNodes := by
  rcases @accountNode_cases dev ls node with heq | heq
  · rw [heq]
    exact ⟨rfl, rfl⟩
  · rw [heq]
    obtain ⟨hvisited, -, htemp, -, -⟩ := @hasEnoughCores_marks dev ls node false
    exact ⟨hvisited, htemp⟩

section Counted

variable {search' : LockState → SuperKernelBaseNode → Option (Bool × LockState)}
  {num num' : LockState → SuperKernelBaseNode → Option ℕ}
  (hmarked : ∀ {ls node r}, search ls node = some r →
    (∀ i ∈ ls.visited, i ∈ r.2.visited) ∧ node.nodeId ∈ r.2.visited)

include hmarked

/-- A plan makes finitely many calls when those that it asks for do. -/
theorem AsksFrom.sameCalls {plan : SearchPlan} (hplan : AsksFrom g preNode plan ls)
    (hcalls : ∀ ls' node, (∀ i ∈ ls.visited, i ∈ ls'.visited) →
      preNode.nodeId = node.nodeId ∨ preNode.nodeId ∈ ls'.visited →
        SameCalls g ls' (search ls' node) (search' ls' node) (num ls' node) (num' ls' node)) :
    SameCalls g ls (plan.run search) (plan.run search') (plan.count search num)
      (plan.count search' num') := by
  induction plan generalizing ls with
  | answer found ls' =>
    refine ⟨rfl, by simp [SearchPlan.run], 0, rfl, rfl, fun r hr => ?_⟩
    cases hplan
    cases hr
    rfl
  | nullPointer => exact ⟨rfl, fun _ => hplan, 0, rfl, rfl, by simp [SearchPlan.run]⟩
  | ask ls' node next ih =>
    obtain ⟨rfl, hpre, hnext⟩ := hplan
    obtain ⟨hsame, hnull, k, hk, hk', hlen⟩ := hcalls ls' node (fun _ hi => hi) hpre
    simp only [SearchPlan.run, count, hk, hk', ← hsame]
    cases hr : search ls' node with
    | none => exact ⟨rfl, fun _ => hnull hr, k, rfl, rfl, by simp⟩
    | some r =>
      obtain ⟨found, mid⟩ := r
      have hmid : mid.tempVisitedNodes.length = _ := hlen _ hr
      cases found with
      | true => exact ⟨rfl, by simp, k, rfl, rfl, fun r hr => by cases hr; exact hmid⟩
      | false =>
        -- the plan goes on from `mid`, where everything visited before is still visited
        obtain ⟨hgrows, hentered⟩ := hmarked hr
        obtain ⟨hsame', hnull', k', hk, hk', hlen'⟩ := ih mid (hnext mid hentered)
          fun ls' node hls' => hcalls ls' node fun i hi => hls' i (hgrows i hi)
        refine ⟨hsame', hnull', k + k', congrArg (Option.map (k + ·)) hk,
          congrArg (Option.map (k + ·)) hk', fun r hr => ?_⟩
        have := hlen' r hr
        omega

theorem searchPlan_sameCalls
    (hcalls : ∀ ls' node', unvisitedNum g (enterNode ls' node'.nodeId) <
      unvisitedNum g (enterNode ls node.nodeId) →
        SameCalls g ls' (search ls' node') (search' ls' node') (num ls' node') (num' ls' node')) :
    SameCalls g (enterNode ls node.nodeId) ((searchPlan g dev ls node).run search)
      ((searchPlan g dev ls node).run search') ((searchPlan g dev ls node).count search num)
      ((searchPlan g dev ls node).count search' num') := by
  have hanswer : ∀ ls, SameCalls g ls (some (false, ls)) (some (false, ls)) (some 0) (some 0) :=
    fun ls => ⟨rfl, by simp, 0, rfl, rfl, fun r hr => by cases hr; rfl⟩
  unfold searchPlan
  split
  · exact hanswer _
  · next preNode hpre =>
    dsimp only
    split
    · exact hanswer _
    · next hnew =>
      split
      · exact hanswer _
      · obtain ⟨_, _, hget⟩ := bind_eq_some_iff.mp hpre
        have hmem : preNode ∈ g.nodes := (SuperKernelGraph.getNodeById_some hget).1
        obtain ⟨hvisited, htemp⟩ := @accountNode_marks dev (enterNode ls node.nodeId) preNode
        rw [SameCalls, ← htemp]
        refine (asksFrom_checkPlan hmem).sameCalls hmarked fun ls' node' hgrows hentered =>
          hcalls ls' node' (unvisitedNum_lt hmem hnew ?_ ?_)
        · intro i hi
          exact List.mem_cons_of_mem _ (hgrows i (hvisited ▸ hi))
        · rcases hentered with heq | hin
          · exact heq ▸ List.mem_cons_self
          · exact List.mem_cons_of_mem _ hin

end Counted

/-- A search marks where it starts. -/
theorem hasDeadlock_marked {r : Bool × LockState} (h : hasDeadlock g dev fuel ls node = some r) :
    (∀ i ∈ ls.visited, i ∈ r.2.visited) ∧ node.nodeId ∈ r.2.visited := by
  have hrest := (hasDeadlock_enter_run h).marks.grows
  refine ⟨?_, hrest _ List.mem_cons_self⟩
  intro i hi
  exact hrest i (List.mem_cons_of_mem _ hi)

/-- The fuel does not matter when it covers the nodes left after entering the first one. -/
theorem hasDeadlock_sameCalls {fuel' : ℕ} (hfuel : unvisitedNum g (enterNode ls node.nodeId) < fuel)
    (hfuel' : unvisitedNum g (enterNode ls node.nodeId) < fuel') :
    SameCalls g ls (hasDeadlock g dev fuel ls node) (hasDeadlock g dev fuel' ls node)
      (callNum g dev fuel ls node) (callNum g dev fuel' ls node) := by
  induction fuel generalizing fuel' ls node with
  | zero => omega
  | succ fuel ih =>
    obtain _ | fuel' := fuel'
    · omega
    · rw [hasDeadlock_succ, hasDeadlock_succ]
      -- a call leaves fewer nodes than this one has
      obtain ⟨hsame, hnull, k, hk, hk', hlen⟩ := searchPlan_sameCalls hasDeadlock_marked fun ls' node' hlt =>
        ih (hlt.trans_le (Nat.le_of_lt_succ hfuel)) (hlt.trans_le (Nat.le_of_lt_succ hfuel'))
      refine ⟨hsame, hnull, k + 1, by rw [callNum, hk]; rfl, by rw [callNum, hk']; rfl, fun r hr => ?_⟩
      rw [hlen r hr, enterNode, List.length_append]
      exact add_right_comm _ _ _

end GraphAutofusion.SuperKernel
