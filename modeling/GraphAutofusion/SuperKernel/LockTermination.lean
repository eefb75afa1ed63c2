import GraphAutofusion.SuperKernel.LockCalls

/-!
# SuperKernel.LockTermination — the backward search ends

A graph with fewer nodes than the fuel is searched to the end: with finitely many calls, and with an
answer when the WAITs of the NOTIFYs are nodes.
-/

namespace GraphAutofusion.SuperKernel

variable {g : SuperKernelGraph} {dev : DeviceCores} {ls : LockState} {node : SuperKernelBaseNode}
  {valueBreakerBypass fuel : ℕ}

/-- The search ends when the fuel covers the nodes left after entering the first one. -/
theorem hasDeadlock_ends (hwaits : WaitsResolve g)
    (hfuel : unvisitedNum g (enterNode ls node.nodeId) < fuel) :
    ∃ r, hasDeadlock g dev fuel ls node = some r :=
  Option.ne_none_iff_exists'.mp fun hnone =>
    (@hasDeadlock_sameCalls g dev ls node fuel fuel hfuel hfuel).2.1 hnone hwaits

/-- `HasDeadlock` makes finitely many calls in every graph and for any visited nodes: the fuel changes
neither their number nor the answer, and one that returns has entered as many nodes. -/
theorem hasDeadlock_finitely_many_calls (g : SuperKernelGraph) (dev : DeviceCores) (ls : LockState)
    (node : SuperKernelBaseNode) : ∃ n, ∀ extra,
      callNum g dev (g.nodes.length + 1 + extra) ls node = some n ∧
        hasDeadlock g dev (g.nodes.length + 1 + extra) ls node =
          hasDeadlock g dev (g.nodes.length + 1) ls node ∧
        ∀ r, hasDeadlock g dev (g.nodes.length + 1) ls node = some r →
          r.2.tempVisitedNodes.length = ls.tempVisitedNodes.length + n := by
  have hfuel : ∀ extra, unvisitedNum g (enterNode ls node.nodeId) < g.nodes.length + 1 + extra := by
    intro extra
    have := @unvisitedNum_le_length g (enterNode ls node.nodeId)
    omega
  obtain ⟨-, -, n, hn, -, hlen⟩ := @hasDeadlock_sameCalls g dev ls node _ _ (hfuel 0) (hfuel 0)
  refine ⟨n, fun extra => ?_⟩
  obtain ⟨hsame, -, k, hk, hk', -⟩ := @hasDeadlock_sameCalls g dev ls node _ _ (hfuel extra) (hfuel 0)
  obtain rfl : k = n := Option.some_injective _ (hk'.symm.trans hn)
  exact ⟨hk, hsame, hlen⟩

theorem isFusible_ends (hwaits : WaitsResolve g) (hfuel : g.nodes.length < fuel) :
    ∃ r, isFusible g dev valueBreakerBypass fuel ls node = some r := by
  have hsearch : ∀ ls node, ∃ r, hasDeadlock g dev fuel ls node = some r := fun ls node =>
    hasDeadlock_ends hwaits (lt_of_le_of_lt unvisitedNum_le_length hfuel)
  have hwait : ∀ ls node, ∃ r, getWaitNodeFusibleStatus g dev fuel ls node = some r := by
    intro ls node
    unfold getWaitNodeFusibleStatus
    split
    · exact ⟨_, rfl⟩
    · next notifyNode _ =>
      split
      · exact ⟨_, rfl⟩
      · split
        · exact ⟨_, rfl⟩
        · split
          · exact ⟨_, rfl⟩
          · dsimp only
            split
            · split
              · obtain ⟨r, hr⟩ := hsearch _ notifyNode
                exact ⟨_, by rw [hr]; rfl⟩
              · exact ⟨_, rfl⟩
            · obtain ⟨r, hr⟩ := hsearch ls notifyNode
              exact ⟨_, by rw [if_pos rfl, hr]; rfl⟩
  have hstatus : ∃ r, getFusibleStatus g dev valueBreakerBypass fuel ls node = some r := by
    unfold getFusibleStatus
    split
    · exact ⟨_, rfl⟩
    · split
      · exact ⟨_, rfl⟩
      · obtain ⟨⟨b, mid⟩, hr⟩ := hwait { ls with tempVisitedNodes := [] } node
        rw [hr]
        cases b with
        | true => exact ⟨_, rfl⟩
        | false => exact ⟨_, rfl⟩
    · exact ⟨_, rfl⟩
    · exact ⟨_, rfl⟩
    · exact ⟨_, rfl⟩
    · exact ⟨_, rfl⟩
  unfold isFusible
  split
  · exact ⟨_, rfl⟩
  · obtain ⟨⟨b, mid⟩, hr⟩ := hstatus
    rw [hr]
    cases b with
    | true => exact ⟨_, rfl⟩
    | false => exact ⟨_, rfl⟩

end GraphAutofusion.SuperKernel
