import GraphAutofusion.SuperKernel.ModelRI

/-!
# SuperKernel.ScopeMarks — the walk over the user's fusion scopes

`UpdateNodeScopeBitFlags` visits the nodes by ascending id with a stack of the open scopes.
A scope end closes the innermost open scope of its name and only that one, so the scopes
may interleave. A node inside an open unfusible scope is marked unfusible, and once a named
fusible scope is registered so is every node outside of all scopes. The stack also gives
each node the bit set of its fusible scopes, which `ParseOriginalScopes` groups by.
-/

namespace GraphAutofusion.SuperKernel

open List Option

/-- An open scope. Its fail reason is `CAN_FUSE` exactly when it is fusible. -/
structure ScopeStackEntry where
  scopeIdx : ℕ
  scopeName : String
  isFusible : Bool
deriving DecidableEq, Repr

/-- `std::bitset::set`, which throws on an index past the end. -/
def setScopeFlag (flags : ScopeBitFlags) (scopeIdx : ℕ) : Option ScopeBitFlags :=
  if scopeIdx < MAX_SCOPE_NUM then some (flags ||| BitVec.twoPow MAX_SCOPE_NUM scopeIdx) else none

def computeScopeBitFlags (scopeStack : List ScopeStackEntry) : Option ScopeBitFlags :=
  scopeStack.foldlM
    (fun flags entry => if entry.isFusible then setScopeFlag flags entry.scopeIdx else some flags) 0

variable (scopeNameToIdx : List String)

/-- `GetScopeIdx`: an unregistered fusible scope gets the index of an unfusible one. -/
def getScopeIdx (n : SuperKernelBaseNode) : ℕ :=
  if n.isFusible && scopeNameToIdx.contains n.scopeName then scopeNameToIdx.idxOf n.scopeName
  else MAX_SCOPE_NUM

/-- `PopScopeByName`. The top of the stack is the head of the list. -/
def popScopeByName (scopeStack : List ScopeStackEntry) (scopeName : String) :
    List ScopeStackEntry :=
  scopeStack.eraseP (·.scopeName == scopeName)

def processScopeBegin (n : SuperKernelBaseNode)
    (scopeStack : List ScopeStackEntry) : List ScopeStackEntry :=
  ⟨getScopeIdx scopeNameToIdx n, n.scopeName, n.isFusible⟩ :: scopeStack

/-- The stack after node `n`. -/
def scopeStackAfter (scopeStack : List ScopeStackEntry)
    (n : SuperKernelBaseNode) : List ScopeStackEntry :=
  if n.isScopeBegin then processScopeBegin scopeNameToIdx n scopeStack
  else if n.isScopeEnd then popScopeByName scopeStack n.scopeName
  else scopeStack

/-- The body of the loop of `UpdateNodeScopeBitFlags`. A scope end keeps the flags of the
stack before it is popped; every other node gets those of the stack it has itself pushed on.
No marker kernel is a begin and an end at once. -/
def markNode (scopeStack : List ScopeStackEntry)
    (n : SuperKernelBaseNode) : Option SuperKernelBaseNode :=
  let stack := scopeStackAfter scopeNameToIdx scopeStack n
  if n.isScopeEnd then do
    let flags ← computeScopeBitFlags scopeStack
    return { n with scopeBitFlags := flags, isFusible := n.isScopeNode || n.isFusible }
  else do
    let flags ← computeScopeBitFlags stack
    let outOfScope := !scopeNameToIdx.isEmpty && stack.isEmpty
    let inUnfusible := !n.isScopeNode && stack.any (!·.isFusible)
    return { n with
      scopeBitFlags := flags
      isFusible := n.isScopeNode || (n.isFusible && !outOfScope && !inUnfusible) }

def markNodes (scopeNameToIdx : List String) (scopeStack : List ScopeStackEntry) :
    List SuperKernelBaseNode → Option (List SuperKernelBaseNode)
  | [] => some []
  | n :: ns => do
    let n' ← markNode scopeNameToIdx scopeStack n
    let ns' ← markNodes scopeNameToIdx (scopeStackAfter scopeNameToIdx scopeStack n) ns
    return n' :: ns'

namespace ModelGraph

variable (g : ModelGraph)

/-- The nodes in the order of `GetSortedNodeIds`. -/
def sortedNodes : List SuperKernelBaseNode :=
  g.nodes.insertionSort fun a b => a.nodeId ≤ b.nodeId

/-- `UpdateNodeScopeBitFlags`; `none` is the exception of `std::bitset::set`. -/
def updateNodeScopeBitFlags : Option ModelGraph := do
  let nodes ← markNodes g.scopeNameToIdx [] g.sortedNodes
  return { g with nodes := nodes }

/-! ## The scopes open at a position -/

/-- The scopes that the nodes of a list open and do not close. -/
def openScopes (ns : List SuperKernelBaseNode) : List ScopeStackEntry :=
  ns.foldl (scopeStackAfter g.scopeNameToIdx) []

/-- The scopes open at the position of id `i`. -/
def openScopesAt (i : NodeId) : List ScopeStackEntry :=
  g.openScopes (g.sortedNodes.filter (·.nodeId < i))

/-- The user excluded the position of id `i` from fusion: an unfusible scope is open there,
or there are named fusible scopes and no scope is open. -/
def Excluded (i : NodeId) : Prop :=
  (∃ s ∈ g.openScopesAt i, s.isFusible = false) ∨
    g.scopeNameToIdx ≠ [] ∧ g.openScopesAt i = []

instance (i : NodeId) : Decidable (g.Excluded i) := by
  unfold Excluded
  infer_instance

end ModelGraph

/-! ## What the walk leaves behind -/

/-- Marking a node changes its flags and its fusibility; a task node that is not a marker
loses its fusibility inside an unfusible scope, and outside of all scopes when there are
named ones. -/
theorem markNode_spec {names : List String} {stack : List ScopeStackEntry}
    {n n' : SuperKernelBaseNode} (h : markNode names stack n = some n') :
    n'.nodeId = n.nodeId ∧ (∀ t, NodeOfTask t n → NodeOfTask t n') ∧
      (∀ t, NodeOfTask t n → n.isScopeNode = false →
        ((∃ s ∈ stack, s.isFusible = false) ∨ names ≠ [] ∧ stack = []) →
          n'.isFusible = false) := by
  by_cases hend : n.isScopeEnd
  · rw [markNode, if_pos hend] at h
    simp only [Option.bind_eq_bind, bind_eq_some_iff, pure, some.injEq] at h
    obtain ⟨flags, -, rfl⟩ := h
    refine ⟨rfl, fun t ht => ⟨ht.1, ht.2, ht.3, ht.4, ht.5, ?_⟩, fun t ht hscope => ?_⟩
    · intro hnone hfus
      have hn : n.isScopeNode = false := by rw [ht.isScopeNode, hnone]; rfl
      simp [hn, ht.notFusible hnone hfus]
    · exact absurd hend (by simp [(ht.noMarker hscope).2])
  · rw [markNode, if_neg hend] at h
    simp only [Option.bind_eq_bind, bind_eq_some_iff, pure, some.injEq] at h
    obtain ⟨flags, -, rfl⟩ := h
    refine ⟨rfl, fun t ht => ⟨ht.1, ht.2, ht.3, ht.4, ht.5, ?_⟩, fun t ht hscope hstack => ?_⟩
    · intro hnone hfus
      have hn : n.isScopeNode = false := by rw [ht.isScopeNode, hnone]; rfl
      simp [hn, ht.notFusible hnone hfus]
    · -- a node that is no marker leaves the stack as it is
      have hafter : scopeStackAfter names stack n = stack := by
        simp [scopeStackAfter, (ht.noMarker hscope).1, hend]
      simp only [hafter, hscope, Bool.false_or]
      rcases hstack with ⟨s, hs, hsf⟩ | ⟨hnames, rfl⟩
      · have hany : stack.any (!·.isFusible) = true :=
          any_eq_true.mpr ⟨s, hs, by simp [hsf]⟩
        simp [hany]
      · have hempty : names.isEmpty = false := by simpa using hnames
        simp [hempty]

theorem markNodes_spec {names : List String} : ∀ {ns ns' : List SuperKernelBaseNode}
    {stack : List ScopeStackEntry}, markNodes names stack ns = some ns' →
    ns'.map (·.nodeId) = ns.map (·.nodeId) ∧
      (∀ n ∈ ns, ∃ n' ∈ ns', ∃ s, markNode names s n = some n') ∧
      ∀ n' ∈ ns', ∃ pre n post, ns = pre ++ n :: post ∧
        markNode names (pre.foldl (scopeStackAfter names) stack) n = some n'
  | [], ns', stack, h => by
    obtain rfl : [] = ns' := by simpa [markNodes] using h
    simp
  | n :: ns, ns', stack, h => by
    simp only [markNodes, Option.bind_eq_bind, bind_eq_some_iff, pure,
      some.injEq] at h
    obtain ⟨m, hm, ms, hms, rfl⟩ := h
    obtain ⟨hids, hall, hpos⟩ := markNodes_spec hms
    refine ⟨by simp [hids, (markNode_spec hm).1], ?_, ?_⟩
    · intro x hx
      rcases mem_cons.mp hx with rfl | hx
      · exact ⟨m, mem_cons_self, stack, hm⟩
      · obtain ⟨x', hx', s, hs⟩ := hall x hx
        exact ⟨x', mem_cons_of_mem _ hx', s, hs⟩
    · intro x' hx'
      rcases mem_cons.mp hx' with rfl | hx'
      · exact ⟨[], n, ns, rfl, hm⟩
      · obtain ⟨pre, x, post, rfl, hx⟩ := hpos x' hx'
        exact ⟨n :: pre, x, post, rfl, hx⟩

namespace ModelGraph

variable {g g' : ModelGraph} {ts : List ModelTask}

theorem sortedNodes_pairwise (hnodup : (g.nodes.map (·.nodeId)).Nodup) :
    g.sortedNodes.Pairwise fun a b => a.nodeId < b.nodeId := by
  have hperm := g.nodes.perm_insertionSort fun a b => a.nodeId ≤ b.nodeId
  have hle : g.sortedNodes.Pairwise fun a b => a.nodeId ≤ b.nodeId :=
    pairwise_insertionSort (fun a b : SuperKernelBaseNode => a.nodeId ≤ b.nodeId) g.nodes
  have hne : g.sortedNodes.Pairwise fun a b => a.nodeId ≠ b.nodeId :=
    pairwise_map.mp ((hperm.map _).nodup_iff.mpr hnodup)
  exact (hle.and hne).imp fun h => lt_of_le_of_ne h.1 h.2

/-- In ascending order, the nodes before a node are those with a smaller id. -/
theorem filter_lt_of_pairwise {pre post : List SuperKernelBaseNode} {n : SuperKernelBaseNode}
    (h : (pre ++ n :: post).Pairwise fun a b => a.nodeId < b.nodeId) :
    (pre ++ n :: post).filter (·.nodeId < n.nodeId) = pre := by
  obtain ⟨-, hpost, hpre⟩ := pairwise_append.mp h
  have hafter := pairwise_cons.mp hpost
  rw [filter_append, filter_eq_self.mpr, filter_eq_nil_iff.mpr, append_nil]
  · intro x hx
    rcases mem_cons.mp hx with rfl | hx
    · simp
    · have hlt := hafter.1 x hx
      simpa using hlt.le
  · intro x hx
    simpa using hpre x hx n mem_cons_self

/-- After the walk the graph still has one node for each task, and no task node at an
excluded position is fusible. -/
theorem updateNodeScopeBitFlags_spec (hb : Built ts g) (h : g.updateNodeScopeBitFlags = some g') :
    Built ts g' ∧ ∀ n ∈ g'.nodes, n.isScopeNode = false → g.Excluded n.nodeId →
      n.isFusible = false := by
  simp only [updateNodeScopeBitFlags, Option.bind_eq_bind, bind_eq_some_iff, pure,
    some.injEq] at h
  obtain ⟨ns, hns, rfl⟩ := h
  obtain ⟨hids, hall, hpos⟩ := markNodes_spec hns
  have hperm := g.nodes.perm_insertionSort fun a b => a.nodeId ≤ b.nodeId
  refine ⟨⟨?_, ?_, ?_, hb.write, hb.wait⟩, ?_⟩
  · intro n' hn'
    obtain ⟨pre, n, post, hsplit, hmark⟩ := hpos n' hn'
    have hn : n ∈ g.nodes := hperm.mem_iff.mp (by rw [← sortedNodes, hsplit]; simp)
    obtain ⟨t, ht, hnt⟩ := hb.nodeOf n hn
    exact ⟨t, ht, (markNode_spec hmark).2.1 t hnt⟩
  · intro t ht
    obtain ⟨n, hn, hnt⟩ := hb.taskOf t ht
    obtain ⟨n', hn', s, hmark⟩ := hall n (hperm.mem_iff.mpr hn)
    exact ⟨n', hn', (markNode_spec hmark).2.1 t hnt⟩
  · show (ns.map (·.nodeId)).Nodup
    rw [hids]
    exact (hperm.map _).nodup_iff.mpr hb.nodup
  · intro n' hn' hscope hex
    obtain ⟨pre, n, post, hsplit, hmark⟩ := hpos n' hn'
    obtain ⟨hid, htask, hmarked⟩ := markNode_spec hmark
    have hn : n ∈ g.nodes := hperm.mem_iff.mp (by rw [← sortedNodes, hsplit]; simp)
    obtain ⟨t, -, hnt⟩ := hb.nodeOf n hn
    have hopen : g.openScopesAt n'.nodeId = pre.foldl (scopeStackAfter g.scopeNameToIdx) [] := by
      rw [openScopesAt, hid, hsplit,
        filter_lt_of_pairwise (hsplit ▸ sortedNodes_pairwise hb.nodup), openScopes]
    apply hmarked t hnt
    · rw [hnt.isScopeNode, ← (htask t hnt).isScopeNode]
      exact hscope
    · simpa only [Excluded, hopen] using hex

end ModelGraph

end GraphAutofusion.SuperKernel
