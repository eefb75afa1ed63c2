import GraphAutofusion.GraphMetadef.ExecuteGraph

/-!
# GraphMetadef.ReverseDfs — sorting from the ends

Reverse depth-first sorting walks from every node without outputs up its inputs, with a stack and a
status for each node. A node is listed when the walk comes back to it. It does not see that the
walk came back on a cycle: it lists the nodes that reach a node without outputs, whether they lie
on a cycle or not. In an acyclic graph the inputs of a node are listed before it.
-/

namespace GraphAutofusion.GraphMetadef

open Lib Relation Function List

inductive FastWalkStatus where
  | kNotWalked
  | kWalking
  | kWalked
  deriving DecidableEq, Repr

variable {Name : Type*} [LinearOrder Name]

namespace ExecuteGraph

variable (g : ExecuteGraph Name)

/-- `NodeCmp`: the larger output first, then the larger name. -/
def nodeCmp (lhs rhs : Name) : Bool :=
  if g.outputSize lhs = g.outputSize rhs then rhs < lhs else g.outputSize rhs < g.outputSize lhs

/-- The inputs of a node as a set; its last element is the next one to be taken. -/
def inputNodes (node : Name) : List Name := (emplaceAll g.nodeCmp (g.getInNodes node)).reverse

/-- The walk with the top of its stack in front; without enough fuel it has no result. -/
def walkLoop : ℕ → (Name → FastWalkStatus) → List Name → List Name →
    Option ((Name → FastWalkStatus) × List Name)
  | 0, _, _, _ => none
  | _ + 1, status, [], nodeVec => some (status, nodeVec)
  | fuel + 1, status, current :: stack, nodeVec =>
    match status current with
    | .kNotWalked =>
      walkLoop fuel (update status current .kWalking)
        (g.inputNodes current ++ current :: stack) nodeVec
    | .kWalking =>
      walkLoop fuel (update status current .kWalked) stack (nodeVec ++ [current])
    | .kWalked => walkLoop fuel status stack nodeVec

/-- Each node is walked once and puts at most all nodes on the stack. -/
def walkFuel : ℕ := g.nodes.length * (g.nodes.length + 1) + 2

def rdfsFrom : List Name → (Name → FastWalkStatus) → List Name → Option (List Name)
  | [], _, nodeVec => some nodeVec
  | node :: nodes, status, nodeVec =>
    if g.outNodesIsEmpty node then
      match g.walkLoop g.walkFuel status [node] nodeVec with
      | none => none
      | some (status, nodeVec) => rdfsFrom nodes status nodeVec
    else rdfsFrom nodes status nodeVec

def rdfsTopologicalSorting : Option (List Name) :=
  g.rdfsFrom g.nodes (fun _ => .kNotWalked) []

end ExecuteGraph

/-! ## What a walk keeps -/

section Walk

variable (g : ExecuteGraph Name)

/-- The state of a walk from the nodes `ends`. -/
structure WalkInv (ends : List Name) (status : Name → FastWalkStatus) (stack nodeVec : List Name) :
    Prop where
  walked : ∀ n, status n = .kWalked ↔ n ∈ nodeVec
  walking : ∀ n, status n = .kWalking → n ∈ stack
  nodup : nodeVec.Nodup
  sub : ∀ n ∈ stack, n ∈ g.nodes
  sub_out : ∀ n ∈ nodeVec, n ∈ g.nodes
  inputs : ∀ n, status n ≠ .kNotWalked → ∀ p, g.Edge p n → p ∈ nodeVec ∨ p ∈ stack
  started : ∀ n ∈ ends, n ∈ nodeVec ∨ n ∈ stack
  reach : ∀ n, n ∈ nodeVec ∨ n ∈ stack → ∃ e ∈ ends, ReflTransGen g.Edge n e

/-- In an acyclic graph: what lies above a node that is being walked leads to it. -/
structure WalkOrder (status : Name → FastWalkStatus) (stack nodeVec : List Name) : Prop where
  above : ∀ w, status w = .kWalking → ∃ above below, stack = above ++ w :: below ∧
    (∀ x ∈ above, TransGen g.Edge x w) ∧ ∀ p, g.Edge p w → p ∈ nodeVec ∨ p ∈ above
  closed : ∀ n ∈ nodeVec, ∀ p, g.Edge p n → p ∈ nodeVec
  forward : Forward g.Edge nodeVec

variable {g} {ends stack nodeVec : List Name} {status : Name → FastWalkStatus} {current : Name}

theorem mem_inputNodes {p n : Name} : p ∈ g.inputNodes n ↔ g.Edge p n := by
  rw [ExecuteGraph.inputNodes, mem_reverse, mem_emplaceAll, ExecuteGraph.mem_getInNodes]

theorem length_inputNodes_le (n : Name) : (g.inputNodes n).length ≤ g.nodes.length := by
  rw [ExecuteGraph.inputNodes, length_reverse]
  refine (nodup_emplaceAll.subperm fun p hp => ?_).length_le
  exact (ExecuteGraph.mem_getInNodes.mp (mem_emplaceAll.mp hp)).mem.1

theorem WalkInv.visit (h : WalkInv g ends status (current :: stack) nodeVec)
    (hstatus : status current = .kNotWalked) :
    WalkInv g ends (update status current .kWalking)
      (g.inputNodes current ++ current :: stack) nodeVec := by
  have hout : current ∉ nodeVec := fun hmem => by
    rw [(h.walked current).mpr hmem] at hstatus
    exact nomatch hstatus
  have hgrow : ∀ p, p ∈ nodeVec ∨ p ∈ current :: stack →
      p ∈ nodeVec ∨ p ∈ g.inputNodes current ++ current :: stack := by
    intro p hp
    rcases hp with hp | hp
    · exact .inl hp
    · exact .inr (mem_append.mpr (.inr hp))
  have hcur : current ∈ g.nodes := h.sub current mem_cons_self
  refine ⟨fun n => ?_, fun n hn => ?_, h.nodup, fun n hn => ?_, h.sub_out, fun n hn p hp => ?_,
    fun n hn => hgrow n (h.started n hn), fun n hn => ?_⟩
  · by_cases hnc : n = current
    · subst hnc
      rw [update_self]
      exact ⟨fun he => (nomatch he), fun hmem => absurd hmem hout⟩
    · rw [update_of_ne hnc]
      exact h.walked n
  · by_cases hnc : n = current
    · subst hnc
      exact mem_append.mpr (.inr mem_cons_self)
    · rw [update_of_ne hnc] at hn
      exact mem_append.mpr (.inr (h.walking n hn))
  · rcases mem_append.mp hn with hin | hold
    · exact (mem_inputNodes.mp hin).mem.1
    · exact h.sub n hold
  · by_cases hnc : n = current
    · subst hnc
      exact .inr (mem_append.mpr (.inl (mem_inputNodes.mpr hp)))
    · rw [update_of_ne hnc] at hn
      exact hgrow p (h.inputs n hn p hp)
  · rcases hn with hn | hn
    · exact h.reach n (.inl hn)
    · rcases mem_append.mp hn with hin | hold
      · obtain ⟨e, he, hpath⟩ := h.reach current (.inr mem_cons_self)
        exact ⟨e, he, .head (mem_inputNodes.mp hin) hpath⟩
      · exact h.reach n (.inr hold)

omit [LinearOrder Name] in
/-- Nothing is lost when the top of the stack is listed. -/
theorem mem_after_pop {nodeVec' : List Name} {n : Name}
    (hsub : ∀ n, n ∈ nodeVec ∨ n = current → n ∈ nodeVec')
    (hn : n ∈ nodeVec ∨ n ∈ current :: stack) : n ∈ nodeVec' ∨ n ∈ stack := by
  rcases hn with hn | hn
  · exact .inl (hsub n (.inl hn))
  · rcases mem_cons.mp hn with hn | hn
    · exact .inl (hsub n (.inr hn))
    · exact .inr hn

theorem WalkInv.leave (h : WalkInv g ends status (current :: stack) nodeVec)
    (hstatus : status current = .kWalking) :
    WalkInv g ends (update status current .kWalked) stack (nodeVec ++ [current]) := by
  have hout : current ∉ nodeVec := fun hmem => by
    rw [(h.walked current).mpr hmem] at hstatus
    exact nomatch hstatus
  have hpop : ∀ n, n ∈ nodeVec ∨ n ∈ current :: stack → n ∈ nodeVec ++ [current] ∨ n ∈ stack :=
    fun n => mem_after_pop fun n hn => by simpa using hn
  refine ⟨fun n => ?_, fun n hn => ?_, ?_, fun n hn => h.sub n (mem_cons_of_mem _ hn),
    fun n hn => ?_, fun n hn p hp => ?_, fun n hn => hpop n (h.started n hn), fun n hn => ?_⟩
  · by_cases hnc : n = current
    · subst hnc
      simp
    · rw [update_of_ne hnc, h.walked n]
      simp [hnc]
  · by_cases hnc : n = current
    · subst hnc
      rw [update_self] at hn
      exact nomatch hn
    · rw [update_of_ne hnc] at hn
      rcases mem_cons.mp (h.walking n hn) with he | hmem
      · exact absurd he hnc
      · exact hmem
  · exact nodup_append.mpr ⟨h.nodup, nodup_singleton _, fun a ha b hb hab =>
      hout (mem_singleton.mp hb ▸ hab ▸ ha)⟩
  · rcases mem_append.mp hn with hn | hn
    · exact h.sub_out n hn
    · exact h.sub n (mem_singleton.mp hn ▸ mem_cons_self)
  · refine hpop p (h.inputs n ?_ p hp)
    by_cases hnc : n = current
    · subst hnc
      rw [hstatus]
      exact fun he => nomatch he
    · rwa [update_of_ne hnc] at hn
  · refine h.reach n ?_
    rcases hn with hn | hn
    · rcases mem_append.mp hn with hn | hn
      · exact .inl hn
      · exact .inr (mem_singleton.mp hn ▸ mem_cons_self)
    · exact .inr (mem_cons_of_mem _ hn)

theorem WalkInv.drop (h : WalkInv g ends status (current :: stack) nodeVec)
    (hstatus : status current = .kWalked) : WalkInv g ends status stack nodeVec := by
  have hout : current ∈ nodeVec := (h.walked current).mp hstatus
  have hpop : ∀ n, n ∈ nodeVec ∨ n ∈ current :: stack → n ∈ nodeVec ∨ n ∈ stack :=
    fun n => mem_after_pop fun n hn => hn.elim (fun hmem => hmem) fun he => he ▸ hout
  refine ⟨h.walked, fun n hn => ?_, h.nodup, fun n hn => h.sub n (mem_cons_of_mem _ hn),
    h.sub_out, fun n hn p hp => hpop p (h.inputs n hn p hp), fun n hn => hpop n (h.started n hn),
    fun n hn => h.reach n (hn.imp_right (mem_cons_of_mem _))⟩
  rcases mem_cons.mp (h.walking n hn) with he | hmem
  · rw [he, hstatus] at hn
    exact nomatch hn
  · exact hmem

/-! ## The order of an acyclic graph -/

section

variable (h : WalkOrder g status (current :: stack) nodeVec)
include h

/-- A node that is being walked and is not on top has the top above it. -/
theorem WalkOrder.above_cons {w : Name} (hw : status w = .kWalking) (hne : w ≠ current) :
    ∃ above below, stack = above ++ w :: below ∧ TransGen g.Edge current w ∧
      (∀ x ∈ above, TransGen g.Edge x w) ∧
      ∀ p, g.Edge p w → p ∈ nodeVec ∨ p = current ∨ p ∈ above := by
  obtain ⟨above, below, heq, hreach, hin⟩ := h.above w hw
  cases above with
  | nil =>
    rw [nil_append, List.cons.injEq] at heq
    exact absurd heq.1.symm hne
  | cons x above =>
    rw [cons_append, List.cons.injEq] at heq
    obtain ⟨rfl, heq⟩ := heq
    refine ⟨above, below, heq, hreach _ mem_cons_self,
      fun y hy => hreach y (mem_cons_of_mem _ hy), fun p hp => ?_⟩
    exact (hin p hp).imp_right mem_cons.mp

theorem WalkOrder.visit :
    WalkOrder g (update status current .kWalking)
      (g.inputNodes current ++ current :: stack) nodeVec := by
  refine ⟨fun w hw => ?_, h.closed, h.forward⟩
  by_cases hwc : w = current
  · subst hwc
    exact ⟨_, _, rfl, fun x hx => TransGen.single (mem_inputNodes.mp hx),
      fun p hp => .inr (mem_inputNodes.mpr hp)⟩
  rw [update_of_ne hwc] at hw
  obtain ⟨above, below, rfl, hcur, hreach, hin⟩ := h.above_cons hw hwc
  refine ⟨g.inputNodes current ++ current :: above, below, by simp, fun x hx => ?_, fun p hp => ?_⟩
  · -- the new inputs lead to `current`, and `current` leads to `w`
    rcases mem_append.mp hx with hx | hx
    · exact TransGen.head (mem_inputNodes.mp hx) hcur
    · rcases mem_cons.mp hx with rfl | hx
      · exact hcur
      · exact hreach x hx
  · rcases hin p hp with hp | rfl | hp
    · exact .inl hp
    · exact .inr (mem_append.mpr (.inr mem_cons_self))
    · exact .inr (mem_append.mpr (.inr (mem_cons_of_mem _ hp)))

omit h in
theorem WalkOrder.leave (hacyc : Acyclic g.Edge) (hinv : WalkInv g ends status (current :: stack) nodeVec)
    (h : WalkOrder g status (current :: stack) nodeVec) (hstatus : status current = .kWalking) :
    WalkOrder g (update status current .kWalked) stack (nodeVec ++ [current]) := by
  -- nothing is above the node that is left, or it would lie on a cycle
  have hinputs : ∀ p, g.Edge p current → p ∈ nodeVec := by
    obtain ⟨above, below, heq, hreach, hin⟩ := h.above current hstatus
    cases above with
    | nil =>
      intro p hp
      exact (hin p hp).resolve_right (not_mem_nil)
    | cons x above =>
      rw [cons_append, List.cons.injEq] at heq
      exact absurd (hreach x mem_cons_self) (heq.1 ▸ hacyc current)
  have hout : current ∉ nodeVec := fun hmem => by
    rw [(hinv.walked current).mpr hmem] at hstatus
    exact nomatch hstatus
  refine ⟨fun w hw => ?_, fun n hn p hp => ?_, ?_⟩
  · have hwc : w ≠ current := by
      rintro rfl
      rw [update_self] at hw
      exact nomatch hw
    rw [update_of_ne hwc] at hw
    obtain ⟨above, below, heq, _, hreach, hin⟩ := h.above_cons hw hwc
    refine ⟨above, below, heq, hreach, fun p hp => ?_⟩
    rcases hin p hp with hp | rfl | hp
    · exact .inl (mem_append.mpr (.inl hp))
    · exact .inl (mem_append.mpr (.inr (mem_singleton.mpr rfl)))
    · exact .inr hp
  · refine mem_append.mpr (.inl ?_)
    rcases mem_append.mp hn with hn | hn
    · exact h.closed n hn p hp
    · exact hinputs p (mem_singleton.mp hn ▸ hp)
  · refine h.forward.append (pairwise_singleton _ _) fun a ha b hb hedge => ?_
    rw [mem_singleton] at hb
    subst hb
    exact hout (h.closed a ha b hedge)

theorem WalkOrder.drop (hout : current ∈ nodeVec) (hstatus : status current = .kWalked) :
    WalkOrder g status stack nodeVec := by
  refine ⟨fun w hw => ?_, h.closed, h.forward⟩
  have hwc : w ≠ current := by
    rintro rfl
    rw [hstatus] at hw
    exact nomatch hw
  obtain ⟨above, below, heq, _, hreach, hin⟩ := h.above_cons hw hwc
  refine ⟨above, below, heq, hreach, fun p hp => ?_⟩
  rcases hin p hp with hp | rfl | hp
  · exact .inl hp
  · exact .inl hout
  · exact .inr hp

end

/-! ## Whole walks -/

/-- How many nodes the walk has not met. -/
def notWalked (g : ExecuteGraph Name) (status : Name → FastWalkStatus) : ℕ :=
  (g.nodes.filter fun n => status n = .kNotWalked).length

theorem notWalked_visit (hmem : current ∈ g.nodes) (hstatus : status current = .kNotWalked) :
    notWalked g status = notWalked g (update status current .kWalking) + 1 := by
  unfold notWalked
  rw [← length_cons (a := current)]
  refine Perm.length_eq ?_
  rw [perm_ext_iff_of_nodup (g.nodup.filter _)
    (nodup_cons.mpr ⟨by simp [mem_filter], g.nodup.filter _⟩)]
  intro n
  by_cases hn : n = current
  · subst hn
    simp [hmem, hstatus]
  · simp [hn]

theorem notWalked_leave (hstatus : status current = .kWalking) :
    notWalked g (update status current .kWalked) = notWalked g status := by
  unfold notWalked
  refine congrArg length (filter_congr fun n _ => ?_)
  by_cases hn : n = current
  · subst hn
    simp [hstatus]
  · rw [update_of_ne hn]

/-- A walk ends with an empty stack. Meeting a node costs it one of the nodes not met. -/
theorem walkLoop_result (fuel : ℕ) (h : WalkInv g ends status stack nodeVec)
    (hfuel : notWalked g status * (g.nodes.length + 1) + stack.length < fuel) :
    ∃ status' nodeVec', g.walkLoop fuel status stack nodeVec = some (status', nodeVec') ∧
      WalkInv g ends status' [] nodeVec' ∧
      (Acyclic g.Edge → WalkOrder g status stack nodeVec → WalkOrder g status' [] nodeVec') := by
  induction fuel generalizing status stack nodeVec with
  | zero => exact absurd hfuel (Nat.not_lt_zero _)
  | succ fuel ih =>
    cases stack with
    | nil => exact ⟨status, nodeVec, rfl, h, fun _ horder => horder⟩
    | cons current stack =>
      rw [length_cons] at hfuel
      unfold ExecuteGraph.walkLoop
      cases hstatus : status current with
      | kNotWalked =>
        have hcount := notWalked_visit (h.sub current mem_cons_self) hstatus
        have hlen := @length_inputNodes_le _ _ g current
        rw [hcount, Nat.add_mul, Nat.one_mul] at hfuel
        obtain ⟨status', nodeVec', hrun, hinv, horder⟩ := ih (h.visit hstatus) (by
          rw [length_append, length_cons]
          omega)
        exact ⟨status', nodeVec', hrun, hinv, fun hacyc ho => horder hacyc ho.visit⟩
      | kWalking =>
        obtain ⟨status', nodeVec', hrun, hinv, horder⟩ := ih (h.leave hstatus) (by
          rw [notWalked_leave hstatus]
          omega)
        exact ⟨status', nodeVec', hrun, hinv, fun hacyc ho => horder hacyc (ho.leave hacyc h hstatus)⟩
      | kWalked =>
        obtain ⟨status', nodeVec', hrun, hinv, horder⟩ := ih (h.drop hstatus) (by omega)
        exact ⟨status', nodeVec', hrun, hinv,
          fun hacyc ho => horder hacyc (ho.drop ((h.walked current).mp hstatus) hstatus)⟩

theorem WalkInv.start (h : WalkInv g ends status [] nodeVec) {node : Name}
    (hnode : node ∈ g.nodes) : WalkInv g (ends ++ [node]) status [node] nodeVec := by
  have hgrow : ∀ n, n ∈ nodeVec ∨ n ∈ ([] : List Name) → n ∈ nodeVec ∨ n ∈ [node] :=
    fun n hn => hn.imp_right fun hmem => (nomatch hmem)
  refine ⟨h.walked, fun n hn => (nomatch h.walking n hn), h.nodup, fun n hn => ?_, h.sub_out,
    fun n hn p hp => hgrow p (h.inputs n hn p hp), fun n hn => ?_, fun n hn => ?_⟩
  · exact mem_singleton.mp hn ▸ hnode
  · rcases mem_append.mp hn with hn | hn
    · exact hgrow n (h.started n hn)
    · exact .inr hn
  · rcases hn with hn | hn
    · obtain ⟨e, he, hpath⟩ := h.reach n (.inl hn)
      exact ⟨e, mem_append.mpr (.inl he), hpath⟩
    · exact ⟨node, mem_append.mpr (.inr (mem_singleton.mpr rfl)),
        mem_singleton.mp hn ▸ ReflTransGen.refl⟩

theorem WalkOrder.start (h : WalkOrder g status [] nodeVec) (node : Name) :
    WalkOrder g status [node] nodeVec := by
  refine ⟨fun w hw => ?_, h.closed, h.forward⟩
  obtain ⟨above, below, heq, -⟩ := h.above w hw
  simp at heq

theorem notWalked_le : notWalked g status ≤ g.nodes.length := length_filter_le _ _

theorem rdfsFrom_result (nodes : List Name) (hnodes : ∀ n ∈ nodes, n ∈ g.nodes)
    (h : WalkInv g ends status [] nodeVec) :
    ∃ status' nodeVec', g.rdfsFrom nodes status nodeVec = some nodeVec' ∧
      WalkInv g (ends ++ nodes.filter fun n => g.outNodesIsEmpty n) status' [] nodeVec' ∧
      (Acyclic g.Edge → WalkOrder g status [] nodeVec → WalkOrder g status' [] nodeVec') := by
  induction nodes generalizing ends status nodeVec with
  | nil => exact ⟨status, nodeVec, rfl, by simpa using h, fun _ horder => horder⟩
  | cons node nodes ih =>
    have hrest : ∀ n ∈ nodes, n ∈ g.nodes := fun n hn => hnodes n (mem_cons_of_mem _ hn)
    unfold ExecuteGraph.rdfsFrom
    cases hempty : g.outNodesIsEmpty node with
    | false =>
      rw [filter_cons_of_neg (by simp [hempty])]
      exact ih hrest h
    | true =>
      have hfuel : notWalked g status * (g.nodes.length + 1) + [node].length < g.walkFuel := by
        have hmul := Nat.mul_le_mul_right (g.nodes.length + 1) (@notWalked_le _ _ g status)
        simp only [length_singleton, ExecuteGraph.walkFuel]
        omega
      obtain ⟨status1, nodeVec1, hrun, hinv, horder⟩ :=
        walkLoop_result g.walkFuel (h.start (hnodes node mem_cons_self)) hfuel
      obtain ⟨status', nodeVec', hrun', hinv', horder'⟩ := ih hrest hinv
      refine ⟨status', nodeVec', ?_, ?_, fun hacyc ho => horder' hacyc (horder hacyc (ho.start node))⟩
      · simpa only [if_true, hrun] using hrun'
      · rw [filter_cons_of_pos hempty]
        simpa using hinv'

/-- Whether a node leads to a node without outputs. -/
def LeadsOut (g : ExecuteGraph Name) (n : Name) : Prop :=
  ∃ e, ReflTransGen g.Edge n e ∧ ∀ b, ¬ g.Edge e b

/-- The walks list each node that leads to an end once, and in an acyclic graph no edge goes
back. -/
theorem rdfsTopologicalSorting_result (g : ExecuteGraph Name) :
    ∃ nodeVec, g.rdfsTopologicalSorting = some nodeVec ∧ nodeVec.Nodup ∧
      (∀ n, n ∈ nodeVec ↔ n ∈ g.nodes ∧ LeadsOut g n) ∧
      (Acyclic g.Edge → Forward g.Edge nodeVec) := by
  have hinit : WalkInv g [] (fun _ => .kNotWalked) [] [] := by
    constructor <;> simp
  have horder : WalkOrder g (fun _ => .kNotWalked) [] [] := by
    refine ⟨fun w hw => (nomatch hw), fun n hn => (nomatch hn), List.Pairwise.nil⟩
  obtain ⟨status', nodeVec, hrun, hinv, ho⟩ := rdfsFrom_result g.nodes (fun n hn => hn) hinit
  refine ⟨nodeVec, hrun, hinv.nodup, fun n => ?_, fun hacyc => (ho hacyc horder).forward⟩
  have hends : ∀ e, e ∈ [] ++ (g.nodes.filter fun n => g.outNodesIsEmpty n)
      ↔ e ∈ g.nodes ∧ ∀ b, ¬ g.Edge e b := by
    intro e
    rw [nil_append, mem_filter, ExecuteGraph.outNodesIsEmpty_iff]
  constructor
  · intro hn
    obtain ⟨e, he, hpath⟩ := hinv.reach n (.inl hn)
    exact ⟨hinv.sub_out n hn, e, hpath, ((hends e).mp he).2⟩
  · rintro ⟨hn, e, hpath, hend⟩
    -- the list holds the ends and is closed under inputs
    have hmem : e ∈ g.nodes := by
      rcases ReflTransGen.cases_tail hpath with rfl | ⟨a, -, hedge⟩
      · exact hn
      · exact hedge.mem.2
    have hlisted : e ∈ nodeVec :=
      (hinv.started e ((hends e).mpr ⟨hmem, hend⟩)).resolve_right not_mem_nil
    clear hmem hn
    induction hpath using ReflTransGen.head_induction_on with
    | refl => exact hlisted
    | @head a b hedge _ ih =>
      have hne : status' b ≠ FastWalkStatus.kNotWalked := by
        rw [(hinv.walked b).mpr ih]
        exact fun he => nomatch he
      exact (hinv.inputs b hne a hedge).resolve_right not_mem_nil

end Walk

end GraphAutofusion.GraphMetadef
