import GraphAutofusion.Autofuse.OverlapSets
import GraphAutofusion.Lib.AnyKey

/-!
# Autofuse.BufQueOrders — the comparisons of the queue allocator

The comparison of `LifecycleSet`, and the comparisons with which `TopoSortByLoadPriority` and
`TopoSortByCubeLoadPriority` sort a graph again. Each holds as soon as one of its criteria does.
-/

namespace GraphAutofusion.Autofuse

open Lib

/-- The criteria of `LifecycleComparator`: the smaller value comes first. -/
def lifecycleKey : Fin 3 → NodeLifecycle → ℤ
  | 0, x => -(x.seenNums : ℤ)
  | 1, x => x.start - x.finish
  | 2, x => x.node.id

theorem lifecycleLess_iff_any (lhs rhs : NodeLifecycle) :
    lifecycleLess lhs rhs = true ↔ BelowByAny lifecycleKey lhs rhs := by
  rw [lifecycleLess, Bool.or_eq_true, Bool.or_eq_true, decide_eq_true_eq, decide_eq_true_eq,
    decide_eq_true_eq, BelowByAny, Fin.exists_fin_succ, Fin.exists_fin_two, or_assoc]
  apply or_congr
  · show _ ↔ -(lhs.seenNums : ℤ) < -(rhs.seenNums : ℤ)
    omega
  · apply or_congr
    · show _ ↔ lhs.start - lhs.finish < rhs.start - rhs.finish
      omega
    · exact Iff.rfl

section Priority

variable {Node : Type*} (id : Node → ℤ) (prioritySequences : Node → Bool)

/-- A node of the priority set comes before one outside it, else the smaller id. -/
def priorityFunc (node1 node2 : Node) : Bool :=
  if prioritySequences node1 && !prioritySequences node2 then true
  else id node1 < id node2

/-- The `func` of `TopoSortByLoadPriority`. -/
def loadPriorityFunc : Node → Node → Bool := priorityFunc id prioritySequences

/-- The `func` of `TopoSortByCubeLoadPriority`. -/
def cubeLoadPriorityFunc : Node → Node → Bool := priorityFunc id prioritySequences

/-- Its criteria: the nodes of the priority set first, smaller ids first. -/
def priorityKey : Bool → Node → ℤ
  | false, n => if prioritySequences n then 0 else 1
  | true, n => id n

/-- The nodes of the priority set come before all others, and none of the others before them. -/
def PutsFirst (less : Node → Node → Prop) (nodes : Set Node) : Prop :=
  ∀ a ∈ nodes, ∀ b ∈ nodes, prioritySequences a = true → prioritySequences b = false →
    less a b ∧ ¬ less b a

variable {id prioritySequences} {nodes : Set Node}

theorem priorityFunc_iff (node1 node2 : Node) : priorityFunc id prioritySequences node1 node2 = true ↔
    BelowByAny (priorityKey id prioritySequences) node1 node2 := by
  rw [BelowByAny, Bool.exists_bool, priorityFunc]
  dsimp only [priorityKey]
  cases prioritySequences node1 <;> cases prioritySequences node2 <;> simp

theorem priorityKey_agree_iff : KeysAgree (priorityKey id prioritySequences) nodes ↔
    ∀ a ∈ nodes, ∀ b ∈ nodes, prioritySequences a = true → prioritySequences b = false →
      id a ≤ id b := by
  constructor
  · intro h a ha b hb hpa hpb
    have hkey := h a ha b hb false true
    simpa [priorityKey, hpa, hpb] using hkey
  · intro h a ha b hb i j hlt
    have hab := h a ha b hb
    have hba := h b hb a ha
    clear h
    -- only a node of the set against one outside it can be ordered both ways
    cases i <;> cases j <;> cases hpa : prioritySequences a <;> cases hpb : prioritySequences b <;>
      simp only [priorityKey, hpa, hpb, Bool.false_eq_true, if_true, if_false, forall_const]
        at hlt hab hba ⊢ <;>
      omega

/-- The comparison is a strict weak order with the priority set in front exactly when no node outside
the set has a smaller id than one in it. -/
theorem priorityFunc_strictWeakOrder_iff :
    (StrictWeakOrderOn (priorityFunc id prioritySequences · · = true) nodes ∧
      PutsFirst prioritySequences (priorityFunc id prioritySequences · · = true) nodes) ↔
    ∀ a ∈ nodes, ∀ b ∈ nodes, prioritySequences a = true → prioritySequences b = false →
      id a ≤ id b := by
  have hless : (priorityFunc id prioritySequences · · = true) =
      BelowByAny (priorityKey id prioritySequences) := by
    funext a b
    exact propext (priorityFunc_iff a b)
  rw [← priorityKey_agree_iff, ← strictWeakOrderOn_belowByAny_iff, hless]
  apply and_iff_left_of_imp
  intro h a ha b hb hpa hpb
  have hab : BelowByAny (priorityKey id prioritySequences) a b := by
    refine ⟨false, ?_⟩
    simp [priorityKey, hpa, hpb]
  exact ⟨hab, h.asymm a ha b hb hab⟩

end Priority

/-- The three comparisons are strict weak orders, the priority sets in front, exactly when no two of
their criteria disagree. -/
theorem comparators_strictWeakOrder_iff {Node : Type*} (lifecycles : Set NodeLifecycle)
    (id : Node → ℤ) (prioritySequences : Node → Bool) (nodes : Set Node) :
    (StrictWeakOrderOn (lifecycleLess · · = true) lifecycles ↔ KeysAgree lifecycleKey lifecycles) ∧
    ((StrictWeakOrderOn (loadPriorityFunc id prioritySequences · · = true) nodes ∧
        PutsFirst prioritySequences (loadPriorityFunc id prioritySequences · · = true) nodes) ↔
      ∀ a ∈ nodes, ∀ b ∈ nodes, prioritySequences a = true → prioritySequences b = false →
        id a ≤ id b) ∧
    ((StrictWeakOrderOn (cubeLoadPriorityFunc id prioritySequences · · = true) nodes ∧
        PutsFirst prioritySequences (cubeLoadPriorityFunc id prioritySequences · · = true) nodes) ↔
      ∀ a ∈ nodes, ∀ b ∈ nodes, prioritySequences a = true → prioritySequences b = false →
        id a ≤ id b) := by
  have hless : (lifecycleLess · · = true) = BelowByAny lifecycleKey := by
    funext a b
    exact propext (lifecycleLess_iff_any a b)
  refine ⟨?_, priorityFunc_strictWeakOrder_iff, priorityFunc_strictWeakOrder_iff⟩
  rw [hless]
  exact strictWeakOrderOn_belowByAny_iff lifecycleKey lifecycles

/-- A longer lifecycle against one that has seen more, and a node of the set with the larger id: each
comparison holds both ways. -/
theorem comparators_both_ways :
    lifecycleLess ⟨⟨1, 0⟩, 0, 3, 0⟩ ⟨⟨2, 0⟩, 1, 2, 1⟩ = true ∧
      lifecycleLess ⟨⟨2, 0⟩, 1, 2, 1⟩ ⟨⟨1, 0⟩, 0, 3, 0⟩ = true ∧
      loadPriorityFunc (fun n : ℤ => n) (fun n => n == 2) 1 2 = true ∧
      loadPriorityFunc (fun n : ℤ => n) (fun n => n == 2) 2 1 = true ∧
      cubeLoadPriorityFunc (fun n : ℤ => n) (fun n => n == 2) 1 2 = true ∧
      cubeLoadPriorityFunc (fun n : ℤ => n) (fun n => n == 2) 2 1 = true := by
  decide

end GraphAutofusion.Autofuse
