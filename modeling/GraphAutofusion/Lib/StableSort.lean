import Mathlib.Data.List.Sort

/-!
# Lib.StableSort — sorting by merging, from the bottom up

Merging two sorted lists sorts their concatenation, and keeps equivalent members in their order when the
left list goes first. So does a sort that keeps sorted blocks in counters of doubling size.
-/

namespace GraphAutofusion.Lib

open List

/-- A comparison that sorts: a strict weak order. -/
structure StrictWeak {α : Type} (comp : α → α → Bool) : Prop where
  asymm : ∀ a b, comp a b = true → comp b a = false
  split : ∀ a b c, comp a c = true → comp a b = true ∨ comp b c = true

section Rules

variable {α : Type} {comp : α → α → Bool}

/-- The members in ascending order, equivalent ones as they stood. -/
def stableSort (comp : α → α → Bool) (l : List α) : List α :=
  l.insertionSort fun a b => comp b a = false

/-- Merging takes from the right list only what goes in front of the left one. -/
def stableMerge (comp : α → α → Bool) (l l' : List α) : List α := l.merge l' fun a b => !comp b a

theorem stableMerge_nil_left (l : List α) : stableMerge comp [] l = l := nil_merge ..

theorem stableMerge_nil_right (l : List α) : stableMerge comp l [] = l := merge_right ..

theorem stableMerge_cons (a b : α) (l l' : List α) : stableMerge comp (a :: l) (b :: l') =
    if comp b a = false then a :: stableMerge comp l (b :: l') else b :: stableMerge comp (a :: l) l' := by
  rw [stableMerge, cons_merge_cons]
  cases comp b a <;> rfl

theorem le_trans_of_strictWeak (h : StrictWeak comp) {a b c : α} (hab : comp b a = false)
    (hbc : comp c b = false) : comp c a = false := by
  rw [← Bool.not_eq_true]
  intro hca
  rcases h.split c b a hca with hcb | hba
  · rw [hbc] at hcb
    cases hcb
  · rw [hab] at hba
    cases hba

/-- Inserting in front of a merge is inserting in front of its left list. -/
theorem orderedInsert_merge (h : StrictWeak comp) (a : α) (l l' : List α) :
    (stableMerge comp l l').orderedInsert (fun a b => comp b a = false) a =
      stableMerge comp (l.orderedInsert (fun a b => comp b a = false) a) l' := by
  induction l generalizing l' with
  | nil =>
    rw [stableMerge_nil_left, orderedInsert_nil]
    induction l' with
    | nil => rw [stableMerge_nil_right, orderedInsert_nil]
    | cons b l' ih =>
      rw [stableMerge_cons, orderedInsert_cons, ih, stableMerge_nil_left]
  | cons x l ih =>
    induction l' with
    | nil => rw [stableMerge_nil_right, stableMerge_nil_right]
    | cons y l' ih' =>
      rw [stableMerge_cons]
      by_cases hax : comp x a = false
      · -- the new member goes in front of the left list
        rw [orderedInsert_cons, if_pos hax, stableMerge_cons]
        rw [orderedInsert_cons, if_pos hax] at ih'
        by_cases hxy : comp y x = false
        · have hay := le_trans_of_strictWeak h hax hxy
          rw [if_pos hxy, if_pos hay, orderedInsert_cons, if_pos hax, stableMerge_cons, if_pos hxy]
        · rw [if_neg hxy, orderedInsert_cons, ih', stableMerge_cons (a := x), if_neg hxy]
      · rw [orderedInsert_cons, if_neg hax, stableMerge_cons]
        rw [orderedInsert_cons, if_neg hax] at ih'
        by_cases hxy : comp y x = false
        · rw [if_pos hxy, if_pos hxy, orderedInsert_cons, if_neg hax, ih]
        · -- a member between the two would be between the lists
          have hxa : comp a x = false := h.asymm x a (Bool.eq_true_of_not_eq_false hax)
          have hay : ¬ comp y a = false := fun hay => hxy (le_trans_of_strictWeak h hxa hay)
          rw [if_neg hxy, if_neg hxy, orderedInsert_cons, if_neg hay, ih']

/-- Merging two sorted lists sorts the one list behind the other. -/
theorem stableMerge_sort (h : StrictWeak comp) (l l' : List α) :
    stableMerge comp (stableSort comp l) (stableSort comp l') = stableSort comp (l ++ l') := by
  induction l with
  | nil => exact stableMerge_nil_left _
  | cons a l ih =>
    show stableMerge comp ((stableSort comp l).orderedInsert (fun a b => comp b a = false) a) _ = _
    rw [← orderedInsert_merge h, ih]
    rfl

/-! ## Counters of sorted blocks -/

/-- A sorted block goes through the counters: a full one is merged and passed on, the first empty one,
or a new one, takes the result. -/
def carryInto (comp : α → α → Bool) : List (List α) → List α → List (List α)
  | [], carry => [carry]
  | [] :: counters, carry => carry :: counters
  | (a :: l) :: counters, carry => [] :: carryInto comp counters (stableMerge comp (a :: l) carry)

/-- The counters merged from the smallest on. -/
def mergeCounters (comp : α → α → Bool) (counters : List (List α)) : List α :=
  match counters with
  | [] => []
  | first :: rest => rest.foldl (fun acc counter => stableMerge comp counter acc) first

/-- The counters hold sorted blocks of a list, the last block in the first counter. -/
def HoldsBlocks (comp : α → α → Bool) (counters : List (List α)) (l : List α) : Prop :=
  ∃ blocks : List (List α), counters = blocks.map (stableSort comp) ∧ l = blocks.reverse.flatten

theorem carryInto_holds (h : StrictWeak comp) {counters : List (List α)} {l z : List α}
    (hold : HoldsBlocks comp counters l) :
    HoldsBlocks comp (carryInto comp counters (stableSort comp z)) (l ++ z) := by
  rcases hold with ⟨blocks, rfl, rfl⟩
  induction blocks generalizing z with
  | nil => exact ⟨[z], rfl, by simp⟩
  | cons b blocks ih =>
    rw [map_cons]
    cases hb : stableSort comp b with
    | nil =>
      -- an empty counter has an empty block
      have hlen : b = [] := by
        rw [← length_eq_zero_iff, ← length_insertionSort (fun a b => comp b a = false) b]
        exact congrArg length hb
      exact ⟨z :: blocks, rfl, by simp [hlen]⟩
    | cons a sorted =>
      rw [carryInto, ← hb, stableMerge_sort h]
      rcases ih (z := b ++ z) with ⟨blocks', hmap, hflat⟩
      exact ⟨[] :: blocks', by rw [hmap]; rfl, by simp [← hflat]⟩

theorem mergeCounters_eq (h : StrictWeak comp) {counters : List (List α)} {l : List α}
    (hold : HoldsBlocks comp counters l) : mergeCounters comp counters = stableSort comp l := by
  rcases hold with ⟨blocks, rfl, rfl⟩
  have hfold : ∀ (blocks : List (List α)) (acc : List α),
      (blocks.map (stableSort comp)).foldl (fun acc counter => stableMerge comp counter acc)
        (stableSort comp acc) = stableSort comp (blocks.reverse.flatten ++ acc) := by
    intro blocks
    induction blocks with
    | nil => exact fun acc => rfl
    | cons b blocks ih =>
      intro acc
      rw [map_cons, foldl_cons, stableMerge_sort h, ih]
      simp
  cases blocks with
  | nil => rfl
  | cons b blocks =>
    rw [map_cons, mergeCounters, hfold]
    simp

end Rules

end GraphAutofusion.Lib
