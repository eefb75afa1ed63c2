import Mathlib.Data.List.Basic

/-!
# Lib.PrefixTable — tables over pairs of prefixes

A table is filled row after row, each row from left to right, and a cell is computed from cells
that were filled before it. It is right when every cell is right provided the cells before it are.
-/

namespace GraphAutofusion.Lib

open List

variable {β : Type*}

abbrev Table (β : Type*) := ℕ → ℕ → β

namespace Table

def set (t : Table β) (i j : ℕ) (v : β) : Table β :=
  Function.update t i (Function.update (t i) j v)

variable {t : Table β} {i j m n : ℕ}

@[simp] theorem set_self (v : β) : t.set i j v i j = v := by
  rw [set, Function.update_self, Function.update_self]

theorem set_of_ne {i' j' : ℕ} (v : β) (h : i' ≠ i ∨ j' ≠ j) : t.set i j v i' j' = t i' j' := by
  by_cases hi : i' = i
  · subst hi
    rw [set, Function.update_self, Function.update_of_ne (h.resolve_left fun hne => hne rfl)]
  · rw [set, Function.update_of_ne hi]

/-- Columns `1` to `n` of row `i`. -/
def fillRow (cell : Table β → ℕ → ℕ → β) (n : ℕ) (t : Table β) (i : ℕ) : Table β :=
  (List.range n).foldl (fun t k => t.set i (k + 1) (cell t i (k + 1))) t

/-- Rows `0` to `m`. -/
def fill (cell : Table β → ℕ → ℕ → β) (m n : ℕ) (t : Table β) : Table β :=
  (List.range (m + 1)).foldl (fillRow cell n) t

/-- The cells that are filled when the loops reach row `i` and column `j`. -/
def Before (n i j i' j' : ℕ) : Prop := j' ≤ n ∧ (i' < i ∨ (i' = i ∧ j' < j))

/-- Right on the cells filled so far (column `0` is never filled), untouched elsewhere. -/
structure FilledTo (Right : ℕ → ℕ → β → Prop) (start : Table β) (n i j : ℕ) (t : Table β) : Prop where
  right : ∀ i' j', Before n i j i' j' → Right i' j' (t i' j')
  first : ∀ i', t i' 0 = start i' 0
  rest : ∀ i' j', i < i' ∨ (i' = i ∧ j ≤ j') → t i' j' = start i' j'

variable {Right : ℕ → ℕ → β → Prop} {cell : Table β → ℕ → ℕ → β} {start : Table β}

/-- One cell. -/
theorem FilledTo.step (h : FilledTo Right start n i (j + 1) t)
    (hcell : Right i (j + 1) (cell t i (j + 1))) :
    FilledTo Right start n i (j + 2) (t.set i (j + 1) (cell t i (j + 1))) := by
  constructor
  · rintro i' j' ⟨hn, hbefore⟩
    by_cases hself : i' = i ∧ j' = j + 1
    · rw [hself.1, hself.2, set_self]
      exact hcell
    · rw [set_of_ne _ (by omega)]
      exact h.right i' j' ⟨hn, by omega⟩
  · intro i'
    rw [set_of_ne _ (by omega)]
    exact h.first i'
  · intro i' j' hrest
    rw [set_of_ne _ (by omega)]
    exact h.rest i' j' (by omega)

/-- A cell of the table is right when the cells before it are and its own is still the first one. -/
def Computes (Right : ℕ → ℕ → β → Prop) (start : Table β) (cell : Table β → ℕ → ℕ → β)
    (m n : ℕ) : Prop :=
  ∀ t i j, i ≤ m → j < n → (∀ i' j', Before n i (j + 1) i' j' → Right i' j' (t i' j')) →
    t i (j + 1) = start i (j + 1) → Right i (j + 1) (cell t i (j + 1))

/-- One row. -/
theorem FilledTo.fillRow (hcell : Computes Right start cell m n) (hi : i ≤ m)
    (h : FilledTo Right start n i 1 t) : FilledTo Right start n i (n + 1) (fillRow cell n t i) := by
  have hloop : ∀ k, k ≤ n → FilledTo Right start n i (k + 1)
      ((range k).foldl (fun t k => t.set i (k + 1) (cell t i (k + 1))) t) := by
    intro k
    induction k with
    | zero => exact fun _ => h
    | succ k ih =>
      intro hk
      have hk' := ih (by omega)
      rw [range_succ, foldl_append]
      exact hk'.step (hcell _ i k hi hk hk'.right (hk'.rest i (k + 1) (.inr ⟨rfl, (Nat.le_refl _)⟩)))
  exact hloop n (Nat.le_refl _)

/-- The whole table. -/
theorem right_fill (hcell : Computes Right start cell m n) (hfirst : ∀ i ≤ m, Right i 0 (start i 0))
    (hi : i ≤ m) (hj : j ≤ n) : Right i j (fill cell m n start i j) := by
  have hrows : ∀ k, k ≤ m → FilledTo Right start n k (n + 1)
      ((range (k + 1)).foldl (Table.fillRow cell n) start) := by
    intro k
    induction k with
    | zero =>
      intro hk
      apply FilledTo.fillRow hcell hk
      constructor
      · rintro i' j' ⟨-, h⟩
        rw [show i' = 0 by omega, show j' = 0 by omega]
        exact hfirst 0 hk
      · exact fun _ => rfl
      · exact fun _ _ _ => rfl
    | succ k ih =>
      intro hk
      rw [range_succ, foldl_append]
      apply FilledTo.fillRow hcell hk
      have hrow := ih (by omega)
      constructor
      · rintro i' j' ⟨hn, h⟩
        by_cases hlt : i' < k + 1
        · exact hrow.right i' j' ⟨hn, by omega⟩
        · -- the first cell of the next row
          rw [show i' = k + 1 by omega, show j' = 0 by omega, hrow.first]
          exact hfirst (k + 1) hk
      · exact hrow.first
      · intro i' j' h
        exact hrow.rest i' j' (by omega)
  exact (hrows m (Nat.le_refl _)).right i j ⟨hj, by omega⟩

end Table

end GraphAutofusion.Lib
