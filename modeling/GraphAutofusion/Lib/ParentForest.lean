import Mathlib.Logic.Function.Iterate

/-!
# Lib.ParentForest — roots of a map of parents

A root is its own parent. A member belongs to the root at the end of its chain of parents. Giving a
member its root or any later member of its chain as parent leaves all roots as they are.
-/

namespace GraphAutofusion.Lib

open Function

variable {α : Type*}

/-- The chain of parents of the first ends in the second. -/
inductive Root (parent : α → α) : α → α → Prop where
  | self {x : α} (h : parent x = x) : Root parent x x
  | up {x r : α} (h : parent x ≠ x) (hr : Root parent (parent x) r) : Root parent x r

namespace Root

variable {parent : α → α} {x y r s : α}

theorem parent_eq (h : Root parent x r) : parent r = r := by
  induction h with
  | self h => exact h
  | up _ _ ih => exact ih

theorem unique (h : Root parent x r) (h' : Root parent x s) : r = s := by
  induction h with
  | self h =>
    cases h' with
    | self => rfl
    | up hne => exact absurd h hne
  | up hne _ ih =>
    cases h' with
    | self h => exact absurd h hne
    | up _ h' => exact ih h'

theorem of_parent (h : Root parent (parent x) r) : Root parent x r := by
  by_cases hx : parent x = x
  · rwa [hx] at h
  · exact .up hx h

/-- Roots may get parents: the chain then goes on. -/
theorem extend {parent' : α → α} (hagree : ∀ z, parent z ≠ z → parent' z = parent z)
    (h : Root parent x r) (h' : Root parent' r s) : Root parent' x s := by
  induction h with
  | self => exact h'
  | up hne _ ih =>
    apply of_parent
    rw [hagree _ hne]
    exact ih h'

variable [DecidableEq α]

/-- A member gets its root as parent. -/
theorem compress (hx : Root parent x r) (hy : Root parent y s) : Root (update parent x r) y s := by
  induction hy with
  | @self y hy =>
    by_cases hyx : y = x
    · subst hyx
      have hr : y = r := (Root.self hy).unique hx
      apply Root.self
      rw [update_self, ← hr]
    · apply Root.self
      rw [update_of_ne hyx, hy]
  | @up y s hne hys ih =>
    by_cases hyx : y = x
    · subst hyx
      have hsr : s = r := (Root.up hne hys).unique hx
      have hry : r ≠ y := fun heq => hne (heq ▸ hx.parent_eq)
      apply of_parent
      rw [update_self, hsr]
      apply Root.self
      rw [update_of_ne hry, hx.parent_eq]
    · apply of_parent
      rwa [update_of_ne hyx]

end Root

/-! ## Bounded chains -/

/-- The chain of parents reaches a root in so many steps. -/
def Within (parent : α → α) (k : ℕ) (x r : α) : Prop := parent r = r ∧ parent^[k] x = r

namespace Within

variable {parent : α → α} {x y r s : α} {k j : ℕ}

theorem self (h : parent x = x) : Within parent k x x := ⟨h, iterate_fixed h k⟩

theorem mono (h : Within parent k x r) (hle : k ≤ j) : Within parent j x r := by
  rcases Nat.exists_eq_add_of_le hle with ⟨d, rfl⟩
  refine ⟨h.1, ?_⟩
  rw [Nat.add_comm, iterate_add_apply, h.2, iterate_fixed h.1]

theorem of_parent (h : Within parent k (parent x) r) : Within parent (k + 1) x r := h

theorem parent_left (h : Within parent k x r) : Within parent (k - 1) (parent x) r := by
  cases k with
  | zero =>
    have hx : x = r := h.2
    rw [hx, h.1]
    exact self h.1
  | succ k => exact h

theorem unique (h : Within parent k x r) (h' : Within parent j x s) : r = s := by
  have hr := (h.mono (Nat.le_max_left k j)).2
  have hs := (h'.mono (Nat.le_max_right k j)).2
  exact hr.symm.trans hs

/-- Roots may get parents: the chain then goes on. -/
theorem extend {parent' : α → α} (hagree : ∀ z, parent z ≠ z → parent' z = parent z)
    (h : Within parent k x r) (h' : Within parent' j r s) : Within parent' (k + j) x s := by
  induction k generalizing x with
  | zero =>
    have hx : x = r := h.2
    rw [hx]
    exact h'.mono (Nat.le_add_left j 0)
  | succ k ih =>
    by_cases hx : parent x = x
    · have heq := h.unique (self hx (k := 0))
      rw [← heq]
      exact h'.mono (Nat.le_add_left j (k + 1))
    · rw [Nat.succ_add]
      apply of_parent
      rw [hagree x hx]
      exact ih h

variable [DecidableEq α]

/-- A member gets the parent of its parent as parent. -/
theorem halve (x : α) (h : Within parent k y s) :
    Within (update parent x (parent (parent x))) k y s := by
  have hroot : update parent x (parent (parent x)) s = s := by
    by_cases hs : s = x
    · subst hs
      rw [update_self, h.1, h.1]
    · rw [update_of_ne hs, h.1]
  induction k using Nat.strongRecOn generalizing y with
  | _ k ih =>
    cases k with
    | zero => exact ⟨hroot, h.2⟩
    | succ k =>
      apply of_parent
      by_cases hy : y = x
      · subst hy
        rw [update_self]
        have hnext := h.parent_left.parent_left
        exact (ih (k - 1) (by omega) hnext).mono (Nat.sub_le k 1)
      · rw [update_of_ne hy]
        exact ih k (Nat.lt_succ_self k) h

end Within

/-- The loop that looks for a root and gives each member on its way the parent of its parent. -/
def findHalving [DecidableEq α] : ℕ → (α → α) → α → Option (α × (α → α))
  | 0, _, _ => none
  | fuel + 1, parent, x =>
    if parent x = x then some (x, parent)
    else findHalving fuel (update parent x (parent (parent x))) (parent (parent x))

theorem Within.findHalving [DecidableEq α] {parent : α → α} {x r : α} {k fuel : ℕ}
    (h : Within parent k x r) (hfuel : k < fuel) :
    ∃ parent', Lib.findHalving fuel parent x = some (r, parent') ∧
      ∀ y s j, Within parent j y s → Within parent' j y s := by
  induction fuel generalizing parent x k with
  | zero => exact absurd hfuel (Nat.not_lt_zero k)
  | succ fuel ih =>
    rw [Lib.findHalving]
    split
    case isTrue hx => exact ⟨parent, by rw [h.unique (self hx (k := 0))], fun _ _ _ hy => hy⟩
    case isFalse hx =>
      have hk : k ≠ 0 := by
        rintro rfl
        have hxr : x = r := h.2
        exact hx (hxr ▸ h.1)
      have hnext := (h.parent_left.parent_left).halve x
      rcases ih hnext (by omega) with ⟨parent', hrun, hkeep⟩
      exact ⟨parent', hrun, fun y s j hy => hkeep y s j (hy.halve x)⟩

/-! ## Parents above their children -/

variable {parent : ℕ → ℕ} {P : ℕ → Prop} {n x : ℕ}

/-- Chains of members with `P` go up and stay below a bound. -/
structure Climbing (parent : ℕ → ℕ) (P : ℕ → Prop) (n : ℕ) : Prop where
  lt : ∀ x, P x → x < n
  up : ∀ x, P x → parent x = x ∨ (x < parent x ∧ P (parent x))

theorem Climbing.exists_root (h : Climbing parent P n) (hx : P x) :
    ∃ r, Root parent x r ∧ P r ∧ x ≤ r ∧ ∀ k, n ≤ x + k → parent^[k] x = r := by
  induction hd : n - x using Nat.strongRecOn generalizing x with
  | _ d ih =>
    have hlt := h.lt x hx
    rcases h.up x hx with hself | ⟨hup, hparent⟩
    · exact ⟨x, .self hself, hx, Nat.le_refl x, fun k _ => iterate_fixed hself k⟩
    · rcases ih (n - parent x) (by omega) hparent rfl with ⟨r, hr, hPr, hle, hiter⟩
      refine ⟨r, hr.of_parent, hPr, by omega, fun k hk => ?_⟩
      cases k with
      | zero => omega
      | succ k => exact hiter k (by omega)

end GraphAutofusion.Lib
