import Mathlib.Data.List.Infix
import Mathlib.Data.List.Flatten

/-!
# Lib.Blocks — replacing a block of a list

A block is a contiguous part of a list. Replacing one block leaves every other block that has no member
in common with it where it is, and a reading of the list that does not see the replacement does not
change.
-/

namespace GraphAutofusion.Lib

open List

section Rules

variable {α β : Type*} {pre b post b' x : List α}

/-- A block that starts in front of another one ends in front of it. -/
theorem exists_append_of_disjoint (hne : b ≠ []) (hdisj : b'.Disjoint b) {mid rest : List α}
    (h : b' ++ rest = mid ++ (b ++ post)) : ∃ mid', mid = b' ++ mid' := by
  rcases append_eq_append_iff.mp h with ⟨y, hmid, _⟩ | ⟨y, hb', hrest⟩
  · exact ⟨y, hmid⟩
  cases y with
  | nil => exact ⟨[], by rw [hb', append_nil, append_nil]⟩
  | cons a y =>
    -- the first member of the block would lie in both
    exfalso
    cases b with
    | nil => exact hne rfl
    | cons a' b =>
      have hhead : a' = a := by
        rw [cons_append, cons_append] at hrest
        exact (List.cons.inj hrest).1
      refine hdisj (a := a) ?_ ?_
      · rw [hb']
        exact mem_append_right _ mem_cons_self
      · rw [hhead]
        exact mem_cons_self

/-- The other blocks stay. -/
theorem infix_replace (h : b' <:+: pre ++ b ++ post) (hdisj : b'.Disjoint b) (hne : b ≠ [])
    (hne' : b' ≠ []) : b' <:+: pre ++ x ++ post := by
  rcases h with ⟨p, q, h⟩
  rw [append_assoc, append_assoc] at h
  rcases append_eq_append_iff.mp h with ⟨mid, hpre, hrest⟩ | ⟨mid, hp, hrest⟩
  · rcases exists_append_of_disjoint hne hdisj hrest with ⟨mid', hmid⟩
    exact ⟨p, mid' ++ x ++ post, by simp [hpre, hmid]⟩
  · rcases exists_append_of_disjoint hne' (fun a ha hb => hdisj hb ha) hrest with ⟨mid', hmid⟩
    -- the block lies behind
    have hpost : post = mid' ++ (b' ++ q) := by
      rw [hmid, append_assoc] at hrest
      exact append_cancel_left hrest
    exact ⟨pre ++ x ++ mid', q, by simp [hpost]⟩

theorem flatMap_replace {f : α → List β} {m : α} (h : f m = b.flatMap f) :
    (pre ++ [m] ++ post).flatMap f = (pre ++ b ++ post).flatMap f := by
  rw [flatMap_append, flatMap_append, flatMap_append, flatMap_append,
    flatMap_singleton, h]

end Rules

end GraphAutofusion.Lib
