import Mathlib.Computability.Language

/-!
# Lib.LetterLanguage — languages that end in a letter

A language followed by one letter, or by any number of letters of one kind, told from the last
letter of a word.
-/

namespace GraphAutofusion.Lib

variable {α : Type*}

/-- The words of one letter that is allowed. -/
def letter (ok : α → Prop) : Language α := {w | ∃ x, ok x ∧ w = [x]}

variable {ok : α → Prop} {L : Language α} {w : List α} {x : α}

theorem nil_notMem_mul_letter : [] ∉ L * letter ok := by
  intro h
  rcases Language.mem_mul.mp h with ⟨a, -, b, ⟨x, -, rfl⟩, heq⟩
  simp at heq

theorem append_mem_mul_letter : w ++ [x] ∈ L * letter ok ↔ w ∈ L ∧ ok x := by
  constructor
  · intro h
    rcases Language.mem_mul.mp h with ⟨a, ha, b, ⟨y, hy, rfl⟩, heq⟩
    rcases List.append_inj' heq rfl with ⟨rfl, hxy⟩
    exact ⟨ha, List.head_eq_of_cons_eq hxy ▸ hy⟩
  · rintro ⟨hw, hx⟩
    exact Language.append_mem_mul hw ⟨x, hx, rfl⟩

/-- The last letter is the last of the repetition, or there is no repetition. -/
theorem mul_kstar_letter (L : Language α) (ok : α → Prop) :
    L * KStar.kstar (letter ok) = L + L * KStar.kstar (letter ok) * letter ok := by
  calc L * KStar.kstar (letter ok)
      = L * (1 + KStar.kstar (letter ok) * letter ok) := by
        rw [Language.one_add_kstar_mul_self_eq_kstar]
    _ = L + L * KStar.kstar (letter ok) * letter ok := by rw [mul_add, mul_one, mul_assoc]

theorem nil_mem_mul_kstar_letter : [] ∈ L * KStar.kstar (letter ok) ↔ [] ∈ L := by
  rw [mul_kstar_letter, Language.mem_add]
  exact or_iff_left nil_notMem_mul_letter

theorem append_mem_mul_kstar_letter : w ++ [x] ∈ L * KStar.kstar (letter ok) ↔
    w ++ [x] ∈ L ∨ (w ∈ L * KStar.kstar (letter ok) ∧ ok x) := by
  conv_lhs => rw [mul_kstar_letter, Language.mem_add]
  rw [append_mem_mul_letter]

end GraphAutofusion.Lib
