import Mathlib.Order.Lattice

/-!
# Lib.AnyKey — comparisons by any of several keys

A comparison that holds when some key of the first value is below that key of the second. Where two
keys order two values in opposite ways it holds both ways; where none do, it is a strict weak order.
-/

namespace GraphAutofusion.Lib

variable {α β ι : Type*}

/-- A strict weak order on the values of a set. -/
structure StrictWeakOrderOn (less : α → α → Prop) (S : Set α) : Prop where
  irrefl : ∀ a ∈ S, ¬ less a a
  asymm : ∀ a ∈ S, ∀ b ∈ S, less a b → ¬ less b a
  trans : ∀ a ∈ S, ∀ b ∈ S, ∀ c ∈ S, less a b → less b c → less a c
  negTrans : ∀ a ∈ S, ∀ b ∈ S, ∀ c ∈ S, ¬ less a b → ¬ less b c → ¬ less a c

variable [LinearOrder β] (key : ι → α → β) (S : Set α)

def BelowByAny (a b : α) : Prop := ∃ i, key i a < key i b

/-- No two keys order two values of the set in opposite ways. -/
def KeysAgree : Prop := ∀ a ∈ S, ∀ b ∈ S, ∀ i j, key i a < key i b → key j a ≤ key j b

theorem strictWeakOrderOn_belowByAny_iff :
    StrictWeakOrderOn (BelowByAny key) S ↔ KeysAgree key S := by
  constructor
  · intro h a ha b hb i j hlt
    -- an opposite key would make the comparison hold both ways
    apply le_of_not_gt
    intro hgt
    exact h.asymm a ha b hb ⟨i, hlt⟩ ⟨j, hgt⟩
  · intro h
    constructor
    case irrefl =>
      intro a _ ⟨i, hlt⟩
      exact lt_irrefl _ hlt
    case asymm =>
      intro a ha b hb ⟨i, hlt⟩ ⟨j, hgt⟩
      exact absurd hgt (not_lt_of_ge (h a ha b hb i j hlt))
    case trans =>
      intro a _ b hb c hc ⟨i, hab⟩ ⟨j, hbc⟩
      exact ⟨i, lt_of_lt_of_le hab (h b hb c hc j i hbc)⟩
    case negTrans =>
      intro a _ b _ c _ hab hbc ⟨i, hac⟩
      have hba : key i b ≤ key i a := le_of_not_gt fun hlt => hab ⟨i, hlt⟩
      have hcb : key i c ≤ key i b := le_of_not_gt fun hlt => hbc ⟨i, hlt⟩
      exact absurd hac (not_lt_of_ge (le_trans hcb hba))

end GraphAutofusion.Lib
