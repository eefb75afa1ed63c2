import Mathlib.Data.Nat.Notation

/-!
# Lib.UntilRepeat — a loop that stops when a round changes nothing

The loop remembers a key of the state of the round before. A round that keeps an invariant and
changes the key only when a measure falls comes to an end, and the last round left the key alone.
-/

namespace GraphAutofusion.Lib

variable {σ κ : Type*} [DecidableEq κ]

def untilRepeat (key : σ → κ) (step : σ → σ) : ℕ → κ → σ → Option σ
  | 0, _, _ => none
  | fuel + 1, last, s =>
    if last = key s then some s else untilRepeat key step fuel (key s) (step s)

variable {key : σ → κ} {step : σ → σ}

/-- What the loop ends with is what it starts with, or what its rounds lead to. -/
theorem untilRepeat_inv {inv : σ → Prop} (hinv : ∀ s, inv s → inv (step s)) {fuel : ℕ} {last : κ}
    {s s' : σ} (h : inv s) (hrun : untilRepeat key step fuel last s = some s') : inv s' := by
  induction fuel generalizing last s with
  | zero => cases hrun
  | succ fuel ih =>
    rw [untilRepeat] at hrun
    split at hrun
    · obtain rfl := Option.some.inj hrun
      exact h
    · exact ih (hinv s h) hrun

/-- The loop ends, after a round that left the key as it was. -/
theorem untilRepeat_ends {inv : σ → Prop} {measure : σ → ℕ} (hinv : ∀ s, inv s → inv (step s))
    (hless : ∀ s, inv s → key (step s) ≠ key s → measure (step s) < measure s) {last : κ} {s : σ}
    (h : inv s) (hlast : last ≠ key s) :
    ∃ s', inv s' ∧ key (step s') = key s' ∧
      ∀ fuel, measure s + 1 < fuel → untilRepeat key step fuel last s = some (step s') := by
  induction hm : measure s using Nat.strongRecOn generalizing last s with
  | ind size ih =>
    subst hm
    -- the first round is always made
    have hround : ∀ fuel, untilRepeat key step (fuel + 1) last s =
        untilRepeat key step fuel (key s) (step s) := fun fuel => by
      rw [untilRepeat, if_neg hlast]
    by_cases hkey : key (step s) = key s
    · refine ⟨s, h, hkey, fun fuel hfuel => ?_⟩
      obtain ⟨rest, rfl⟩ : ∃ rest, fuel = rest + 1 + 1 := ⟨fuel - 2, by omega⟩
      rw [hround, untilRepeat, if_pos hkey.symm]
    · have hfall := hless s h hkey
      obtain ⟨s', hs', hrep, hrun⟩ := ih _ hfall (hinv s h) (fun heq => hkey heq.symm) rfl
      refine ⟨s', hs', hrep, fun fuel hfuel => ?_⟩
      obtain ⟨rest, rfl⟩ : ∃ rest, fuel = rest + 1 := ⟨fuel - 1, by omega⟩
      rw [hround]
      exact hrun rest (by omega)

end GraphAutofusion.Lib
