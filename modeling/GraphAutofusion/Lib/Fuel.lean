import Mathlib.Data.Nat.Notation

/-!
# Lib.Fuel — what a loop with fuel returns

A loop that runs on fuel returns a result with enough of it, and with less it returns the same result
or none.
-/

namespace GraphAutofusion.Lib

variable {α β : Type*} {f g : ℕ → Option α} {size size' : ℕ} {r : α}

structure FuelRun (f : ℕ → Option α) (size : ℕ) (r : α) : Prop where
  enough : ∀ fuel, size < fuel → f fuel = some r
  only : ∀ fuel r', f fuel = some r' → r' = r

namespace FuelRun

/-- The loop returns at once. -/
theorem stop (hzero : f 0 = none) (hsucc : ∀ fuel, f (fuel + 1) = some r) : FuelRun f size r where
  enough fuel hfuel := by
    cases fuel with
    | zero => omega
    | succ fuel => exact hsucc fuel
  only fuel r' hrun := by
    cases fuel with
    | zero =>
      rw [hzero] at hrun
      cases hrun
    | succ fuel =>
      rw [hsucc] at hrun
      exact (Option.some.inj hrun).symm

/-- A round of the loop goes on with another one. -/
theorem round (hzero : f 0 = none) (hsucc : ∀ fuel, f (fuel + 1) = g fuel) (h : FuelRun g size r)
    (hlt : size < size') : FuelRun f size' r where
  enough fuel hfuel := by
    cases fuel with
    | zero => omega
    | succ fuel =>
      rw [hsucc]
      exact h.enough fuel (by omega)
  only fuel r' hrun := by
    cases fuel with
    | zero =>
      rw [hzero] at hrun
      cases hrun
    | succ fuel =>
      rw [hsucc] at hrun
      exact h.only fuel r' hrun

theorem map (φ : α → β) (h : FuelRun f size r) :
    FuelRun (fun fuel => (f fuel).map φ) size (φ r) where
  enough fuel hfuel := by
    rw [h.enough fuel hfuel]
    rfl
  only fuel r' hrun := by
    obtain ⟨x, hx, rfl⟩ := Option.map_eq_some_iff.mp hrun
    rw [h.only fuel x hx]

/-- A result that does not depend on the fuel. -/
theorem const : FuelRun (fun _ => some r) size r where
  enough _ _ := rfl
  only _ _ hrun := (Option.some.inj hrun).symm

end FuelRun

end GraphAutofusion.Lib
