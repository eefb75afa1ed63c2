import Mathlib.Tactic.TypeStar

/-!
# Lib.StepCondition — what must hold before each step of a loop

A loop folds a step over a list. Where a step keeps a property exactly if some condition holds in the
state before it, the loop keeps the property exactly if the condition holds before every step.
-/

namespace GraphAutofusion.Lib

variable {σ χ : Type*} {step : σ → χ → σ} {ok : σ → χ → Prop} {inv P : σ → Prop} {s : σ}

/-- The condition holds before each step of the loop. -/
def EachStep (step : σ → χ → σ) (ok : σ → χ → Prop) : σ → List χ → Prop
  | _, [] => True
  | s, x :: xs => ok s x ∧ EachStep step ok (step s x) xs

theorem foldl_inv {xs : List χ} (hstep : ∀ s, ∀ x ∈ xs, inv s → inv (step s x)) (h : inv s) :
    inv (xs.foldl step s) := by
  induction xs generalizing s with
  | nil => exact h
  | cons x xs ih =>
    refine ih (fun s y hy => hstep s y (List.mem_cons_of_mem _ hy)) ?_
    exact hstep s x List.mem_cons_self h

theorem foldl_iff_eachStep (hstep : ∀ s x, inv s → inv (step s x))
    (hP : ∀ s x, inv s → (P (step s x) ↔ P s ∧ ok s x)) (h : inv s) (xs : List χ) :
    P (xs.foldl step s) ↔ P s ∧ EachStep step ok s xs := by
  induction xs generalizing s with
  | nil => exact (and_iff_left trivial).symm
  | cons x xs ih =>
    rw [List.foldl_cons, ih (hstep s x h), hP s x h, and_assoc]
    rfl

/-- A log to which each step appends one entry. -/
theorem foldl_log {ε : Type*} {log : σ → List ε} {entry : χ → ε}
    (hstep : ∀ s x, log (step s x) = log s ++ [entry x]) (s : σ) (xs : List χ) :
    log (xs.foldl step s) = log s ++ xs.map entry := by
  induction xs generalizing s with
  | nil => exact (List.append_nil _).symm
  | cons x xs ih =>
    rw [List.foldl_cons, ih, hstep, List.append_assoc]
    rfl

end GraphAutofusion.Lib
