import Mathlib.Data.List.Basic

/-!
# Lib.PassPipeline — pass pipelines that may ask to start over

A pipeline runs its passes in order on one state. A pass may fail, and it may
ask for another round, which ends the current round at once. A driver runs
rounds until no pass asks, or until a fixed number of rounds is used up.
-/

namespace GraphAutofusion.Lib

variable {σ : Type*}

/-- Run the passes in order; stop after the first one that asks for another round. -/
def runPasses (again : σ → Bool) : List (σ → Option σ) → σ → Option σ
  | [], s => some s
  | pass :: rest, s =>
    match pass s with
    | none => none
    | some s' => if again s' then some s' else runPasses again rest s'

/-- A round in which every pass ran and none asked for another round. -/
inductive CompleteRun (again : σ → Bool) : List (σ → Option σ) → σ → σ → Prop where
  | nil (s : σ) : CompleteRun again [] s s
  | cons {pass : σ → Option σ} {rest : List (σ → Option σ)} {s s' s'' : σ} (hpass : pass s = some s')
      (hagain : again s' = false) (hrest : CompleteRun again rest s' s'') :
      CompleteRun again (pass :: rest) s s''

/-- Rounds `k, k + 1, ...`, at most `left` of them after round `k`. -/
def rerunLoop (again : σ → Bool) (round : ℕ → σ → Option σ) : ℕ → ℕ → σ → Option σ
  | 0, k, s => round k s
  | left + 1, k, s =>
    match round k s with
    | none => none
    | some s' => if again s' then rerunLoop again round left (k + 1) s' else some s'

/-- `Reruns again round k s j t`: the rounds from `k` up to but not including `j` lead
from `s` to `t`, and each of them asks for another round. -/
inductive Reruns (again : σ → Bool) (round : ℕ → σ → Option σ) (k : ℕ) (s : σ) : ℕ → σ → Prop where
  | refl : Reruns again round k s k s
  | tail {j : ℕ} {t t' : σ} (hruns : Reruns again round k s j t) (hround : round j t = some t')
      (hagain : again t' = true) : Reruns again round k s (j + 1) t'

variable {again : σ → Bool} {round : ℕ → σ → Option σ} {passes : List (σ → Option σ)}
  {Inv : σ → Prop} {s s' t : σ} {k j left : ℕ}

/-! ## One round -/

/-- A property that every pass preserves, run with no request pending, holds after the
round. -/
theorem runPasses_inv
    (hpass : ∀ pass ∈ passes, ∀ s s', Inv s → again s = false → pass s = some s' → Inv s')
    (hs : Inv s) (hagain : again s = false) (hrun : runPasses again passes s = some s') : Inv s' := by
  induction passes generalizing s with
  | nil => exact Option.some.inj hrun ▸ hs
  | cons pass rest ih =>
    unfold runPasses at hrun
    split at hrun
    · cases hrun
    · next s₁ hs₁ =>
      have hinv := hpass pass (List.mem_cons_self ..) s s₁ hs hagain hs₁
      split at hrun
      · exact Option.some.inj hrun ▸ hinv
      · next hno =>
        have hagain₁ : again s₁ = false := by simpa using hno
        exact ih (fun p hp => hpass p (List.mem_cons_of_mem _ hp)) hinv hagain₁ hrun

/-- A round is complete, or a pass asks for another round. -/
theorem runPasses_cases (hrun : runPasses again passes s = some s') :
    CompleteRun again passes s s' ∨ again s' = true := by
  induction passes generalizing s with
  | nil => exact .inl (Option.some.inj hrun ▸ CompleteRun.nil s)
  | cons pass rest ih =>
    unfold runPasses at hrun
    split at hrun
    · cases hrun
    · next s₁ hs₁ =>
      split at hrun
      · next hagain =>
        have heq : s₁ = s' := Option.some.inj hrun
        subst heq
        exact .inr hagain
      · next hagain =>
        exact (ih hrun).imp_left fun hrest => CompleteRun.cons hs₁ (by simpa using hagain) hrest

/-- A complete run splits where its pass list does. -/
theorem CompleteRun.append {ps qs : List (σ → Option σ)}
    (hrun : CompleteRun again (ps ++ qs) s s') :
    ∃ t, CompleteRun again ps s t ∧ CompleteRun again qs t s' := by
  induction ps generalizing s with
  | nil => exact ⟨s, CompleteRun.nil s, hrun⟩
  | cons pass rest ih =>
    cases hrun with
    | cons hpass hagain hrest =>
      rcases ih hrest with ⟨t, hps, hqs⟩
      exact ⟨t, CompleteRun.cons hpass hagain hps, hqs⟩

/-! ## The driver -/

theorem Reruns.inv (hround : ∀ j s s', Inv s → round j s = some s' → Inv s')
    (hruns : Reruns again round k s j t) (hs : Inv s) : Inv t := by
  induction hruns with
  | refl => exact hs
  | tail _ hr _ ih => exact hround _ _ _ ih hr

theorem Reruns.head {s₁ : σ} (hfirst : round k s = some s₁) (hagain : again s₁ = true)
    (hruns : Reruns again round (k + 1) s₁ j t) : Reruns again round k s j t := by
  induction hruns with
  | refl => exact Reruns.tail Reruns.refl hfirst hagain
  | tail _ hr ha ih => exact Reruns.tail ih hr ha

/-- The driver returns after some round `j`, and only the last allowed round may still
ask for another one. -/
theorem rerunLoop_spec (hrun : rerunLoop again round left k s = some s') :
    ∃ j t, j ≤ k + left ∧ Reruns again round k s j t ∧ round j t = some s' ∧
      (again s' = false ∨ j = k + left) := by
  induction left generalizing k s with
  | zero => exact ⟨k, s, Nat.le_refl _, Reruns.refl, hrun, .inr rfl⟩
  | succ left ih =>
    unfold rerunLoop at hrun
    split at hrun
    · cases hrun
    · next s₁ hs₁ =>
      split at hrun
      · next hagain =>
        rcases ih hrun with ⟨j, t, hj, hruns, hround, hend⟩
        exact ⟨j, t, by omega, hruns.head hs₁ hagain, hround, hend.imp_right (by omega)⟩
      · next hagain =>
        have heq : s₁ = s' := Option.some.inj hrun
        subst heq
        exact ⟨k, s, by omega, Reruns.refl, hs₁, .inl (by simpa using hagain)⟩

end GraphAutofusion.Lib
