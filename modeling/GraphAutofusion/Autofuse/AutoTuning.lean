import Mathlib.Algebra.Order.Ring.Rat
import Mathlib.Data.FinEnum
import Mathlib.Data.Fintype.Pi
import Mathlib.Order.WellFounded

/-!
# Autofuse.AutoTuning — hill climbing over the number of cores

`AutoTuning` solves the tiling again for a smaller or a larger number of cores as long as
that improves the predicted performance. The inner solver overwrites the variables, also
when it fails, so they are saved before and restored after a step that does not pay off.
The inner solver and the performance formula are parameters. A perf value is a finite
double, so it is a rational number, and the difference of two of them has the right sign.
-/

namespace GraphAutofusion.Autofuse

/-- `AxesReorderSolverInput`. The arrays of pointers say which variables they hold. -/
structure AxesReorderSolverInput (n : ℕ) where
  vars : Fin n → Int64
  tilingVars : List (Fin n)
  pureMcVars : List (Fin n)
  localBufferVars : List (Fin n)
  coreNum : ℕ
  ubThreshold : ℚ
  corenumThreshold : ℚ
  perfThreshold : ℚ

/-- The functions that tuning calls. `getTiling` says whether `GetTiling` succeeds and which
values it leaves, `usedBlockDim` is `CalUsedCoreNum` rounded up. -/
structure TuningSolver (n : ℕ) where
  getTiling : AxesReorderSolverInput n → Bool × (Fin n → Int64)
  getPerf : (Fin n → Int64) → ℚ
  usedBlockDim : AxesReorderSolverInput n → ℕ

/-- The local copies of the variables. -/
structure SavedVars where
  tilingVars : List Int64
  pureMcVars : List Int64
  localBufferVars : List Int64

namespace AxesReorderSolverInput

variable {n : ℕ} (s : AxesReorderSolverInput n)

def saveInputTilingVars : SavedVars where
  tilingVars := s.tilingVars.map s.vars
  pureMcVars := s.pureMcVars.map s.vars
  localBufferVars := s.localBufferVars.map s.vars

/-- Copies values to the variables of an array. -/
def writeBack (vars : Fin n → Int64) (array : List (Fin n)) (values : List Int64) : Fin n → Int64 :=
  (array.zip values).foldl (fun vars p => Function.update vars p.1 p.2) vars

def restoreInputTilingVars (saved : SavedVars) : AxesReorderSolverInput n :=
  let vars := writeBack s.vars s.tilingVars saved.tilingVars
  let vars := writeBack vars s.pureMcVars saved.pureMcVars
  { s with vars := writeBack vars s.localBufferVars saved.localBufferVars }

/-- `GetTiling` writes the local buffer variables and the pure multicore variables. -/
def writeTiling (values : Fin n → Int64) : AxesReorderSolverInput n :=
  { s with vars := fun v => if v ∈ s.localBufferVars ++ s.pureMcVars then values v else s.vars v }

end AxesReorderSolverInput

/-- The width of a step from a number of cores. -/
def blockDimStep (blockDim : ℕ) : ℕ := if blockDim ≤ 4 then 1 else if blockDim < 16 then 2 else 4

/-- The addition is one of `uint32_t`. -/
def findNextUpperBlockDim (coreNum blockDim : ℕ) : Option ℕ :=
  if coreNum ≤ blockDim then none
  else
    let candidate := (blockDim + blockDimStep blockDim) % 2 ^ 32
    some (if coreNum < candidate then coreNum else candidate)

def findNextLowerBlockDim (blockDim : ℕ) : Option ℕ :=
  if blockDim ≤ 1 then none else some (max (blockDim - blockDimStep blockDim) 1)

namespace TuningSolver

open AxesReorderSolverInput

variable {n : ℕ} (solver : TuningSolver n)

def getMaxBlockDimTiling (blockDim : ℕ) (s : AxesReorderSolverInput n) :
    Bool × AxesReorderSolverInput n :=
  let saveBlockDim := s.coreNum
  let s := { s with coreNum := blockDim, ubThreshold := 0, corenumThreshold := 1 }
  let ret := solver.getTiling s
  (ret.1, { s.writeTiling ret.2 with coreNum := saveBlockDim })

/-- The loop of both searches. It goes on while the next number of cores improves the
performance, and is `none` when the fuel runs out. -/
def findBetterSolution (next : ℕ → Option ℕ) :
    ℕ → ℚ → ℕ → AxesReorderSolverInput n → Option (AxesReorderSolverInput n)
  | 0, _, _, _ => none
  | fuel + 1, currentPerf, currentBlockDim, s =>
    match next currentBlockDim with
    | none => some s
    | some nextBlockDim =>
      let saved := s.saveInputTilingVars
      let ret := solver.getMaxBlockDimTiling nextBlockDim s
      if ret.1 then
        let nextPerf := solver.getPerf ret.2.vars
        if nextPerf - currentPerf < 0 then findBetterSolution next fuel nextPerf nextBlockDim ret.2
        else some (ret.2.restoreInputTilingVars saved)
      else some (ret.2.restoreInputTilingVars saved)

def findBetterSolutionByLowerBlockDim (fuel : ℕ) (nextLowerPerf : ℚ) (nextLowerBlockDim : ℕ)
    (s : AxesReorderSolverInput n) : Option (AxesReorderSolverInput n) :=
  solver.findBetterSolution findNextLowerBlockDim fuel nextLowerPerf nextLowerBlockDim s

def findBetterSolutionByUpperBlockDim (fuel : ℕ) (nextUpperPerf : ℚ) (nextUpperBlockDim : ℕ)
    (s : AxesReorderSolverInput n) : Option (AxesReorderSolverInput n) :=
  solver.findBetterSolution (findNextUpperBlockDim s.coreNum) fuel nextUpperPerf nextUpperBlockDim s

/-- `AutoTuning` always returns true. The result is the state it leaves. -/
def autoTuning (isTradeOff : Bool) (fuel : ℕ) (s : AxesReorderSolverInput n) :
    Option (AxesReorderSolverInput n) :=
  if isTradeOff then some s
  else if s.corenumThreshold > 1 || s.ubThreshold < 0 then some s
  else
    let currentPerf := solver.getPerf s.vars
    if currentPerf < s.perfThreshold then some s
    else
      let blockDim := solver.usedBlockDim s
      match findNextUpperBlockDim s.coreNum blockDim, findNextLowerBlockDim blockDim with
      | none, _ => solver.findBetterSolutionByLowerBlockDim fuel currentPerf blockDim s
      | some _, none => solver.findBetterSolutionByUpperBlockDim fuel currentPerf blockDim s
      | some nextUpperBlockDim, some nextLowerBlockDim =>
        let saved := s.saveInputTilingVars
        let lower := solver.getMaxBlockDimTiling nextLowerBlockDim s
        if !lower.1 then some (lower.2.restoreInputTilingVars saved)
        else
          let nextLowerPerf := solver.getPerf lower.2.vars
          if currentPerf > nextLowerPerf then
            solver.findBetterSolutionByLowerBlockDim fuel nextLowerPerf nextLowerBlockDim lower.2
          else
            -- the current number of cores is no worse than the lower one
            let s := lower.2.restoreInputTilingVars saved
            let saved := s.saveInputTilingVars
            let upper := solver.getMaxBlockDimTiling nextUpperBlockDim s
            if !upper.1 then some (upper.2.restoreInputTilingVars saved)
            else
              let nextUpperPerf := solver.getPerf upper.2.vars
              if currentPerf > nextUpperPerf then
                solver.findBetterSolutionByUpperBlockDim fuel nextUpperPerf nextUpperBlockDim upper.2
              else some (upper.2.restoreInputTilingVars saved)

variable {solver} {s t r : AxesReorderSolverInput n} {next : ℕ → Option ℕ} {fuel blockDim : ℕ}

/-! ## Saving and restoring -/

theorem writeBack_map (vars values : Fin n → Int64) (array : List (Fin n)) (v : Fin n) :
    writeBack vars array (array.map values) v = if v ∈ array then values v else vars v := by
  induction array generalizing vars with
  | nil => rfl
  | cons w array ih =>
    have hstep := ih (Function.update vars w (values w))
    unfold writeBack at hstep ⊢
    rw [List.map_cons, List.zip_cons_cons, List.foldl_cons, hstep]
    by_cases hv : v ∈ array
    · simp [hv]
    · by_cases hvw : v = w
      · subst hvw
        simp [hv]
      · simp [hv, hvw]

/-- Restoring undoes what the inner solver has written. -/
theorem restore_vars (blockDim : ℕ) (t : AxesReorderSolverInput n) :
    ((solver.getMaxBlockDimTiling blockDim t).2.restoreInputTilingVars t.saveInputTilingVars).vars
      = t.vars := by
  funext v
  unfold restoreInputTilingVars saveInputTilingVars getMaxBlockDimTiling writeTiling
  dsimp only
  rw [writeBack_map, writeBack_map, writeBack_map]
  by_cases hlocal : v ∈ t.localBufferVars
  · rw [if_pos hlocal]
  · by_cases hmc : v ∈ t.pureMcVars
    · rw [if_neg hlocal, if_pos hmc]
    · have hnot : v ∉ t.localBufferVars ++ t.pureMcVars := by simp [hlocal, hmc]
      rw [if_neg hlocal, if_neg hmc, if_neg hnot, ite_self]

/-! ## The states of a run -/

/-- The states in which a run that started in `s` calls the inner solver. -/
inductive Calls (solver : TuningSolver n) (s : AxesReorderSolverInput n) :
    AxesReorderSolverInput n → Prop where
  | entry : Calls solver s s
  | solved {t : AxesReorderSolverInput n} {blockDim : ℕ} (ht : Calls solver s t)
      (hok : (solver.getMaxBlockDimTiling blockDim t).1 = true) :
      Calls solver s (solver.getMaxBlockDimTiling blockDim t).2
  | restored {t : AxesReorderSolverInput n} {blockDim : ℕ} (ht : Calls solver s t) :
      Calls solver s
        ((solver.getMaxBlockDimTiling blockDim t).2.restoreInputTilingVars t.saveInputTilingVars)

/-- The variables hold their values on entry or those of a call that succeeded, which are no
worse, and the number of cores is that on entry. -/
structure Tuned (solver : TuningSolver n) (s r : AxesReorderSolverInput n) : Prop where
  calls : Calls solver s r
  vars : r.vars = s.vars ∨ ∃ t blockDim, Calls solver s t ∧
    (solver.getMaxBlockDimTiling blockDim t).1 = true ∧
      r.vars = (solver.getMaxBlockDimTiling blockDim t).2.vars
  perf : solver.getPerf r.vars ≤ solver.getPerf s.vars
  coreNum : r.coreNum = s.coreNum

theorem Tuned.refl : Tuned solver s s := ⟨Calls.entry, .inl rfl, le_refl _, rfl⟩

theorem Tuned.solved (h : Tuned solver s t) (hok : (solver.getMaxBlockDimTiling blockDim t).1 = true)
    (hperf : solver.getPerf (solver.getMaxBlockDimTiling blockDim t).2.vars ≤ solver.getPerf t.vars) :
    Tuned solver s (solver.getMaxBlockDimTiling blockDim t).2 where
  calls := h.calls.solved hok
  vars := Or.inr ⟨t, blockDim, h.calls, hok, rfl⟩
  perf := hperf.trans h.perf
  coreNum := h.coreNum

theorem Tuned.restored (h : Tuned solver s t) (blockDim : ℕ) : Tuned solver s
    ((solver.getMaxBlockDimTiling blockDim t).2.restoreInputTilingVars t.saveInputTilingVars) where
  calls := h.calls.restored
  vars := by
    rw [restore_vars]
    exact h.vars
  perf := by
    rw [restore_vars]
    exact h.perf
  coreNum := h.coreNum

/-! ## The searches -/

/-- Whatever a search returns is tuned. -/
theorem findBetterSolution_tuned (h : Tuned solver s t)
    (hr : solver.findBetterSolution next fuel (solver.getPerf t.vars) blockDim t = some r) :
    Tuned solver s r := by
  induction fuel generalizing t blockDim with
  | zero => cases hr
  | succ fuel ih =>
    rw [findBetterSolution] at hr
    split at hr
    · cases hr
      exact h
    next nextBlockDim _ =>
    dsimp only at hr
    split at hr
    · next hok =>
      split at hr
      · next hbetter => exact ih (h.solved hok (sub_neg.mp hbetter).le) hr
      · cases hr
        exact h.restored nextBlockDim
    · cases hr
      exact h.restored nextBlockDim

/-- A search ends: every further step improves the performance, and the variables have only
finitely many values. -/
theorem findBetterSolution_terminates (next : ℕ → Option ℕ) (blockDim : ℕ)
    (t : AxesReorderSolverInput n) :
    ∃ fuel, (solver.findBetterSolution next fuel (solver.getPerf t.vars) blockDim t).isSome := by
  let better : (Fin n → Int64) → (Fin n → Int64) → Prop := fun v w => solver.getPerf v < solver.getPerf w
  have htrans : IsTrans _ better := ⟨fun _ _ _ => lt_trans⟩
  have hirrefl : Std.Irrefl better := ⟨fun _ => lt_irrefl _⟩
  have hwf : WellFounded better := Finite.wellFounded_of_trans_of_irrefl better
  induction hv : t.vars using hwf.induction generalizing t blockDim with
  | _ vars ih =>
    subst hv
    cases hnext : next blockDim with
    | none => exact ⟨1, by simp [findBetterSolution, hnext]⟩
    | some nextBlockDim =>
      by_cases hstep : (solver.getMaxBlockDimTiling nextBlockDim t).1 = true ∧
          solver.getPerf (solver.getMaxBlockDimTiling nextBlockDim t).2.vars
            - solver.getPerf t.vars < 0
      · rcases ih _ (sub_neg.mp hstep.2) nextBlockDim _ rfl with ⟨fuel, hfuel⟩
        refine ⟨fuel + 1, ?_⟩
        rw [findBetterSolution, hnext]
        dsimp only
        rw [if_pos hstep.1, if_pos hstep.2]
        exact hfuel
      · refine ⟨1, ?_⟩
        rw [findBetterSolution, hnext]
        dsimp only
        split
        · next hok =>
          rw [if_neg fun hbetter => hstep ⟨hok, hbetter⟩]
          rfl
        · rfl

/-- Tuning ends, and whatever state it leaves is tuned. -/
theorem autoTuning_tuned (solver : TuningSolver n) (isTradeOff : Bool) (s : AxesReorderSolverInput n) :
    (∃ fuel, (solver.autoTuning isTradeOff fuel s).isSome) ∧
      ∀ fuel r, solver.autoTuning isTradeOff fuel s = some r → Tuned solver s r := by
  unfold autoTuning
  dsimp only
  split
  · exact ⟨⟨0, rfl⟩, fun _ _ hr => Option.some.inj hr ▸ Tuned.refl⟩
  split
  · exact ⟨⟨0, rfl⟩, fun _ _ hr => Option.some.inj hr ▸ Tuned.refl⟩
  split
  · exact ⟨⟨0, rfl⟩, fun _ _ hr => Option.some.inj hr ▸ Tuned.refl⟩
  split
  · exact ⟨findBetterSolution_terminates .., fun _ _ => findBetterSolution_tuned Tuned.refl⟩
  · exact ⟨findBetterSolution_terminates .., fun _ _ => findBetterSolution_tuned Tuned.refl⟩
  next nextUpper nextLower _ _ =>
  split
  · exact ⟨⟨0, rfl⟩, fun _ _ hr => Option.some.inj hr ▸ Tuned.refl.restored nextLower⟩
  next hlower =>
  have hlower' : (solver.getMaxBlockDimTiling nextLower s).1 = true := by simpa using hlower
  split
  · next hbetter =>
    exact ⟨findBetterSolution_terminates .., fun _ _ =>
      findBetterSolution_tuned (Tuned.refl.solved hlower' hbetter.le)⟩
  -- back to the state on entry
  have hback := (Tuned.refl : Tuned solver s s).restored nextLower
  split
  · exact ⟨⟨0, rfl⟩, fun _ _ hr => Option.some.inj hr ▸ hback.restored nextUpper⟩
  next hupper =>
  split
  · next hbetter =>
    refine ⟨findBetterSolution_terminates .., fun _ _ => findBetterSolution_tuned (hback.solved ?_ ?_)⟩
    · simpa using hupper
    · rw [restore_vars]
      exact hbetter.le
  · exact ⟨⟨0, rfl⟩, fun _ _ hr => Option.some.inj hr ▸ hback.restored nextUpper⟩

end TuningSolver

end GraphAutofusion.Autofuse
