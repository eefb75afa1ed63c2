import GraphAutofusion.Autofuse.MulticoreTiling

/-!
# Autofuse.PgoEnumeration — all tilings for the profile guided choice

`PgoSolverGenerateAllTilingData` gives the variables their values one after the other, the local
buffer variables first, and keeps what the constraints allow while the later variables are at their
alignment. The value of a local buffer variable doubles up to a largest step and then grows by it, so
the largest step has to be on the grid of the alignment for the values to be.
-/

namespace GraphAutofusion.Autofuse

open Lib AxesReorderSolver List Function

structure PgoSolver (n : ℕ) extends MulticoreSolver n where
  orderedLocalBufferVars : List (Fin n)
  upperBound : Fin n → ℤ
  orderedToCanonical : ℕ → ℕ
  pgoStepMax : ℤ

/-- A variable at its index in the enumeration, with the place of its value in the answer. -/
structure PgoSlot (n : ℕ) where
  var : Fin n
  fromLocalBufferVars : Bool
  place : ℕ

/-- The variables, `ans_item` and `ans`. -/
structure PgoState (n : ℕ) where
  values : Values n
  ansItem : List ℕ
  ans : List (List ℕ) := []

structure PgoLoop (n : ℕ) where
  varValue : ℤ
  step : ℤ
  state : PgoState n

/-- The conversion to `uint32_t`. -/
def toUint32 (v : ℤ) : ℕ := (v % 2 ^ 32).toNat

namespace PgoSolver

variable {n : ℕ} (solver : PgoSolver n)

/-- The aligned upper bound. -/
def maxValue (var : Fin n) : ℤ := ceilDiv (solver.upperBound var) (solver.align var) * solver.align var

/-- An odd `pgo_step_max` is ignored. -/
def stepMax : ℤ := if solver.pgoStepMax % 2 = 0 then solver.pgoStepMax else 16

def slots : List (PgoSlot n) :=
  (solver.orderedLocalBufferVars.zipIdx.map fun p => ⟨p.1, true, solver.orderedToCanonical p.2⟩) ++
    (solver.pureMcVars.zipIdx solver.orderedLocalBufferVars.length).map fun p => ⟨p.1, false, p.2⟩

/-- The later variables start at their alignment. -/
def setAligns (rest : List (PgoSlot n)) (st : Values n) : Values n :=
  rest.foldl (fun st slot => Function.update st slot.var (solver.align slot.var)) st

def satisfySlotCons (slot : PgoSlot n) (st : Values n) : Bool :=
  if slot.fromLocalBufferVars then
    solver.satisfyVarCons slot.var .LB_MIXED st && solver.satisfyVarCons slot.var .LOCAL_BUFFER st
  else solver.satisfyVarCons slot.var .MC_MIXED st

/-- The next value of a variable, before it is cut to the upper bound. -/
def nextValue (slot : PgoSlot n) (value step : ℤ) : ℤ :=
  if slot.fromLocalBufferVars && decide (step ≤ solver.stepMax) && decide (value < solver.stepMax) then
    step
  else value + step

def nextStep (slot : PgoSlot n) (step : ℤ) : ℤ :=
  if slot.fromLocalBufferVars then min solver.stepMax (step * 2) else 1

/-- The value that the variable keeps. -/
def cutValue (slot : PgoSlot n) (value : ℤ) : ℤ :=
  if slot.fromLocalBufferVars then min (solver.maxValue slot.var) value else value

/-- One round of the loop. `inner` is the call for the later variables. -/
def pgoRound (inner : PgoState n → Option (PgoState n)) (rest : List (PgoSlot n)) (slot : PgoSlot n)
    (s : PgoLoop n) : Option (PgoLoop n) :=
  let varValue := solver.nextValue slot (s.state.values slot.var) s.step
  let st := Function.update s.state.values slot.var (solver.cutValue slot varValue)
  if !slot.fromLocalBufferVars && decide (solver.maxValue slot.var < varValue) then
    some { varValue := varValue, step := s.step, state := { s.state with values := st } }
  else
    let step := solver.nextStep slot s.step
    let st := solver.setAligns rest st
    if solver.satisfySlotCons slot st then
      let ansItem := s.state.ansItem.set slot.place (toUint32 (st slot.var))
      (inner { s.state with values := st, ansItem := ansItem }).map fun state =>
        { varValue := varValue, step := step, state := state }
    else some { varValue := varValue, step := step, state := { s.state with values := st } }

def pgoLoop (inner : PgoState n → Option (PgoState n)) (rest : List (PgoSlot n)) (slot : PgoSlot n) :
    ℕ → PgoLoop n → Option (PgoState n)
  | 0, _ => none
  | fuel + 1, s =>
    if s.varValue < solver.maxValue slot.var then
      (solver.pgoRound inner rest slot s).bind (pgoLoop inner rest slot fuel)
    else some s.state

/-- What happens once all variables have a value. -/
def pgoLeaf (s : PgoState n) : PgoState n :=
  if solver.satisfyMCCons s.values then { s with ans := s.ans ++ [s.ansItem] } else s

def generateAllTilingDataInner (fuel : ℕ) : List (PgoSlot n) → PgoState n → Option (PgoState n)
  | [], s => some (solver.pgoLeaf s)
  | slot :: rest, s =>
    solver.pgoLoop (generateAllTilingDataInner fuel rest) rest slot fuel
      { varValue := 0
        step := solver.align slot.var
        state := { s with values := Function.update s.values slot.var 0 } }

/-- `PgoSolverGenerateAllTilingData`, with `fuel` rounds for each loop. -/
def generateAllTilingData (fuel : ℕ) (st : Values n) : Option (List (List ℕ)) :=
  (solver.generateAllTilingDataInner fuel solver.slots
    { values := st, ansItem := replicate solver.slots.length 0 }).map (·.ans)

/-! ## The values of one variable -/

/-- The values that the loop of a variable gives it from `value` and `step` on. -/
inductive Levels (slot : PgoSlot n) : ℤ → ℤ → List ℤ → Prop
  | stop {value step : ℤ} (h : solver.maxValue slot.var ≤ value) : Levels slot value step []
  | next {value step : ℤ} {levels : List ℤ} (hlt : value < solver.maxValue slot.var)
      (hin : slot.fromLocalBufferVars = true ∨
        solver.nextValue slot value step ≤ solver.maxValue slot.var)
      (h : Levels slot (solver.nextValue slot value step) (solver.nextStep slot step) levels) :
      Levels slot value step (solver.cutValue slot (solver.nextValue slot value step) :: levels)

/-- What makes the next value larger. -/
structure Rising (slot : PgoSlot n) (value step : ℤ) : Prop where
  value_nonneg : 0 ≤ value
  step_pos : 0 < step
  fromLocal : slot.fromLocalBufferVars = true →
    0 < solver.stepMax ∧ (value < step ∨ solver.stepMax ≤ value)
  fromMc : slot.fromLocalBufferVars = false → step = 1

/-- The loop of a local buffer variable ends: the step is positive, or the first value is the last. -/
def StepsUp (slot : PgoSlot n) : Prop :=
  slot.fromLocalBufferVars = true → 0 < solver.stepMax ∨ solver.maxValue slot.var ≤ solver.align slot.var

/-- The steps of a local buffer variable stay on the multiples of its alignment. -/
def OnGrid (var : Fin n) : Prop :=
  solver.align var ∣ solver.stepMax ∨ solver.maxValue var ≤ max (solver.align var) solver.stepMax

/-- The values of a variable: in order, from the alignment to the upper bound. -/
structure LevelsOk (slot : PgoSlot n) (levels : List ℤ) : Prop where
  sorted : levels.Pairwise (· < ·)
  range : ∀ x ∈ levels, solver.align slot.var ≤ x ∧ x ≤ solver.maxValue slot.var
  max_pos : levels ≠ [] → 0 < solver.maxValue slot.var
  align_mem : 0 < solver.maxValue slot.var → solver.align slot.var ∈ levels
  max_mem : 0 < solver.maxValue slot.var → solver.maxValue slot.var ∈ levels

section Levels

variable {solver : PgoSolver n} {slot : PgoSlot n} {value step : ℤ} {levels : List ℤ}

theorem nextValue_zero : solver.nextValue slot 0 step = step := by
  rw [nextValue]
  split
  · rfl
  · exact zero_add step

theorem cutValue_of_lt (h : value < solver.maxValue slot.var) : solver.cutValue slot value = value := by
  rw [cutValue]
  split
  · exact min_eq_right (le_of_lt h)
  · rfl

theorem cutValue_of_le (hle : value ≤ solver.maxValue slot.var) :
    solver.cutValue slot value = value := by
  rw [cutValue]
  split
  · exact min_eq_right hle
  · rfl

/-- The last value is the upper bound. -/
theorem cutValue_of_ge (h : solver.maxValue slot.var ≤ value)
    (hin : slot.fromLocalBufferVars = true ∨ value ≤ solver.maxValue slot.var) :
    solver.cutValue slot value = solver.maxValue slot.var := by
  rw [cutValue]
  split
  · exact min_eq_left h
  next hmc => exact le_antisymm (hin.resolve_left hmc) h

section

variable (h : Rising solver slot value step)
include h

theorem Rising.lt_nextValue : value < solver.nextValue slot value step := by
  have hpos := h.step_pos
  rw [nextValue]
  split
  next hcond =>
    simp only [Bool.and_eq_true, decide_eq_true_eq] at hcond
    rcases (h.fromLocal hcond.1.1).2 with hlt | hge
    · exact hlt
    · exact absurd hcond.2 (not_lt.mpr hge)
  next => omega

theorem Rising.nextStep_pos : 0 < solver.nextStep slot step := by
  have hpos := h.step_pos
  rw [nextStep]
  split
  next hlocal => exact lt_min (h.fromLocal hlocal).1 (by omega)
  next => exact Int.one_pos

theorem Rising.next :
    Rising solver slot (solver.nextValue slot value step) (solver.nextStep slot step) where
  value_nonneg := le_trans h.value_nonneg (le_of_lt h.lt_nextValue)
  step_pos := h.nextStep_pos
  fromLocal := by
    intro hlocal
    have hmax := (h.fromLocal hlocal).1
    have hpos := h.step_pos
    refine ⟨hmax, ?_⟩
    simp only [nextValue, nextStep, hlocal, Bool.true_and, if_true, Bool.and_eq_true,
      decide_eq_true_eq]
    split <;> omega
  fromMc := by
    intro hmc
    simp [nextStep, hmc]

theorem Rising.exists_levels : ∃ levels, Levels solver slot value step levels := by
  -- the values grow to the upper bound
  induction hdist : (solver.maxValue slot.var - value).toNat using Nat.strong_induction_on
    generalizing value step with
  | _ dist ih =>
    by_cases hlt : value < solver.maxValue slot.var
    · have hgt := h.lt_nextValue
      rcases ih _ (by omega) h.next rfl with ⟨levels, hlevels⟩
      refine ⟨_, .next hlt ?_ hlevels⟩
      cases hlocal : slot.fromLocalBufferVars with
      | true => exact .inl rfl
      | false =>
        right
        simp only [nextValue, hlocal, Bool.false_and, Bool.false_eq_true, if_false, h.fromMc hlocal]
        omega
    · exact ⟨[], .stop (not_lt.mp hlt)⟩

end

/-- The values grow, and stay within the upper bound. -/
theorem Levels.sorted (hl : Levels solver slot value step levels) (h : Rising solver slot value step) :
    levels.Pairwise (· < ·) ∧ ∀ x ∈ levels, value < x ∧ x ≤ solver.maxValue slot.var := by
  induction hl with
  | stop => exact ⟨.nil, by simp⟩
  | @next value step levels hlt hin hl ih =>
    have hgt := h.lt_nextValue
    rcases ih h.next with ⟨hsorted, hrange⟩
    have hcut : value < solver.cutValue slot (solver.nextValue slot value step) ∧
        solver.cutValue slot (solver.nextValue slot value step) ≤ solver.maxValue slot.var ∧
        solver.cutValue slot (solver.nextValue slot value step) ≤ solver.nextValue slot value step := by
      rcases le_total (solver.maxValue slot.var) (solver.nextValue slot value step) with hge | hle
      · rw [cutValue_of_ge hge hin]
        exact ⟨hlt, le_rfl, hge⟩
      · rw [cutValue_of_le hle]
        exact ⟨hgt, hle, le_rfl⟩
    refine ⟨pairwise_cons.mpr ⟨fun x hx => lt_of_le_of_lt hcut.2.2 (hrange x hx).1, hsorted⟩, ?_⟩
    intro x hx
    rcases mem_cons.mp hx with rfl | hx
    · exact ⟨hcut.1, hcut.2.1⟩
    · exact ⟨lt_trans hgt (hrange x hx).1, (hrange x hx).2⟩

theorem Levels.maxValue_mem (hl : Levels solver slot value step levels)
    (hlt : value < solver.maxValue slot.var) : solver.maxValue slot.var ∈ levels := by
  induction hl with
  | stop h => exact absurd hlt (not_lt.mpr h)
  | @next value step levels _ hin hl ih =>
    by_cases hnext : solver.nextValue slot value step < solver.maxValue slot.var
    · exact mem_cons_of_mem _ (ih hnext)
    · rw [cutValue_of_ge (not_lt.mp hnext) hin]
      exact mem_cons_self

/-! ### The first round and those after it -/

theorem align_dvd_maxValue (var : Fin n) : solver.align var ∣ solver.maxValue var := Dvd.intro_left _ rfl

theorem align_le_maxValue {var : Fin n} (hmax : 0 < solver.maxValue var) :
    solver.align var ≤ solver.maxValue var :=
  Int.le_of_dvd hmax (align_dvd_maxValue var)

theorem rising_second (halign : 0 < solver.align slot.var) (hup : StepsUp solver slot)
    (hlt : solver.align slot.var < solver.maxValue slot.var) :
    Rising solver slot (solver.align slot.var) (solver.nextStep slot (solver.align slot.var)) where
  value_nonneg := le_of_lt halign
  step_pos := by
    rw [nextStep]
    split
    next hlocal => exact lt_min ((hup hlocal).resolve_right (not_le.mpr hlt)) (by omega)
    next => exact Int.one_pos
  fromLocal := by
    intro hlocal
    refine ⟨(hup hlocal).resolve_right (not_le.mpr hlt), ?_⟩
    simp only [nextStep, hlocal, if_true]
    omega
  fromMc := by
    intro hmc
    simp [nextStep, hmc]

/-- The first value is the alignment. -/
theorem levels_start (hmax : 0 < solver.maxValue slot.var)
    (hl : Levels solver slot 0 (solver.align slot.var) levels) :
    ∃ rest, levels = solver.align slot.var :: rest ∧
      Levels solver slot (solver.align slot.var) (solver.nextStep slot (solver.align slot.var)) rest := by
  cases hl with
  | stop h => exact absurd hmax (not_lt.mpr h)
  | @next _ _ rest _ _ hl =>
    rw [nextValue_zero] at hl ⊢
    exact ⟨rest, by rw [cutValue_of_le (align_le_maxValue hmax)], hl⟩

theorem exists_levels (halign : 0 < solver.align slot.var) (hup : StepsUp solver slot) :
    ∃ levels, Levels solver slot 0 (solver.align slot.var) levels := by
  by_cases hmax : 0 < solver.maxValue slot.var
  · have hle := align_le_maxValue hmax
    have hrest : ∃ rest, Levels solver slot (solver.align slot.var)
        (solver.nextStep slot (solver.align slot.var)) rest := by
      rcases eq_or_lt_of_le hle with heq | hlt
      · exact ⟨[], .stop (le_of_eq heq.symm)⟩
      · exact (rising_second halign hup hlt).exists_levels
    rcases hrest with ⟨rest, hrest⟩
    have hfirst : solver.nextValue slot 0 (solver.align slot.var) = solver.align slot.var :=
      nextValue_zero
    refine ⟨_ :: rest, .next hmax (.inr (hfirst.symm ▸ hle)) ?_⟩
    rw [hfirst]
    exact hrest
  · exact ⟨[], .stop (not_lt.mp hmax)⟩

theorem Levels.ok (halign : 0 < solver.align slot.var) (hup : StepsUp solver slot)
    (hl : Levels solver slot 0 (solver.align slot.var) levels) : LevelsOk solver slot levels := by
  by_cases hmax : 0 < solver.maxValue slot.var
  · have hmem := hl.maxValue_mem hmax
    have hle := align_le_maxValue hmax
    rcases levels_start hmax hl with ⟨rest, rfl, hrest⟩
    have hsorted : rest.Pairwise (· < ·) ∧
        ∀ x ∈ rest, solver.align slot.var < x ∧ x ≤ solver.maxValue slot.var := by
      rcases eq_or_lt_of_le hle with heq | hlt
      · cases hrest with
        | stop => exact ⟨.nil, by simp⟩
        | next hlt => exact absurd heq (ne_of_lt hlt)
      · exact hrest.sorted (rising_second halign hup hlt)
    refine ⟨pairwise_cons.mpr ⟨fun x hx => (hsorted.2 x hx).1, hsorted.1⟩, ?_, fun _ => hmax,
      fun _ => mem_cons_self, fun _ => hmem⟩
    intro x hx
    rcases mem_cons.mp hx with rfl | hx
    · exact ⟨le_rfl, hle⟩
    · exact ⟨le_of_lt (hsorted.2 x hx).1, (hsorted.2 x hx).2⟩
  · cases hl with
    | stop => exact ⟨.nil, by simp, by simp, fun h => absurd h hmax, fun h => absurd h hmax⟩
    | next hlt => exact absurd hlt hmax

/-! ### The multiples of the alignment -/

theorem dvd_cutValue (h : solver.align slot.var ∣ value) :
    solver.align slot.var ∣ solver.cutValue slot value := by
  rw [cutValue]
  split
  · rcases min_choice (solver.maxValue slot.var) value with hmin | hmin
    · rw [hmin]
      exact align_dvd_maxValue slot.var
    · rw [hmin]
      exact h
  · exact h

section

variable (hlocal : slot.fromLocalBufferVars = true)
include hlocal

theorem Levels.dvd_of_dvd (hdvd : solver.align slot.var ∣ solver.stepMax)
    (hl : Levels solver slot value step levels) (hvalue : solver.align slot.var ∣ value)
    (hstep : solver.align slot.var ∣ step) : ∀ x ∈ levels, solver.align slot.var ∣ x := by
  induction hl with
  | stop => simp
  | @next value step levels _ _ _ ih =>
    have hnext : solver.align slot.var ∣ solver.nextValue slot value step := by
      rw [nextValue]
      split
      · exact hstep
      · exact Int.dvd_add hvalue hstep
    have hnextStep : solver.align slot.var ∣ solver.nextStep slot step := by
      rw [nextStep, if_pos hlocal]
      rcases min_choice solver.stepMax (step * 2) with hmin | hmin
      · rw [hmin]
        exact hdvd
      · rw [hmin]
        exact Dvd.dvd.mul_right hstep 2
    intro x hx
    rcases mem_cons.mp hx with rfl | hx
    · exact dvd_cutValue hnext
    · exact ih hnext hnextStep x hx

omit hlocal in
/-- The values double, and the largest step is the last one at the earliest. -/
theorem Levels.dvd_of_le (hpos : 0 < solver.stepMax) (hlocal : slot.fromLocalBufferVars = true)
    (hle : solver.maxValue slot.var ≤ solver.stepMax) (hl : Levels solver slot value step levels)
    (hstep : step ≤ solver.stepMax) (hdvd : solver.align slot.var ∣ step ∨ step = solver.stepMax) :
    ∀ x ∈ levels, solver.align slot.var ∣ x := by
  induction hl with
  | stop => simp
  | @next value step levels hlt hin _ ih =>
    have hnext : solver.nextValue slot value step = step := by
      rw [nextValue, if_pos]
      simp only [hlocal, Bool.true_and, Bool.and_eq_true, decide_eq_true_eq]
      exact ⟨hstep, lt_of_lt_of_le hlt hle⟩
    have hnextStep : solver.nextStep slot step = min solver.stepMax (step * 2) := by
      rw [nextStep, if_pos hlocal]
    rw [hnext] at hin ⊢
    rw [hnextStep] at ih
    intro x hx
    rcases mem_cons.mp hx with rfl | hx
    · rcases hdvd with hdvd | rfl
      · exact dvd_cutValue hdvd
      · rw [cutValue_of_ge hle hin]
        exact align_dvd_maxValue slot.var
    · refine ih (min_le_left _ _) ?_ x hx
      rcases hdvd with hdvd | rfl
      · rcases min_choice solver.stepMax (step * 2) with hmin | hmin
        · exact .inr hmin
        · rw [hmin]
          exact .inl (Dvd.dvd.mul_right hdvd 2)
      · exact .inr (min_eq_left (by omega))

/-- On the grid, all values of a local buffer variable are multiples. -/
theorem Levels.dvd (hgrid : solver.OnGrid slot.var)
    (hl : Levels solver slot 0 (solver.align slot.var) levels) :
    ∀ x ∈ levels, solver.align slot.var ∣ x := by
  rcases hgrid with hdvd | hle
  · exact hl.dvd_of_dvd hlocal hdvd (Int.dvd_zero _) (dvd_refl _)
  by_cases hmax : 0 < solver.maxValue slot.var
  · rcases le_max_iff.mp hle with halign' | hle
    · -- there is one value only
      rcases levels_start hmax hl with ⟨rest, rfl, hrest⟩
      cases hrest with
      | stop => simp
      | next hlt => exact absurd hlt (not_lt.mpr halign')
    · have hstep := le_trans (align_le_maxValue hmax) hle
      exact hl.dvd_of_le (lt_of_lt_of_le hmax hle) hlocal hle hstep (.inl (dvd_refl _))
  · cases hl with
    | stop => simp
    | next hlt => exact absurd hlt hmax

/-- While the values double they come to the largest step. -/
theorem Levels.stepMax_mem (hlt : solver.stepMax < solver.maxValue slot.var)
    (hl : Levels solver slot value step levels) (hvalue : value < solver.stepMax)
    (hstep : step ≤ solver.stepMax) (hpos : 0 < step) : solver.stepMax ∈ levels := by
  induction hl with
  | stop h => omega
  | @next value step levels _ _ _ ih =>
    have hnext : solver.nextValue slot value step = step := by
      rw [nextValue, if_pos]
      simp only [hlocal, Bool.true_and, Bool.and_eq_true, decide_eq_true_eq]
      exact ⟨hstep, hvalue⟩
    have hnextStep : solver.nextStep slot step = min solver.stepMax (step * 2) := by
      rw [nextStep, if_pos hlocal]
    rw [hnext] at ih ⊢
    rw [hnextStep] at ih
    rw [cutValue_of_lt (lt_of_le_of_lt hstep hlt)]
    rcases eq_or_lt_of_le hstep with heq | hless
    · rw [heq]
      exact mem_cons_self
    · exact mem_cons_of_mem _ (ih hless (min_le_left _ _) (by omega))

end

/-- Off the grid, one value of a local buffer variable is no multiple. -/
theorem Levels.exists_not_dvd (halign : 0 < solver.align slot.var)
    (hlocal : slot.fromLocalBufferVars = true) (hpos : 0 < solver.stepMax)
    (hgrid : ¬ solver.OnGrid slot.var) (hl : Levels solver slot 0 (solver.align slot.var) levels) :
    ∃ x ∈ levels, ¬ solver.align slot.var ∣ x := by
  rw [OnGrid, not_or, not_le, max_lt_iff] at hgrid
  rcases hgrid with ⟨hdvd, hlt, hstepMax⟩
  rcases lt_or_ge solver.stepMax (solver.align slot.var) with hsmall | hlarge
  · -- the second value is the alignment and the largest step
    have hsum : ¬ solver.align slot.var ∣ solver.align slot.var + solver.stepMax := fun h =>
      hdvd ((Int.dvd_add_right (dvd_refl _)).mp h)
    have hroom : solver.align slot.var + solver.stepMax < solver.maxValue slot.var := by
      rcases @align_dvd_maxValue n solver slot.var with ⟨k, hk⟩
      have htwo : 2 ≤ k := by
        by_contra hk'
        have hone : k ≤ 1 := by omega
        have hle := mul_le_mul_of_nonneg_left hone (le_of_lt halign)
        omega
      have hle := mul_le_mul_of_nonneg_left htwo (le_of_lt halign)
      omega
    rcases levels_start (lt_trans hpos hstepMax) hl with ⟨rest, rfl, hrest⟩
    cases hrest with
    | stop h => omega
    | next _ _ _ =>
      have hstep : solver.nextStep slot (solver.align slot.var) = solver.stepMax := by
        rw [nextStep, if_pos hlocal]
        omega
      have hnext : solver.nextValue slot (solver.align slot.var) solver.stepMax =
          solver.align slot.var + solver.stepMax := by
        rw [nextValue, if_neg]
        simp only [Bool.and_eq_true, decide_eq_true_eq]
        omega
      rw [hstep, hnext, cutValue_of_lt hroom]
      exact ⟨_, mem_cons_of_mem _ mem_cons_self, hsum⟩
  · exact ⟨_, hl.stepMax_mem hlocal hstepMax hpos hlarge halign, hdvd⟩

end Levels

end PgoSolver

end GraphAutofusion.Autofuse
