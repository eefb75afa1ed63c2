import GraphAutofusion.Autofuse.BoundSearch
import GraphAutofusion.Lib.Fuel
import GraphAutofusion.Lib.UntilRepeat
import Mathlib.Data.Fin.VecNotation

/-!
# Autofuse.TileDescent — one tile made smaller until the constraints hold

Two loops of the solver change a single variable. One halves the distance between a tile that
satisfies the constraints and one that does not. The other takes the alignment off the tile until
the constraints hold, and after each step tunes it to a divisor of the variable that must be left
without a tail. Both write the variable directly, so it may leave the positive numbers.
-/

namespace GraphAutofusion.Autofuse

open Lib Function Option

namespace AxesReorderSolver

variable {n : ℕ} (solver : AxesReorderSolver n)

/-- `SatisfyCons` of one variable, with the limits as they are. -/
def satisfyVarCons (var : Fin n) (type : ConstraintType) (st : Values n) : Bool :=
  (solver.relCons var).all fun cons => cons.type ≠ type || cons.eval st cons.relHwSpec ≤ 0

/-! ## ShrinkBoundaryUntilSatisfied -/

/-- One round, on the boundary and the variables. -/
def shrinkRound (var : Fin n) (align : ℤ) (type : ConstraintType) (s : ℤ × Values n) :
    ℤ × Values n :=
  let boundary := s.1
  let lastVal := s.2 var
  let st := update s.2 var (ceilDiv ((boundary + s.2 var).tdiv 2) align * align)
  if solver.satisfyVarCons var type st then (boundary, st)
  else (st var, update st var lastVal)

def shrinkBoundaryUntilSatisfied (var : Fin n) (align boundary : ℤ) (type : ConstraintType)
    (fuel : ℕ) (st : Values n) : Option (Values n) :=
  (untilRepeat (fun s => (s.1, s.2 var)) (solver.shrinkRound var align type) fuel (-1, -1)
    (boundary, st)).map fun s => s.2

section Shrink

variable {solver : AxesReorderSolver n} {var : Fin n} {align : ℤ} {type : ConstraintType}
  {st : Values n}

/-- The rounded midpoint, counted in units of the alignment, is at most half a unit off. -/
theorem midpoint_spec (halign : 0 < align) {x y : ℤ} (hx : 0 ≤ x) (hxy : x < y) :
    x + y - 1 ≤ 2 * ceilDiv ((y * align + x * align).tdiv 2) align ∧
      2 * ceilDiv ((y * align + x * align).tdiv 2) align ≤ x + y + 1 := by
  have hsum : y * align + x * align = (x + y) * align := by rw [add_mul, add_comm]
  have hnonneg : 0 ≤ (x + y) * align := Int.mul_nonneg (by omega) (le_of_lt halign)
  rw [hsum, Int.tdiv_eq_ediv_of_nonneg hnonneg]
  generalize hmid : ceilDiv ((x + y) * align / 2) align = mid
  have hspec := ceilDiv_spec halign (by omega : 0 ≤ (x + y) * align / 2)
  rw [hmid] at hspec
  constructor
  · -- less than half a unit below the middle would be a whole alignment below
    by_contra hlow
    have hle := mul_le_mul_of_nonneg_right (by omega : 2 * mid + 2 ≤ x + y)
      (le_of_lt halign)
    rw [add_mul, mul_assoc] at hle
    omega
  · by_contra hhigh
    have hle := mul_le_mul_of_nonneg_right (by omega : x + y ≤ 2 * (mid - 1))
      (le_of_lt halign)
    rw [mul_assoc] at hle
    omega

/-- The variable holds a multiple that satisfies the constraints, the boundary is a larger one that
does not. -/
def Bracket (solver : AxesReorderSolver n) (var : Fin n) (align : ℤ) (type : ConstraintType)
    (st : Values n) (s : ℤ × Values n) : Prop :=
  ∃ x y, 0 ≤ x ∧ x < y ∧ s = (y * align, update st var (x * align)) ∧
    solver.satisfyVarCons var type (update st var (x * align)) = true ∧
    solver.satisfyVarCons var type (update st var (y * align)) = false

section

variable (halign : 0 < align)
include halign

/-- A round moves one end of the bracket to the middle. -/
theorem shrinkRound_eq {x y : ℤ} (hx : 0 ≤ x) (hxy : x < y) :
    ∃ mid, x + y - 1 ≤ 2 * mid ∧ 2 * mid ≤ x + y + 1 ∧
      solver.shrinkRound var align type (y * align, update st var (x * align)) =
        if solver.satisfyVarCons var type (update st var (mid * align)) then
          (y * align, update st var (mid * align))
        else (mid * align, update st var (x * align)) := by
  have hmid := midpoint_spec halign hx hxy
  refine ⟨_, hmid.1, hmid.2, ?_⟩
  simp only [shrinkRound, update_self, update_idem]

theorem Bracket.round {s : ℤ × Values n} (h : Bracket solver var align type st s) :
    Bracket solver var align type st (solver.shrinkRound var align type s) := by
  obtain ⟨x, y, hx, hxy, rfl, hsat, hunsat⟩ := h
  obtain ⟨mid, hlow, hhigh, heq⟩ := @shrinkRound_eq n solver var align type st halign x y hx hxy
  rw [heq]
  split
  · next hyes =>
    -- a middle at the upper end would not satisfy the constraints
    have hne : mid ≠ y := fun h => by
      rw [h, hunsat] at hyes
      cases hyes
    exact ⟨mid, y, by omega, by omega, rfl, hyes, hunsat⟩
  · next hno =>
    have hne : mid ≠ x := fun h => hno (h ▸ hsat)
    exact ⟨x, mid, hx, by omega, rfl, hsat, Bool.eq_false_iff.mpr hno⟩

/-- A round that keeps both ends has no multiple left between them, any other one brings the ends
closer. -/
theorem Bracket.next {s : ℤ × Values n} (h : Bracket solver var align type st s) :
    let s' := solver.shrinkRound var align type s
    ((s'.1, s'.2 var) = (s.1, s.2 var) → s.1 = s.2 var + align) ∧
      ((s'.1, s'.2 var) ≠ (s.1, s.2 var) → (s'.1 - s'.2 var).toNat < (s.1 - s.2 var).toNat) := by
  obtain ⟨x, y, hx, hxy, rfl, hsat, hunsat⟩ := h
  obtain ⟨mid, hlow, hhigh, heq⟩ := @shrinkRound_eq n solver var align type st halign x y hx hxy
  have hunit : y = x + 1 → y * align = x * align + align := fun h => by
    rw [h, add_mul, one_mul]
  have hcancel : ∀ {i j : ℤ}, i * align = j * align → i = j := fun h =>
    Int.eq_of_mul_eq_mul_right (ne_of_gt halign) h
  have hlt : ∀ {i j : ℤ}, i < j → i * align < j * align := fun h =>
    Int.mul_lt_mul_of_pos_right h halign
  dsimp only
  rw [heq]
  split
  · next hyes =>
    have hne : mid ≠ y := fun h => by
      rw [h, hunsat] at hyes
      cases hyes
    simp only [update_self]
    constructor
    · intro hsame
      have hx' := hcancel (Prod.mk.inj hsame).2
      exact hunit (by omega)
    · intro hother
      have hne' : mid ≠ x := fun h => hother (by rw [h])
      have hgap := hlt (by omega : x < mid)
      have hend := hlt (by omega : mid < y)
      omega
  · next hno =>
    have hne : mid ≠ x := fun h => hno (h ▸ hsat)
    simp only [update_self]
    constructor
    · intro hsame
      have hy' := hcancel (Prod.mk.inj hsame).1
      exact hunit (by omega)
    · intro hother
      have hne' : mid ≠ y := fun h => hother (by rw [h])
      have hgap := hlt (by omega : mid < y)
      have hend := hlt (by omega : x < mid)
      omega

/-- From a bracket, the loop ends with a multiple that satisfies the constraints while the next one
does not. -/
theorem shrinkBoundaryUntilSatisfied_ends {boundary : ℤ} (hnonneg : 0 ≤ st var)
    (h : Bracket solver var align type st (boundary, st)) :
    ∃ x, 0 ≤ x ∧ solver.satisfyVarCons var type (update st var (x * align)) = true ∧
      solver.satisfyVarCons var type (update st var (x * align + align)) = false ∧
      ∀ fuel, (boundary - st var).toNat + 1 < fuel →
        solver.shrinkBoundaryUntilSatisfied var align boundary type fuel st =
          some (update st var (x * align)) := by
  have hround : ∀ s, Bracket solver var align type st s →
      Bracket solver var align type st (solver.shrinkRound var align type s) :=
    fun _ hs => hs.round halign
  have hlast : ((-1, -1) : ℤ × ℤ) ≠ (boundary, st var) := fun heq => by
    have h := (Prod.mk.inj heq).2
    omega
  obtain ⟨s, hs, hkey, hrun⟩ := @untilRepeat_ends _ _ _ (fun s => (s.1, s.2 var)) _ _
    (fun s => (s.1 - s.2 var).toNat) hround (fun _ hs => (hs.next halign).2) _ _ h hlast
  have hadjacent := (hs.next halign).1 hkey
  have hkeep := Prod.mk.inj hkey
  obtain ⟨x, y, hx, -, hs', hsat, hunsat⟩ := hround s hs
  -- the last round left both ends alone, and they are adjacent
  have hends : y * align = x * align + align := by
    have hb : (solver.shrinkRound var align type s).1 = y * align := by rw [hs']
    have hv : (solver.shrinkRound var align type s).2 var = x * align := by
      rw [hs']
      exact update_self ..
    omega
  rw [hends] at hunsat
  refine ⟨x, hx, hsat, hunsat, fun fuel hfuel => ?_⟩
  rw [shrinkBoundaryUntilSatisfied, hrun fuel hfuel, map_some, hs']

/-- When no larger multiple satisfies the constraints after one that does not, such a multiple is the
largest one. -/
theorem isGreatest_of_next {boundary x : ℤ} (hx : 0 ≤ x)
    (hboundary : align ∣ boundary) (hpos : 0 < boundary)
    (hdown : ∀ m m', align ∣ m → align ∣ m' → 0 < m → m ≤ m' →
      solver.satisfyVarCons var type (update st var m') = true →
      solver.satisfyVarCons var type (update st var m) = true)
    (hunsat : solver.satisfyVarCons var type (update st var boundary) = false)
    (hsat : solver.satisfyVarCons var type (update st var (x * align)) = true)
    (hnext : solver.satisfyVarCons var type (update st var (x * align + align)) = false) :
    IsGreatest {m | align ∣ m ∧ m < boundary ∧
      solver.satisfyVarCons var type (update st var m) = true} (x * align) := by
  have hdvd := Int.dvd_mul_left x align
  have hbelow : x * align < boundary := by
    by_contra hge
    have hsame := hdown boundary (x * align) hboundary hdvd hpos (by omega) hsat
    rw [hunsat] at hsame
    cases hsame
  constructor
  · exact ⟨hdvd, hbelow, hsat⟩
  · rintro m ⟨⟨z, rfl⟩, -, hm⟩
    rw [Int.mul_comm] at hm ⊢
    by_contra habove
    -- the multiple after `x` would satisfy the constraints too
    have hunit : x + 1 ≤ z := Int.lt_of_mul_lt_mul_right (by omega) (Int.le_of_lt halign)
    have hle := Int.mul_le_mul_of_nonneg_right hunit (Int.le_of_lt halign)
    rw [Int.add_mul, Int.one_mul] at hle
    have hnonneg := Int.mul_nonneg hx (Int.le_of_lt halign)
    have hsame := hdown (x * align + align) (z * align)
      ((Int.dvd_add_right hdvd).mpr (Int.dvd_refl align)) (Int.dvd_mul_left z align) (by omega) hle hm
    rw [hnext] at hsame
    cases hsame

end

/-- The loop ends with a multiple that satisfies the constraints while the next one does not, which
is the largest one below the boundary if the constraints are downward closed. -/
theorem shrinkBoundaryUntilSatisfied_maximal (halign : 0 < align) {boundary : ℤ}
    (hvalue : align ∣ st var) (hnonneg : 0 ≤ st var) (hboundary : align ∣ boundary)
    (hlt : st var < boundary) (hsat : solver.satisfyVarCons var type st = true)
    (hunsat : solver.satisfyVarCons var type (update st var boundary) = false) :
    ∃ size v, (∀ fuel, size ≤ fuel →
        solver.shrinkBoundaryUntilSatisfied var align boundary type fuel st =
          some (update st var v)) ∧
      align ∣ v ∧ solver.satisfyVarCons var type (update st var v) = true ∧
      solver.satisfyVarCons var type (update st var (v + align)) = false ∧
      ((∀ m m', align ∣ m → align ∣ m' → 0 < m → m ≤ m' →
          solver.satisfyVarCons var type (update st var m') = true →
          solver.satisfyVarCons var type (update st var m) = true) →
        IsGreatest {m | align ∣ m ∧ m < boundary ∧
          solver.satisfyVarCons var type (update st var m) = true} v) := by
  have hstart : Bracket solver var align type st (boundary, st) := by
    obtain ⟨x, hx⟩ := hvalue
    obtain ⟨y, rfl⟩ := hboundary
    rw [Int.mul_comm] at hx
    rw [Int.mul_comm align y] at hlt hunsat ⊢
    have hself : update st var (x * align) = st := by
      rw [← hx, update_eq_self]
    refine ⟨x, y, ?_, ?_, by rw [hself], by rw [hself]; exact hsat, hunsat⟩
    · by_contra hneg
      have hle := Int.mul_le_mul_of_nonneg_right (by omega : x ≤ -1) (Int.le_of_lt halign)
      omega
    · exact Int.lt_of_mul_lt_mul_right (by rw [← hx]; exact hlt) (Int.le_of_lt halign)
  obtain ⟨x, hx, hsat', hnext, hrun⟩ := shrinkBoundaryUntilSatisfied_ends halign hnonneg hstart
  refine ⟨_, x * align, hrun, Int.dvd_mul_left x align, hsat', hnext, fun hdown => ?_⟩
  exact isGreatest_of_next halign hx hboundary (by omega) hdown hunsat hsat' hnext

end Shrink

/-- Tiles of four and an upper bound of nine: eight is the largest one. -/
def upToNine : AxesReorderSolver 1 where
  allCons := []
  relCons := fun _ => [⟨.LOCAL_BUFFER, 9, fun st limit => st ⟨0, Nat.zero_lt_one⟩ - limit⟩]
  satisfyUBSizeCacheLine := fun _ _ => true
  ubThresholdSpec := fun spec => spec

theorem shrinkBoundaryUntilSatisfied_upToNine :
    ∃ size v, (∀ fuel, size ≤ fuel →
        upToNine.shrinkBoundaryUntilSatisfied 0 4 12 .LOCAL_BUFFER fuel (fun _ => 4) =
          some (update (fun _ => 4) 0 v)) ∧
      (4 : ℤ) ∣ v ∧
      upToNine.satisfyVarCons 0 .LOCAL_BUFFER (update (fun _ => 4) 0 v) = true := by
  obtain ⟨size, v, hrun, hdvd, hsat, -⟩ := @shrinkBoundaryUntilSatisfied_maximal 1 upToNine 0 4
    .LOCAL_BUFFER (fun _ => 4) (by decide) 12 (by decide) (by decide) (by decide) (by decide)
    (by decide) (by decide)
  exact ⟨size, v, hrun, hdvd, hsat⟩

/-! ## TuneNotailVar and DecreaseUntilSatisfied -/

/-- How a function comes back: the remainder by zero is not defined. -/
inductive Tuned (n : ℕ) where
  | divisionByZero
  | returned (ok : Bool) (st : Values n)

/-- The loop of `TuneNotailVar`. -/
def tuneLoop (var target : Fin n) (align : ℤ) : ℕ → Values n → Option (Values n)
  | 0, _ => none
  | fuel + 1, st =>
    if 0 < st var then
      if (st target).tmod (st var) ≠ 0 then
        tuneLoop var target align fuel (update st var (st var - align))
      else some st
    else some st

/-- `notail` is the variable that must be left without a tail, if there is one. -/
def tuneNotailVar (var : Fin n) (notail : Option (Fin n)) (align : ℤ) (fuel : ℕ) (st : Values n) :
    Option (Tuned n) :=
  match notail with
  | none => some (.returned true st)
  | some target =>
    if st var = 0 then some .divisionByZero
    else if (st target).tmod (st var) = 0 then some (.returned true st)
    else (tuneLoop var target align fuel st).map fun st => .returned (st var ≠ 0) st

def decreaseUntilSatisfied (var : Fin n) (align : ℤ) (type : ConstraintType)
    (tuneFunc : Values n → Option (Tuned n)) : ℕ → Values n → Option (Tuned n)
  | 0, _ => none
  | fuel + 1, st =>
    if !solver.satisfyVarCons var type st && st var ≠ align then
      match tuneFunc (update st var (st var - align)) with
      | some (.returned true st) => decreaseUntilSatisfied var align type tuneFunc fuel st
      | r => r
    else some (.returned true st)

/-- `TuneNoTail`, and the same steps in `ProcessSingleAxisNaive` and `NaiveLocalBufTiling`, which have
the loop written out: the variable is tuned before it is decreased. -/
def tuneNoTail (var : Fin n) (notail : Option (Fin n)) (align : ℤ) (type : ConstraintType)
    (fuel : ℕ) (st : Values n) : Option (Tuned n) :=
  match tuneNotailVar var notail align fuel st with
  | some (.returned true st) =>
    solver.decreaseUntilSatisfied var align type (tuneNotailVar var notail align fuel) fuel st
  | r => r

section Decrease

variable {solver : AxesReorderSolver n} {var : Fin n} {notail : Option (Fin n)} {align : ℤ}
  {type : ConstraintType} {st : Values n}

/-- The tile divides the variable that must be left without a tail. -/
def DividesNotail (var : Fin n) (notail : Option (Fin n)) (st : Values n) : Prop :=
  ∀ target ∈ notail, st var ∣ st target

/-- Where `TuneNotailVar` leaves a positive tile: at the first divisor on the way down, or at the
first value that is not positive. -/
structure TunedFrom (var : Fin n) (notail : Option (Fin n)) (align : ℤ) (st : Values n)
    (v v' : ℤ) : Prop where
  onWay : align ∣ v - v'
  le : v' ≤ v
  above : -align < v'
  divides : 0 < v' → DividesNotail var notail (update st var v')
  first : ∀ m, align ∣ v - m → v' < m → m ≤ v → 0 < m →
    ¬ DividesNotail var notail (update st var m)

theorem tuneLoop_spec (halign : 0 < align) {target : Fin n} {v : ℤ} (hv : -align < v) :
    ∃ v', TunedFrom var (some target) align st v v' ∧
      FuelRun (fun fuel => tuneLoop var target align fuel (update st var v)) v.toNat
        (update st var v') := by
  induction hsize : v.toNat using Nat.strongRecOn generalizing v with
  | ind size ih =>
    subst hsize
    by_cases hpos : 0 < v
    · by_cases hdiv : v ∣ update st var v target
      · -- the first divisor
        refine ⟨v, ⟨by simp, le_refl v, hv, fun _ t ht => ?_, fun m _ h1 h2 => by omega⟩,
          FuelRun.stop rfl fun fuel => ?_⟩
        · obtain rfl := some.inj ht
          rw [update_self]
          exact hdiv
        · rw [tuneLoop, update_self, if_pos hpos,
            if_neg (not_not_intro (Int.tmod_eq_zero_of_dvd hdiv))]
      · have hmod : (update st var v target).tmod v ≠ 0 := fun h =>
          hdiv (Int.dvd_of_tmod_eq_zero h)
        obtain ⟨v', hv', hrun⟩ := ih (v - align).toNat (by omega) (by omega) rfl
        refine ⟨v', ⟨?_, ?_, hv'.above, hv'.divides, ?_⟩,
          hrun.round rfl (fun fuel => ?_) (by omega)⟩
        · have h := (Int.dvd_add_right (dvd_refl align)).mpr hv'.onWay
          rwa [show align + (v - align - v') = v - v' by omega] at h
        · have h := hv'.le
          omega
        · intro m hm hlt hle hmpos hdivm
          -- a point of the way is `v` itself or one of the rest
          by_cases hself : m = v
          · subst hself
            have h := hdivm target rfl
            rw [update_self] at h
            exact hdiv h
          · have hm' : align ∣ v - align - m := by
              have h := (Int.dvd_add_right (Int.dvd_neg.mpr (dvd_refl align))).mpr hm
              rwa [show -align + (v - m) = v - align - m by omega] at h
            have hgap : align ≤ v - m := Int.le_of_dvd (by omega) hm
            exact hv'.first m hm' hlt (by omega) hmpos hdivm
        · rw [tuneLoop, update_self, if_pos hpos, if_pos hmod, update_idem]
    · -- no positive point is left
      refine ⟨v, ⟨by simp, le_refl v, hv, fun h => absurd h hpos, fun m _ h1 h2 => by omega⟩,
        FuelRun.stop rfl fun fuel => ?_⟩
      rw [tuneLoop, update_self, if_neg hpos]

/-- From a positive tile, the function succeeds unless the way down meets zero. -/
theorem tuneNotailVar_pos (halign : 0 < align) {v : ℤ} (hv : 0 < v) :
    ∃ v', TunedFrom var notail align st v v' ∧
      FuelRun (fun fuel => tuneNotailVar var notail align fuel (update st var v)) v.toNat
        (.returned (v' ≠ 0) (update st var v')) := by
  cases notail with
  | none =>
    refine ⟨v, ⟨by simp, le_refl v, by omega, fun _ t ht => ?_, fun m _ h1 h2 => by omega⟩, ?_⟩
    · cases ht
    · rw [decide_eq_true (ne_of_gt hv)]
      exact FuelRun.const
  | some target =>
    by_cases hmod : (update st var v target).tmod v = 0
    · -- the tile is a divisor already
      refine ⟨v, ⟨by simp, le_refl v, by omega, fun _ t ht => ?_, fun m _ h1 h2 => by omega⟩, ?_⟩
      · obtain rfl := some.inj ht
        rw [update_self]
        exact Int.dvd_of_tmod_eq_zero hmod
      · simp only [tuneNotailVar, update_self, if_neg (ne_of_gt hv), if_pos hmod]
        rw [decide_eq_true (ne_of_gt hv)]
        exact FuelRun.const
    · obtain ⟨v', hv', hrun⟩ := @tuneLoop_spec n var align st halign target v (by omega)
      refine ⟨v', hv', ?_⟩
      simp only [tuneNotailVar, update_self, if_neg (ne_of_gt hv), if_neg hmod]
      have h := hrun.map fun st => Tuned.returned (st var ≠ 0) st
      rwa [update_self] at h

/-- A negative tile is left as it is, and the function succeeds. -/
theorem tuneNotailVar_neg {v : ℤ} (hv : v < 0) :
    FuelRun (fun fuel => tuneNotailVar var notail align fuel (update st var v)) 0
      (.returned true (update st var v)) := by
  cases notail with
  | none => exact FuelRun.const
  | some target =>
    simp only [tuneNotailVar, update_self, if_neg (ne_of_lt hv)]
    split
    · exact FuelRun.const
    · have hstop : FuelRun (fun fuel => tuneLoop var target align fuel (update st var v)) 0
          (update st var v) := FuelRun.stop rfl fun fuel => by
        rw [tuneLoop, update_self, if_neg (by omega)]
      have h := hstop.map fun st => Tuned.returned (st var ≠ 0) st
      rwa [update_self, decide_eq_true (ne_of_lt hv)] at h

/-- What a descent that succeeds leaves. -/
structure Lowered (solver : AxesReorderSolver n) (var : Fin n) (notail : Option (Fin n)) (align : ℤ)
    (type : ConstraintType) (st st' : Values n) : Prop where
  pos : 0 < st' var
  le : st' var ≤ st var
  divides : DividesNotail var notail st'
  legal : solver.satisfyVarCons var type st' = true ∨ st' var = align
  frame : ∀ v, v ≠ var → st' v = st v

/-- A tile at which the descent may stop. -/
structure StopsAt (solver : AxesReorderSolver n) (var : Fin n) (notail : Option (Fin n)) (align : ℤ)
    (type : ConstraintType) (st : Values n) (v m : ℤ) : Prop where
  pos : 0 < m
  le : m ≤ v
  onWay : align ∣ v - m
  divides : DividesNotail var notail (update st var m)
  satisfies : solver.satisfyVarCons var type (update st var m) = true

/-- A tile to stop at is still ahead after tuning. -/
theorem StopsAt.of_tuned {v v' m : ℤ} (h : StopsAt solver var notail align type st v m)
    (ht : TunedFrom var notail align st v v') : StopsAt solver var notail align type st v' m where
  pos := h.pos
  le := by
    by_contra hgt
    exact ht.first m h.onWay (by omega) h.le h.pos h.divides
  onWay := by
    have hsub := (Int.dvd_add_right (Int.dvd_neg.mpr ht.onWay)).mpr h.onWay
    rwa [show -(v - v') + (v - m) = v' - m by omega] at hsub
  divides := h.divides
  satisfies := h.satisfies

theorem StopsAt.of_sub {v m : ℤ} (h : StopsAt solver var notail align type st v m) (hne : m ≠ v) :
    StopsAt solver var notail align type st (v - align) m where
  pos := h.pos
  le := by
    have hle := h.le
    have hgap : align ≤ v - m := Int.le_of_dvd (by omega) h.onWay
    omega
  onWay := by
    have hsub := (Int.dvd_add_right (Int.dvd_neg.mpr (dvd_refl align))).mpr h.onWay
    rwa [show -align + (v - m) = v - align - m by omega] at hsub
  divides := h.divides
  satisfies := h.satisfies

/-- Tuning that leaves no positive tile meets zero, when it starts from a multiple of the alignment
or has a tile to stop at ahead. -/
theorem TunedFrom.eq_zero {v v' : ℤ} (ht : TunedFrom var notail align st v v') (hnpos : ¬ 0 < v')
    (hkept : align ∣ v' ∨ ∃ m, StopsAt solver var notail align type st v' m) : v' = 0 := by
  rcases hkept with hdvd | ⟨m, hm⟩
  · have habove := ht.above
    by_contra hne
    have hle := Int.le_of_dvd (by omega : 0 < -v') (Int.dvd_neg.mpr hdvd)
    omega
  · have h1 := hm.pos
    have h2 := hm.le
    omega

/-- From a tuned tile that is a multiple of the alignment, or with a tile to stop at ahead, the loop
ends well. -/
theorem decreaseUntilSatisfied_ends (halign : 0 < align) {v : ℤ} (hv : 0 < v) (hle : v ≤ st var)
    (hdiv : DividesNotail var notail (update st var v))
    (hstop : align ∣ v ∨ ∃ m, StopsAt solver var notail align type st v m) :
    ∃ ok st', (∀ tuneFuel fuel, v.toNat < tuneFuel → v.toNat < fuel →
        solver.decreaseUntilSatisfied var align type (tuneNotailVar var notail align tuneFuel) fuel
          (update st var v) = some (.returned ok st')) ∧
      (ok = true → Lowered solver var notail align type st st') := by
  induction hsize : v.toNat using Nat.strongRecOn generalizing v with
  | ind size ih =>
    subst hsize
    by_cases hdone : solver.satisfyVarCons var type (update st var v) = true ∨ v = align
    · refine ⟨true, update st var v, fun tuneFuel fuel _ hfuel => ?_, fun _ => ?_⟩
      · obtain ⟨rest, rfl⟩ : ∃ rest, fuel = rest + 1 := ⟨fuel - 1, by omega⟩
        rw [decreaseUntilSatisfied, update_self, if_neg]
        rcases hdone with hsat | rfl
        · simp [hsat]
        · simp
      · refine ⟨?_, ?_, hdiv, ?_, fun w hw => update_of_ne hw _ _⟩
        · rw [update_self]
          exact hv
        · rw [update_self]
          exact hle
        · rw [update_self]
          exact hdone
    obtain ⟨hunsat, hne⟩ := not_or.mp hdone
    have hround : ∀ tuneFuel fuel,
        solver.decreaseUntilSatisfied var align type (tuneNotailVar var notail align tuneFuel)
          (fuel + 1) (update st var v) =
        match tuneNotailVar var notail align tuneFuel (update st var (v - align)) with
        | some (.returned true st) =>
          solver.decreaseUntilSatisfied var align type (tuneNotailVar var notail align tuneFuel)
            fuel st
        | r => r := fun tuneFuel fuel => by
      rw [decreaseUntilSatisfied, update_self, if_pos (by simp [hunsat, hne]),
        update_idem]
    -- the next tile is positive, and the reason to end well is kept
    have hnext : 0 < v - align ∧
        (align ∣ v - align ∨ ∃ m, StopsAt solver var notail align type st (v - align) m) := by
      rcases hstop with hdvd | ⟨m, hm⟩
      · have hle' := Int.le_of_dvd hv hdvd
        exact ⟨by omega, .inl (Int.dvd_sub hdvd (dvd_refl align))⟩
      · have hm' := hm.of_sub fun heq => hunsat (heq ▸ hm.satisfies)
        have hpos := hm'.pos
        have hbelow := hm'.le
        exact ⟨by omega, .inr ⟨m, hm'⟩⟩
    obtain ⟨v', hv', hrun⟩ := @tuneNotailVar_pos n var notail align st halign _ hnext.1
    have hkept : align ∣ v' ∨ ∃ m, StopsAt solver var notail align type st v' m := by
      rcases hnext.2 with hdvd | ⟨m, hm⟩
      · have h := Int.dvd_sub hdvd hv'.onWay
        exact .inl (by rwa [show v - align - (v - align - v') = v' by omega] at h)
      · exact .inr ⟨m, hm.of_tuned hv'⟩
    by_cases hpos : 0 < v'
    · have hbelow := hv'.le
      obtain ⟨ok, st', hends, hlow⟩ := ih v'.toNat (by omega) hpos (by omega)
        (hv'.divides hpos) hkept rfl
      refine ⟨ok, st', fun tuneFuel fuel htune hfuel => ?_, hlow⟩
      obtain ⟨rest, rfl⟩ : ∃ rest, fuel = rest + 1 := ⟨fuel - 1, by omega⟩
      rw [hround, hrun.enough tuneFuel (by omega), decide_eq_true (ne_of_gt hpos)]
      exact hends tuneFuel rest (by omega) (by omega)
    · -- the way down met zero, and the function reports the failure
      have hzero := hv'.eq_zero hpos hkept
      refine ⟨false, update st var v', fun tuneFuel fuel htune hfuel => ?_,
        fun h => nomatch h⟩
      obtain ⟨rest, rfl⟩ : ∃ rest, fuel = rest + 1 := ⟨fuel - 1, by omega⟩
      rw [hround, hrun.enough tuneFuel (by omega), decide_eq_false (not_not_intro hzero)]

/-- Without a tile to stop at, a descent off the multiples that comes to an end leaves a negative
tile. -/
theorem decreaseUntilSatisfied_strays (halign : 0 < align) (hoff : ¬ align ∣ st var)
    (hnone : ¬ ∃ m, StopsAt solver var notail align type st (st var) m) {tuneFuel fuel : ℕ} {v : ℤ}
    (hway : align ∣ st var - v)
    (hv : v < 0 ∨ 0 < v ∧ v ≤ st var ∧ DividesNotail var notail (update st var v))
    {r : Tuned n}
    (hrun : solver.decreaseUntilSatisfied var align type (tuneNotailVar var notail align tuneFuel)
      fuel (update st var v) = some r) :
    ∃ v' < 0, r = .returned true (update st var v') := by
  induction fuel generalizing v with
  | zero => cases hrun
  | succ fuel ih =>
    have hnz : ∀ {w}, align ∣ st var - w → w ≠ 0 := fun hw h0 => hoff (by
      rwa [h0, sub_zero] at hw)
    rw [decreaseUntilSatisfied, update_self, update_idem] at hrun
    split at hrun
    · have hnext : align ∣ st var - (v - align) := by
        have h := (Int.dvd_add_right (dvd_refl align)).mpr hway
        rwa [show align + (st var - v) = st var - (v - align) by omega] at h
      by_cases hpos : 0 < v - align
      · obtain ⟨v', hv', htune⟩ := @tuneNotailVar_pos n var notail align st halign _ hpos
        have hway' : align ∣ st var - v' := by
          have h := (Int.dvd_add_right hv'.onWay).mpr hnext
          rwa [show v - align - v' + (st var - (v - align)) = st var - v' by omega] at h
        have hle := hv'.le
        have hstart : v ≤ st var := by omega
        cases htuned : tuneNotailVar var notail align tuneFuel
            (update st var (v - align)) with
        | none =>
          rw [htuned] at hrun
          cases hrun
        | some t =>
          rw [htuned, htune.only tuneFuel t htuned, decide_eq_true (hnz hway')] at hrun
          refine ih hway' ?_ hrun
          by_cases hpos' : 0 < v'
          · exact .inr ⟨hpos', by omega, hv'.divides hpos'⟩
          · have hne := hnz hway'
            exact .inl (by omega)
      · -- below zero the tile is no longer tuned
        have hne := hnz hnext
        have hneg : v - align < 0 := by omega
        have htune := @tuneNotailVar_neg n var notail align st _ hneg
        cases htuned : tuneNotailVar var notail align tuneFuel
            (update st var (v - align)) with
        | none =>
          rw [htuned] at hrun
          cases hrun
        | some t =>
          rw [htuned, htune.only tuneFuel t htuned] at hrun
          exact ih hnext (.inl hneg) hrun
    · next hstop =>
      refine ⟨v, ?_, (some.inj hrun).symm⟩
      rcases hv with hneg | ⟨hpos, hle, hdiv⟩
      · exact hneg
      -- a positive tile does not end the loop
      exfalso
      simp only [Bool.and_eq_true, Bool.not_eq_true', decide_eq_true_eq, not_and, not_not] at hstop
      by_cases hsat : solver.satisfyVarCons var type (update st var v) = true
      · exact hnone ⟨v, hpos, hle, hway, hdiv, hsat⟩
      · have heq := hstop (Bool.eq_false_iff.mpr hsat)
        subst heq
        have h := (Int.dvd_add_right hway).mpr (dvd_refl v)
        rw [Int.sub_add_cancel] at h
        exact hoff h

/-- The descent comes back without dividing by zero, and when it succeeds it leaves a legal tile. -/
def EndsLegally (solver : AxesReorderSolver n) (var : Fin n) (notail : Option (Fin n)) (align : ℤ)
    (type : ConstraintType) (st : Values n) : Prop :=
  ∃ size ok st', (∀ fuel, size < fuel →
      solver.tuneNoTail var notail align type fuel st = some (.returned ok st')) ∧
    (ok = true → Lowered solver var notail align type st st')

/-- A descent that is right has a reason to be. -/
theorem EndsLegally.reason (halign : 0 < align) (hpos : 0 < st var)
    (h : EndsLegally solver var notail align type st) :
    align ∣ st var ∨ ∃ m, StopsAt solver var notail align type st (st var) m := by
  obtain ⟨size, ok, st', hends, hlow⟩ := h
  obtain ⟨v', hv', hrun⟩ := @tuneNotailVar_pos n var notail align st halign _ hpos
  rw [update_eq_self] at hrun
  by_contra hno
  obtain ⟨hoff, hnone⟩ := not_or.mp hno
  have hne : v' ≠ 0 := fun h0 => hoff (by
    have h := hv'.onWay
    rwa [h0, sub_zero] at h)
  have hret := hends (max size (st var).toNat + 1) (by omega)
  rw [tuneNoTail, hrun.enough _ (by omega), decide_eq_true hne] at hret
  have hstart : v' < 0 ∨ 0 < v' ∧ v' ≤ st var ∧
      DividesNotail var notail (update st var v') := by
    by_cases hpos' : 0 < v'
    · exact .inr ⟨hpos', hv'.le, hv'.divides hpos'⟩
    · exact .inl (by omega)
  -- the tile it leaves is negative, and it reports a success
  obtain ⟨w, hw, hr⟩ := decreaseUntilSatisfied_strays halign hoff hnone hv'.onWay hstart hret
  obtain ⟨rfl, rfl⟩ := Tuned.returned.inj hr
  have hpos' := (hlow rfl).pos
  rw [update_self] at hpos'
  omega

theorem EndsLegally.of_reason (halign : 0 < align) (hpos : 0 < st var)
    (h : align ∣ st var ∨ ∃ m, StopsAt solver var notail align type st (st var) m) :
    EndsLegally solver var notail align type st := by
  obtain ⟨v', hv', hrun⟩ := @tuneNotailVar_pos n var notail align st halign _ hpos
  rw [update_eq_self] at hrun
  have hkept : align ∣ v' ∨ ∃ m, StopsAt solver var notail align type st v' m := by
    rcases h with hdvd | ⟨m, hm⟩
    · have h := Int.dvd_sub hdvd hv'.onWay
      exact .inl (by rwa [show st var - (st var - v') = v' by omega] at h)
    · exact .inr ⟨m, hm.of_tuned hv'⟩
  by_cases hpos' : 0 < v'
  · obtain ⟨ok, st', hends, hlow⟩ :=
      decreaseUntilSatisfied_ends halign hpos' hv'.le (hv'.divides hpos') hkept
    refine ⟨(st var).toNat, ok, st', fun fuel hfuel => ?_, hlow⟩
    have hle := hv'.le
    rw [tuneNoTail, hrun.enough fuel hfuel, decide_eq_true (ne_of_gt hpos')]
    exact hends fuel fuel (by omega) (by omega)
  · have hzero := hv'.eq_zero hpos' hkept
    refine ⟨(st var).toNat, false, update st var v', fun fuel hfuel => ?_, fun h => ?_⟩
    · rw [tuneNoTail, hrun.enough fuel hfuel, decide_eq_false (not_not_intro hzero)]
    · cases h

/-- The descent is right exactly from a multiple of the alignment, or with a tile to stop at on the
way down. -/
theorem tuneNoTail_endsLegally_iff (halign : 0 < align) (hpos : 0 < st var) :
    EndsLegally solver var notail align type st ↔
      align ∣ st var ∨ ∃ m, StopsAt solver var notail align type st (st var) m :=
  ⟨fun h => h.reason halign hpos, fun h => EndsLegally.of_reason halign hpos h⟩

end Decrease

/-- The tile may be at most five. -/
def upToFive : AxesReorderSolver 2 where
  allCons := []
  relCons := fun _ => [⟨.LB_MIXED, 5, fun st limit => st 0 - limit⟩]
  satisfyUBSizeCacheLine := fun _ _ => true
  ubThresholdSpec := fun spec => spec

theorem tuneNoTail_endsLegally_iff_eight :
    EndsLegally upToFive 0 (some 1) 4 .LB_MIXED ![8, 12] ↔
      (4 : ℤ) ∣ 8 ∨ ∃ m, StopsAt upToFive 0 (some 1) 4 .LB_MIXED ![8, 12] 8 m :=
  tuneNoTail_endsLegally_iff (by decide) (by decide)

/-- Six and two do not divide seven, so the tile goes from six to minus two, which satisfies the
constraint. -/
theorem not_endsLegally_six :
    ¬ EndsLegally upToFive 0 (some 1) 4 .LB_MIXED ![6, 7] := fun h => by
  rcases h.reason (by decide) (by decide) with hdvd | ⟨m, hm⟩
  · revert hdvd
    decide
  have hle : m ≤ 6 := hm.le
  have hpos := hm.pos
  have hdiv : m ∣ 7 := by
    have h := hm.divides 1 rfl
    rw [update_self] at h
    exact h
  have hway : (4 : ℤ) ∣ 6 - m := hm.onWay
  obtain rfl | rfl : m = 6 ∨ m = 2 := by omega
  · revert hdiv
    decide
  · revert hdiv
    decide

end AxesReorderSolver

end GraphAutofusion.Autofuse
