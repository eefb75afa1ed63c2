import GraphAutofusion.Lib.Bisect
import Mathlib.Data.List.Basic
import Mathlib.Order.Bounds.Basic

/-!
# Autofuse.BoundSearch — the binary searches of the solver

Three searches set all variables to one multiple of the alignment and ask whether the constraints
hold: for the largest value within the local buffer, twice, and for the smallest value that uses
the buffer enough. The variables are shared, so every probe overwrites them. A variable is a tile
size: `SetValue` refuses a value that is not positive.

A constraint's formula and the cache line condition are parameters, and so is the limit scaled by
`ub_threshold`, which the source computes in floating point.
-/

namespace GraphAutofusion.Autofuse

open Lib List Option Function

abbrev Values (n : ℕ) := Fin n → ℤ

inductive ConstraintType where
  | LOCAL_BUFFER
  | LB_MIXED
  | MC_MIXED
  deriving DecidableEq

/-- `eval` is positive when the limit is exceeded. -/
structure Constraint (n : ℕ) where
  type : ConstraintType
  relHwSpec : ℤ
  eval : Values n → ℤ → ℤ

structure AxesReorderSolver (n : ℕ) where
  allCons : List (Constraint n)
  relCons : Fin n → List (Constraint n)
  satisfyUBSizeCacheLine : ℕ → Values n → Bool
  /-- `Ceiling(ub_threshold * rel_hw_spec)` -/
  ubThresholdSpec : ℤ → ℤ

/-- `a / b` truncates, and one is added when there is a remainder. -/
def ceilDiv (a b : ℤ) : ℤ :=
  let res := a.tdiv b
  if res * b = a then res else res + 1

namespace AxesReorderSolver

variable {n : ℕ} (solver : AxesReorderSolver n)

def setValue (st : Values n) (var : Fin n) (val : ℤ) : Values n :=
  if 0 < val then Function.update st var val else st

def setValues (st : Values n) (vars : List (Fin n)) (val : ℤ) : Values n :=
  vars.foldl (fun st var => setValue st var val) st

/-- Sets each variable to its own saved value. -/
def restoreValues (st : Values n) (vars : List (Fin n)) (oldValues : List ℤ) : Values n :=
  (vars.zip oldValues).foldl (fun st p => setValue st p.1 p.2) st

def satisfyCons (type : ConstraintType) (st : Values n) : Bool :=
  solver.allCons.all fun cons => cons.type ≠ type || cons.eval st cons.relHwSpec ≤ 0

/-- `SatisfyCons` of one variable, with the limits scaled by `ub_threshold`. -/
def satisfyConsByThreshold (var : Fin n) (type : ConstraintType) (st : Values n) : Bool :=
  (solver.relCons var).all fun cons =>
    cons.type ≠ type || cons.eval st (solver.ubThresholdSpec cons.relHwSpec) ≤ 0

def isSatisfyCons (var : Fin n) (val : ℤ) (type : ConstraintType) (st : Values n) : Bool × Values n :=
  let old := st var
  let st := setValue st var val
  (solver.satisfyConsByThreshold var type st, setValue st var old)

/-! ## BinarySearchWithAlignment -/

/-- The loop: the best value so far and the variables. -/
def searchAligned (vars : List (Fin n)) (align : ℤ) :
    ℕ → ℤ → ℤ → ℤ → Values n → Option (ℤ × Values n)
  | 0, _, _, _, _ => none
  | fuel + 1, left, right, result, st =>
    if right < left then some (result, st)
    else
      let mid := left + (right - left).tdiv 2
      let mid := ceilDiv mid align * align
      let st := setValues st vars mid
      if solver.satisfyCons .LOCAL_BUFFER st then
        searchAligned vars align fuel (mid + align) right mid st
      else searchAligned vars align fuel left (mid - align) result st

def binarySearchWithAlignment (vars : List (Fin n)) (lowerBound upperBound align : ℤ) (fuel : ℕ)
    (st : Values n) : Option (Bool × Values n) :=
  if upperBound < lowerBound then some (false, st)
  else
    (solver.searchAligned vars align fuel lowerBound upperBound (-1) st).map fun r =>
      (r.1 ≠ -1, r.2)

/-! ## BinaryFindUpperBoundSatisfiedUBLimit -/

/-- What a search returns: whether it succeeds, the result, and the variables. -/
structure SearchResult (n : ℕ) where
  found : Bool
  result : ℤ
  values : Values n

def searchUBLimit (vars : List (Fin n)) (align : ℤ) :
    ℕ → ℤ → ℤ → ℤ → Values n → Option (ℤ × Values n)
  | 0, _, _, _, _ => none
  | fuel + 1, leftIdx, rightIdx, result, st =>
    if rightIdx < leftIdx then some (result, st)
    else
      let midIdx := leftIdx + (rightIdx - leftIdx).tdiv 2
      let candidate := midIdx * align
      let st := setValues st vars candidate
      if solver.satisfyCons .LOCAL_BUFFER st then
        searchUBLimit vars align fuel (midIdx + 1) rightIdx candidate st
      else searchUBLimit vars align fuel leftIdx (midIdx - 1) result st

/-- `align` is the alignment of the first variable, and `result` is a reference of the caller. -/
def binaryFindUpperBoundSatisfiedUBLimit (vars : List (Fin n)) (align : Fin n → ℤ)
    (lowerBound result : ℤ) (fuel : ℕ) (st : Values n) : Option (SearchResult n) :=
  match vars with
  | [] => some ⟨false, result, st⟩
  | var :: _ =>
    let align := align var
    if align ≤ 0 then some ⟨false, result, st⟩
    else
      let rawUpper := st var
      let alignedLower := ceilDiv lowerBound align * align
      let alignedUpper := rawUpper.tdiv align * align
      if alignedUpper < alignedLower then some ⟨false, result, st⟩
      else
        let oldValues := vars.map st
        let st := setValues st vars alignedUpper
        -- the early exit leaves the variables at the upper end
        if solver.satisfyCons .LOCAL_BUFFER st then some ⟨true, alignedUpper, st⟩
        else
          (solver.searchUBLimit vars align fuel (alignedLower.tdiv align) (alignedUpper.tdiv align)
            alignedLower st).map fun r => ⟨true, r.1, restoreValues r.2 vars oldValues⟩

/-! ## BinaryFindLowerBoundSatisfiedUBThresholdCond -/

/-- The condition at the current values: the cache line condition of every variable, then the use
of the buffer, asked through the first variable. -/
def thresholdCond (vars : List (Fin n)) (idxs : List ℕ) (candidate : ℤ) (st : Values n) :
    Bool × Values n :=
  match vars with
  | [] => (false, st)
  | var :: _ =>
    if idxs.all fun idx => solver.satisfyUBSizeCacheLine idx st then
      let below := solver.isSatisfyCons var candidate .LOCAL_BUFFER st
      (!below.1, below.2)
    else (false, st)

def searchUBThreshold (vars : List (Fin n)) (idxs : List ℕ) (align : ℤ) :
    ℕ → ℤ → ℤ → ℤ → Values n → Option (ℤ × Values n)
  | 0, _, _, _, _ => none
  | fuel + 1, leftIdx, rightIdx, result, st =>
    if rightIdx < leftIdx then some (result, st)
    else
      let midIdx := leftIdx + (rightIdx - leftIdx).tdiv 2
      let candidate := midIdx * align
      let cond := solver.thresholdCond vars idxs candidate (setValues st vars candidate)
      if cond.1 then searchUBThreshold vars idxs align fuel leftIdx (midIdx - 1) candidate cond.2
      else searchUBThreshold vars idxs align fuel (midIdx + 1) rightIdx result cond.2

def binaryFindLowerBoundSatisfiedUBThresholdCond (vars : List (Fin n)) (idxs : List ℕ)
    (align : Fin n → ℤ) (lowerBound result : ℤ) (fuel : ℕ) (st : Values n) :
    Option (SearchResult n) :=
  match vars with
  | [] => some ⟨false, result, st⟩
  | var :: _ =>
    let upperBound := st var
    if upperBound < lowerBound then some ⟨false, result, st⟩
    else
      let align := align var
      if align ≤ 0 then some ⟨false, result, st⟩
      else
        let alignedLower := ceilDiv lowerBound align * align
        let alignedUpper := upperBound.tdiv align * align
        if alignedUpper < alignedLower then some ⟨false, result, st⟩
        else
          let oldValues := vars.map st
          let st := setValues st vars alignedLower
          -- `vars[0]->value` is asked for, which is the lower end
          let bound := solver.thresholdCond vars idxs (st var) st
          if bound.1 then some ⟨true, alignedLower, bound.2⟩
          else
            (solver.searchUBThreshold vars idxs align fuel (alignedLower.tdiv align)
              (alignedUpper.tdiv align) alignedUpper bound.2).map fun r =>
                ⟨true, r.1, restoreValues r.2 vars oldValues⟩

/-! ## Values and ranges -/

section Values

variable {st st' : Values n} {vars : List (Fin n)} {val : ℤ}

theorem setValues_of_notMem (hval : 0 < val) {v : Fin n} (hmem : v ∉ vars) :
    setValues st vars val v = st v := by
  induction vars generalizing st with
  | nil => rfl
  | cons var vars ih =>
    have hset : setValue st var val = update st var val := if_pos hval
    have hne : v ≠ var := fun h => hmem (h ▸ mem_cons_self)
    show setValues (setValue st var val) vars val v = st v
    rw [hset, ih fun h => hmem (mem_cons_of_mem _ h), update_of_ne hne]

theorem setValues_of_mem (hval : 0 < val) {v : Fin n} (hmem : v ∈ vars) :
    setValues st vars val v = val := by
  induction vars generalizing st with
  | nil => exact absurd hmem not_mem_nil
  | cons var vars ih =>
    show setValues (setValue st var val) vars val v = val
    by_cases hrest : v ∈ vars
    · exact ih hrest
    · -- `var` is the last one of the list that is `v`
      have heq : v = var := (mem_cons.mp hmem).resolve_right hrest
      have hset : setValue st var val = update st var val := if_pos hval
      rw [setValues_of_notMem hval hrest, hset, heq, update_self]

/-- What the variables hold is overwritten, so only the other ones matter. -/
theorem setValues_congr (hagree : ∀ v, v ∉ vars → st' v = st v) (hval : 0 < val) :
    setValues st' vars val = setValues st vars val := by
  funext v
  by_cases hmem : v ∈ vars
  · rw [setValues_of_mem hval hmem, setValues_of_mem hval hmem]
  · rw [setValues_of_notMem hval hmem, setValues_of_notMem hval hmem, hagree v hmem]

/-- Restoring gives the saved values back, whatever the variables hold. -/
theorem restoreValues_saved (hagree : ∀ v, v ∉ vars → st' v = st v) (hpos : ∀ v ∈ vars, 0 < st v) :
    restoreValues st' vars (vars.map st) = st := by
  induction vars generalizing st' with
  | nil =>
    funext v
    exact hagree v not_mem_nil
  | cons var vars ih =>
    have hset : setValue st' var (st var) = update st' var (st var) :=
      if_pos (hpos var mem_cons_self)
    show restoreValues (setValue st' var (st var)) vars (vars.map st) = st
    rw [hset]
    refine ih (fun v hv => ?_) fun v hv => hpos v (mem_cons_of_mem _ hv)
    by_cases heq : v = var
    · rw [heq, update_self]
    · rw [update_of_ne heq]
      exact hagree v fun h => (mem_cons.mp h).elim heq hv

end Values

section Ranges

variable {align lower upper : ℤ}

section

variable (halign : 0 < align)
include halign

theorem ceilDiv_spec (hlower : 0 ≤ lower) :
    lower ≤ ceilDiv lower align * align ∧ (ceilDiv lower align - 1) * align < lower := by
  have hdiv : lower.tdiv align * align + lower.tmod align = lower := by
    rw [mul_comm]
    exact Int.mul_tdiv_add_tmod lower align
  have hmod := Int.tmod_lt_of_pos lower halign
  have hnonneg := Int.tmod_nonneg align hlower
  unfold ceilDiv
  dsimp only
  split
  · next hexact =>
    rw [sub_mul]
    omega
  · next hrest =>
    rw [add_mul, Int.add_sub_cancel]
    omega

theorem ceilDiv_mul (q : ℤ) : ceilDiv (q * align) align = q := by
  unfold ceilDiv
  dsimp only
  rw [Int.mul_tdiv_cancel q (ne_of_gt halign), if_pos rfl]

theorem tdiv_spec (hupper : 0 ≤ upper) :
    upper.tdiv align * align ≤ upper ∧ upper < (upper.tdiv align + 1) * align := by
  have hdiv : upper.tdiv align * align + upper.tmod align = upper := by
    rw [mul_comm]
    exact Int.mul_tdiv_add_tmod upper align
  have hmod := Int.tmod_lt_of_pos upper halign
  have hnonneg := Int.tmod_nonneg align hupper
  rw [add_mul]
  omega

theorem ceilDiv_pos (hlower : 0 < lower) : 0 < ceilDiv lower align := by
  have hlow := (ceilDiv_spec halign (le_of_lt hlower)).1
  by_contra hneg
  have h := mul_le_mul_of_nonneg_right (not_lt.mp hneg) (le_of_lt halign)
  rw [zero_mul] at h
  omega

/-- There are at most as many indices as values. -/
theorem indices_lt {fuel : ℕ} (hlower : 0 < lower) (hupper : 0 ≤ upper)
    (hfuel : upper < fuel) : (upper.tdiv align - ceilDiv lower align + 1).toNat < fuel := by
  have hlow := ceilDiv_pos halign hlower
  have hup := (tdiv_spec halign hupper).1
  have hle := mul_le_mul_of_nonneg_left (Int.add_one_le_of_lt halign) (Int.tdiv_nonneg hupper
    (le_of_lt halign))
  omega

/-- The first `size` multiples from a positive one on that have a property are those below a bound,
when every smaller value has it too. -/
theorem exists_indexBound {left : ℤ} (hleft : 0 < left) {good : ℤ → Bool}
    (hanti : ∀ a b, 0 < a → a ≤ b → good b = true → good a = true) (size : ℕ) :
    ∃ bound ≤ size, ∀ i < size, (good ((left + (i : ℕ)) * align) = true ↔ i < bound) := by
  apply exists_bound
  intro i j hij
  refine hanti _ _ (mul_pos (by omega) halign) ?_
  exact mul_le_mul_of_nonneg_right (by omega) (le_of_lt halign)

end

/-- A multiple of the alignment between two bounds. -/
def InRange (align lower upper m : ℤ) : Prop := align ∣ m ∧ lower ≤ m ∧ m ≤ upper

/-- The multiples in a range are numbered by the indices that the searches go over. -/
theorem inRange_iff (halign : 0 < align) (hlower : 0 ≤ lower) (hupper : 0 ≤ upper) {m : ℤ} :
    InRange align lower upper m ↔
      ∃ i, m = i * align ∧ ceilDiv lower align ≤ i ∧ i ≤ upper.tdiv align := by
  obtain ⟨hlow, hlow'⟩ := ceilDiv_spec halign hlower
  obtain ⟨hup, hup'⟩ := tdiv_spec halign hupper
  constructor
  · rintro ⟨⟨i, rfl⟩, hge, hle⟩
    rw [Int.mul_comm] at hge hle
    have h1 : ceilDiv lower align - 1 < i := Int.lt_of_mul_lt_mul_right (by omega) (Int.le_of_lt halign)
    have h2 : i < upper.tdiv align + 1 := Int.lt_of_mul_lt_mul_right (by omega) (Int.le_of_lt halign)
    exact ⟨i, Int.mul_comm _ _, by omega, by omega⟩
  · rintro ⟨i, rfl, hge, hle⟩
    have h1 := Int.mul_le_mul_of_nonneg_right hge (Int.le_of_lt halign)
    have h2 := Int.mul_le_mul_of_nonneg_right hle (Int.le_of_lt halign)
    exact ⟨Int.dvd_mul_left i align, by omega, by omega⟩

end Ranges

/-! ## The limit of the local buffer -/

section UBLimit

variable {solver : AxesReorderSolver n} {st st' : Values n} {vars : List (Fin n)} {align : ℤ}

/-- The loop of `BinaryFindUpperBoundSatisfiedUBLimit` over the indices from `left` on, of which the
first `bound` satisfy the constraints. -/
theorem searchUBLimit_eq (halign : 0 < align) {fuel size bound : ℕ} {left result : ℤ}
    (hfuel : size < fuel) (hleft : 0 < left) (hbound : bound ≤ size)
    (hholds : ∀ i < size, (solver.satisfyCons .LOCAL_BUFFER
      (setValues st vars ((left + (i : ℕ)) * align)) = true ↔ i < bound))
    (hagree : ∀ v, v ∉ vars → st' v = st v) :
    ∃ last, solver.searchUBLimit vars align fuel left (left + size - 1) result st' =
        some (if bound = 0 then result else (left + bound - 1) * align, last) ∧
      ∀ v, v ∉ vars → last v = st v := by
  let probe := fun (i : ℤ) (st : Values n) =>
    (solver.satisfyCons .LOCAL_BUFFER (setValues st vars (i * align)), setValues st vars (i * align))
  have hloop : ∀ fuel left right result st, solver.searchUBLimit vars align fuel left right result st =
      searchIdx probe true (· * align) fuel left right result st := by
    intro fuel
    induction fuel with
    | zero => exact fun _ _ _ _ => rfl
    | succ fuel ih =>
      intro left right result st
      rw [searchUBLimit, searchIdx]
      simp only [ih, probe]
      split
      · rfl
      · split <;> rfl
  rw [hloop]
  refine searchIdx_eq hfuel hbound hagree fun i hi s hs => ?_
  have hcand : 0 < (left + (i : ℤ)) * align := mul_pos (by omega) halign
  dsimp only [probe]
  rw [setValues_congr hs hcand]
  exact ⟨hholds i hi, fun v hv => setValues_of_notMem hcand hv⟩

/-- The ends of the aligned interval. -/
def alignedLower (align lowerBound : ℤ) : ℤ := ceilDiv lowerBound align * align

def alignedUpper (align upperBound : ℤ) : ℤ := upperBound.tdiv align * align

theorem inRange_aligned {lower upper m : ℤ} (halign : 0 < align) :
    InRange align (alignedLower align lower) (alignedUpper align upper) m ↔
      ∃ i, m = i * align ∧ ceilDiv lower align ≤ i ∧ i ≤ upper.tdiv align := by
  constructor
  · rintro ⟨⟨i, rfl⟩, hge, hle⟩
    rw [Int.mul_comm] at hge hle
    exact ⟨i, Int.mul_comm _ _, Int.le_of_mul_le_mul_right hge halign,
      Int.le_of_mul_le_mul_right hle halign⟩
  · rintro ⟨i, rfl, hge, hle⟩
    exact ⟨Int.dvd_mul_left i align, Int.mul_le_mul_of_nonneg_right hge (Int.le_of_lt halign),
      Int.mul_le_mul_of_nonneg_right hle (Int.le_of_lt halign)⟩

/-- What the search promises: a multiple in the aligned interval of the first variable, the largest
one that satisfies the constraints if the smallest one does, and the variables as they were. -/
structure UBLimitFound (solver : AxesReorderSolver n) (vars : List (Fin n)) (align : Fin n → ℤ)
    (lowerBound : ℤ) (st : Values n) (r : SearchResult n) : Prop where
  inRange : r.found = true → ∃ var ∈ vars.head?, InRange (align var)
    (alignedLower (align var) lowerBound) (alignedUpper (align var) (st var)) r.result
  greatest : ∀ var ∈ vars.head?, r.found = true →
    solver.satisfyCons .LOCAL_BUFFER (setValues st vars (alignedLower (align var) lowerBound)) = true →
    IsGreatest {m | InRange (align var) (alignedLower (align var) lowerBound)
      (alignedUpper (align var) (st var)) m ∧
      solver.satisfyCons .LOCAL_BUFFER (setValues st vars m) = true} r.result
  restored : r.values = st

theorem setValues_eq_self_iff {val : ℤ} (hval : 0 < val) :
    setValues st vars val = st ↔ ∀ v ∈ vars, st v = val := by
  constructor
  · intro h v hv
    have hv' := congrFun h v
    rw [setValues_of_mem hval hv] at hv'
    exact hv'.symm
  · intro h
    funext v
    by_cases hv : v ∈ vars
    · rw [setValues_of_mem hval hv, h v hv]
    · exact setValues_of_notMem hval hv

/-- The search keeps its promise exactly when the upper end of the interval does not satisfy the
constraints, or the variables are there already. -/
theorem binaryFindUpperBoundSatisfiedUBLimit_iff (solver : AxesReorderSolver n) (vars : List (Fin n))
    (align : Fin n → ℤ) (lowerBound result : ℤ) (st : Values n) (fuel : ℕ)
    (halign : ∀ v ∈ vars, 1 ≤ align v) (hlower : 0 < lowerBound) (hst : ∀ v ∈ vars, 0 < st v)
    (hmono : ∀ a b, 0 < a → a ≤ b →
      solver.satisfyCons .LOCAL_BUFFER (setValues st vars b) = true →
      solver.satisfyCons .LOCAL_BUFFER (setValues st vars a) = true)
    (hfuel : ∀ v ∈ vars, st v < fuel) :
    ∃ r, solver.binaryFindUpperBoundSatisfiedUBLimit vars align lowerBound result fuel st = some r ∧
      (UBLimitFound solver vars align lowerBound st r ↔ ∀ var ∈ vars.head?,
        alignedLower (align var) lowerBound ≤ alignedUpper (align var) (st var) →
        solver.satisfyCons .LOCAL_BUFFER
          (setValues st vars (alignedUpper (align var) (st var))) = true →
        ∀ v ∈ vars, st v = alignedUpper (align var) (st var)) := by
  cases vars with
  | nil =>
    refine ⟨⟨false, result, st⟩, rfl, fun _ var hvar => ?_, fun _ => ⟨?_, ?_, rfl⟩⟩
    · simp at hvar
    · intro h
      simp at h
    · intro var hvar
      simp at hvar
  | cons var rest =>
    generalize hvars : var :: rest = vars at *
    have hhead : vars.head? = some var := by rw [← hvars, head?_cons]
    have hmem : var ∈ vars := by rw [← hvars]; exact mem_cons_self
    have ha : 0 < align var := halign var hmem
    have hv : 0 < st var := hst var hmem
    generalize halignVar : align var = a at *
    have hleft := ceilDiv_pos ha hlower
    have hrun : solver.binaryFindUpperBoundSatisfiedUBLimit vars align lowerBound result fuel st =
        if alignedUpper a (st var) < alignedLower a lowerBound then some ⟨false, result, st⟩
        else if solver.satisfyCons .LOCAL_BUFFER (setValues st vars (alignedUpper a (st var))) then
          some ⟨true, alignedUpper a (st var), setValues st vars (alignedUpper a (st var))⟩
        else (solver.searchUBLimit vars a fuel (ceilDiv lowerBound a) ((st var).tdiv a)
          (alignedLower a lowerBound) (setValues st vars (alignedUpper a (st var)))).map fun r =>
            ⟨true, r.1, restoreValues r.2 vars (vars.map st)⟩ := by
      rw [← hvars, binaryFindUpperBoundSatisfiedUBLimit]
      dsimp only
      rw [halignVar, if_neg (Int.not_le.mpr ha), Int.mul_tdiv_cancel _ (Int.ne_of_gt ha),
        Int.mul_tdiv_cancel _ (Int.ne_of_gt ha)]
      rfl
    rw [hrun]
    have hof : ∀ P : Fin n → Prop, (∀ v ∈ vars.head?, P v) ↔ P var := by
      intro P
      rw [hhead]
      simp
    rw [hof, halignVar]
    by_cases hempty : alignedUpper a (st var) < alignedLower a lowerBound
    · -- the interval is empty
      rw [if_pos hempty]
      refine ⟨_, rfl, fun _ hle => absurd hle (Int.not_le.mpr hempty), fun _ => ⟨?_, ?_, rfl⟩⟩
      · intro h
        simp at h
      · intro v _ h
        simp at h
    rw [if_neg hempty]
    have hle : alignedLower a lowerBound ≤ alignedUpper a (st var) := Int.not_lt.mp hempty
    have hindex : ceilDiv lowerBound a ≤ (st var).tdiv a := Int.le_of_mul_le_mul_right hle ha
    have hupper : 0 < alignedUpper a (st var) := Int.mul_pos (by omega) ha
    by_cases hsat : solver.satisfyCons .LOCAL_BUFFER
        (setValues st vars (alignedUpper a (st var))) = true
    · -- the early exit: everything but the restoring holds
      rw [if_pos hsat]
      refine ⟨_, rfl, fun h _ _ => (setValues_eq_self_iff hupper).mp h.restored, fun h => ?_⟩
      have hmem' : InRange a (alignedLower a lowerBound) (alignedUpper a (st var))
          (alignedUpper a (st var)) := (inRange_aligned ha).mpr ⟨_, rfl, hindex, Int.le_refl _⟩
      refine ⟨fun _ => ⟨var, hhead, ?_⟩, ?_, (setValues_eq_self_iff hupper).mpr (h hle hsat)⟩
      · rw [halignVar]
        exact hmem'
      · intro v hv' _ _
        rw [hhead, Option.mem_some_iff] at hv'
        subst hv'
        rw [halignVar]
        exact ⟨⟨hmem', hsat⟩, fun m hm => hm.1.2.2⟩
    rw [if_neg hsat]
    -- the search goes over the indices of the interval
    obtain ⟨bound, hbound, hholds⟩ := @exists_indexBound a ha _ hleft
      (fun m => solver.satisfyCons .LOCAL_BUFFER (setValues st vars m)) hmono
      ((st var).tdiv a - ceilDiv lowerBound a + 1).toNat
    have hright : (st var).tdiv a = ceilDiv lowerBound a +
        (((st var).tdiv a - ceilDiv lowerBound a + 1).toNat : ℤ) - 1 := by omega
    have hsize := indices_lt ha hlower (Int.le_of_lt hv) (hfuel var hmem)
    obtain ⟨last, hsearch, hlast⟩ := @searchUBLimit_eq n solver st
      (setValues st vars (alignedUpper a (st var))) vars a ha fuel _ bound _
      (alignedLower a lowerBound) hsize hleft hbound hholds
      fun v hv' => setValues_of_notMem hupper hv'
    rw [← hright] at hsearch
    rw [hsearch, Option.map_some, restoreValues_saved hlast hst]
    refine ⟨_, rfl, fun _ _ h => absurd h hsat, fun _ => ⟨fun _ => ⟨var, hhead, ?_⟩, ?_, rfl⟩⟩
    · rw [halignVar]
      refine (inRange_aligned ha).mpr ?_
      dsimp only
      split
      · exact ⟨_, rfl, Int.le_refl _, hindex⟩
      · exact ⟨_, rfl, by omega, by omega⟩
    · intro v hv' _ hlowest
      rw [hhead, Option.mem_some_iff] at hv'
      subst hv'
      rw [halignVar] at hlowest ⊢
      -- the lower end satisfies the constraints, so the bound is past it
      have hfirst : 0 < bound := by
        refine (hholds 0 (by omega)).mp ?_
        have hzero : (ceilDiv lowerBound a + ((0 : ℕ) : ℤ)) * a = alignedLower a lowerBound := by
          rw [Int.natCast_zero, Int.add_zero, alignedLower]
        show solver.satisfyCons .LOCAL_BUFFER (setValues st vars _) = true
        rw [hzero]
        exact hlowest
      dsimp only
      rw [if_neg (by omega : ¬ bound = 0)]
      refine ⟨⟨(inRange_aligned ha).mpr ⟨_, rfl, by omega, by omega⟩, ?_⟩, ?_⟩
      · have h := (hholds (bound - 1) (by omega)).mpr (by omega)
        have hidx : ceilDiv lowerBound a + ((bound - 1 : ℕ) : ℤ) = ceilDiv lowerBound a + bound - 1 := by
          omega
        rw [← hidx]
        exact h
      · rintro m ⟨hm, hmsat⟩
        obtain ⟨i, rfl, hge, hle'⟩ := (inRange_aligned ha).mp hm
        refine Int.mul_le_mul_of_nonneg_right ?_ (Int.le_of_lt ha)
        have hidx : ceilDiv lowerBound a + ((i - ceilDiv lowerBound a).toNat : ℤ) = i := by omega
        have h := (hholds (i - ceilDiv lowerBound a).toNat (by omega)).mp (by
          show solver.satisfyCons .LOCAL_BUFFER (setValues st vars _) = true
          rw [hidx]
          exact hmsat)
        omega

end UBLimit

/-! ## The use of the local buffer -/

section UBThreshold

variable {solver : AxesReorderSolver n} {st st' : Values n} {var : Fin n} {vars : List (Fin n)}
  {idxs : List ℕ} {align : ℤ}

/-- Every variable meets its cache line condition, and more of the buffer is used than the threshold
says. -/
def meetsThreshold (solver : AxesReorderSolver n) (vars : List (Fin n)) (idxs : List ℕ)
    (st : Values n) : Bool :=
  match vars with
  | [] => false
  | var :: _ => (idxs.all fun idx => solver.satisfyUBSizeCacheLine idx st) &&
      !solver.satisfyConsByThreshold var .LOCAL_BUFFER st

/-- Asking for the value that the first variable has changes nothing. -/
theorem thresholdCond_eq (hval : 0 < st var) :
    solver.thresholdCond (var :: vars) idxs (st var) st =
      (solver.meetsThreshold (var :: vars) idxs st, st) := by
  have hset : setValue st var (st var) = st := by
    rw [setValue, if_pos hval, update_eq_self]
  unfold thresholdCond meetsThreshold
  dsimp only
  split
  · next hall => simp only [isSatisfyCons, hset, hall, Bool.true_and]
  · next hall => simp only [hall, Bool.false_and]

/-- The loop of `BinaryFindLowerBoundSatisfiedUBThresholdCond` over the indices from `left` on, of
which those from `bound` on meet the condition. -/
theorem searchUBThreshold_eq (halign : 0 < align) (hvar : var ∈ vars.head?) {fuel size bound : ℕ}
    {left result : ℤ} (hfuel : size < fuel) (hleft : 0 < left) (hbound : bound ≤ size)
    (hholds : ∀ i < size, (solver.meetsThreshold vars idxs
      (setValues st vars ((left + (i : ℕ)) * align)) = true ↔ bound ≤ i))
    (hagree : ∀ v, v ∉ vars → st' v = st v) :
    ∃ last, solver.searchUBThreshold vars idxs align fuel left (left + size - 1) result st' =
        some (if bound = size then result else (left + bound) * align, last) ∧
      ∀ v, v ∉ vars → last v = st v := by
  let cond := fun (i : ℤ) (st : Values n) =>
    solver.thresholdCond vars idxs (i * align) (setValues st vars (i * align))
  -- an index that meets the condition leads to the left
  have hloop : ∀ fuel left right result st,
      solver.searchUBThreshold vars idxs align fuel left right result st =
        searchIdx (fun i st => (!(cond i st).1, (cond i st).2)) false (· * align) fuel left right
          result st := by
    intro fuel
    induction fuel with
    | zero => exact fun _ _ _ _ => rfl
    | succ fuel ih =>
      intro left right result st
      rw [searchUBThreshold, searchIdx]
      simp only [ih, cond]
      split
      · rfl
      · split
        · next hyes => simp only [hyes, Bool.not_true, if_true, Bool.false_eq_true, if_false]
        · next hno => simp only [hno, Bool.not_false, if_true, Bool.true_eq_false, if_false]
  rw [hloop]
  refine searchIdx_eq hfuel hbound hagree fun i hi s hs => ?_
  have hcand : 0 < (left + (i : ℤ)) * align := mul_pos (by omega) halign
  cases vars with
  | nil => simp at hvar
  | cons head rest =>
    have hfirst : setValues st (head :: rest) ((left + (i : ℤ)) * align) head = (left + i) * align :=
      setValues_of_mem hcand mem_cons_self
    have hcond := @thresholdCond_eq n solver (setValues st (head :: rest) ((left + (i : ℤ)) * align)) head
      rest idxs (hfirst.symm ▸ hcand)
    rw [hfirst] at hcond
    dsimp only [cond]
    rw [setValues_congr hs hcand, hcond]
    refine ⟨?_, fun v hv => setValues_of_notMem hcand hv⟩
    rw [Bool.not_eq_true', Bool.eq_false_iff, ne_eq, hholds i hi, not_le]

/-- What the search promises: it decides whether a multiple of the range meets the condition, finds
the smallest one, and leaves the variables as they were. -/
structure ThresholdDecided (solver : AxesReorderSolver n) (vars : List (Fin n)) (idxs : List ℕ)
    (align : Fin n → ℤ) (lowerBound : ℤ) (st : Values n) (r : SearchResult n) : Prop where
  found_iff : r.found = true ↔ ∃ var ∈ vars.head?, ∃ m, InRange (align var) lowerBound (st var) m ∧
    solver.meetsThreshold vars idxs (setValues st vars m) = true
  least : ∀ var ∈ vars.head?, r.found = true → IsLeast {m | InRange (align var) lowerBound (st var) m ∧
    solver.meetsThreshold vars idxs (setValues st vars m) = true} r.result
  restored : r.values = st

/-- A range whose ends cross holds no multiple. -/
theorem not_inRange_of_crossed {lower upper m : ℤ} (halign : 0 < align) (hlower : 0 ≤ lower)
    (hupper : 0 ≤ upper) (hcrossed : alignedUpper align upper < alignedLower align lower) :
    ¬ InRange align lower upper m := by
  intro hm
  obtain ⟨i, -, hge, hle⟩ := (inRange_iff halign hlower hupper).mp hm
  have h1 := mul_le_mul_of_nonneg_right (le_trans hge hle) (le_of_lt halign)
  rw [alignedUpper, alignedLower] at hcrossed
  omega

/-- The search keeps its promise exactly when the smallest multiple does not meet the condition but
the greatest does, when the variables hold a smallest multiple that meets it, or when there is no
multiple. -/
theorem binaryFindLowerBoundSatisfiedUBThresholdCond_iff (solver : AxesReorderSolver n)
    (vars : List (Fin n)) (idxs : List ℕ) (align : Fin n → ℤ) (lowerBound result : ℤ) (st : Values n)
    (fuel : ℕ) (halign : ∀ v ∈ vars, 1 ≤ align v) (hlower : 0 < lowerBound)
    (hst : ∀ v ∈ vars, 0 < st v)
    (hmono : ∀ a b, 0 < a → a ≤ b →
      solver.meetsThreshold vars idxs (setValues st vars a) = true →
      solver.meetsThreshold vars idxs (setValues st vars b) = true)
    (hfuel : ∀ v ∈ vars, st v < fuel) :
    ∃ r, solver.binaryFindLowerBoundSatisfiedUBThresholdCond vars idxs align lowerBound result fuel st =
        some r ∧
      (ThresholdDecided solver vars idxs align lowerBound st r ↔ ∀ var ∈ vars.head?,
        alignedLower (align var) lowerBound ≤ alignedUpper (align var) (st var) →
        if solver.meetsThreshold vars idxs
            (setValues st vars (alignedLower (align var) lowerBound)) = true then
          ∀ v ∈ vars, st v = alignedLower (align var) lowerBound
        else solver.meetsThreshold vars idxs
          (setValues st vars (alignedUpper (align var) (st var))) = true) := by
  cases vars with
  | nil =>
    refine ⟨⟨false, result, st⟩, rfl, fun _ var hvar => ?_, fun _ => ⟨?_, ?_, rfl⟩⟩
    · simp at hvar
    · simp
    · intro var hvar
      simp at hvar
  | cons var rest =>
    generalize hvars : var :: rest = vars at *
    have hhead : vars.head? = some var := by rw [← hvars, head?_cons]
    have hmem : var ∈ vars := by rw [← hvars]; exact mem_cons_self
    have ha : 0 < align var := halign var hmem
    have hv : 0 < st var := hst var hmem
    have hof : ∀ P : Fin n → Prop, (∀ v ∈ vars.head?, P v) ↔ P var := by
      intro P
      rw [hhead]
      simp
    have hsome : ∀ P : Fin n → Prop, (∃ v ∈ vars.head?, P v) ↔ P var := by
      intro P
      rw [hhead]
      simp
    have hdecided : ∀ r, ThresholdDecided solver vars idxs align lowerBound st r ↔
        (r.found = true ↔ ∃ m, InRange (align var) lowerBound (st var) m ∧
          solver.meetsThreshold vars idxs (setValues st vars m) = true) ∧
        (r.found = true → IsLeast {m | InRange (align var) lowerBound (st var) m ∧
          solver.meetsThreshold vars idxs (setValues st vars m) = true} r.result) ∧ r.values = st := by
      intro r
      constructor
      · intro h
        exact ⟨h.found_iff.trans (hsome _), (hof _).mp h.least, h.restored⟩
      · rintro ⟨h1, h2, h3⟩
        have hall := hsome fun v => ∃ m, InRange (align v) lowerBound (st v) m ∧
          solver.meetsThreshold vars idxs (setValues st vars m) = true
        exact ⟨h1.trans hall.symm, (hof _).mpr h2, h3⟩
    simp only [hof, hdecided]
    generalize halignVar : align var = a at *
    have hleft := ceilDiv_pos ha hlower
    have hlowPos : 0 < alignedLower a lowerBound := Int.mul_pos hleft ha
    have hrun : solver.binaryFindLowerBoundSatisfiedUBThresholdCond vars idxs align lowerBound result
        fuel st =
        if alignedUpper a (st var) < alignedLower a lowerBound then some ⟨false, result, st⟩
        else if solver.meetsThreshold vars idxs (setValues st vars (alignedLower a lowerBound)) then
          some ⟨true, alignedLower a lowerBound, setValues st vars (alignedLower a lowerBound)⟩
        else (solver.searchUBThreshold vars idxs a fuel (ceilDiv lowerBound a) ((st var).tdiv a)
          (alignedUpper a (st var)) (setValues st vars (alignedLower a lowerBound))).map fun r =>
            ⟨true, r.1, restoreValues r.2 vars (vars.map st)⟩ := by
      have hfirst : setValues st vars (alignedLower a lowerBound) var = alignedLower a lowerBound := by
        exact setValues_of_mem hlowPos hmem
      have hcond := @thresholdCond_eq n solver (setValues st vars (alignedLower a lowerBound)) var
        rest idxs (by rw [hfirst]; exact hlowPos)
      rw [hvars] at hcond
      rw [← hvars, binaryFindLowerBoundSatisfiedUBThresholdCond, hvars]
      dsimp only
      rw [halignVar]
      show (if _ then _ else if _ then _ else if alignedUpper a (st var) < alignedLower a lowerBound
        then _ else if (solver.thresholdCond vars idxs
          (setValues st vars (alignedLower a lowerBound) var)
          (setValues st vars (alignedLower a lowerBound))).1 = true then _ else _) = _
      by_cases hempty : alignedUpper a (st var) < alignedLower a lowerBound
      · rw [if_pos hempty, if_pos hempty, if_neg (Int.not_le.mpr ha), ite_self]
      have hlow := (ceilDiv_spec ha (Int.le_of_lt hlower)).1
      have hup := (tdiv_spec ha (Int.le_of_lt hv)).1
      have hle : ¬ st var < lowerBound := by
        rw [alignedUpper, alignedLower] at hempty
        omega
      rw [if_neg hempty, if_neg hempty, if_neg hle, if_neg (Int.not_le.mpr ha),
        Int.mul_tdiv_cancel _ (Int.ne_of_gt ha), Int.mul_tdiv_cancel _ (Int.ne_of_gt ha)]
      show (if (solver.thresholdCond vars idxs _ _).1 = true then
        some (SearchResult.mk true (alignedLower a lowerBound) (solver.thresholdCond vars idxs
          (setValues st vars (alignedLower a lowerBound) var)
          (setValues st vars (alignedLower a lowerBound))).2) else
        (solver.searchUBThreshold vars idxs a fuel _ _ (alignedUpper a (st var))
          (solver.thresholdCond vars idxs (setValues st vars (alignedLower a lowerBound) var)
            (setValues st vars (alignedLower a lowerBound))).2).map _) = _
      rw [hcond]
    rw [hrun]
    by_cases hempty : alignedUpper a (st var) < alignedLower a lowerBound
    · -- no multiple in the range
      rw [if_pos hempty]
      refine ⟨_, rfl, fun _ hle => absurd hle (Int.not_le.mpr hempty), fun _ => ⟨⟨?_, ?_⟩, ?_, rfl⟩⟩
      · intro h
        simp at h
      · intro hex
        obtain ⟨m, hm, -⟩ := hex
        exact absurd hm (not_inRange_of_crossed ha (Int.le_of_lt hlower) (Int.le_of_lt hv) hempty)
      · intro h
        simp at h
    rw [if_neg hempty]
    have hle : alignedLower a lowerBound ≤ alignedUpper a (st var) := Int.not_lt.mp hempty
    have hindex : ceilDiv lowerBound a ≤ (st var).tdiv a := Int.le_of_mul_le_mul_right hle ha
    have hrange : ∀ m, InRange a lowerBound (st var) m ↔
        ∃ i, m = i * a ∧ ceilDiv lowerBound a ≤ i ∧ i ≤ (st var).tdiv a := fun m =>
      inRange_iff ha (Int.le_of_lt hlower) (Int.le_of_lt hv)
    by_cases hmeets : solver.meetsThreshold vars idxs
        (setValues st vars (alignedLower a lowerBound)) = true
    · -- the early exit: everything but the restoring holds
      rw [if_pos hmeets]
      have hmem' : InRange a lowerBound (st var) (alignedLower a lowerBound) :=
        (hrange _).mpr ⟨_, rfl, Int.le_refl _, hindex⟩
      refine ⟨_, rfl, fun h _ => ?_, fun h => ⟨⟨fun _ => ⟨_, hmem', hmeets⟩, fun _ => rfl⟩,
        fun _ => ⟨⟨hmem', hmeets⟩, ?_⟩, ?_⟩⟩
      · rw [if_pos hmeets]
        exact (setValues_eq_self_iff hlowPos).mp h.2.2
      · intro m hm
        obtain ⟨i, rfl, hge, -⟩ := (hrange m).mp hm.1
        exact Int.mul_le_mul_of_nonneg_right hge (Int.le_of_lt ha)
      · have hthere := h hle
        rw [if_pos hmeets] at hthere
        exact (setValues_eq_self_iff hlowPos).mpr hthere
    rw [if_neg hmeets, if_neg hmeets]
    -- the search goes over the indices of the range
    let below := fun m => !solver.meetsThreshold vars idxs (setValues st vars m)
    have hanti : ∀ a b, 0 < a → a ≤ b → below b = true → below a = true := by
      intro a b hpos hab hb
      rw [Bool.not_eq_true', Bool.eq_false_iff] at hb ⊢
      exact fun ha => hb (hmono a b hpos hab ha)
    obtain ⟨bound, hbound, hbelow⟩ := exists_indexBound ha hleft hanti
      ((st var).tdiv a - ceilDiv lowerBound a + 1).toNat
    have hholds : ∀ i < ((st var).tdiv a - ceilDiv lowerBound a + 1).toNat,
        (solver.meetsThreshold vars idxs (setValues st vars ((ceilDiv lowerBound a + (i : ℕ)) * a)) =
          true ↔ bound ≤ i) := by
      intro i hi
      have h := hbelow i hi
      rw [← Nat.not_lt, ← h]
      simp [below]
    have hright : (st var).tdiv a = ceilDiv lowerBound a +
        (((st var).tdiv a - ceilDiv lowerBound a + 1).toNat : ℤ) - 1 := by omega
    have hsize := indices_lt ha hlower (Int.le_of_lt hv) (hfuel var hmem)
    obtain ⟨last, hsearch, hlast⟩ := @searchUBThreshold_eq n solver st
      (setValues st vars (alignedLower a lowerBound)) var vars idxs a ha hhead fuel _ bound _
      (alignedUpper a (st var)) hsize hleft hbound hholds
      fun v hv' => setValues_of_notMem hlowPos hv'
    rw [← hright] at hsearch
    rw [hsearch, Option.map_some, restoreValues_saved hlast hst]
    -- an index of the range meets the condition from the bound on
    have hidx : ∀ i, ceilDiv lowerBound a ≤ i → i ≤ (st var).tdiv a →
        (solver.meetsThreshold vars idxs (setValues st vars (i * a)) = true ↔
          ceilDiv lowerBound a + bound ≤ i) := by
      intro i hge hle'
      have heq : ceilDiv lowerBound a + ((i - ceilDiv lowerBound a).toNat : ℤ) = i := by omega
      have h := hholds (i - ceilDiv lowerBound a).toNat (by omega)
      rw [heq] at h
      rw [h]
      omega
    have hlastIdx := hidx ((st var).tdiv a) hindex (Int.le_refl _)
    refine ⟨_, rfl, fun h _ => ?_, fun h => ?_⟩
    · obtain ⟨m, hm, hmm⟩ := h.1.mp rfl
      obtain ⟨i, rfl, hge, hle'⟩ := (hrange m).mp hm
      refine hlastIdx.mpr ?_
      have h := (hidx i hge hle').mp hmm
      omega
    · have hin := hlastIdx.mp (h hle)
      have hleast : InRange a lowerBound (st var) ((ceilDiv lowerBound a + bound) * a) ∧
          solver.meetsThreshold vars idxs
            (setValues st vars ((ceilDiv lowerBound a + bound) * a)) = true :=
        ⟨(hrange _).mpr ⟨_, rfl, by omega, hin⟩,
          (hidx _ (by omega) hin).mpr (Int.le_refl _)⟩
      refine ⟨⟨fun _ => ⟨_, hleast⟩, fun _ => rfl⟩, fun _ => ?_, rfl⟩
      dsimp only
      rw [if_neg (by omega)]
      refine ⟨hleast, fun m hm => ?_⟩
      obtain ⟨i, rfl, hge, hle'⟩ := (hrange m).mp hm.1
      exact Int.mul_le_mul_of_nonneg_right ((hidx i hge hle').mp hm.2) (Int.le_of_lt ha)

end UBThreshold

/-! ## The equal priority search -/

section EqualPriority

variable {solver : AxesReorderSolver n} {st : Values n} {vars : List (Fin n)} {align : ℤ}

/-- The point of a range that the search probes: the middle, rounded up to the alignment. -/
def halfPoint (align : ℤ) (size : ℕ) : ℕ := if align = 1 then (size - 1) / 2 else size / 2

theorem halfPoint_le (align : ℤ) (size : ℕ) : halfPoint align (size + 1) ≤ size := by
  unfold halfPoint
  split <;> omega

theorem ceilDiv_unique {a c : ℤ} (halign : 0 < align) (ha : 0 ≤ a) (hle : a ≤ c * align)
    (hlt : (c - 1) * align < a) : ceilDiv a align = c := by
  obtain ⟨hlow, hlow'⟩ := ceilDiv_spec halign ha
  have h1 : ceilDiv a align - 1 < c := Int.lt_of_mul_lt_mul_right (by omega) (le_of_lt halign)
  have h2 : c - 1 < ceilDiv a align := Int.lt_of_mul_lt_mul_right (by omega) (le_of_lt halign)
  omega

/-- The probed point is half the range, rounded up to a point. -/
theorem halfPoint_spec (halign : 1 ≤ align) (size : ℕ) :
    (size : ℤ) * align / 2 ≤ halfPoint align (size + 1) * align ∧
      (halfPoint align (size + 1) : ℤ) * align - align < (size : ℤ) * align / 2 := by
  rw [halfPoint]
  split
  · next hone =>
    subst hone
    omega
  · obtain ⟨half, rfl | rfl⟩ : ∃ half : ℕ, size = 2 * half ∨ size = 2 * half + 1 := ⟨size / 2, by omega⟩
    · have hpoint : (2 * half + 1) / 2 = half := by omega
      have hsize : ((2 * half : ℕ) : ℤ) * align = 2 * (half * align) := by
        rw [Int.natCast_mul, mul_assoc]
        rfl
      rw [hpoint, hsize]
      omega
    · -- an odd number of gaps leaves half an alignment, which is rounded up
      have hpoint : (2 * half + 1 + 1) / 2 = half + 1 := by omega
      have hsize : ((2 * half + 1 : ℕ) : ℤ) * align = 2 * (half * align) + align := by
        rw [Int.natCast_add, Int.natCast_mul, add_mul, mul_assoc, Int.natCast_one, one_mul]
        rfl
      have hnext : ((half + 1 : ℕ) : ℤ) * align = half * align + align := by
        rw [Int.natCast_add, add_mul, Int.natCast_one, one_mul]
      rw [hpoint, hsize, hnext]
      omega

theorem ceilDiv_mid (halign : 1 ≤ align) {left : ℤ} (hleft : 0 ≤ left) (size : ℕ) :
    ceilDiv (left * align + ((left + size) * align - left * align).tdiv 2) align =
      left + halfPoint align (size + 1) := by
  obtain ⟨hup, hlow⟩ := halfPoint_spec halign size
  have hbase : 0 ≤ left * align := Int.mul_nonneg hleft (by omega)
  have hspan : (left + size) * align - left * align = size * align := by
    rw [add_mul]
    omega
  have hsize : 0 ≤ (size : ℤ) * align := Int.mul_nonneg (by omega) (by omega)
  rw [hspan, Int.tdiv_eq_ediv_of_nonneg hsize]
  refine ceilDiv_unique (by omega) (by omega) ?_ ?_
  · rw [add_mul]
    omega
  · rw [sub_mul, add_mul]
    omega

/-- The best value after the points below `next` were found to satisfy the constraints. -/
def bestBelow (align left : ℤ) : ℕ → ℤ
  | 0 => -1
  | next + 1 => (left + next) * align

/-- The variables after a last probe. -/
def valuesAfter (st : Values n) (vars : List (Fin n)) (align left : ℤ) : Option ℕ → Values n
  | none => st
  | some point => setValues st vars ((left + point) * align)

theorem setValues_valuesAfter (halign : 0 < align) {left : ℤ} (hleft : 0 < left) (last : Option ℕ)
    {val : ℤ} (hval : 0 < val) :
    setValues (valuesAfter st vars align left last) vars val = setValues st vars val := by
  cases last with
  | none => rfl
  | some point =>
    refine setValues_congr (fun v hv => ?_) hval
    exact setValues_of_notMem (mul_pos (by omega) halign) hv

/-- The loop is a bisection of the multiples in the range: the best value is the one before the point
where it ends, and the variables are at the last probe. -/
theorem searchAligned_eq (halign : 1 ≤ align) {left : ℤ} (hleft : 0 < left) {fuel start size : ℕ}
    (hfuel : size ≤ fuel) (last : Option ℕ) :
    solver.searchAligned vars align (fuel + 1) ((left + start) * align)
        ((left + start + size - 1) * align) (bestBelow align left start)
        (valuesAfter st vars align left last) =
      let search := bisect (halfPoint align) (fun i => solver.satisfyCons .LOCAL_BUFFER
        (setValues st vars ((left + (i : ℕ)) * align))) fuel start size last
      some (bestBelow align left search.1, valuesAfter st vars align left search.2) := by
  induction fuel generalizing start size last with
  | zero =>
    obtain rfl : size = 0 := by omega
    have hdone : (left + start + ((0 : ℕ) : ℤ) - 1) * align < (left + start) * align :=
      Int.mul_lt_mul_of_pos_right (by omega) (by omega)
    rw [searchAligned, if_pos hdone, bisect]
  | succ fuel ih =>
    cases size with
    | zero =>
      have hdone : (left + start + ((0 : ℕ) : ℤ) - 1) * align < (left + start) * align :=
        Int.mul_lt_mul_of_pos_right (by omega) (by omega)
      rw [searchAligned, if_pos hdone, bisect]
    | succ size =>
      have hhalf := halfPoint_le align size
      have hright : left + start + ((size + 1 : ℕ) : ℤ) - 1 = left + start + size := by omega
      have hgo : ¬ (left + start + (size : ℤ)) * align < (left + start) * align :=
        not_lt.mpr (mul_le_mul_of_nonneg_right (by omega) (by omega))
      have hmid := ceilDiv_mid halign (by omega : 0 ≤ left + (start : ℤ)) size
      rw [searchAligned, bisect, hright, if_neg hgo]
      dsimp only
      rw [hmid]
      generalize halfPoint align (size + 1) = half at *
      have hpoint : left + (start : ℤ) + half = left + ((start + half : ℕ) : ℤ) := by omega
      have hpos : 0 < (left + ((start + half : ℕ) : ℤ)) * align := mul_pos (by omega) (by omega)
      rw [hpoint, setValues_valuesAfter (by omega) hleft last hpos]
      split
      · next hyes =>
        -- on with the points after the probed one, which is the best so far
        have hnext : (left + ((start + half : ℕ) : ℤ)) * align + align =
            (left + ((start + half + 1 : ℕ) : ℤ)) * align := by
          rw [add_mul, add_mul, Int.natCast_add (start + half), add_mul, Int.natCast_one,
            one_mul, add_assoc]
        have hend : left + start + (size : ℤ) =
            left + ((start + half + 1 : ℕ) : ℤ) + (size - half : ℕ) - 1 := by omega
        rw [hnext, hend]
        exact ih (by omega) (some (start + half))
      · next hno =>
        have hend : (left + ((start + half : ℕ) : ℤ)) * align - align =
            (left + start + (half : ℤ) - 1) * align := by
          rw [← hpoint, sub_mul, one_mul]
        rw [hend]
        exact ih (by omega) (some (start + half))

/-- The multiples of the alignment in a range whose ends are multiples. -/
def pointCount (align lower upper : ℤ) : ℕ := ((upper - lower) / align + 1).toNat

/-- The multiples that satisfy the constraints when all variables are set to them. -/
def satisfiedPoints (solver : AxesReorderSolver n) (vars : List (Fin n)) (align lower upper : ℤ)
    (st : Values n) : ℕ :=
  (range (pointCount align lower upper)).countP fun i : ℕ =>
    solver.satisfyCons .LOCAL_BUFFER (setValues st vars (lower + i * align))

/-- What the search promises: it finds whether a multiple of the range satisfies the constraints,
and leaves the greatest one in the variables. -/
structure LeavesBest (solver : AxesReorderSolver n) (vars : List (Fin n)) (align lower upper : ℤ)
    (st : Values n) (r : Bool × Values n) : Prop where
  found_iff : r.1 = true ↔ ∃ m, InRange align lower upper m ∧
    solver.satisfyCons .LOCAL_BUFFER (setValues st vars m) = true
  greatest : r.1 = true → ∀ v ∈ vars, IsGreatest {m | InRange align lower upper m ∧
    solver.satisfyCons .LOCAL_BUFFER (setValues st vars m) = true} (r.2 v)

/-- The search keeps its promise exactly when its last probe satisfied the constraints: when no
multiple does, when all do, or when halving the range reaches the first one that does not with
others on its left. -/
theorem binarySearchWithAlignment_iff (solver : AxesReorderSolver n) (vars : List (Fin n))
    (lower upper align : ℤ) (st : Values n) (fuel : ℕ) (halign : 1 ≤ align) (hlow : align ∣ lower)
    (hup : align ∣ upper) (hpos : 0 < lower) (hle : lower ≤ upper)
    (hmono : ∀ a b, 0 < a → a ≤ b →
      solver.satisfyCons .LOCAL_BUFFER (setValues st vars b) = true →
      solver.satisfyCons .LOCAL_BUFFER (setValues st vars a) = true)
    (hfuel : pointCount align lower upper < fuel) :
    ∃ r, solver.binarySearchWithAlignment vars lower upper align fuel st = some r ∧
      (LeavesBest solver vars align lower upper st r ↔ vars = [] ∨
        satisfiedPoints solver vars align lower upper st = 0 ∨
        satisfiedPoints solver vars align lower upper st = pointCount align lower upper ∨
        splitsLeft (halfPoint align) (pointCount align lower upper) (pointCount align lower upper)
          (satisfiedPoints solver vars align lower upper st) = true) := by
  have ha : 0 < align := halign
  obtain ⟨left, hlow⟩ := hlow
  obtain ⟨right, hup⟩ := hup
  rw [Int.mul_comm] at hlow hup
  have hleft : 0 < left := by
    rw [hlow] at hpos
    by_contra hneg
    have h := Int.mul_le_mul_of_nonneg_right (Int.not_lt.mp hneg) (Int.le_of_lt ha)
    omega
  have hindex : left ≤ right := by
    rw [hlow, hup] at hle
    exact Int.le_of_mul_le_mul_right hle ha
  -- the points of the range and those that satisfy the constraints
  have htotal : (pointCount align lower upper : ℤ) = right - left + 1 := by
    rw [pointCount, hlow, hup, ← Int.sub_mul, Int.mul_ediv_cancel _ (Int.ne_of_gt ha)]
    omega
  have hsum : ∀ i : ℕ, lower + i * align = (left + i) * align := by
    intro i
    rw [Int.add_mul, hlow]
  obtain ⟨bound, hbound, hholds⟩ := @exists_indexBound align ha left hleft
    (fun m => solver.satisfyCons .LOCAL_BUFFER (setValues st vars m)) hmono (pointCount align lower upper)
  have hcount : satisfiedPoints solver vars align lower upper st = bound := by
    rw [satisfiedPoints]
    refine countP_range_eq hbound fun i hi => ?_
    rw [hsum i]
    exact hholds i hi
  generalize pointCount align lower upper = total at *
  have hrange : ∀ m, InRange align lower upper m ↔ ∃ i < total, m = (left + (i : ℕ)) * align := by
    intro m
    rw [hlow, hup]
    constructor
    · rintro ⟨⟨i, rfl⟩, hge, hle'⟩
      rw [Int.mul_comm align i] at hge hle' ⊢
      have h1 := Int.le_of_mul_le_mul_right hge ha
      have h2 := Int.le_of_mul_le_mul_right hle' ha
      refine ⟨(i - left).toNat, by omega, ?_⟩
      have h3 : left + ((i - left).toNat : ℤ) = i := by omega
      rw [h3]
    · rintro ⟨i, hi, rfl⟩
      exact ⟨Int.dvd_mul_left _ align, Int.mul_le_mul_of_nonneg_right (by omega) (Int.le_of_lt ha),
        Int.mul_le_mul_of_nonneg_right (by omega) (Int.le_of_lt ha)⟩
  rw [hcount]
  obtain ⟨fuel, rfl⟩ : ∃ k, fuel = k + 1 := ⟨fuel - 1, by omega⟩
  have hrun : solver.binarySearchWithAlignment vars lower upper align (fuel + 1) st =
      some (decide (bestBelow align left bound ≠ -1), valuesAfter st vars align left
        (if bound = total ∨ splitsLeft (halfPoint align) total total bound = true then
          some (bound - 1) else some bound)) := by
    have hsearch := @searchAligned_eq n solver st vars align halign left hleft fuel 0 total (by omega) none
    have hfst := bisect_fst (halfPoint_le align) (by omega : total ≤ fuel) (Nat.zero_le bound)
      (by omega) (fun i _ hi => hholds i (by omega)) none
    have hsnd := bisect_snd (halfPoint_le align) (by omega : total ≤ fuel) (Nat.zero_le bound)
      (by omega) (fun i _ hi => hholds i (by omega)) none (by omega)
    have hstart : left + ((0 : ℕ) : ℤ) = left := by omega
    have hend : left + (total : ℤ) - 1 = right := by omega
    rw [Nat.zero_add, Nat.sub_zero,
      splitsLeft_fuel (halfPoint_le align) (by omega) (Nat.le_refl total)] at hsnd
    rw [hstart, hend, ← hlow, ← hup] at hsearch
    rw [binarySearchWithAlignment, if_neg (Int.not_lt.mpr hle)]
    show (solver.searchAligned vars align (fuel + 1) lower upper (bestBelow align left 0)
      (valuesAfter st vars align left none)).map _ = _
    rw [hsearch]
    dsimp only
    rw [Option.map_some, hfst, hsnd]
  rw [hrun]
  refine ⟨_, rfl, ?_⟩
  cases bound with
  | zero =>
    -- nothing qualifies, and the search says so
    refine ⟨fun _ => .inr (.inl rfl), fun _ => ⟨⟨fun h => ?_, fun hex => ?_⟩, fun h => ?_⟩⟩
    · simp [bestBelow] at h
    · obtain ⟨m, hm, hsat⟩ := hex
      obtain ⟨i, hi, rfl⟩ := (hrange m).mp hm
      exact absurd ((hholds i hi).mp hsat) (Nat.not_lt_zero i)
    · simp [bestBelow] at h
  | succ best =>
    have hfound : decide (bestBelow align left (best + 1) ≠ -1) = true := by
      have h : 0 < (left + (best : ℤ)) * align := Int.mul_pos (by omega) ha
      rw [bestBelow, decide_eq_true_iff]
      omega
    have hbest : IsGreatest {m | InRange align lower upper m ∧
        solver.satisfyCons .LOCAL_BUFFER (setValues st vars m) = true} ((left + best) * align) := by
      refine ⟨⟨(hrange _).mpr ⟨best, by omega, rfl⟩, (hholds best (by omega)).mpr (by omega)⟩, ?_⟩
      rintro m ⟨hm, hsat⟩
      obtain ⟨i, hi, rfl⟩ := (hrange m).mp hm
      have hlt := (hholds i hi).mp hsat
      exact Int.mul_le_mul_of_nonneg_right (by omega) (Int.le_of_lt ha)
    have hiff : ∀ values, LeavesBest solver vars align lower upper st (true, values) ↔
        ∀ v ∈ vars, values v = (left + best) * align := by
      intro values
      constructor
      · intro h v hv
        exact (h.greatest rfl v hv).unique hbest
      · intro h
        refine ⟨⟨fun _ => ⟨_, hbest.1⟩, fun _ => rfl⟩, fun _ v hv => ?_⟩
        show IsGreatest _ (values v)
        rw [h v hv]
        exact hbest
    rw [hfound, hiff]
    split
    · next hlast =>
      -- the last probe was the best value
      refine ⟨fun _ => .inr (.inr hlast), fun _ v hv => ?_⟩
      show setValues st vars _ v = _
      exact setValues_of_mem (Int.mul_pos (by omega) ha) hv
    · next hlast =>
      constructor
      · intro h
        -- the last probe was past the best value
        refine .inl (eq_nil_iff_forall_not_mem.mpr fun v hv => ?_)
        have hv' := h v hv
        have hne : (left + ((best + 1 : ℕ) : ℤ)) * align ≠ (left + best) * align := fun heq => by
          have h := Int.eq_of_mul_eq_mul_right (Int.ne_of_gt ha) heq
          omega
        refine hne (Eq.trans ?_ hv')
        show _ = setValues st vars ((left + ((best + 1 : ℕ) : ℤ)) * align) v
        exact (setValues_of_mem (Int.mul_pos (by omega) ha) hv).symm
      · rintro (hnil | hzero | h)
        · intro v hv
          rw [hnil] at hv
          simp at hv
        · omega
        · exact absurd h hlast

end EqualPriority

/-! ## One tile against a limit -/

/-- A solver whose one variable is limited by the buffer itself. -/
def oneTile (limit : ℤ) : AxesReorderSolver 1 where
  allCons := [⟨.LOCAL_BUFFER, limit, fun st spec => st 0 - spec⟩]
  relCons := fun _ => [⟨.LOCAL_BUFFER, limit, fun st spec => st 0 - spec⟩]
  satisfyUBSizeCacheLine := fun _ _ => true
  ubThresholdSpec := id

section OneTile

variable {limit m : ℤ} {st : Values 1}

theorem oneTile_satisfyCons (hm : 0 < m) :
    (oneTile limit).satisfyCons .LOCAL_BUFFER (setValues st [0] m) = true ↔ m ≤ limit := by
  have hset : setValues st [0] m 0 = m := by
    exact setValues_of_mem hm mem_cons_self
  simp [oneTile, satisfyCons, hset]

theorem oneTile_meetsThreshold (hm : 0 < m) (idxs : List ℕ) :
    (oneTile limit).meetsThreshold [0] idxs (setValues st [0] m) = true ↔ limit < m := by
  have hset : setValues st [0] m 0 = m := by
    exact setValues_of_mem hm mem_cons_self
  simp [oneTile, meetsThreshold, satisfyConsByThreshold, hset]

theorem oneTile_satisfyCons_mono (a b : ℤ) (ha : 0 < a) (hle : a ≤ b)
    (hb : (oneTile limit).satisfyCons .LOCAL_BUFFER (setValues st [0] b) = true) :
    (oneTile limit).satisfyCons .LOCAL_BUFFER (setValues st [0] a) = true := by
  have hb' := (oneTile_satisfyCons (lt_of_lt_of_le ha hle)).mp hb
  exact (oneTile_satisfyCons ha).mpr (le_trans hle hb')

theorem oneTile_meetsThreshold_mono (idxs : List ℕ) (a b : ℤ) (ha : 0 < a) (hle : a ≤ b)
    (hmeets : (oneTile limit).meetsThreshold [0] idxs (setValues st [0] a) = true) :
    (oneTile limit).meetsThreshold [0] idxs (setValues st [0] b) = true := by
  have ha' := (oneTile_meetsThreshold ha idxs).mp hmeets
  exact (oneTile_meetsThreshold (lt_of_lt_of_le ha hle) idxs).mpr (lt_of_lt_of_le ha' hle)

end OneTile

theorem oneTile_binarySearch_leavesBest :
    ∃ r, (oneTile 4).binarySearchWithAlignment [0] 2 8 2 5 (fun _ => 2) = some r ∧
      (LeavesBest (oneTile 4) [0] 2 2 8 (fun _ => 2) r ↔ ([0] : List (Fin 1)) = [] ∨
        satisfiedPoints (oneTile 4) [0] 2 2 8 (fun _ => 2) = 0 ∨
        satisfiedPoints (oneTile 4) [0] 2 2 8 (fun _ => 2) = pointCount 2 2 8 ∨
        splitsLeft (halfPoint 2) (pointCount 2 2 8) (pointCount 2 2 8)
          (satisfiedPoints (oneTile 4) [0] 2 2 8 (fun _ => 2)) = true) :=
  binarySearchWithAlignment_iff (oneTile 4) [0] 2 8 2 (fun _ => 2) 5 (by decide) (by decide)
    (by decide) (by decide) (by decide) oneTile_satisfyCons_mono (by decide)

/-- With a limit of 6 the last probe of the range 2 to 8 is 8. -/
theorem oneTile_binarySearch_past :
    ∃ r, (oneTile 6).binarySearchWithAlignment [0] 2 8 2 5 (fun _ => 2) = some r ∧
      ¬ LeavesBest (oneTile 6) [0] 2 2 8 (fun _ => 2) r := by
  refine ⟨_, rfl, fun h => ?_⟩
  have hbest := (h.greatest (by decide) 0 mem_cons_self).1.2
  exact absurd hbest (by decide)

theorem oneTile_upperBound_found :
    ∃ r, (oneTile 4).binaryFindUpperBoundSatisfiedUBLimit [0] (fun _ => 2) 2 0 9 (fun _ => 8) = some r ∧
      (UBLimitFound (oneTile 4) [0] (fun _ => 2) 2 (fun _ => 8) r ↔
        ∀ var ∈ ([0] : List (Fin 1)).head?, alignedLower 2 2 ≤ alignedUpper 2 8 →
          (oneTile 4).satisfyCons .LOCAL_BUFFER (setValues (fun _ => 8) [0] (alignedUpper 2 8)) = true →
          ∀ v ∈ ([0] : List (Fin 1)), (8 : ℤ) = alignedUpper 2 8) :=
  binaryFindUpperBoundSatisfiedUBLimit_iff (oneTile 4) [0] (fun _ => 2) 2 0 (fun _ => 8) 9 (by decide)
    (by decide) (by decide) oneTile_satisfyCons_mono (by decide)

/-- A variable of 5 within the limit is left at 4. -/
theorem oneTile_upperBound_moved :
    ∃ r, (oneTile 10).binaryFindUpperBoundSatisfiedUBLimit [0] (fun _ => 2) 2 0 9 (fun _ => 5) = some r ∧
      ¬ UBLimitFound (oneTile 10) [0] (fun _ => 2) 2 (fun _ => 5) r := by
  refine ⟨_, rfl, fun h => ?_⟩
  have hvalue := congrFun h.restored 0
  exact absurd hvalue (by decide)

theorem oneTile_threshold_decided :
    ∃ r, (oneTile 4).binaryFindLowerBoundSatisfiedUBThresholdCond [0] [0] (fun _ => 2) 2 0 9
        (fun _ => 8) = some r ∧
      (ThresholdDecided (oneTile 4) [0] [0] (fun _ => 2) 2 (fun _ => 8) r ↔
        ∀ var ∈ ([0] : List (Fin 1)).head?, alignedLower 2 2 ≤ alignedUpper 2 8 →
          if (oneTile 4).meetsThreshold [0] [0] (setValues (fun _ => 8) [0] (alignedLower 2 2)) = true then
            ∀ v ∈ ([0] : List (Fin 1)), (8 : ℤ) = alignedLower 2 2
          else (oneTile 4).meetsThreshold [0] [0] (setValues (fun _ => 8) [0] (alignedUpper 2 8)) = true) :=
  binaryFindLowerBoundSatisfiedUBThresholdCond_iff (oneTile 4) [0] [0] (fun _ => 2) 2 0 (fun _ => 8) 9
    (by decide) (by decide) (by decide) (oneTile_meetsThreshold_mono [0]) (by decide)

/-- No value up to 8 uses more than a limit of 10, and the search succeeds. -/
theorem oneTile_threshold_none :
    ∃ r, (oneTile 10).binaryFindLowerBoundSatisfiedUBThresholdCond [0] [0] (fun _ => 2) 2 0 9
        (fun _ => 8) = some r ∧
      ¬ ThresholdDecided (oneTile 10) [0] [0] (fun _ => 2) 2 (fun _ => 8) r := by
  refine ⟨_, rfl, fun h => ?_⟩
  have hleast := (h.least 0 rfl rfl).1.2
  exact absurd hleast (by decide)

end AxesReorderSolver

end GraphAutofusion.Autofuse
