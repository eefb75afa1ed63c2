import GraphAutofusion.Autofuse.TileDescent
import Mathlib.Algebra.Order.Ring.Rat
import Mathlib.Data.Int.LeastGreatest
import Mathlib.Data.List.Nodup

/-!
# Autofuse.MulticoreTiling — the factors of the multicore axes

`MulticoreTilingCore` makes the multicore variables small, the last one first, as long as the cores
in use do not exceed those there are. For one variable it halves the distance between a boundary and
a value that is within the cores. The midpoint is divided by the alignment and not multiplied by it
again, so the values leave the multiples of an alignment other than one.

The number of cores in use and the predicted performance are formulas generated for the graph, and
parameters here. A perf value is a finite double, so it is a rational number.
-/

namespace GraphAutofusion.Autofuse

open Lib AxesReorderSolver Function List Option

structure MulticoreSolver (n : ℕ) extends AxesReorderSolver n where
  pureMcVars : List (Fin n)
  align : Fin n → ℤ
  coreNum : ℤ
  calRealUsedCoreNum : Values n → ℤ
  getPerf : Values n → ℚ

/-- The loop of one variable: its boundary, the performance so far, the variables, and the values
given to the variable. -/
structure McSearch (n : ℕ) where
  boundary : ℤ
  preObj : ℚ
  values : Values n
  assigned : List ℤ

/-- What `MulticoreTilingCore` does with one variable. `chosen` is its value before the constraints
are looked at. -/
structure McTurn (n : ℕ) where
  var : Fin n
  chosen : ℤ
  values : Values n
  assigned : List ℤ

structure McRun (n : ℕ) where
  ok : Bool
  turns : List (McTurn n)
  values : Values n

namespace MulticoreSolver

variable {n : ℕ} (solver : MulticoreSolver n)

def satisfyMCCons (st : Values n) : Bool := solver.calRealUsedCoreNum st ≤ solver.coreNum

/-- One round for a variable. With `block_loop_auto_tune` the performance at the next value counts
too. -/
def mcRound (blockLoopAutoTune : Bool) (var : Fin n) (s : McSearch n) : McSearch n :=
  let lastVal := s.values var
  let val := ceilDiv ((s.boundary + lastVal).tdiv 2) (solver.align var)
  let st := update s.values var val
  let curObj := solver.getPerf st
  let nextObj := solver.getPerf (update st var (val + 1))
  if !solver.satisfyMCCons st || (blockLoopAutoTune && (s.preObj < curObj || nextObj < curObj)) then
    { boundary := val
      preObj := s.preObj
      values := update st var lastVal
      assigned := s.assigned ++ [val] }
  else
    { boundary := s.boundary
      preObj := if blockLoopAutoTune then curObj else s.preObj
      values := st
      assigned := s.assigned ++ [val] }

/-- The loop that lets the value grow to `initVal` until the constraints hold. -/
def mcRepair (var : Fin n) (initVal : ℤ) : ℕ → Values n × List ℤ → Option (Values n × List ℤ)
  | 0, _ => none
  | fuel + 1, s =>
    if !solver.satisfyVarCons var .MC_MIXED s.1 && s.1 var ≠ initVal then
      let val := s.1 var + solver.align var
      mcRepair var initVal fuel (update s.1 var val, s.2 ++ [val])
    else some s

def mcTurn (blockLoopAutoTune : Bool) (var : Fin n) (fuel : ℕ) (st : Values n) :
    Option (McTurn n) :=
  let initVal := st var
  let preObj := if blockLoopAutoTune then solver.getPerf st else -1
  match untilRepeat (fun s => (s.boundary, s.values var)) (solver.mcRound blockLoopAutoTune var) fuel
      (-1, -1) ⟨solver.align var, preObj, st, []⟩ with
  | none => none
  | some s =>
    let s := if solver.satisfyMCCons s.values then (s.values, s.assigned)
      else (update s.values var initVal, s.assigned ++ [initVal])
    (solver.mcRepair var initVal fuel s).map fun r => ⟨var, s.1 var, r.1, r.2⟩

/-- The variables of the list in turn. -/
def mcTurns (blockLoopAutoTune : Bool) (fuel : ℕ) :
    List (Fin n) → Values n → Option (List (McTurn n) × Values n)
  | [], st => some ([], st)
  | var :: vars, st =>
    match solver.mcTurn blockLoopAutoTune var fuel st with
    | none => none
    | some turn =>
      (mcTurns blockLoopAutoTune fuel vars turn.values).map fun r => (turn :: r.1, r.2)

def multicoreTilingCore (blockLoopAutoTune : Bool) (fuel : ℕ) (st : Values n) : Option (McRun n) :=
  (solver.mcTurns blockLoopAutoTune fuel solver.pureMcVars.reverse st).map fun r =>
    ⟨solver.satisfyCons .MC_MIXED r.2, r.1, r.2⟩

section Turn

variable {solver : MulticoreSolver n} {var : Fin n} {st : Values n}

/-- Without tuning, a round moves one end to the rounded midpoint. -/
theorem mcRound_eq (boundary v : ℤ) (preObj : ℚ) (assigned : List ℤ) :
    let val := ceilDiv ((boundary + v).tdiv 2) (solver.align var)
    solver.mcRound false var ⟨boundary, preObj, update st var v, assigned⟩ =
      if solver.satisfyMCCons (update st var val) then
        ⟨boundary, preObj, update st var val, assigned ++ [val]⟩
      else ⟨val, preObj, update st var v, assigned ++ [val]⟩ := by
  simp only [mcRound, update_self, update_idem, Bool.false_and, Bool.or_false]
  cases solver.satisfyMCCons (update st var
    (ceilDiv ((boundary + v).tdiv 2) (solver.align var))) with
  | true => rfl
  | false => rfl

/-- The values given to the variable are not forgotten. -/
theorem mcRound_assigned {auto : Bool} {s : McSearch n} {val : ℤ} (h : val ∈ s.assigned) :
    val ∈ (solver.mcRound auto var s).assigned := by
  unfold mcRound
  dsimp only
  split
  · exact mem_append_left _ h
  · exact mem_append_left _ h

/-- The loop of a variable, from its values on. -/
def mcLoop (solver : MulticoreSolver n) (var : Fin n) :=
  untilRepeat (fun s : McSearch n => (s.boundary, s.values var)) (solver.mcRound false var)

theorem mcLoop_assigned {fuel : ℕ} {last : ℤ × ℤ} {s s' : McSearch n} {val : ℤ}
    (h : val ∈ s.assigned) (hrun : solver.mcLoop var fuel last s = some s') : val ∈ s'.assigned :=
  @untilRepeat_inv _ _ _ _ _ (fun s => val ∈ s.assigned) (fun _ hs => mcRound_assigned hs) _ _ _ _ h
    hrun

theorem mcRepair_assigned {initVal : ℤ} {fuel : ℕ} {s r : Values n × List ℤ} {val : ℤ}
    (h : val ∈ s.2) (hrun : solver.mcRepair var initVal fuel s = some r) : val ∈ r.2 := by
  induction fuel generalizing s with
  | zero => cases hrun
  | succ fuel ih =>
    rw [mcRepair] at hrun
    split at hrun
    · exact ih (mem_append_left _ h) hrun
    · obtain rfl := some.inj hrun
      exact h

/-- In units of the alignment, the first `t - 1` multiples need too many cores. -/
structure FirstWithin (solver : MulticoreSolver n) (var : Fin n) (st : Values n) (t : ℤ) : Prop where
  pos : 0 < t
  iff : ∀ u, 0 < u → (solver.satisfyMCCons (update st var (u * solver.align var)) = true ↔
    t ≤ u)

/-- What holds between the rounds when the alignment is one. -/
def McBracket (st : Values n) (var : Fin n) (t init : ℤ) (s : McSearch n) : Prop :=
  ∃ v, s.values = update st var v ∧ 0 < s.boundary ∧ s.boundary ≤ v ∧ v ≤ init ∧ t ≤ v ∧
    (s.boundary = 1 ∨ s.boundary < t) ∧ ∀ m ∈ s.assigned, 0 < m ∧ m ≤ init

theorem FirstWithin.iff_one {t v : ℤ} (h : FirstWithin solver var st t)
    (hone : solver.align var = 1) (hv : 0 < v) :
    solver.satisfyMCCons (update st var v) = true ↔ t ≤ v := by
  have hv' := h.iff v hv
  rwa [hone, mul_one] at hv'

theorem McBracket.round {t init : ℤ} (h : FirstWithin solver var st t)
    (hone : solver.align var = 1) {s : McSearch n} (hs : McBracket st var t init s) :
    let s' := solver.mcRound false var s
    McBracket st var t init s' ∧
      ((s'.boundary, s'.values var) = (s.boundary, s.values var) → s.values var = t) ∧
      ((s'.boundary, s'.values var) ≠ (s.boundary, s.values var) →
        (s'.values var - s'.boundary).toNat < (s.values var - s.boundary).toNat) := by
  obtain ⟨boundary, preObj, values, assigned⟩ := s
  obtain ⟨v, rfl, hb, hbv, hvi, htv, hbt, hall⟩ := hs
  dsimp only at hb hbv hbt hall
  have hround := @mcRound_eq n solver var st boundary v preObj assigned
  dsimp only at hround ⊢
  -- with the alignment one the midpoint is rounded down
  have hmid : ceilDiv ((boundary + v).tdiv 2) (solver.align var) = (boundary + v) / 2 := by
    have h := ceilDiv_mul Int.one_pos ((boundary + v).tdiv 2)
    rw [mul_one] at h
    rw [hone, h, Int.tdiv_eq_ediv_of_nonneg (by omega)]
  rw [hmid] at hround
  generalize hm : (boundary + v) / 2 = mid at hround
  have hlow : boundary ≤ mid := by omega
  have hhigh : mid ≤ v := by omega
  have hall' : ∀ m ∈ assigned ++ [mid], 0 < m ∧ m ≤ init := fun m hmem => by
    rcases mem_append.mp hmem with h | h
    · exact hall m h
    · obtain rfl := mem_singleton.mp h
      exact ⟨by omega, by omega⟩
  have hiff := h.iff_one hone (by omega : 0 < mid)
  have htpos := h.pos
  rw [hround]
  split
  · next hyes =>
    have ht := hiff.mp hyes
    refine ⟨⟨mid, rfl, hb, hlow, by omega, ht, hbt, hall'⟩, ?_, ?_⟩
    · intro hsame
      have heq := (Prod.mk.inj hsame).2
      simp only [update_self] at heq ⊢
      rcases hbt with hbt | hbt
      · omega
      · omega
    · intro hother
      simp only [update_self] at hother ⊢
      have hne : mid ≠ v := fun h => hother (by rw [h])
      omega
  · next hno =>
    have ht : mid < t := not_le.mp fun h => hno (hiff.mpr h)
    have hpos : 0 < mid := by omega
    refine ⟨⟨v, rfl, hpos, hhigh, hvi, htv, .inr ht, hall'⟩, ?_, ?_⟩
    · intro hsame
      have heq := (Prod.mk.inj hsame).1
      simp only [update_self] at heq ⊢
      omega
    · intro hother
      simp only [update_self] at hother ⊢
      have hne : mid ≠ boundary := fun h => hother (by rw [h])
      omega

/-- With the alignment one, the loop ends at the smallest value within the cores. -/
theorem mcLoop_one {t init : ℤ} (h : FirstWithin solver var st t) (hone : solver.align var = 1)
    (ht : t ≤ init) (hst : st var = init) (preObj : ℚ) :
    ∃ s, s.values = update st var t ∧ (∀ m ∈ s.assigned, 0 < m ∧ m ≤ init) ∧
      ∀ fuel, (init - 1).toNat + 1 < fuel →
        solver.mcLoop var fuel (-1, -1) ⟨1, preObj, st, []⟩ = some s := by
  have htpos := h.pos
  have hstart : McBracket st var t init ⟨1, preObj, st, []⟩ := by
    have hle : 1 ≤ init := by omega
    refine ⟨init, ?_, Int.one_pos, hle, le_refl init, ht, .inl rfl, ?_⟩
    · rw [← hst, update_eq_self]
    · intro m hm
      cases hm
  have hlast : ((-1, -1) : ℤ × ℤ) ≠ (1, st var) := fun heq => by
    have h := (Prod.mk.inj heq).1
    omega
  obtain ⟨s, hs, hkey, hrun⟩ := @untilRepeat_ends _ _ _
    (fun s : McSearch n => (s.boundary, s.values var)) (solver.mcRound false var) _
    (fun s => (s.values var - s.boundary).toNat) (fun _ hs => (hs.round h hone).1)
    (fun _ hs => (hs.round h hone).2.2) _ _ hstart hlast
  obtain ⟨⟨v, hv, -, -, -, -, -, hall⟩, hend, -⟩ := hs.round h hone
  have hvt : v = t := by
    have h1 := (Prod.mk.inj hkey).2
    have h2 := hend hkey
    rw [hv, update_self] at h1
    omega
  refine ⟨_, by rw [hv, hvt], hall, fun fuel hfuel => hrun fuel ?_⟩
  show (st var - 1).toNat + 1 < fuel
  rw [hst]
  exact hfuel

/-! ### An alignment of two or more -/

/-- The numbers of the loop in units of an alignment from two on, as long as they stay whole. From the
value `x` and the boundary `y`, of which the multiples from `t` on are within the cores, half the sum
is a multiple again, down to the value `r`. -/
inductive Lands (align t : ℤ) : ℤ → ℤ → ℤ → Prop
  | stop {x y : ℤ} : (x + y + 1) / 2 = y * align → y < t → Lands align t x y x
  | lower {x y z r : ℤ} : (x + y + 1) / 2 = z * align → t ≤ z → Lands align t z y r →
    Lands align t x y r
  | raise {x y z r : ℤ} : (x + y + 1) / 2 = z * align → z < t → z ≠ y → Lands align t x z r →
    Lands align t x y r

/-- The midpoint over the alignment, not multiplied back. -/
theorem ceilDiv_midpoint {align x y : ℤ} (halign : 1 < align) (hx : 0 < x) (hy : 0 < y) :
    ceilDiv ((y * align + x * align).tdiv 2) align = (x + y + 1) / 2 := by
  have hsum : y * align + x * align = (x + y) * align := by rw [add_mul, add_comm]
  have hnonneg : 0 ≤ (x + y) * align := Int.mul_nonneg (by omega) (by omega)
  rw [hsum, Int.tdiv_eq_ediv_of_nonneg hnonneg]
  generalize hhalf : (x + y) * align / 2 = half
  have hspec := ceilDiv_spec (by omega : 0 < align) (by omega : 0 ≤ half)
  generalize hmid : ceilDiv half align = mid at hspec ⊢
  generalize hq : (x + y + 1) / 2 = q
  have hcancel : ∀ {i j : ℤ}, i * align < j * align → i < j := fun h =>
    Int.lt_of_mul_lt_mul_right h (by omega)
  -- both are the least number of units that covers the half
  have hcover : half ≤ q * align := by
    have hle := mul_le_mul_of_nonneg_right (by omega : x + y ≤ 2 * q) (by omega : 0 ≤ align)
    rw [mul_assoc] at hle
    omega
  have hleast : (q - 1) * align < half := by
    have hle := mul_le_mul_of_nonneg_right (by omega : 2 * (q - 1) ≤ x + y - 1)
      (by omega : 0 ≤ align)
    rw [mul_assoc, sub_mul (x + y)] at hle
    omega
  have h1 := @hcancel (q - 1) mid (by omega)
  have h2 := @hcancel (mid - 1) q (by omega)
  omega

/-- What holds between the rounds while the numbers are whole. -/
structure Whole (t x y : ℤ) : Prop where
  pos : 0 < y
  le : y ≤ x
  within : t ≤ x
  below : y < t ∨ y = 1

section Wide

variable {t x y z : ℤ}

/-- The next number of units is smaller than the value. -/
theorem Whole.lt (hw : Whole t x y) (halign : 1 < solver.align var)
    (hz : (x + y + 1) / 2 = z * solver.align var) : 0 < z ∧ z < x := by
  have hpos := hw.pos
  have hle := hw.le
  have hzpos : 0 < z := by
    by_contra hneg
    have h := mul_le_mul_of_nonneg_right (by omega : z ≤ 0) (by omega : 0 ≤ solver.align var)
    omega
  have hdouble := mul_le_mul_of_nonneg_left (by omega : 2 ≤ solver.align var)
    (le_of_lt hzpos)
  exact ⟨hzpos, by omega⟩

theorem Whole.lower (hw : Whole t x y) (halign : 1 < solver.align var)
    (hz : (x + y + 1) / 2 = z * solver.align var) (ht : t ≤ z) : Whole t z y where
  pos := hw.pos
  le := by
    have hzpos := (hw.lt halign hz).1
    rcases hw.below with h | h
    · omega
    · omega
  within := ht
  below := hw.below

theorem Whole.raise (hw : Whole t x y) (halign : 1 < solver.align var)
    (hz : (x + y + 1) / 2 = z * solver.align var) (ht : z < t) : Whole t x z where
  pos := (hw.lt halign hz).1
  le := le_of_lt (hw.lt halign hz).2
  within := hw.within
  below := .inl ht

/-- A round whose midpoint is whole. -/
theorem mcRound_wide (h : FirstWithin solver var st t) (hw : Whole t x y)
    (halign : 1 < solver.align var) (hz : (x + y + 1) / 2 = z * solver.align var) (preObj : ℚ)
    (assigned : List ℤ) :
    let a := solver.align var
    solver.mcRound false var ⟨y * a, preObj, update st var (x * a), assigned⟩ =
      if t ≤ z then ⟨y * a, preObj, update st var (z * a), assigned ++ [z * a]⟩
      else ⟨z * a, preObj, update st var (x * a), assigned ++ [z * a]⟩ := by
  have hpos := hw.pos
  have hle := hw.le
  dsimp only
  rw [mcRound_eq, ceilDiv_midpoint halign (by omega) hpos, hz]
  have hiff := h.iff z (hw.lt halign hz).1
  by_cases ht : t ≤ z
  · rw [if_pos (hiff.mpr ht), if_pos ht]
  · rw [if_neg fun hyes => ht (hiff.mp hyes), if_neg ht]

theorem mcLoop_succ (fuel : ℕ) (last : ℤ × ℤ) (boundary v : ℤ) (preObj : ℚ) (assigned : List ℤ) :
    solver.mcLoop var (fuel + 1) last ⟨boundary, preObj, update st var v, assigned⟩ =
      if last = (boundary, v) then
        some ⟨boundary, preObj, update st var v, assigned⟩
      else solver.mcLoop var fuel (boundary, v)
        (solver.mcRound false var ⟨boundary, preObj, update st var v, assigned⟩) := by
  have hself : update st var v var = v := update_self var v st
  rw [mcLoop, untilRepeat]
  simp only [hself]

theorem mul_align_ne {i j : ℤ} (halign : 1 < solver.align var) (h : i ≠ j) :
    i * solver.align var ≠ j * solver.align var := fun heq =>
  h (Int.eq_of_mul_eq_mul_right (by omega) heq)

/-- The loop follows the numbers while they stay whole. -/
theorem mcLoop_lands (h : FirstWithin solver var st t) (halign : 1 < solver.align var)
    {r : ℤ} (hlands : Lands (solver.align var) t x y r) (hw : Whole t x y) :
    ∃ size boundary more, t ≤ r ∧ r ≤ x ∧
      (∀ m ∈ more, ∃ u, m = u * solver.align var ∧ 0 < u ∧ u ≤ x) ∧
      ∀ fuel last preObj assigned, size < fuel →
        last ≠ (y * solver.align var, x * solver.align var) →
        solver.mcLoop var fuel last ⟨y * solver.align var, preObj,
            update st var (x * solver.align var), assigned⟩ =
          some ⟨boundary, preObj, update st var (r * solver.align var),
            assigned ++ more⟩ := by
  induction hlands with
  | @stop x y hz ht =>
    refine ⟨1, y * solver.align var, [y * solver.align var], hw.within, le_refl x,
      fun m hm => ⟨y, mem_singleton.mp hm, hw.pos, hw.le⟩, ?_⟩
    intro fuel last preObj assigned hfuel hlast
    obtain ⟨rest, rfl⟩ : ∃ rest, fuel = rest + 1 + 1 := ⟨fuel - 2, by omega⟩
    have hround := mcRound_wide h hw halign hz preObj assigned
    dsimp only at hround
    rw [if_neg (by omega)] at hround
    -- the round leaves both numbers as they are
    rw [mcLoop_succ, if_neg hlast, hround, mcLoop_succ, if_pos rfl]
  | @lower x y z r hz ht _ ih =>
    obtain ⟨size, boundary, more, htr, hrz, hmore, hrun⟩ := ih (hw.lower halign hz ht)
    have hlt := hw.lt halign hz
    refine ⟨size + 1, boundary, z * solver.align var :: more, htr, by omega, ?_, ?_⟩
    · intro m hm
      rcases mem_cons.mp hm with rfl | hm
      · exact ⟨z, rfl, hlt.1, by omega⟩
      · obtain ⟨u, rfl, hu, hux⟩ := hmore m hm
        exact ⟨u, rfl, hu, by omega⟩
    · intro fuel last preObj assigned hfuel hlast
      obtain ⟨rest, rfl⟩ : ∃ rest, fuel = rest + 1 := ⟨fuel - 1, by omega⟩
      have hround := mcRound_wide h hw halign hz preObj assigned
      dsimp only at hround
      rw [if_pos ht] at hround
      have hne : (y * solver.align var, x * solver.align var) ≠
          (y * solver.align var, z * solver.align var) := fun heq =>
        mul_align_ne halign (by omega : x ≠ z) (Prod.mk.inj heq).2
      have hnext := hrun rest _ preObj (assigned ++ [z * solver.align var]) (by omega) hne
      rw [mcLoop_succ, if_neg hlast, hround, hnext, append_assoc, singleton_append]
  | @raise x y z r hz ht hzy _ ih =>
    obtain ⟨size, boundary, more, htr, hrx, hmore, hrun⟩ := ih (hw.raise halign hz ht)
    have hlt := hw.lt halign hz
    refine ⟨size + 1, boundary, z * solver.align var :: more, htr, hrx, ?_, ?_⟩
    · intro m hm
      rcases mem_cons.mp hm with rfl | hm
      · exact ⟨z, rfl, hlt.1, by omega⟩
      · exact hmore m hm
    · intro fuel last preObj assigned hfuel hlast
      obtain ⟨rest, rfl⟩ : ∃ rest, fuel = rest + 1 := ⟨fuel - 1, by omega⟩
      have hround := mcRound_wide h hw halign hz preObj assigned
      dsimp only at hround
      rw [if_neg (by omega)] at hround
      have hne : (y * solver.align var, x * solver.align var) ≠
          (z * solver.align var, x * solver.align var) := fun heq =>
        mul_align_ne halign (fun heq => hzy heq.symm) (Prod.mk.inj heq).1
      have hnext := hrun rest _ preObj (assigned ++ [z * solver.align var]) (by omega) hne
      rw [mcLoop_succ, if_neg hlast, hround, hnext, append_assoc, singleton_append]

/-- A loop whose values are all multiples has followed whole numbers. -/
theorem lands_of_mcLoop (h : FirstWithin solver var st t) (halign : 1 < solver.align var)
    (hw : Whole t x y) {fuel : ℕ} {last : ℤ × ℤ} {preObj : ℚ} {assigned : List ℤ} {s : McSearch n}
    (hlast : last ≠ (y * solver.align var, x * solver.align var))
    (hrun : solver.mcLoop var fuel last ⟨y * solver.align var, preObj,
      update st var (x * solver.align var), assigned⟩ = some s)
    (hall : ∀ m ∈ s.assigned, solver.align var ∣ m) : ∃ r, Lands (solver.align var) t x y r := by
  induction fuel generalizing x y last assigned with
  | zero => cases hrun
  | succ fuel ih =>
    rw [mcLoop_succ, if_neg hlast] at hrun
    -- the midpoint of the first round is among the values
    have hmem : (x + y + 1) / 2 ∈ s.assigned := by
      have hpos := hw.pos
      have hle := hw.le
      have hround := @mcRound_eq n solver var st (y * solver.align var) (x * solver.align var) preObj
        assigned
      dsimp only at hround
      rw [ceilDiv_midpoint halign (by omega) hpos] at hround
      refine mcLoop_assigned ?_ hrun
      rw [hround]
      split
      · exact mem_append_right _ (mem_singleton_self _)
      · exact mem_append_right _ (mem_singleton_self _)
    obtain ⟨z, hz⟩ := hall _ hmem
    rw [mul_comm] at hz
    have hround := mcRound_wide h hw halign hz preObj assigned
    have hlt := hw.lt halign hz
    dsimp only at hround
    rw [hround] at hrun
    by_cases ht : t ≤ z
    · rw [if_pos ht] at hrun
      have hne : (y * solver.align var, x * solver.align var) ≠
          (y * solver.align var, z * solver.align var) := fun heq =>
        mul_align_ne halign (by omega : x ≠ z) (Prod.mk.inj heq).2
      obtain ⟨r, hr⟩ := ih (hw.lower halign hz ht) hne hrun
      exact ⟨r, Lands.lower hz ht hr⟩
    · rw [if_neg ht] at hrun
      by_cases hzy : z = y
      · subst hzy
        exact ⟨x, Lands.stop hz (by omega)⟩
      · have hne : (y * solver.align var, x * solver.align var) ≠
            (z * solver.align var, x * solver.align var) := fun heq =>
          mul_align_ne halign (fun heq => hzy heq.symm) (Prod.mk.inj heq).1
        obtain ⟨r, hr⟩ := ih (hw.raise halign hz (by omega)) hne hrun
        exact ⟨r, Lands.raise hz (by omega) hzy hr⟩

end Wide

/-! ### The turn of a variable -/

theorem mcRepair_succ (last : ℤ) (fuel : ℕ) (v : ℤ) (assigned : List ℤ) :
    solver.mcRepair var last (fuel + 1) (update st var v, assigned) =
      if !solver.satisfyVarCons var .MC_MIXED (update st var v) && v ≠ last then
        solver.mcRepair var last fuel
          (update st var (v + solver.align var), assigned ++ [v + solver.align var])
      else some (update st var v, assigned) := by
  rw [mcRepair]
  simp only [update_self, update_idem]

/-- The repair loop goes over multiples, up to the first value of the variable. -/
theorem mcRepair_ends {r last : ℤ} (hle : r ≤ last) (assigned : List ℤ) :
    ∃ u more, r ≤ u ∧ u ≤ last ∧
      (∀ m ∈ more, ∃ w, m = w * solver.align var ∧ r ≤ w ∧ w ≤ last) ∧
      ∀ fuel, (last - r).toNat < fuel →
        solver.mcRepair var (last * solver.align var) fuel
            (update st var (r * solver.align var), assigned) =
          some (update st var (u * solver.align var), assigned ++ more) := by
  induction hsize : (last - r).toNat generalizing r assigned with
  | zero =>
    obtain rfl : r = last := by omega
    refine ⟨r, [], hle, hle, fun m hm => (not_mem_nil hm).elim, fun fuel hfuel => ?_⟩
    obtain ⟨rest, rfl⟩ : ∃ rest, fuel = rest + 1 := ⟨fuel - 1, by omega⟩
    rw [mcRepair_succ, if_neg (by simp), append_nil]
  | succ size ih =>
    by_cases hstop : (!solver.satisfyVarCons var .MC_MIXED
        (update st var (r * solver.align var)) &&
          decide (r * solver.align var ≠ last * solver.align var)) = true
    · obtain ⟨u, more, hru, hul, hmore, hrun⟩ := @ih (r + 1) (by omega)
        (assigned ++ [(r + 1) * solver.align var]) (by omega)
      refine ⟨u, (r + 1) * solver.align var :: more, by omega, hul, ?_, fun fuel hfuel => ?_⟩
      · intro m hm
        rcases mem_cons.mp hm with rfl | hm
        · exact ⟨r + 1, rfl, by omega, by omega⟩
        · obtain ⟨w, rfl, hrw, hwl⟩ := hmore m hm
          exact ⟨w, rfl, by omega, hwl⟩
      · obtain ⟨rest, rfl⟩ : ∃ rest, fuel = rest + 1 := ⟨fuel - 1, by omega⟩
        have hnext : r * solver.align var + solver.align var = (r + 1) * solver.align var := by
          rw [add_mul, one_mul]
        rw [mcRepair_succ, if_pos hstop, hnext, hrun rest (by omega), append_assoc,
          singleton_append]
    · refine ⟨r, [], le_refl r, hle, fun m hm => (not_mem_nil hm).elim, fun fuel hfuel => ?_⟩
      obtain ⟨rest, rfl⟩ : ∃ rest, fuel = rest + 1 := ⟨fuel - 1, by omega⟩
      rw [mcRepair_succ, if_neg hstop, append_nil]

/-- With enough fuel the turn of the variable is this one. -/
def TurnTo (solver : MulticoreSolver n) (var : Fin n) (st : Values n) (turn : McTurn n) : Prop :=
  ∃ size, ∀ fuel, size < fuel → solver.mcTurn false var fuel st = some turn

theorem TurnTo.unique {turn turn' : McTurn n} (h : TurnTo solver var st turn)
    (h' : TurnTo solver var st turn') : turn = turn' := by
  obtain ⟨size, hrun⟩ := h
  obtain ⟨size', hrun'⟩ := h'
  have h1 := hrun (max size size' + 1) (by omega)
  rw [hrun' _ (by omega)] at h1
  exact (some.inj h1).symm

theorem TurnTo.var_eq {turn : McTurn n} (h : TurnTo solver var st turn) : turn.var = var := by
  obtain ⟨size, hrun⟩ := h
  have hr := hrun (size + 1) (by omega)
  rw [mcTurn] at hr
  dsimp only at hr
  split at hr
  · cases hr
  · obtain ⟨r, -, rfl⟩ := map_eq_some_iff.mp hr
    rfl

/-- A variable at a multiple of its alignment at which the cores suffice. -/
structure McReady (solver : MulticoreSolver n) (var : Fin n) (st : Values n) : Prop where
  align : 0 < solver.align var
  value : 0 < st var
  dvd : solver.align var ∣ st var
  within : solver.satisfyMCCons st = true
  mono : ∀ m m', 0 < m → m ≤ m' → solver.calRealUsedCoreNum (update st var m') ≤
    solver.calRealUsedCoreNum (update st var m)

theorem McReady.units (h : McReady solver var st) :
    st var = st var / solver.align var * solver.align var ∧ 0 < st var / solver.align var := by
  have heq : st var = st var / solver.align var * solver.align var :=
    (Int.ediv_mul_cancel h.dvd).symm
  refine ⟨heq, ?_⟩
  by_contra hneg
  have hle := mul_le_mul_of_nonneg_right (by omega : st var / solver.align var ≤ 0)
    (le_of_lt h.align)
  have hpos := h.value
  omega

theorem satisfyMCCons_mono (h : McReady solver var st) {m m' : ℤ} (hm : 0 < m) (hle : m ≤ m')
    (hsat : solver.satisfyMCCons (update st var m) = true) :
    solver.satisfyMCCons (update st var m') = true := by
  have hcores := h.mono m m' hm hle
  have hwithin : solver.calRealUsedCoreNum (update st var m) ≤ solver.coreNum :=
    of_decide_eq_true hsat
  exact decide_eq_true (by omega)

/-- Some multiple is the first one within the cores, and the variable is at or above it. -/
theorem McReady.exists_first (h : McReady solver var st) :
    ∃ t, FirstWithin solver var st t ∧ t ≤ st var / solver.align var := by
  obtain ⟨heq, hpos⟩ := h.units
  have hstart : solver.satisfyMCCons
      (update st var (st var / solver.align var * solver.align var)) = true := by
    rw [← heq, update_eq_self]
    exact h.within
  obtain ⟨t, ⟨htpos, htsat⟩, hleast⟩ := @Int.exists_least_of_bdd
    (fun u => 0 < u ∧ solver.satisfyMCCons (update st var (u * solver.align var)) = true)
    ⟨0, fun u hu => le_of_lt hu.1⟩ ⟨_, hpos, hstart⟩
  refine ⟨t, ⟨htpos, fun u hu => ⟨fun hsat => hleast u ⟨hu, hsat⟩, fun hle => ?_⟩⟩,
    hleast _ ⟨hpos, hstart⟩⟩
  exact satisfyMCCons_mono h (mul_pos htpos h.align)
    (mul_le_mul_of_nonneg_right hle (le_of_lt h.align)) htsat

theorem FirstWithin.unique {t t' : ℤ} (h : FirstWithin solver var st t)
    (h' : FirstWithin solver var st t') : t = t' := by
  have h1 := (h.iff t' h'.pos).mp ((h'.iff t' h'.pos).mpr (le_refl t'))
  have h2 := (h'.iff t h.pos).mp ((h.iff t h.pos).mpr (le_refl t))
  omega

/-- The multiples within the cores begin with the first one. -/
theorem FirstWithin.isLeast {t : ℤ} (h : FirstWithin solver var st t)
    (halign : 0 < solver.align var) :
    IsLeast {m | solver.align var ∣ m ∧ 0 < m ∧
      solver.satisfyMCCons (update st var m) = true} (t * solver.align var) := by
  constructor
  · exact ⟨Int.dvd_mul_left t _, Int.mul_pos h.pos halign, (h.iff t h.pos).mpr (Int.le_refl t)⟩
  · rintro m ⟨⟨u, rfl⟩, hpos, hsat⟩
    rw [Int.mul_comm (solver.align var) u] at hpos hsat ⊢
    have hu : 0 < u := by
      by_contra hneg
      have hle := Int.mul_le_mul_of_nonneg_right (by omega : u ≤ 0) (Int.le_of_lt halign)
      omega
    exact Int.mul_le_mul_of_nonneg_right ((h.iff u hu).mp hsat) (Int.le_of_lt halign)

/-- A turn that stays on the multiples and within the cores. -/
structure TurnRight (solver : MulticoreSolver n) (var : Fin n) (st : Values n) (turn : McTurn n) :
    Prop where
  var_eq : turn.var = var
  multiples : ∀ m ∈ turn.assigned, solver.align var ∣ m ∧ solver.align var ≤ m ∧ m ≤ st var
  values : ∃ v, solver.align var ∣ v ∧ 0 < v ∧ v ≤ st var ∧ turn.values = update st var v
  within : solver.satisfyMCCons turn.values = true

/-- After a loop that stays on the multiples, the rest of the turn does so too. -/
theorem turn_of_loop (h : McReady solver var st) {t r : ℤ} {s : McSearch n} {size : ℕ}
    (hfirst : FirstWithin solver var st t) (htr : t ≤ r) (hrx : r ≤ st var / solver.align var)
    (hvalues : s.values = update st var (r * solver.align var))
    (hassigned : ∀ m ∈ s.assigned, ∃ u, m = u * solver.align var ∧ 0 < u ∧
      u ≤ st var / solver.align var)
    (hloop : ∀ fuel, size < fuel →
      solver.mcLoop var fuel (-1, -1) ⟨solver.align var, -1, st, []⟩ = some s) :
    ∃ turn, TurnTo solver var st turn ∧ TurnRight solver var st turn ∧
      turn.chosen = r * solver.align var := by
  obtain ⟨hunits, -⟩ := h.units
  have htpos := hfirst.pos
  obtain ⟨u, more, hru, hux, hmore, hrun⟩ := @mcRepair_ends n solver var st r _ hrx s.assigned
  rw [← hunits] at hrun
  have hsat : solver.satisfyMCCons s.values = true := by
    rw [hvalues]
    exact (hfirst.iff r (by omega)).mpr htr
  have hle : ∀ {w}, w ≤ st var / solver.align var → w * solver.align var ≤ st var := fun hw => by
    have hmul := Int.mul_le_mul_of_nonneg_right hw (Int.le_of_lt h.align)
    omega
  have hge : ∀ {w : ℤ}, 0 < w → solver.align var ≤ w * solver.align var := fun hw => by
    have hmul := Int.mul_le_mul_of_nonneg_right hw (Int.le_of_lt h.align)
    rwa [Int.zero_add, Int.one_mul] at hmul
  refine ⟨⟨var, r * solver.align var, update st var (u * solver.align var),
    s.assigned ++ more⟩, ⟨max size (st var / solver.align var - r).toNat, fun fuel hfuel => ?_⟩,
    ⟨rfl, ?_, ?_, ?_⟩, rfl⟩
  · have hl := hloop fuel (by omega)
    rw [mcLoop] at hl
    simp only [mcTurn, Bool.false_eq_true, if_false, hl, hsat, if_true]
    rw [hvalues, hrun fuel (by omega), map_some, update_self]
  · intro m hm
    have hunit : ∃ w, m = w * solver.align var ∧ 0 < w ∧ w ≤ st var / solver.align var := by
      rcases mem_append.mp hm with hm | hm
      · exact hassigned m hm
      · obtain ⟨w, rfl, hrw, hwx⟩ := hmore m hm
        exact ⟨w, rfl, by omega, hwx⟩
    obtain ⟨w, rfl, hw, hwx⟩ := hunit
    exact ⟨Int.dvd_mul_left w _, hge hw, hle hwx⟩
  · exact ⟨u * solver.align var, Int.dvd_mul_left u _, Int.mul_pos (by omega) h.align, hle hux, rfl⟩
  · exact (hfirst.iff u (by omega)).mpr (by omega)

/-- Where the loop of a variable ends, in units, if its values are all multiples. -/
def LandsAt (solver : MulticoreSolver n) (var : Fin n) (st : Values n) (r : ℤ) : Prop :=
  ∃ t, FirstWithin solver var st t ∧
    (solver.align var = 1 ∧ r = t ∨
      1 < solver.align var ∧ Lands (solver.align var) t (st var / solver.align var) 1 r)

theorem FirstWithin.whole {t : ℤ} (hfirst : FirstWithin solver var st t)
    (hle : t ≤ st var / solver.align var) : Whole t (st var / solver.align var) 1 := by
  have hpos := hfirst.pos
  exact ⟨Int.one_pos, by omega, hle, .inr rfl⟩

/-- The numbers that stand for no round yet are no multiples. -/
theorem start_ne (halign : 1 < solver.align var) {x : ℤ} :
    ((-1, -1) : ℤ × ℤ) ≠ (1 * solver.align var, x * solver.align var) := fun heq => by
  have h := (Prod.mk.inj heq).1
  omega

theorem LandsAt.turn (h : McReady solver var st) {r : ℤ} (hr : LandsAt solver var st r) :
    ∃ turn, TurnTo solver var st turn ∧ TurnRight solver var st turn ∧
      turn.chosen = r * solver.align var := by
  obtain ⟨t, hfirst, hcases⟩ := hr
  obtain ⟨t', hfirst', hle⟩ := h.exists_first
  obtain rfl := hfirst.unique hfirst'
  obtain ⟨hunits, hpos⟩ := h.units
  rcases hcases with ⟨hone, rfl⟩ | ⟨halign, hlands⟩
  · have hval : st var = st var / solver.align var := by
      rw [hone, mul_one] at hunits
      rwa [hone]
    obtain ⟨s, hvalues, hall, hloop⟩ := mcLoop_one hfirst hone hle hval (-1)
    have hloop' : ∀ fuel, (st var / solver.align var - 1).toNat + 1 < fuel →
        solver.mcLoop var fuel (-1, -1) ⟨solver.align var, -1, st, []⟩ = some s := fun fuel hfuel => by
      rw [hone]
      exact hloop fuel hfuel
    refine turn_of_loop h hfirst (le_refl _) hle ?_ (fun m hm => ?_) hloop'
    · rw [hvalues, hone, mul_one]
    · exact ⟨m, by rw [hone, mul_one], hall m hm⟩
  · obtain ⟨size, boundary, more, htr, hrx, hmore, hrun⟩ :=
      mcLoop_lands hfirst halign hlands (hfirst.whole hle)
    refine @turn_of_loop n solver var st h t r
      ⟨boundary, -1, update st var (r * solver.align var), [] ++ more⟩ size hfirst htr hrx rfl
      hmore fun fuel hfuel => ?_
    have hl := hrun fuel _ (-1) [] hfuel (start_ne halign)
    rwa [← hunits, update_eq_self, one_mul] at hl

/-- A turn whose values are all multiples landed. -/
theorem TurnTo.landsAt (h : McReady solver var st) {turn : McTurn n}
    (hturn : TurnTo solver var st turn) (hall : ∀ m ∈ turn.assigned, solver.align var ∣ m) :
    ∃ r, LandsAt solver var st r ∧ turn.chosen = r * solver.align var := by
  obtain ⟨t, hfirst, hle⟩ := h.exists_first
  obtain ⟨hunits, hpos⟩ := h.units
  have hlands : ∃ r, LandsAt solver var st r := by
    rcases lt_or_eq_of_le (by have h := h.align; omega : 1 ≤ solver.align var) with halign | hone
    · obtain ⟨size, hrun⟩ := hturn
      have hr := hrun (size + 1) (by omega)
      rw [mcTurn] at hr
      dsimp only at hr
      split at hr
      · cases hr
      · next s hloop =>
        obtain ⟨r, hrepair, rfl⟩ := map_eq_some_iff.mp hr
        have hmem : ∀ m ∈ s.assigned, solver.align var ∣ m := fun m hm => by
          refine hall m (mcRepair_assigned ?_ hrepair)
          split
          · exact hm
          · exact mem_append_left _ hm
        have hl : solver.mcLoop var (size + 1) (-1, -1) ⟨1 * solver.align var, -1,
            update st var (st var / solver.align var * solver.align var), []⟩ = some s := by
          rw [← hunits, update_eq_self, one_mul]
          exact hloop
        obtain ⟨x, hx⟩ := lands_of_mcLoop hfirst halign (hfirst.whole hle) (start_ne halign) hl hmem
        exact ⟨x, t, hfirst, .inr ⟨halign, hx⟩⟩
    · exact ⟨t, t, hfirst, .inl ⟨hone.symm, rfl⟩⟩
  obtain ⟨r, hr⟩ := hlands
  obtain ⟨turn', hturn', -, hchosen⟩ := hr.turn h
  rw [hturn.unique hturn']
  exact ⟨r, hr, hchosen⟩

end Turn

/-! ### The turns of all variables -/

/-- What the caller provides: values at multiples of the alignments, within the cores, and fewer cores
in use when a multicore variable grows. -/
structure McStart (solver : MulticoreSolver n) (vars : List (Fin n)) (st : Values n) : Prop where
  nodup : vars.Nodup
  align : ∀ var ∈ vars, 0 < solver.align var
  value : ∀ var ∈ vars, 0 < st var ∧ solver.align var ∣ st var
  within : solver.satisfyMCCons st = true
  mono : ∀ st', ∀ var ∈ vars, ∀ m m', 0 < m → m ≤ m' →
    solver.calRealUsedCoreNum (update st' var m') ≤
      solver.calRealUsedCoreNum (update st' var m)

/-- Before the turn of each variable, its loop is going to land. -/
def EachLands (solver : MulticoreSolver n) : List (Fin n) → Values n → Prop
  | [], _ => True
  | var :: vars, st => (∃ r, LandsAt solver var st r) ∧
    ∀ turn, TurnTo solver var st turn → EachLands solver vars turn.values

/-- Every variable is given multiples between its alignment and its value before. -/
def MultiplesOnly (solver : MulticoreSolver n) (st : Values n) (turns : List (McTurn n)) : Prop :=
  ∀ turn ∈ turns, ∀ m ∈ turn.assigned,
    solver.align turn.var ∣ m ∧ solver.align turn.var ≤ m ∧ m ≤ st turn.var

section Turns

variable {solver : MulticoreSolver n} {var : Fin n} {vars : List (Fin n)} {st : Values n}

theorem McStart.ready (h : McStart solver (var :: vars) st) : McReady solver var st where
  align := h.align var mem_cons_self
  value := (h.value var mem_cons_self).1
  dvd := (h.value var mem_cons_self).2
  within := h.within
  mono := h.mono st var mem_cons_self

/-- A turn that is right leaves the other variables ready. -/
theorem McStart.next (h : McStart solver (var :: vars) st) {turn : McTurn n}
    (hright : TurnRight solver var st turn) :
    McStart solver vars turn.values ∧ ∀ v ∈ vars, turn.values v = st v := by
  obtain ⟨v, -, -, -, hv⟩ := hright.values
  have hnotMem := (nodup_cons.mp h.nodup).1
  have hsame : ∀ w ∈ vars, turn.values w = st w := fun w hw => by
    rw [hv, update_of_ne]
    intro heq
    exact hnotMem (heq ▸ hw)
  refine ⟨⟨(nodup_cons.mp h.nodup).2, fun w hw => h.align w (mem_cons_of_mem _ hw),
    fun w hw => ?_, hright.within, fun st' w hw => h.mono st' w (mem_cons_of_mem _ hw)⟩, hsame⟩
  rw [hsame w hw]
  exact h.value w (mem_cons_of_mem _ hw)

/-- The turns end on the multiples when each loop lands. -/
theorem EachLands.turns (h : McStart solver vars st) (hlands : EachLands solver vars st) :
    ∃ size turns st', (∀ fuel, size < fuel →
        solver.mcTurns false fuel vars st = some (turns, st')) ∧
      MultiplesOnly solver st turns ∧ solver.satisfyMCCons st' = true ∧
      ∀ turn ∈ turns, turn.var ∈ vars := by
  induction vars generalizing st with
  | nil =>
    refine ⟨0, [], st, fun _ _ => rfl, fun turn hturn => ?_, h.within, fun turn hturn => ?_⟩
    · cases hturn
    · cases hturn
  | cons var vars ih =>
    obtain ⟨⟨r, hr⟩, hrest⟩ := hlands
    obtain ⟨turn, ⟨size, hrun⟩, hright, -⟩ := hr.turn h.ready
    obtain ⟨hnext, hsame⟩ := h.next hright
    obtain ⟨size', turns, st', hruns, hmul, hwithin, hvars⟩ := ih hnext (hrest turn ⟨size, hrun⟩)
    refine ⟨max size size', turn :: turns, st', fun fuel hfuel => ?_, ?_, hwithin, ?_⟩
    · simp only [mcTurns, hrun fuel (by omega), hruns fuel (by omega), map_some]
    · intro t ht m hm
      rcases mem_cons.mp ht with rfl | ht
      · rw [hright.var_eq]
        exact hright.multiples m hm
      · rw [← hsame t.var (hvars t ht)]
        exact hmul t ht m hm
    · intro t ht
      rcases mem_cons.mp ht with rfl | ht
      · rw [hright.var_eq]
        exact mem_cons_self
      · exact mem_cons_of_mem _ (hvars t ht)

/-- The first of the turns. -/
theorem mcTurns_cons {size : ℕ} {turns : List (McTurn n)} {st' : Values n}
    (hrun : ∀ fuel, size < fuel → solver.mcTurns false fuel (var :: vars) st = some (turns, st')) :
    ∃ turn rest, turns = turn :: rest ∧ TurnTo solver var st turn ∧
      ∀ fuel, size < fuel → solver.mcTurns false fuel vars turn.values = some (rest, st') := by
  have hsplit : ∀ fuel, size < fuel → ∃ turn rest, turns = turn :: rest ∧
      solver.mcTurn false var fuel st = some turn ∧
      solver.mcTurns false fuel vars turn.values = some (rest, st') := fun fuel hfuel => by
    have h := hrun fuel hfuel
    rw [mcTurns] at h
    split at h
    · cases h
    · next turn hturn =>
      obtain ⟨r, hr, heq⟩ := map_eq_some_iff.mp h
      obtain ⟨rfl, rfl⟩ := Prod.mk.inj heq
      exact ⟨turn, r.1, rfl, hturn, hr⟩
  obtain ⟨turn, rest, rfl, -, -⟩ := hsplit (size + 1) (by omega)
  refine ⟨turn, rest, rfl, ⟨size, fun fuel hfuel => ?_⟩, fun fuel hfuel => ?_⟩
  · obtain ⟨turn', rest', heq, hturn, -⟩ := hsplit fuel hfuel
    obtain ⟨rfl, -⟩ := List.cons.inj heq
    exact hturn
  · obtain ⟨turn', rest', heq, -, hrest⟩ := hsplit fuel hfuel
    obtain ⟨rfl, rfl⟩ := List.cons.inj heq
    exact hrest

/-- Turns that stay on the multiples have landed. -/
theorem eachLands_of_turns (h : McStart solver vars st) {size : ℕ} {turns : List (McTurn n)}
    {st' : Values n}
    (hrun : ∀ fuel, size < fuel → solver.mcTurns false fuel vars st = some (turns, st'))
    (hvars : ∀ turn ∈ turns, ∀ m ∈ turn.assigned, solver.align turn.var ∣ m) :
    EachLands solver vars st := by
  induction vars generalizing st turns with
  | nil => trivial
  | cons var vars ih =>
    obtain ⟨turn, rest, rfl, hturn, hrest⟩ := mcTurns_cons hrun
    have hvar : turn.var = var := hturn.var_eq
    have hall : ∀ m ∈ turn.assigned, solver.align var ∣ m := fun m hm => by
      have hdvd := hvars turn mem_cons_self m hm
      rwa [hvar] at hdvd
    obtain ⟨r, hr, -⟩ := hturn.landsAt h.ready hall
    refine ⟨⟨r, hr⟩, fun turn' hturn' => ?_⟩
    obtain rfl := hturn.unique hturn'
    obtain ⟨turn', hturn', hright, -⟩ := hr.turn h.ready
    obtain rfl := hturn.unique hturn'
    exact ih (h.next hright).1 hrest fun t ht => hvars t (mem_cons_of_mem _ ht)

end Turns

/-- What the tiling promises: it comes to an end, gives every variable multiples only, stays within the
cores, and chooses the smallest multiple for the variable whose turn is first. -/
def Minimises (solver : MulticoreSolver n) (st : Values n) : Prop :=
  ∃ size run, (∀ fuel, size < fuel → solver.multicoreTilingCore false fuel st = some run) ∧
    MultiplesOnly solver st run.turns ∧ solver.satisfyMCCons run.values = true ∧
    ∀ turn ∈ run.turns.head?, IsLeast {m | solver.align turn.var ∣ m ∧ 0 < m ∧
      solver.satisfyMCCons (update st turn.var m) = true} turn.chosen

/-- The loop of the variable lands at the first multiple within the cores. -/
def LandsFirst (solver : MulticoreSolver n) (var : Fin n) (st : Values n) : Prop :=
  ∃ t, FirstWithin solver var st t ∧ LandsAt solver var st t

/-! ### Other variables -/

section Frame

variable {solver : MulticoreSolver n} {var : Fin n} {st : Values n} {auto : Bool} {fuel : ℕ}

theorem mcRound_frame {s : McSearch n} {v : Fin n} (hv : v ≠ var) :
    (solver.mcRound auto var s).values v = s.values v := by
  unfold mcRound
  dsimp only
  split
  · dsimp only
    rw [update_of_ne hv, update_of_ne hv]
  · exact update_of_ne hv _ _

theorem mcRepair_frame {last : ℤ} {s r : Values n × List ℤ} {v : Fin n} (hv : v ≠ var)
    (hrun : solver.mcRepair var last fuel s = some r) : r.1 v = s.1 v := by
  induction fuel generalizing s with
  | zero => cases hrun
  | succ fuel ih =>
    rw [mcRepair] at hrun
    split at hrun
    · rw [ih hrun]
      exact update_of_ne hv _ _
    · obtain rfl := some.inj hrun
      rfl

theorem mcTurn_frame {turn : McTurn n} {v : Fin n} (hv : v ≠ var)
    (hrun : solver.mcTurn auto var fuel st = some turn) : turn.values v = st v := by
  rw [mcTurn] at hrun
  dsimp only at hrun
  split at hrun
  · cases hrun
  · next s hloop =>
    have hs : s.values v = st v := @untilRepeat_inv _ _ _ _ _
      (fun s : McSearch n => s.values v = st v)
      (fun s hs => (mcRound_frame hv).trans hs) _ _ _ _ rfl hloop
    obtain ⟨r, hrepair, rfl⟩ := map_eq_some_iff.mp hrun
    refine (mcRepair_frame hv hrepair).trans ?_
    split
    · exact hs
    · exact (update_of_ne hv _ _).trans hs

theorem mcTurns_frame {vars : List (Fin n)} {r : List (McTurn n) × Values n} {v : Fin n}
    (hv : v ∉ vars) (hrun : solver.mcTurns auto fuel vars st = some r) : r.2 v = st v := by
  induction vars generalizing st r with
  | nil =>
    obtain rfl := some.inj hrun
    rfl
  | cons var vars ih =>
    rw [mcTurns] at hrun
    split at hrun
    · cases hrun
    · next turn hturn =>
      obtain ⟨r', hr', rfl⟩ := map_eq_some_iff.mp hrun
      have hne : v ≠ var := fun h => hv (h ▸ mem_cons_self)
      exact (ih (fun h => hv (mem_cons_of_mem _ h)) hr').trans (mcTurn_frame hne hturn)

/-- Only the multicore variables change. -/
theorem multicoreTilingCore_frame {run : McRun n} {v : Fin n} (hv : v ∉ solver.pureMcVars)
    (hrun : solver.multicoreTilingCore auto fuel st = some run) : run.values v = st v := by
  obtain ⟨r, hr, rfl⟩ := map_eq_some_iff.mp hrun
  exact mcTurns_frame (fun h => hv (mem_reverse.mp h)) hr

end Frame

section Core

variable {solver : MulticoreSolver n} {st : Values n}

theorem McStart.reverse {vars : List (Fin n)} (h : McStart solver vars st) :
    McStart solver vars.reverse st where
  nodup := List.nodup_reverse.mpr h.nodup
  align var hvar := h.align var (mem_reverse.mp hvar)
  value var hvar := h.value var (mem_reverse.mp hvar)
  within := h.within
  mono st' var hvar := h.mono st' var (mem_reverse.mp hvar)

/-- The variable whose turn is first ends its loop at the smallest multiple exactly if it lands at
the first one within the cores. -/
theorem chosen_isLeast_iff {var : Fin n} (h : McReady solver var st) {turn : McTurn n}
    (hturn : TurnTo solver var st turn) (hlands : ∃ r, LandsAt solver var st r) :
    IsLeast {m | solver.align var ∣ m ∧ 0 < m ∧
      solver.satisfyMCCons (update st var m) = true} turn.chosen ↔
      LandsFirst solver var st := by
  obtain ⟨t, hfirst, -⟩ := h.exists_first
  have hleast := hfirst.isLeast h.align
  constructor
  · intro hchosen
    obtain ⟨r, hr⟩ := hlands
    obtain ⟨turn', hturn', -, heq⟩ := hr.turn h
    obtain rfl := hturn.unique hturn'
    have hrt : r = t := Int.eq_of_mul_eq_mul_right (ne_of_gt h.align)
      (heq.symm.trans (hchosen.unique hleast))
    exact ⟨t, hfirst, hrt ▸ hr⟩
  · rintro ⟨t', hfirst', hr⟩
    obtain rfl := hfirst.unique hfirst'
    obtain ⟨turn', hturn', -, heq⟩ := hr.turn h
    obtain rfl := hturn.unique hturn'
    rw [heq]
    exact hleast

/-- The first turn of a run that is right. -/
theorem Minimises.lands (h : McStart solver solver.pureMcVars st) (hmin : Minimises solver st) :
    EachLands solver solver.pureMcVars.reverse st ∧
      ∀ var ∈ solver.pureMcVars.getLast?, LandsFirst solver var st := by
  obtain ⟨size, run, hrun, hmul, -, hleast⟩ := hmin
  have hturns : ∀ fuel, size < fuel →
      solver.mcTurns false fuel solver.pureMcVars.reverse st = some (run.turns, run.values) := by
    intro fuel hfuel
    obtain ⟨r, hr, rfl⟩ := map_eq_some_iff.mp (hrun fuel hfuel)
    exact hr
  have hlands := eachLands_of_turns h.reverse hturns fun turn hturn m hm =>
    (hmul turn hturn m hm).1
  refine ⟨hlands, fun var hvar => ?_⟩
  have hstart := h.reverse
  rw [getLast?_eq_head?_reverse] at hvar
  generalize solver.pureMcVars.reverse = vars at hvar hstart hturns hlands
  cases vars with
  | nil => cases hvar
  | cons first vars =>
    obtain rfl := some.inj hvar
    obtain ⟨turn, rest, hcons, hturn, -⟩ := mcTurns_cons hturns
    have hchosen := hleast turn (by rw [hcons]; rfl)
    rw [hturn.var_eq] at hchosen
    exact (chosen_isLeast_iff hstart.ready hturn hlands.1).mp hchosen

theorem Minimises.of_lands (h : McStart solver solver.pureMcVars st)
    (hlands : EachLands solver solver.pureMcVars.reverse st)
    (hfirst : ∀ var ∈ solver.pureMcVars.getLast?, LandsFirst solver var st) :
    Minimises solver st := by
  have hstart := h.reverse
  obtain ⟨size, turns, st', hrun, hmul, hwithin, -⟩ := hlands.turns hstart
  refine ⟨size, ⟨solver.satisfyCons .MC_MIXED st', turns, st'⟩, fun fuel hfuel => ?_, hmul, hwithin,
    fun turn hhead => ?_⟩
  · rw [multicoreTilingCore, hrun fuel hfuel, map_some]
  · have hturns : turn ∈ turns.head? := hhead
    rw [getLast?_eq_head?_reverse] at hfirst
    generalize solver.pureMcVars.reverse = vars at hfirst hstart hrun hlands
    cases vars with
    | nil =>
      have heq := hrun (size + 1) (by omega)
      obtain ⟨rfl, -⟩ := Prod.mk.inj (some.inj heq)
      cases hturns
    | cons first vars =>
      obtain ⟨turn', rest, rfl, hturn, -⟩ := mcTurns_cons hrun
      obtain rfl := some.inj hturns
      rw [hturn.var_eq]
      exact (chosen_isLeast_iff hstart.ready hturn hlands.1).mpr (hfirst first rfl)

/-- The tiling is right exactly when the loop of each variable lands, and the first one at the first
multiple within the cores. With the alignment one a loop always does. -/
theorem multicoreTilingCore_minimises_iff (h : McStart solver solver.pureMcVars st) :
    Minimises solver st ↔ EachLands solver solver.pureMcVars.reverse st ∧
      ∀ var ∈ solver.pureMcVars.getLast?, LandsFirst solver var st :=
  ⟨fun hmin => hmin.lands h, fun hlands => Minimises.of_lands h hlands.1 hlands.2⟩

end Core

/-- One variable with the given alignment. Sixteen cores less its value are in use. -/
def oneFactor (align coreNum : ℤ) : MulticoreSolver 1 where
  allCons := []
  relCons := fun _ => []
  satisfyUBSizeCacheLine := fun _ _ => true
  ubThresholdSpec := fun spec => spec
  pureMcVars := [⟨0, Nat.zero_lt_one⟩]
  align := fun _ => align
  coreNum := coreNum
  calRealUsedCoreNum := fun st => 16 - st ⟨0, Nat.zero_lt_one⟩
  getPerf := fun _ => 0

theorem oneFactor_start {align coreNum init : ℤ} (halign : 0 < align) (hinit : 0 < init)
    (hdvd : align ∣ init) (hcores : 16 - init ≤ coreNum) :
    McStart (oneFactor align coreNum) [0] (fun _ => init) where
  nodup := nodup_singleton 0
  align _ _ := halign
  value _ _ := ⟨hinit, hdvd⟩
  within := decide_eq_true hcores
  mono st' var hvar m m' _ hle := by
    obtain rfl := mem_singleton.mp hvar
    show 16 - update st' 0 m' 0 ≤ 16 - update st' 0 m 0
    rw [update_self, update_self]
    omega

theorem multicoreTilingCore_minimises_iff_oneFactor :
    Minimises (oneFactor 1 10) (fun _ => 12) ↔ EachLands (oneFactor 1 10) [0] (fun _ => 12) ∧
      ∀ var ∈ [(0 : Fin 1)].getLast?, LandsFirst (oneFactor 1 10) var (fun _ => 12) :=
  multicoreTilingCore_minimises_iff
    (oneFactor_start (by decide) (by decide) (by decide) (by decide))

/-- With the alignment four, the value eight is halved to one and a half units, which is written as
the value two. -/
theorem not_minimises_four :
    McStart (oneFactor 4 16) [0] (fun _ => 8) ∧ ¬ Minimises (oneFactor 4 16) (fun _ => 8) := by
  have hstart := @oneFactor_start 4 16 8 (by decide) (by decide) (by decide) (by decide)
  refine ⟨hstart, fun hmin => ?_⟩
  obtain ⟨⟨⟨r, t, -, hcases⟩, -⟩, -⟩ := hmin.lands hstart
  rcases hcases with ⟨hone, -⟩ | ⟨-, hlands⟩
  · revert hone
    decide
  · have hlands' : Lands 4 t 2 1 r := hlands
    cases hlands' with
    | stop hz _ => omega
    | lower hz _ _ => omega
    | raise hz _ _ _ => omega

end MulticoreSolver

end GraphAutofusion.Autofuse
