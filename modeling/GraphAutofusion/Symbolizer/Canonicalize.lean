import GraphAutofusion.Symbolizer.Engine
import Mathlib.Algebra.BigOperators.Ring.List
import Mathlib.Tactic.Ring

/-!
# Symbolizer.Canonicalize — the canonical form of a relation

`CanonicalizeBoolExpr` moves both sides of a relation to the right, divides by a common factor of
the coefficients, moves the negative terms back to the left and cancels a common product. The
relation stays the same when no sign is lost in the division and the product is positive.
-/

namespace GraphAutofusion.Symbolizer

open List

namespace Engine

variable {E : Type} [DecidableEq E] (eng : Engine E)

def isNegative (e : E) : Bool :=
  match eng.view e with
  | .integer n => n < 0
  | .number isNegative _ => isNegative
  | .mul coefNegative _ => coefNegative
  | _ => false

def isNumberAndZero (e : E) : Bool :=
  match eng.view e with
  | .integer n => n = 0
  | .number _ isZero => isZero
  | _ => false

def asInteger (e : E) : Option ℤ :=
  match eng.view e with
  | .integer n => some n
  | _ => none

def extractCoeff (e : E) : ℤ :=
  match eng.view e with
  | .integer n => n
  | .mul _ args => (args.findSome? eng.asInteger).getD 1
  | _ => 1

def computeGCD : List ℤ → ℤ
  | [] => 0
  | coeff :: coeffs => coeffs.foldl (fun gcd c => (Int.gcd gcd c : ℤ)) coeff

def computeExprGCD (args : List E) : ℤ := computeGCD (args.map eng.extractCoeff)

/-- One more factor. A negative one makes the coefficient minus one, whatever its size; of the
integers only one and minus one are left out of the powers. -/
def createMulDictStep (acc : ℤ × List (E × ℕ)) (arg : E) : ℤ × List (E × ℕ) :=
  if arg ∈ acc.2.map Prod.fst then
    (acc.1, acc.2.map fun entry => if entry.1 = arg then (entry.1, entry.2 + 1) else entry)
  else
    let coeff := if eng.isNegative arg then -1 else acc.1
    if eng.asInteger arg = some 1 ∨ eng.asInteger arg = some (-1) then (coeff, acc.2)
    else (coeff, acc.2 ++ [(arg, 1)])

def createMulDict (args : List E) : ℤ × List (E × ℕ) := args.foldl eng.createMulDictStep (1, [])

/-- The factors that are left of a product after the division. -/
def dividedArgs (args : List E) (factor : ℤ) : List E :=
  let newCoeff := (args.filterMap eng.asInteger).prod / factor
  (if newCoeff ≠ 1 then [eng.integer newCoeff] else [])
    ++ args.filter fun arg => eng.asInteger arg = none

def divByFactor (e : E) (factor : ℤ) : E :=
  match eng.view e with
  | .integer n => eng.integer (n / factor)
  | .mul _ args =>
    let dict := eng.createMulDict (eng.dividedArgs args factor)
    eng.fromDict dict.1 dict.2
  | _ => e

/-- The factor is compared as an unsigned 64-bit number. -/
def divGcd (e : E) : E :=
  match eng.view e with
  | .add args =>
    let gcd := eng.computeExprGCD args
    if 1 < gcd.natAbs % 2 ^ 64 then eng.add (args.map fun arg => eng.divByFactor arg gcd) else e
  | _ => e

/-- The negative terms to the left, the others to the right. -/
def splitSigns (e : E) : E × E :=
  let sides :=
    match eng.view e with
    | .add args =>
      (eng.add ((args.filter eng.isNegative).map (eng.sub (eng.integer 0))),
        eng.add (args.filter fun arg => !eng.isNegative arg))
    | _ => (eng.integer 0, e)
  if eng.isNegative sides.2 && eng.isNumberAndZero sides.1 then
    (eng.sub (eng.integer 0) sides.2, eng.integer 0)
  else sides

def isMul (e : E) : Bool :=
  match eng.view e with
  | .mul _ _ => true
  | _ => false

def isSymbolOrOne (e : E) : Bool := eng.isVariable e || e = eng.integer 1

def trDivision (lhs rhs : E) : E × E :=
  if eng.isMul lhs && eng.isMul rhs then
    if eng.isSymbolOrOne (eng.div lhs rhs) then (eng.div lhs rhs, eng.integer 1)
    else if eng.isSymbolOrOne (eng.div rhs lhs) then (eng.integer 1, eng.div rhs lhs)
    else (lhs, rhs)
  else (lhs, rhs)

def canonicalizeBoolExpr (e : E) : E :=
  match eng.view e with
  | .relation op lhs rhs =>
    let sides := eng.splitSigns (eng.divGcd (eng.expand (eng.sub rhs lhs)))
    let sides := eng.trDivision sides.1 sides.2
    eng.relation op sides.1 sides.2
  | _ => e

/-! ## When the relation stays the same -/

/-- The division of a term loses no sign: no factor is negative but minus one itself. -/
def SignKept (factor : ℤ) (e : E) : Prop :=
  ∀ neg args, eng.view e = .mul neg args →
    ∀ arg ∈ eng.dividedArgs args factor, eng.isNegative arg = true → eng.asInteger arg = some (-1)

/-- The signs of all terms are kept. -/
def SignsKept (e : E) : Prop :=
  ∀ args, eng.view e = .add args → 1 < (eng.computeExprGCD args).natAbs % 2 ^ 64 →
    ∀ arg ∈ args, eng.SignKept (eng.computeExprGCD args) arg

variable {K : Type} [Field K] [LinearOrder K]

/-- A product that is cancelled is positive. -/
def CancelsPositive (value : E → K) (lhs rhs : E) : Prop :=
  eng.isMul lhs = true → eng.isMul rhs = true →
    if eng.isSymbolOrOne (eng.div lhs rhs) = true then 0 < value rhs
    else eng.isSymbolOrOne (eng.div rhs lhs) = true → 0 < value lhs

/-- The canonical form of an expression is the same under an assignment. -/
def CanonicalizesSafely (value : E → K) (e : E) : Prop :=
  ∀ op lhs rhs, eng.view e = .relation op lhs rhs →
    eng.SignsKept (eng.expand (eng.sub rhs lhs)) ∧
      eng.CancelsPositive value (eng.splitSigns (eng.divGcd (eng.expand (eng.sub rhs lhs)))).1
        (eng.splitSigns (eng.divGcd (eng.expand (eng.sub rhs lhs)))).2

/-- Nothing is divided and no product is cancelled. -/
def isPlain (e : E) : Bool :=
  match eng.view e with
  | .relation _ lhs rhs =>
    let diff := eng.expand (eng.sub rhs lhs)
    let sides := eng.splitSigns (eng.divGcd diff)
    (match eng.view diff with
    | .add args => (eng.computeExprGCD args).natAbs % 2 ^ 64 ≤ 1
    | _ => true) && !(eng.isMul sides.1 && eng.isMul sides.2)
  | _ => true

theorem canonicalizesSafely_of_plain {value : E → K} {e : E}
    (h : eng.isPlain e = true) : eng.CanonicalizesSafely value e := by
  intro op lhs rhs hview
  unfold isPlain at h
  simp only [hview, Bool.and_eq_true, Bool.not_eq_true'] at h
  obtain ⟨hgcd, hmul⟩ := h
  refine ⟨fun args hargs hlt => ?_, fun hlhs hrhs => ?_⟩
  · rw [hargs] at hgcd
    exact absurd hlt (not_lt.mpr (of_decide_eq_true hgcd))
  · rw [hlhs, hrhs] at hmul
    exact nomatch hmul

/-! ## Division by the common factor -/

theorem computeGCD_dvd (coeffs : List ℤ) : ∀ c ∈ coeffs, computeGCD coeffs ∣ c := by
  have hfold : ∀ (cs : List ℤ) (g : ℤ),
      cs.foldl (fun gcd c => (Int.gcd gcd c : ℤ)) g ∣ g ∧
        ∀ c ∈ cs, cs.foldl (fun gcd c => (Int.gcd gcd c : ℤ)) g ∣ c := by
    intro cs
    induction cs with
    | nil =>
      intro g
      exact ⟨dvd_refl g, fun c hc => absurd hc not_mem_nil⟩
    | cons c cs ih =>
      intro g
      obtain ⟨hg, hcs⟩ := ih (Int.gcd g c : ℤ)
      refine ⟨hg.trans (Int.gcd_dvd_left g c), fun d hd => ?_⟩
      rcases mem_cons.mp hd with rfl | hd
      · exact hg.trans (Int.gcd_dvd_right g d)
      · exact hcs d hd
  cases coeffs with
  | nil => exact fun c hc => absurd hc not_mem_nil
  | cons c cs =>
    intro d hd
    rcases mem_cons.mp hd with rfl | hd
    · exact (hfold cs d).1
    · exact (hfold cs c).2 d hd

theorem computeGCD_nonneg {coeffs : List ℤ} (h : 2 ≤ coeffs.length) : 0 ≤ computeGCD coeffs := by
  have hfold : ∀ (cs : List ℤ) (g : ℤ), 0 ≤ g →
      0 ≤ cs.foldl (fun gcd c => (Int.gcd gcd c : ℤ)) g := by
    intro cs
    induction cs with
    | nil => exact fun g hg => hg
    | cons c cs ih => exact fun g _ => ih _ (Int.natCast_nonneg _)
  match coeffs, h with
  | c :: d :: cs, _ => exact hfold cs _ (Int.natCast_nonneg _)

section Sound

variable {eng} [IsStrictOrderedRing K] {value : Assignment → E → K}
  {holds : Assignment → E → Prop} (hp : eng.Preserves value holds) {σ : Assignment}

/-- What a coefficient with powers stands for. -/
def dictValue (value : E → K) (dict : ℤ × List (E × ℕ)) : K :=
  dict.1 * (dict.2.map fun entry => value entry.1 ^ entry.2).prod

omit [DecidableEq E] [LinearOrder K] [IsStrictOrderedRing K] in
theorem prod_increment (value : E → K) [DecidableEq E] {dict : List (E × ℕ)} {arg : E}
    (hnodup : (dict.map Prod.fst).Nodup) (hmem : arg ∈ dict.map Prod.fst) :
    ((dict.map fun entry => if entry.1 = arg then (entry.1, entry.2 + 1) else entry).map
        fun entry => value entry.1 ^ entry.2).prod
      = (dict.map fun entry => value entry.1 ^ entry.2).prod * value arg := by
  induction dict with
  | nil => exact absurd hmem not_mem_nil
  | cons entry dict ih =>
    rw [map_cons, nodup_cons] at hnodup
    by_cases heq : entry.1 = arg
    · -- no other entry is for the same factor
      have hrest : (dict.map fun entry => if entry.1 = arg then (entry.1, entry.2 + 1) else entry)
          = dict := by
        refine (map_congr_left fun other hother => ?_).trans (map_id dict)
        have hne : other.1 ≠ arg := by
          intro h
          apply hnodup.1
          rw [heq, ← h]
          exact mem_map_of_mem hother
        rw [if_neg hne]
        rfl
      rw [map_cons, map_cons, map_cons, if_pos heq, hrest, prod_cons,
        prod_cons, pow_succ, ← heq]
      ring
    · have hmem : arg ∈ dict.map Prod.fst := by
        rcases mem_cons.mp hmem with h | h
        · exact absurd h.symm heq
        · exact h
      rw [map_cons, map_cons, map_cons, if_neg heq, prod_cons, prod_cons,
        ih hnodup.2 hmem, mul_assoc]

include hp

omit [IsStrictOrderedRing K] in
/-- The dictionary of factors none of which is negative stands for their product. -/
theorem dictValue_createMulDict (args : List E) (acc : ℤ × List (E × ℕ))
    (hnodup : (acc.2.map Prod.fst).Nodup) (hnonneg : ∀ arg ∈ args, eng.isNegative arg = false) :
    dictValue (value σ) (args.foldl eng.createMulDictStep acc)
      = dictValue (value σ) acc * (args.map (value σ)).prod := by
  induction args generalizing acc with
  | nil => simp
  | cons arg args ih =>
    obtain ⟨hhead, htail⟩ := forall_mem_cons.mp hnonneg
    rw [foldl_cons, map_cons, prod_cons, ← mul_assoc]
    by_cases hmem : arg ∈ acc.2.map Prod.fst
    · have hstep : eng.createMulDictStep acc arg
          = (acc.1, acc.2.map fun entry =>
              if entry.1 = arg then (entry.1, entry.2 + 1) else entry) := by
        unfold createMulDictStep
        rw [if_pos hmem]
      have hkeys : (eng.createMulDictStep acc arg).2.map Prod.fst = acc.2.map Prod.fst := by
        rw [hstep, map_map]
        apply map_congr_left
        intro entry _
        show (if entry.1 = arg then (entry.1, entry.2 + 1) else entry).1 = entry.1
        split <;> rfl
      rw [ih _ (hkeys ▸ hnodup) htail, hstep]
      unfold dictValue
      rw [prod_increment (value σ) hnodup hmem, ← mul_assoc]
    · by_cases hone : eng.asInteger arg = some 1 ∨ eng.asInteger arg = some (-1)
      · have hstep : eng.createMulDictStep acc arg = acc := by
          unfold createMulDictStep
          rw [if_neg hmem, hhead]
          simp only [Bool.false_eq_true, if_false, if_pos hone]
        -- minus one would be negative
        have hval : value σ arg = 1 := by
          unfold asInteger at hone
          unfold isNegative at hhead
          cases hview : eng.view arg with
          | integer n =>
            simp only [hview, Option.some.injEq, decide_eq_false_iff_not] at hone hhead
            rw [hp.value_of_integer σ arg n hview]
            rcases hone with rfl | rfl
            · exact Int.cast_one
            · exact absurd (by decide) hhead
          | _ => simp [hview] at hone
        rw [hstep, ih _ hnodup htail, hval, mul_one]
      · have hstep : eng.createMulDictStep acc arg = (acc.1, acc.2 ++ [(arg, 1)]) := by
          unfold createMulDictStep
          rw [if_neg hmem, hhead]
          simp only [Bool.false_eq_true, if_false, if_neg hone]
        have hnodup' : ((acc.2 ++ [(arg, 1)]).map Prod.fst).Nodup := by
          rw [map_append, nodup_append]
          refine ⟨hnodup, pairwise_singleton _ _, ?_⟩
          intro a ha b hb hab
          obtain rfl : b = arg := mem_singleton.mp hb
          rw [hab] at ha
          exact hmem ha
        rw [hstep, ih _ hnodup' htail]
        unfold dictValue
        rw [map_append, prod_append, map_singleton, prod_singleton, pow_one]
        ring

omit [IsStrictOrderedRing K] in
/-- The factors of a divided product, the sign of which is kept. -/
theorem dictValue_dividedArgs {args : List E} {factor : ℤ}
    (hkept : ∀ arg ∈ eng.dividedArgs args factor, eng.isNegative arg = true →
      eng.asInteger arg = some (-1)) :
    dictValue (value σ) (eng.createMulDict (eng.dividedArgs args factor))
      = ((args.filterMap eng.asInteger).prod / factor : ℤ)
        * ((args.filter fun arg => eng.asInteger arg = none).map (value σ)).prod := by
  have htail : ∀ arg ∈ args.filter (fun arg => eng.asInteger arg = none),
      eng.isNegative arg = false := by
    intro arg harg
    have hnone := (mem_filter.mp harg).2
    by_contra hneg
    have hmem : arg ∈ eng.dividedArgs args factor := by
      unfold dividedArgs
      exact mem_append_right _ harg
    have := hkept arg hmem (by simpa using hneg)
    rw [this] at hnone
    exact absurd hnone (by simp)
  unfold createMulDict
  simp only [dividedArgs] at hkept ⊢
  generalize (args.filterMap eng.asInteger).prod / factor = coeff at hkept ⊢
  by_cases hone : coeff = 1
  · rw [if_neg (not_not.mpr hone), nil_append,
      dictValue_createMulDict hp _ (1, []) nodup_nil htail, hone]
    simp [dictValue]
  rw [if_pos hone] at hkept ⊢
  have hhead := hkept (eng.integer coeff) (mem_append_left _ mem_cons_self)
  have hint : eng.asInteger (eng.integer coeff) = some coeff := by
    unfold asInteger
    rw [hp.view_int]
  have hneg : eng.isNegative (eng.integer coeff) = decide (coeff < 0) := by
    unfold isNegative
    rw [hp.view_int]
  rw [hneg, hint] at hhead
  have hval : dictValue (value σ) (eng.createMulDictStep (1, []) (eng.integer coeff)) = coeff ∧
      ((eng.createMulDictStep (1, []) (eng.integer coeff)).2.map Prod.fst).Nodup := by
    unfold createMulDictStep
    rw [map_nil, if_neg not_mem_nil, hneg, hint]
    by_cases hlt : coeff < 0
    · obtain rfl : coeff = -1 := Option.some.inj (hhead (decide_eq_true hlt))
      simp [dictValue]
    · have hminus : ¬ (coeff = 1 ∨ coeff = -1) := by omega
      have hcoeff := hp.value_of_integer σ (eng.integer coeff) coeff (hp.view_int coeff)
      simp [dictValue, hlt, hminus, hcoeff]
  rw [singleton_append, foldl_cons, dictValue_createMulDict hp _ _ hval.2 htail,
    hval.1]

omit [DecidableEq E] [IsStrictOrderedRing K] in
theorem prod_split_integers (args : List E) :
    (args.map (value σ)).prod = ((args.filterMap eng.asInteger).prod : ℤ)
      * ((args.filter fun arg => eng.asInteger arg = none).map (value σ)).prod := by
  induction args with
  | nil => simp
  | cons arg args ih =>
    rw [map_cons, prod_cons, ih]
    cases hint : eng.asInteger arg with
    | none =>
      rw [filterMap_cons_none hint, filter_cons_of_pos (by simpa using hint),
        map_cons, prod_cons]
      ring
    | some n =>
      have hval : value σ arg = n := by
        unfold asInteger at hint
        cases hview : eng.view arg with
        | integer k =>
          simp only [hview, Option.some.injEq] at hint
          rw [hp.value_of_integer σ arg k hview, hint]
        | _ => simp [hview] at hint
      rw [filterMap_cons_some hint, filter_cons_of_neg (by simp [hint]),
        prod_cons, Int.cast_mul, hval, mul_assoc]

omit hp [DecidableEq E] in
theorem extractCoeff_dvd_prod (args : List E) :
    (args.findSome? eng.asInteger).getD 1 ∣ (args.filterMap eng.asInteger).prod := by
  induction args with
  | nil => exact dvd_refl _
  | cons arg args ih =>
    cases hint : eng.asInteger arg with
    | none =>
      rw [findSome?_cons_of_isNone (by simp [hint]), filterMap_cons_none hint]
      exact ih
    | some n =>
      rw [findSome?_cons, hint, filterMap_cons_some hint, prod_cons]
      exact dvd_mul_right n _

omit [IsStrictOrderedRing K] in
/-- A term is the factor times the divided term. -/
theorem value_divByFactor {e : E} {factor : ℤ} (hfactor : 1 < factor)
    (hdvd : factor ∣ eng.extractCoeff e) (hkept : eng.SignKept factor e) :
    value σ e = factor * value σ (eng.divByFactor e factor) := by
  have hunit : ¬ factor ∣ 1 := by
    intro h
    have := Int.le_of_dvd one_pos h
    omega
  unfold extractCoeff at hdvd
  unfold divByFactor
  cases hview : eng.view e with
  | integer n =>
    simp only [hview] at hdvd ⊢
    rw [hp.value_of_integer σ e n hview, hp.value_of_integer σ _ _ (hp.view_int _), ← Int.cast_mul,
      Int.mul_ediv_cancel' hdvd]
  | mul neg args =>
    simp only [hview] at hdvd ⊢
    have hdict := dictValue_dividedArgs hp (σ := σ) (hkept neg args hview)
    unfold dictValue at hdict
    rw [hp.value_fromDict, hdict, hp.value_of_mul σ e neg args hview, prod_split_integers hp,
      ← mul_assoc, ← Int.cast_mul, Int.mul_ediv_cancel' (hdvd.trans (extractCoeff_dvd_prod args))]
  | _ =>
    simp only [hview] at hdvd
    exact absurd hdvd hunit

/-- Dividing by the common factor divides the value by something positive. -/
theorem value_divGcd {e : E} (hkept : eng.SignsKept e) :
    ∃ c : K, 0 < c ∧ value σ e = value σ (eng.divGcd e) * c := by
  unfold divGcd
  cases hview : eng.view e with
  | add args =>
    by_cases hgcd : 1 < (eng.computeExprGCD args).natAbs % 2 ^ 64
    · have hnonneg : 0 ≤ eng.computeExprGCD args := by
        apply computeGCD_nonneg
        rw [length_map]
        exact hp.two_le_add e args hview
      have hlt : 1 < eng.computeExprGCD args := by
        have := Nat.mod_le (eng.computeExprGCD args).natAbs (2 ^ 64)
        omega
      refine ⟨(eng.computeExprGCD args : K), Int.cast_pos.mpr (by omega), ?_⟩
      simp only [if_pos hgcd]
      rw [hp.value_add, hp.value_of_add σ e args hview, map_map, mul_comm,
        ← sum_map_mul_left]
      congr 1
      apply map_congr_left
      intro arg harg
      have hdvd : eng.computeExprGCD args ∣ eng.extractCoeff arg :=
        computeGCD_dvd _ _ (mem_map_of_mem harg)
      exact value_divByFactor hp hlt hdvd (hkept args hview hgcd arg harg)
    · refine ⟨1, one_pos, ?_⟩
      simp only [if_neg hgcd, mul_one]
  | _ => exact ⟨1, one_pos, (mul_one _).symm⟩

omit [DecidableEq E] [IsStrictOrderedRing K] in
/-- The difference of the two sides is the value. -/
theorem value_splitSigns (e : E) :
    value σ (eng.splitSigns e).2 - value σ (eng.splitSigns e).1 = value σ e := by
  have hzero : value σ (eng.integer 0) = 0 := by
    rw [hp.value_of_integer σ _ 0 (hp.view_int 0), Int.cast_zero]
  have hsplit : ∀ args : List E,
      ((args.filter fun arg => !eng.isNegative arg).map (value σ)).sum
        - (((args.filter eng.isNegative).map (eng.sub (eng.integer 0))).map (value σ)).sum
      = (args.map (value σ)).sum := by
    intro args
    induction args with
    | nil => simp
    | cons arg args ih =>
      rw [map_cons, sum_cons, ← ih]
      cases hneg : eng.isNegative arg with
      | true =>
        rw [filter_cons_of_neg (by simp [hneg]), filter_cons_of_pos hneg, map_cons,
          map_cons, sum_cons, hp.value_sub, hzero]
        ring
      | false =>
        rw [filter_cons_of_pos (by simp [hneg]), filter_cons_of_neg (by simp [hneg]),
          map_cons, sum_cons]
        ring
  have hsides : ∀ sides : E × E, value σ sides.2 - value σ sides.1 = value σ e →
      value σ (if eng.isNegative sides.2 && eng.isNumberAndZero sides.1 then
          (eng.sub (eng.integer 0) sides.2, eng.integer 0) else sides).2
        - value σ (if eng.isNegative sides.2 && eng.isNumberAndZero sides.1 then
          (eng.sub (eng.integer 0) sides.2, eng.integer 0) else sides).1 = value σ e := by
    intro sides hval
    by_cases hflip : (eng.isNegative sides.2 && eng.isNumberAndZero sides.1) = true
    · rw [if_pos hflip]
      have hlhs : value σ sides.1 = 0 := by
        have hnum := (Bool.and_eq_true_iff.mp hflip).2
        unfold isNumberAndZero at hnum
        cases hview : eng.view sides.1 with
        | integer n =>
          simp only [hview, decide_eq_true_eq] at hnum
          rw [hp.value_of_integer σ _ n hview, hnum, Int.cast_zero]
        | number neg zero =>
          simp only [hview] at hnum
          rw [hnum] at hview
          exact hp.value_of_number σ _ neg hview
        | _ => simp [hview] at hnum
      rw [hp.value_sub, hzero, ← hval, hlhs]
      ring
    · rw [if_neg hflip]
      exact hval
  unfold splitSigns
  apply hsides
  cases hview : eng.view e with
  | add args =>
    show value σ (eng.add _) - value σ (eng.add _) = _
    rw [hp.value_add, hp.value_add, hsplit, hp.value_of_add σ e args hview]
  | _ =>
    show value σ e - value σ (eng.integer 0) = _
    rw [hzero, sub_zero]

/-- Cancelling a positive product keeps the relation. -/
theorem holds_trDivision (op : RelOp) {lhs rhs : E} (hpos : eng.CancelsPositive (value σ) lhs rhs) :
    op.Holds (value σ (eng.trDivision lhs rhs).1) (value σ (eng.trDivision lhs rhs).2)
      ↔ op.Holds (value σ lhs) (value σ rhs) := by
  have hone : value σ (eng.integer 1) = 1 := by
    rw [hp.value_of_integer σ _ 1 (hp.view_int 1), Int.cast_one]
  unfold trDivision
  by_cases hmul : (eng.isMul lhs && eng.isMul rhs) = true
  · rw [if_pos hmul]
    obtain ⟨hlhs, hrhs⟩ := Bool.and_eq_true_iff.mp hmul
    have hpos := hpos hlhs hrhs
    by_cases hleft : eng.isSymbolOrOne (eng.div lhs rhs) = true
    · rw [if_pos hleft] at hpos ⊢
      have hdiv : value σ (eng.div lhs rhs) * value σ rhs = value σ lhs := by
        rw [hp.value_div σ _ _ hpos.ne', div_mul_cancel₀ _ hpos.ne']
      rw [← op.holds_mul_right hpos, hdiv, hone, one_mul]
    · rw [if_neg hleft] at hpos ⊢
      by_cases hright : eng.isSymbolOrOne (eng.div rhs lhs) = true
      · rw [if_pos hright]
        have hpos := hpos hright
        have hdiv : value σ (eng.div rhs lhs) * value σ lhs = value σ rhs := by
          rw [hp.value_div σ _ _ hpos.ne', div_mul_cancel₀ _ hpos.ne']
        rw [← op.holds_mul_right hpos, hdiv, hone, one_mul]
      · rw [if_neg hright]
  · rw [if_neg hmul]

/-- The canonical form says the same as the expression. -/
theorem holds_canonicalizeBoolExpr {e : E} (hsafe : eng.CanonicalizesSafely (value σ) e) :
    holds σ (eng.canonicalizeBoolExpr e) ↔ holds σ e := by
  unfold canonicalizeBoolExpr
  cases hview : eng.view e with
  | relation op lhs rhs =>
    obtain ⟨hsigns, hpos⟩ := hsafe op lhs rhs hview
    obtain ⟨c, hc, hgcd⟩ := value_divGcd hp (σ := σ) hsigns
    rw [hp.value_expand, hp.value_sub] at hgcd
    show holds σ (eng.relation op _ _) ↔ _
    rw [hp.holds_relation, holds_trDivision hp op hpos, ← op.holds_zero_sub, value_splitSigns hp,
      ← op.holds_mul_right hc, zero_mul, ← hgcd, op.holds_zero_sub,
      hp.holds_of_relation σ e op lhs rhs hview]
  | _ => exact Iff.rfl

end Sound

end Engine

end GraphAutofusion.Symbolizer
