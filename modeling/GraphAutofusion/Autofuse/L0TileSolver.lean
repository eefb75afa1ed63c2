import GraphAutofusion.Lib.RunningBest
import Mathlib.Algebra.BigOperators.Fin
import Mathlib.Algebra.Order.BigOperators.Ring.Finset

/-!
# Autofuse.L0TileSolver — the block shape of a cube kernel

The generated solver tries the candidate values of all variables, the multicore ones outermost, and
keeps the block with the largest product as long as the cores in use do not fall below the best so far
or a share of all cores. The first block that it tries is the smallest one and uses the most cores,
which is why this rule finds the best block.

The buffer check is generated for the kernel and a parameter here, and so is `std::sort`. Arithmetic
that wraps is left out: the numbers are natural numbers.
-/

namespace GraphAutofusion.Autofuse

open Lib Function List

structure L0Var where
  maxValue : ℕ
  bindMulticore : Bool
  isInnermost : Bool
  align : ℕ
  promptAlign : ℕ
  value : ℕ

structure L0TileInput (n : ℕ) where
  l0Vars : Fin n → L0Var
  coreNum : ℕ

def l0VarCmp (a b : L0Var) : Bool :=
  if a.bindMulticore && !b.bindMulticore then true
  else if !a.bindMulticore && b.bindMulticore then false
  else if a.isInnermost && !b.isInnermost then true
  else if !a.isInnermost && b.isInnermost then false
  else b.promptAlign < a.promptAlign

structure L0TileSolver (n : ℕ) where
  input : L0TileInput n
  checkBufferUseValid : (Fin n → ℕ) → Bool
  sort : (Fin n → Fin n → Bool) → List (Fin n) → List (Fin n)

/-- The members of the solver that the search changes. -/
structure L0Search (n : ℕ) where
  values : Fin n → ℕ
  maxCorenum : ℤ := -1
  maxMacuse : ℤ := -1
  bestVarValue : Fin n → ℕ := fun _ => 0

structure L0Run (n : ℕ) where
  ok : Bool
  output : Fin n → ℕ

namespace L0TileSolver

def candidateValue : List ℕ := [16, 32, 64, 128, 256, 512, 1024]

def upperBoundRatio : ℕ := 2

def maxL0VarNum : ℕ := 3

/-- A product of integers, rounded to the 53 bits of a double, ties to the even one. -/
def roundDouble (p : ℕ) : ℕ :=
  let ulp := 2 ^ (p.log2 + 1 - 53)
  let q := p / ulp
  if ulp < 2 * (p % ulp) ∨ (ulp = 2 * (p % ulp) ∧ q % 2 = 1) then (q + 1) * ulp else q * ulp

/-- `static_cast<int32_t>(core_num * CORE_NUM_RATIO)`. The ratio `0.6f` is 5033165 / 2 ^ 23. -/
def coreNumThreshold (coreNum : ℕ) : ℕ := roundDouble (coreNum * 5033165) / 2 ^ 23

/-! ## The adjusted input -/

def checkVar (var : L0Var) : Bool :=
  if var.maxValue = 0 ∨ var.align = 0 ∨ var.promptAlign = 0 then false
  else !decide (var.promptAlign < var.align)

def initVar (var : L0Var) : L0Var :=
  { var with maxValue := (var.maxValue + var.align - 1) / var.align * var.align }

/-- `while (ori_align <= max_value)`, which ends within `max_value` rounds. -/
def doubleAlign (maxValue : ℕ) : ℕ → ℕ → ℕ
  | 0, oriAlign => oriAlign
  | fuel + 1, oriAlign =>
    if oriAlign ≤ maxValue then doubleAlign maxValue fuel (oriAlign * 2) else oriAlign

def getBestAlign (var : L0Var) : ℕ :=
  let maxValue := min var.maxValue var.promptAlign
  let oriAlign := doubleAlign maxValue maxValue var.align
  if oriAlign = var.align then var.align else max 1 (oriAlign / 2)

def updateVar (var : L0Var) : L0Var := { var with promptAlign := getBestAlign var }

section Search

variable {n : ℕ} (vars : Fin n → L0Var) (coreNum : ℕ)

/-- The loop goes on with a candidate that is small enough, and a multiple or a divisor of
`prompt_align`. -/
def admits (var : L0Var) (candi : ℕ) : Bool :=
  if var.maxValue * upperBoundRatio ≤ candi then false
  else candi % var.promptAlign = 0 ∨ var.promptAlign % candi = 0

def blockNum (var : L0Var) (value : ℕ) : ℕ :=
  if var.bindMulticore then
    (var.maxValue + max value var.promptAlign - 1) / max value var.promptAlign
  else 1

def maxCoreNum (values : Fin n → ℕ) : ℕ :=
  let totalBlockSize := ∏ i, blockNum (vars i) (values i)
  if coreNum < totalBlockSize then coreNum else totalBlockSize

def getMacUse (values : Fin n → ℕ) : ℕ := ∏ i, values i

/-- What happens with a block that fits in the buffers. -/
def record (s : L0Search n) : L0Search n :=
  let usage := getMacUse s.values
  let cores := maxCoreNum vars coreNum s.values
  if (s.maxCorenum ≤ cores ∨ coreNumThreshold coreNum ≤ cores) ∧ s.maxMacuse ≤ usage then
    { values := s.values
      maxCorenum := cores
      maxMacuse := usage
      bestVarValue := s.values }
  else s

variable (checkBufferUseValid : (Fin n → ℕ) → Bool)

/-- The loop of the last variable. It ends at the first block that does not fit. -/
def lastLoop (i : Fin n) : List ℕ → L0Search n → L0Search n
  | [], s => s
  | candi :: candis, s =>
    if admits (vars i) candi then
      let s := { s with values := update s.values i candi }
      if checkBufferUseValid s.values then lastLoop i candis (record vars coreNum s) else s
    else lastLoop i candis s

/-- The loops of the variables in `sortedvars_`, from one on. -/
def iterativeRun : List (Fin n) → L0Search n → L0Search n
  | [], s => s
  | [i], s => lastLoop vars coreNum checkBufferUseValid i candidateValue s
  | i :: j :: rest, s =>
    candidateValue.foldl (fun s candi =>
      if admits (vars i) candi then
        iterativeRun (j :: rest) { s with values := update s.values i candi }
      else s) s

end Search

variable {n : ℕ} (solver : L0TileSolver n)

def checkInput : Bool :=
  if n = 0 then false
  else if maxL0VarNum < n then false
  else if solver.input.coreNum = 0 then false
  else (finRange n).all fun i => checkVar (solver.input.l0Vars i)

/-- The variables after `InitInput` and `UpdateAlign`. -/
def adjustedVars (i : Fin n) : L0Var := updateVar (initVar (solver.input.l0Vars i))

def inputValues (i : Fin n) : ℕ := (solver.input.l0Vars i).value

/-- The values given with the input are taken as they are. -/
def isFastMode : Bool :=
  (finRange n).all fun i =>
    !(solver.inputValues i = 0 ∨
      (solver.adjustedVars i).maxValue * upperBoundRatio < solver.inputValues i)

def sortedVars : List (Fin n) :=
  solver.sort (fun i j => l0VarCmp (solver.adjustedVars i) (solver.adjustedVars j)) (finRange n)

def checkOutput (output : Fin n → ℕ) : Bool := (finRange n).all fun i => output i ≠ 0

def run : L0Run n :=
  if !solver.checkInput then { ok := false, output := fun _ => 0 }
  else
    let output :=
      if solver.isFastMode && solver.checkBufferUseValid solver.inputValues then solver.inputValues
      else (iterativeRun solver.adjustedVars solver.input.coreNum solver.checkBufferUseValid
        solver.sortedVars { values := solver.inputValues }).bestVarValue
    { ok := checkOutput output, output := output }

/-! ## The blocks that the search tries -/

section Leaves

variable {n : ℕ} {vars : Fin n → L0Var} {coreNum : ℕ} {check : (Fin n → ℕ) → Bool}
  {s : L0Search n} {best : Option (Fin n → ℕ)} {st st' a b : Fin n → ℕ} {order : List (Fin n)}
  {i j : Fin n}

def candidates (var : L0Var) : List ℕ := candidateValue.filter (admits var ·)

/-- The blocks with candidate values for the variables of the list, in the order of the loops. -/
def leaves (vars : Fin n → L0Var) : List (Fin n) → (Fin n → ℕ) → List (Fin n → ℕ)
  | [], st => [st]
  | i :: rest, st =>
    (candidates (vars i)).flatMap fun candi => leaves vars rest (update st i candi)

theorem leaves_congr (h : ∀ j, j ∉ order → st j = st' j) : leaves vars order st = leaves vars order st' := by
  induction order generalizing st st' with
  | nil =>
    have heq : st = st' := funext fun j => h j not_mem_nil
    rw [heq]
  | cons i rest ih =>
    have hrest : ∀ candi, leaves vars rest (update st i candi) =
        leaves vars rest (update st' i candi) := by
      intro candi
      refine ih ?_
      intro j hj
      by_cases hji : j = i
      · rw [hji, update_self, update_self]
      · rw [update_of_ne hji, update_of_ne hji]
        exact h j (by simp [hji, hj])
    simp only [leaves, hrest]

theorem mem_leaves (hnodup : order.Nodup) : a ∈ leaves vars order st ↔
    (∀ i ∈ order, a i ∈ candidates (vars i)) ∧ ∀ j, j ∉ order → a j = st j := by
  induction order generalizing st with
  | nil => simp [leaves, funext_iff]
  | cons i rest ih =>
    rw [nodup_cons] at hnodup
    simp only [leaves, mem_flatMap, ih hnodup.2]
    constructor
    · rintro ⟨candi, hcandi, hrest, hother⟩
      have hi : a i = candi := by rw [hother i hnodup.1, update_self]
      refine ⟨?_, ?_⟩
      · intro k hk
        rcases mem_cons.mp hk with rfl | hk
        · rwa [hi]
        · exact hrest k hk
      · intro k hk
        rw [mem_cons, not_or] at hk
        rw [hother k hk.2, update_of_ne hk.1]
    · rintro ⟨hcands, hother⟩
      refine ⟨a i, hcands i mem_cons_self, fun k hk => hcands k (mem_cons_of_mem _ hk), ?_⟩
      intro k hk
      by_cases hki : k = i
      · rw [hki, update_self]
      · rw [update_of_ne hki]
        exact hother k (by simp [hki, hk])

theorem candidates_sorted (var : L0Var) : (candidates var).Pairwise (· ≤ ·) :=
  List.Pairwise.filter _ (by decide)

/-- The first block is the smallest one. -/
theorem leaves_head (hne : ∀ i ∈ order, candidates (vars i) ≠ []) (st : Fin n → ℕ) :
    ∃ first rest, leaves vars order st = first :: rest ∧
      ∀ st' a, (∀ j, j ∉ order → st j ≤ st' j) → a ∈ leaves vars order st' → first ≤ a := by
  induction order generalizing st with
  | nil =>
    refine ⟨st, [], rfl, ?_⟩
    intro st' a hle ha j
    rw [leaves, mem_singleton] at ha
    rw [ha]
    exact hle j not_mem_nil
  | cons i rest ih =>
    obtain ⟨least, candis, hcandis⟩ := exists_cons_of_ne_nil (hne i mem_cons_self)
    have hleast : ∀ candi ∈ candidates (vars i), least ≤ candi := by
      have hsorted := candidates_sorted (vars i)
      rw [hcandis] at hsorted ⊢
      intro candi hcandi
      rcases mem_cons.mp hcandi with rfl | hcandi
      · exact le_rfl
      · exact (pairwise_cons.mp hsorted).1 candi hcandi
    rcases ih (fun k hk => hne k (mem_cons_of_mem _ hk)) (update st i least) with
      ⟨first, others, hfirst, hmin⟩
    refine ⟨first, others ++ candis.flatMap fun candi => leaves vars rest (update st i candi),
      ?_, ?_⟩
    · rw [leaves, hcandis, flatMap_cons, hfirst, cons_append]
    · intro st' a hle ha
      rcases mem_flatMap.mp ha with ⟨candi, hcandi, ha⟩
      refine hmin _ a ?_ ha
      intro j hj
      by_cases hji : j = i
      · rw [hji, update_self, update_self]
        exact hleast candi hcandi
      · rw [update_of_ne hji, update_of_ne hji]
        exact hle j (by simp [hji, hj])

/-! ## The search keeps the better blocks -/

/-- The members of the solver hold the best block so far and its two measures. -/
def Matches (vars : Fin n → L0Var) (coreNum : ℕ) (s : L0Search n) : Option (Fin n → ℕ) → Prop
  | none => s.maxCorenum = -1 ∧ s.maxMacuse = -1 ∧ s.bestVarValue = fun _ => 0
  | some b => s.maxCorenum = maxCoreNum vars coreNum b ∧ s.maxMacuse = getMacUse b ∧ s.bestVarValue = b

/-- The better of the best block so far and another one. -/
def better (vars : Fin n → L0Var) (coreNum : ℕ) :=
  keepBetter (maxCoreNum vars coreNum) getMacUse (coreNumThreshold coreNum)

theorem record_matches (h : Matches vars coreNum s best) :
    Matches vars coreNum (record vars coreNum s) (better vars coreNum best s.values) := by
  rw [better, record]
  cases best with
  | none =>
    rcases h with ⟨hcores, husage, -⟩
    rw [if_pos]
    · exact ⟨rfl, rfl, rfl⟩
    · rw [hcores, husage]
      exact ⟨.inl (by omega), by omega⟩
  | some b =>
    have hcond : ((s.maxCorenum ≤ maxCoreNum vars coreNum s.values ∨
        coreNumThreshold coreNum ≤ maxCoreNum vars coreNum s.values) ∧
          s.maxMacuse ≤ getMacUse s.values) ↔
        ((maxCoreNum vars coreNum b ≤ maxCoreNum vars coreNum s.values ∨
          coreNumThreshold coreNum ≤ maxCoreNum vars coreNum s.values) ∧
            getMacUse b ≤ getMacUse s.values) := by
      rw [h.1, h.2.1, Int.ofNat_le, Int.ofNat_le]
    dsimp only [keepBetter]
    by_cases hbetter : (maxCoreNum vars coreNum b ≤ maxCoreNum vars coreNum s.values ∨
        coreNumThreshold coreNum ≤ maxCoreNum vars coreNum s.values) ∧ getMacUse b ≤ getMacUse s.values
    · rw [if_pos (hcond.mpr hbetter), if_pos hbetter]
      exact ⟨rfl, rfl, rfl⟩
    · rw [if_neg fun h => hbetter (hcond.mp h), if_neg hbetter]
      exact h

theorem record_values : (record vars coreNum s).values = s.values := by
  rw [record]
  split
  · rfl
  · rfl

/-- The check holds of every smaller block. -/
def DownwardClosed (check : (Fin n → ℕ) → Bool) : Prop := ∀ a b, a ≤ b → check b = true → check a = true

theorem lastLoop_spec (hdown : DownwardClosed check) {candis : List ℕ}
    (hsorted : candis.Pairwise (· ≤ ·)) (h : Matches vars coreNum s best) :
    Matches vars coreNum (lastLoop vars coreNum check i candis s)
        ((((candis.filter (admits (vars i) ·)).map (update s.values i)).filter check).foldl
          (better vars coreNum) best) ∧
      ∀ j, j ≠ i → (lastLoop vars coreNum check i candis s).values j = s.values j := by
  induction candis generalizing s best with
  | nil => exact ⟨h, fun _ _ => rfl⟩
  | cons candi candis ih =>
    rw [pairwise_cons] at hsorted
    rw [lastLoop]
    by_cases hadmits : admits (vars i) candi = true
    · rw [if_pos hadmits, filter_cons_of_pos hadmits, map_cons]
      dsimp only
      by_cases hcheck : check (update s.values i candi) = true
      · rw [if_pos hcheck, filter_cons_of_pos hcheck, foldl_cons]
        have hset : Matches vars coreNum { s with values := update s.values i candi } best := by
          cases best with
          | none => exact h
          | some b => exact h
        have hrest := ih hsorted.2 (record_matches hset)
        rw [record_values] at hrest
        refine ⟨?_, ?_⟩
        · have hupdate : update (update s.values i candi) i =
              update s.values i := by
            funext candi'
            exact update_idem ..
          rw [hupdate] at hrest
          exact hrest.1
        · intro j hj
          rw [hrest.2 j hj]
          exact update_of_ne hj _ _
      · -- the later candidates are larger and do not fit either
        rw [if_neg hcheck, filter_cons_of_neg hcheck]
        have hnone : ((candis.filter (admits (vars i) ·)).map (update s.values i)).filter
            check = [] := by
          rw [filter_eq_nil_iff]
          intro b hb hb'
          rcases mem_map.mp hb with ⟨candi', hcandi', rfl⟩
          refine hcheck (hdown _ _ ?_ hb')
          exact update_le_update_iff.mpr
            ⟨hsorted.1 candi' (mem_filter.mp hcandi').1, fun _ _ => le_rfl⟩
        rw [hnone]
        refine ⟨?_, fun j hj => update_of_ne hj _ _⟩
        cases best with
        | none => exact h
        | some b => exact h
    · rw [if_neg hadmits, filter_cons_of_neg hadmits]
      exact ih hsorted.2 h

/-- The search keeps the better ones of the blocks that fit. -/
theorem iterativeRun_spec (hdown : DownwardClosed check) (hne : order ≠ [])
    (h : Matches vars coreNum s best) :
    Matches vars coreNum (iterativeRun vars coreNum check order s)
        (((leaves vars order s.values).filter check).foldl (better vars coreNum) best) ∧
      ∀ j, j ∉ order → (iterativeRun vars coreNum check order s).values j = s.values j := by
  induction order generalizing s best with
  | nil => exact absurd rfl hne
  | cons i rest ih =>
    cases rest with
    | nil =>
      have hlast := @lastLoop_spec n vars coreNum check s best i hdown candidateValue (by decide) h
      have hleaves : leaves vars [i] s.values =
          (candidateValue.filter (admits (vars i) ·)).map (update s.values i) := by
        simp only [leaves, candidates]
        exact flatMap_pure_eq_map ..
      rw [iterativeRun, hleaves]
      refine ⟨hlast.1, ?_⟩
      intro j hj
      exact hlast.2 j fun heq => hj (heq ▸ mem_cons_self)
    | cons k rest =>
      have hloop : ∀ (candis : List ℕ) (s' : L0Search n) (best : Option (Fin n → ℕ)),
          Matches vars coreNum s' best → (∀ j, j ∉ i :: k :: rest → s'.values j = s.values j) →
          Matches vars coreNum (candis.foldl (fun s candi => if admits (vars i) candi then
              iterativeRun vars coreNum check (k :: rest)
                { s with values := update s.values i candi }
            else s) s')
            ((((candis.filter (admits (vars i) ·)).flatMap fun candi =>
              leaves vars (k :: rest) (update s.values i candi)).filter check).foldl
                (better vars coreNum) best) ∧
            ∀ j, j ∉ i :: k :: rest → (candis.foldl (fun s candi => if admits (vars i) candi then
              iterativeRun vars coreNum check (k :: rest)
                { s with values := update s.values i candi }
            else s) s').values j = s.values j := by
        intro candis
        induction candis with
        | nil => exact fun s' best hmatches hvalues => ⟨hmatches, hvalues⟩
        | cons candi candis ihc =>
          intro s' best hmatches hvalues
          rw [foldl_cons]
          by_cases hadmits : admits (vars i) candi = true
          · rw [if_pos hadmits, filter_cons_of_pos hadmits, flatMap_cons, filter_append,
              foldl_append]
            have hset : Matches vars coreNum { s' with values := update s'.values i candi }
                best := by
              cases best with
              | none => exact hmatches
              | some b => exact hmatches
            have hinner := ih (cons_ne_nil _ _) hset
            have hleaves : leaves vars (k :: rest) (update s'.values i candi) =
                leaves vars (k :: rest) (update s.values i candi) := by
              refine leaves_congr ?_
              intro j hj
              by_cases hji : j = i
              · rw [hji, update_self, update_self]
              · rw [update_of_ne hji, update_of_ne hji]
                exact hvalues j (by simp [hji, hj])
            rw [hleaves] at hinner
            refine ihc _ _ hinner.1 ?_
            intro j hj
            rw [mem_cons, not_or] at hj
            rw [hinner.2 j hj.2]
            exact (update_of_ne hj.1 _ _).trans (hvalues j (by simpa [not_or] using hj))
          · rw [if_neg hadmits, filter_cons_of_neg hadmits]
            exact ihc s' best hmatches hvalues
      rw [iterativeRun, leaves]
      exact hloop candidateValue s best h fun _ _ => rfl

end Leaves

/-! ## The smallest block uses the most cores -/

section Cores

variable {n : ℕ} {vars : Fin n → L0Var} {coreNum : ℕ} {a b : Fin n → ℕ} {var : L0Var}

theorem blockNum_antitone {value value' : ℕ} (hpos : 0 < value) (hle : value ≤ value') :
    blockNum var value' ≤ blockNum var value := by
  rw [blockNum, blockNum]
  split
  · generalize hm : max value var.promptAlign = m
    generalize hm' : max value' var.promptAlign = m'
    have hmpos : 0 < m := by omega
    have hmle : m ≤ m' := by omega
    -- as many blocks as the smaller ones cover at least as much
    generalize hq : (var.maxValue + m - 1) / m = q
    have hcover : var.maxValue + m - 1 < (q + 1) * m := by
      rw [← hq, mul_comm]
      exact Nat.lt_mul_div_succ _ hmpos
    have hlarger : q * m ≤ q * m' := Nat.mul_le_mul_left q hmle
    refine Nat.le_of_lt_succ ((Nat.div_lt_iff_lt_mul (lt_of_lt_of_le hmpos hmle)).mpr ?_)
    rw [Nat.succ_mul]
    rw [Nat.succ_mul] at hcover
    omega
  · exact le_rfl

theorem maxCoreNum_antitone (hpos : ∀ i, 0 < a i) (hle : a ≤ b) :
    maxCoreNum vars coreNum b ≤ maxCoreNum vars coreNum a := by
  have hprod : ∏ i, blockNum (vars i) (b i) ≤ ∏ i, blockNum (vars i) (a i) :=
    Finset.prod_le_prod (fun _ _ => Nat.zero_le _) fun i _ => blockNum_antitone (hpos i) (hle i)
  rw [maxCoreNum, maxCoreNum]
  split
  · split
    · exact le_rfl
    · omega
  · split
    · omega
    · exact hprod

end Cores

/-! ## The block that the solver returns -/

/-- A block of candidate values that fits in the buffers. -/
structure Feasible (a : Fin n → ℕ) : Prop where
  candidate : ∀ i, a i ∈ candidateValue
  bound : ∀ i, a i < (solver.adjustedVars i).maxValue * upperBoundRatio
  aligned : ∀ i, (solver.adjustedVars i).promptAlign ∣ a i ∨ a i ∣ (solver.adjustedVars i).promptAlign
  fits : solver.checkBufferUseValid a = true

def cores (a : Fin n → ℕ) : ℕ := maxCoreNum solver.adjustedVars solver.input.coreNum a

/-- `std::sort` reorders the variables. -/
def Sorts : Prop := ∀ less l, (solver.sort less l).Perm l

section Run

variable {n : ℕ} {solver : L0TileSolver n} {a : Fin n → ℕ}

theorem mem_candidates {var : L0Var} {value : ℕ} : value ∈ candidates var ↔
    value ∈ candidateValue ∧ value < var.maxValue * upperBoundRatio ∧
      (var.promptAlign ∣ value ∨ value ∣ var.promptAlign) := by
  rw [candidates, mem_filter, admits]
  by_cases hle : var.maxValue * upperBoundRatio ≤ value
  · simp [hle, not_lt.mpr hle]
  · rw [if_neg hle, decide_eq_true_eq, Nat.dvd_iff_mod_eq_zero, Nat.dvd_iff_mod_eq_zero,
      and_iff_right (not_le.mp hle)]

theorem pos_of_mem_candidateValue {value : ℕ} (h : value ∈ candidateValue) : 0 < value := by
  have hall : ∀ x ∈ candidateValue, 0 < x := by decide
  exact hall value h

/-- The blocks that the search tries and that fit are the feasible ones. -/
theorem feasible_iff (hsort : solver.Sorts) : solver.Feasible a ↔
    a ∈ (leaves solver.adjustedVars solver.sortedVars solver.inputValues).filter
      solver.checkBufferUseValid := by
  have hperm : solver.sortedVars.Perm (finRange n) := hsort _ _
  have hmem : ∀ i, i ∈ solver.sortedVars := fun i => hperm.mem_iff.mpr (mem_finRange i)
  rw [mem_filter, mem_leaves (hperm.nodup_iff.mpr (nodup_finRange n))]
  constructor
  · intro h
    refine ⟨⟨?_, fun j hj => absurd (hmem j) hj⟩, h.fits⟩
    exact fun i _ => mem_candidates.mpr ⟨h.candidate i, h.bound i, h.aligned i⟩
  · rintro ⟨⟨hcands, -⟩, hfits⟩
    have hall := fun i => mem_candidates.mp (hcands i (hmem i))
    exact ⟨fun i => (hall i).1, fun i => (hall i).2.1, fun i => (hall i).2.2, hfits⟩

/-- The best block of the search, if a block fits. -/
theorem iterativeRun_best (hsort : solver.Sorts) (hsize : n ≠ 0)
    (hdown : DownwardClosed solver.checkBufferUseValid) :
    let best := (iterativeRun solver.adjustedVars solver.input.coreNum solver.checkBufferUseValid
      solver.sortedVars { values := solver.inputValues }).bestVarValue
    (∃ a, solver.Feasible a) ∧
        IsBest solver.cores getMacUse (coreNumThreshold solver.input.coreNum) solver.Feasible best ∨
      (¬ ∃ a, solver.Feasible a) ∧ best = fun _ => 0 := by
  intro best
  have hperm : solver.sortedVars.Perm (finRange n) := hsort _ _
  have hne : solver.sortedVars ≠ [] := by
    intro hnil
    rw [hnil, nil_perm, finRange_eq_nil_iff] at hperm
    exact hsize hperm
  have hstart : Matches solver.adjustedVars solver.input.coreNum
      { values := solver.inputValues } none := ⟨rfl, rfl, rfl⟩
  have hspec := (iterativeRun_spec hdown hne hstart).1
  dsimp only at hspec
  by_cases hexists : ∃ a, solver.Feasible a
  · left
    refine ⟨hexists, ?_⟩
    rcases hexists with ⟨a, ha⟩
    have hcands : ∀ i ∈ solver.sortedVars, candidates (solver.adjustedVars i) ≠ [] := fun i _ =>
      ne_nil_of_mem (mem_candidates.mpr ⟨ha.candidate i, ha.bound i, ha.aligned i⟩)
    rcases leaves_head hcands solver.inputValues with ⟨first, rest, hleaves, hmin⟩
    have hfirst : ∀ b, solver.Feasible b → first ≤ b := fun b hb =>
      hmin solver.inputValues b (fun _ _ => le_rfl) (mem_filter.mp ((feasible_iff hsort).mp hb)).1
    have hfits := hdown first a (hfirst a ha) ha.fits
    have hlist : (leaves solver.adjustedVars solver.sortedVars solver.inputValues).filter
        solver.checkBufferUseValid = first :: rest.filter solver.checkBufferUseValid := by
      rw [hleaves, filter_cons_of_pos hfits]
    have hfeasible : ∀ b, b ∈ first :: rest.filter solver.checkBufferUseValid ↔ solver.Feasible b := by
      intro b
      rw [← hlist]
      exact (feasible_iff hsort).symm
    have hpos : ∀ i, 0 < first i := fun i =>
      pos_of_mem_candidateValue (((hfeasible first).mp mem_cons_self).candidate i)
    have hcores : ∀ b ∈ rest.filter solver.checkBufferUseValid, solver.cores b ≤ solver.cores first :=
      fun b hb => maxCoreNum_antitone hpos (hfirst b ((hfeasible b).mp (mem_cons_of_mem _ hb)))
    rcases @foldl_keepBetter _ _ _ _ _ solver.cores getMacUse
      (coreNumThreshold solver.input.coreNum) first _ hcores with ⟨b, hb, hbest⟩
    rw [hlist] at hspec
    have hmatches : best = b := by
      have hsome : ((first :: rest.filter solver.checkBufferUseValid).foldl
          (better solver.adjustedVars solver.input.coreNum) none) = some b := hb
      rw [hsome] at hspec
      exact hspec.2.2
    rw [hmatches]
    exact hbest.congr hfeasible
  · right
    refine ⟨hexists, ?_⟩
    have hnil : (leaves solver.adjustedVars solver.sortedVars solver.inputValues).filter
        solver.checkBufferUseValid = [] := by
      rw [eq_nil_iff_forall_not_mem]
      exact fun a ha => hexists ⟨a, (feasible_iff hsort).mpr ha⟩
    rw [hnil] at hspec
    exact hspec.2.2

/-- Outside the fast mode, the solver returns the best of the feasible blocks, and fails only if there
is none. -/
theorem run_isBest (hsort : solver.Sorts) (hinput : solver.checkInput = true)
    (hfast : (solver.isFastMode && solver.checkBufferUseValid solver.inputValues) = false)
    (hdown : DownwardClosed solver.checkBufferUseValid) :
    (solver.run.ok = true → IsBest solver.cores getMacUse (coreNumThreshold solver.input.coreNum)
        solver.Feasible solver.run.output) ∧
      (solver.run.ok = false → ∀ a, ¬ solver.Feasible a) := by
  have hsize : n ≠ 0 := by
    intro hzero
    rw [checkInput, if_pos hzero] at hinput
    cases hinput
  rw [run, hinput, hfast]
  simp only [Bool.not_true, Bool.false_eq_true, if_false]
  rcases iterativeRun_best hsort hsize hdown with ⟨⟨a, ha⟩, hbest⟩ | ⟨hnone, hbest⟩
  · refine ⟨fun _ => hbest, ?_⟩
    intro hok
    refine absurd hok (Bool.not_eq_false _ ▸ ?_)
    rw [checkOutput, all_eq_true]
    intro i _
    have hpos := pos_of_mem_candidateValue (hbest.holds.candidate i)
    exact decide_eq_true (Nat.ne_of_gt hpos)
  · rw [hbest]
    refine ⟨?_, fun _ a ha => hnone ⟨a, ha⟩⟩
    intro hok
    rw [checkOutput, all_eq_true] at hok
    have hzero := hok ⟨0, Nat.pos_of_ne_zero hsize⟩ (mem_finRange _)
    simp at hzero

end Run

/-- One multicore axis of 32 elements on two cores. -/
def twoBlocks : L0TileSolver 1 where
  input :=
    { l0Vars := fun _ =>
        { maxValue := 32
          bindMulticore := true
          isInnermost := false
          align := 16
          promptAlign := 16
          value := 0 }
      coreNum := 2 }
  checkBufferUseValid := fun _ => true
  sort := fun less l => l.insertionSort fun a b => less b a = false

theorem run_isBest_twoBlocks :
    (twoBlocks.run.ok = true → IsBest twoBlocks.cores getMacUse (coreNumThreshold 2)
        twoBlocks.Feasible twoBlocks.run.output) ∧
      (twoBlocks.run.ok = false → ∀ a, ¬ twoBlocks.Feasible a) :=
  @run_isBest 1 twoBlocks (fun _ l => perm_insertionSort _ l) (by decide) (by decide)
    fun _ _ _ _ => rfl

/-- The fewest cores that are 60% of the cores. -/
def sixtyPercent (coreNum : ℕ) : ℕ := (6 * coreNum + 9) / 10

/-- One block of 32 elements is returned, on one of the two cores, and two blocks of 16 use both. -/
theorem not_isBest_twoBlocks : twoBlocks.run.ok = true ∧
    ¬ IsBest twoBlocks.cores getMacUse (sixtyPercent 2) twoBlocks.Feasible twoBlocks.run.output := by
  have houtput : twoBlocks.run.ok = true ∧ twoBlocks.cores twoBlocks.run.output = 1 := by decide +kernel
  refine ⟨houtput.1, ?_⟩
  intro hbest
  have hfeasible : twoBlocks.Feasible fun _ => 16 :=
    ⟨by decide, by decide +kernel, by decide +kernel, rfl⟩
  have hreached := (hbest.of_reached ⟨_, hfeasible, by decide +kernel⟩).1
  rw [houtput.2] at hreached
  exact absurd hreached (by decide)

end L0TileSolver

end GraphAutofusion.Autofuse
