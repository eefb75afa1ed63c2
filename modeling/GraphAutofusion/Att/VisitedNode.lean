import GraphAutofusion.Lib.Bisect

/-!
# Att.VisitedNode — the visited set of the general solver

Vectors of numbers in one flat array, searched by halving and kept sorted by shifting rows. A search
excludes the probed row on its right side as well, so a vector that belongs right at a probed row is
put one row too early, unless the range of the search begins there.
-/

namespace GraphAutofusion.Att

open Lib List Option Function

/-- Row `idx` starts at `idx * varNum` of `head`. -/
structure VisitedNode where
  recNum : ℕ
  varNum : ℕ
  head : ℕ → ℕ

namespace VisitedNode

def row (n : VisitedNode) (idx : ℕ) : List ℕ :=
  (range n.varNum).map fun i => n.head (idx * n.varNum + i)

def rows (n : VisitedNode) : List (List ℕ) := (range n.recNum).map n.row

/-- The loop of `Cmp` over the entries. -/
def cmpRow : List ℕ → List ℕ → ℤ
  | cur :: curVar, var :: vars =>
    if var < cur then 1 else if cur < var then -1 else cmpRow curVar vars
  | _, _ => 0

/-- `none`: the row is not a stored one. -/
def cmp (n : VisitedNode) (idx : ℕ) (vars : List ℕ) : Option ℤ :=
  if idx < n.recNum then some (cmpRow (n.row idx) vars) else none

/-- The halving loop of `SearchVars`. The inner `none` is a vector that was found, else it is `left`
at the end. The outer `none` is an access outside the stored rows, or a sum of the bounds that leaves
`int32_t`. A `right` of -1 ends the loop as 0 does. -/
def searchLoop (n : VisitedNode) (vars : List ℕ) : ℕ → ℕ → ℕ → Option (Option ℕ)
  | 0, _, _ => none
  | fuel + 1, left, right =>
    if left < right then
      if left + right < 2 ^ 31 then
        match n.cmp ((left + right) / 2) vars with
        | none => none
        | some c =>
          if c = 0 then some none
          else if 0 < c then searchLoop n vars fuel left ((left + right) / 2 - 1)
          else searchLoop n vars fuel ((left + right) / 2 + 1) right
      else none
    else some (some left)

/-- One turn of the loop that shifts the rows, `none` when it reads before the first row. -/
def shiftStep (n : VisitedNode) (head : ℕ → ℕ) (i : ℕ) : Option (ℕ → ℕ) :=
  if i < n.recNum * n.varNum then
    some (Function.update head ((n.recNum + 1) * n.varNum - i - 1) (head (n.recNum * n.varNum - i - 1)))
  else none

/-- One turn of the loop that writes the new row, `none` when it writes behind the free row. -/
def writeStep (n : VisitedNode) (left : ℕ) (vars : List ℕ) (head : ℕ → ℕ) (i : ℕ) : Option (ℕ → ℕ) :=
  if left * n.varNum + i < (n.recNum + 1) * n.varNum then
    some (Function.update head (left * n.varNum + i) (vars.getD i 0))
  else none

/-- The rows from `left` on move on by one, and the vector is written at `left`. -/
def insertAt (n : VisitedNode) (left : ℕ) (vars : List ℕ) : Option VisitedNode :=
  ((range ((n.recNum - left) * n.varNum)).foldlM n.shiftStep n.head).bind fun shifted =>
    ((range n.varNum).foldlM (n.writeStep left vars) shifted).map fun head =>
      { n with recNum := n.recNum + 1, head := head }

/-- `none`: an access outside the stored rows and the free one, or a number that leaves its 32 bits
(the counter of the shifting loop, which then does not end, or the sum of the bounds). -/
def searchVars (cfgIterations : ℕ) (n : VisitedNode) (vars : List ℕ) (insertVars : Bool) :
    Option (Bool × VisitedNode) :=
  match n.searchLoop vars (n.recNum + 1) 0 n.recNum with
  | none => none
  | some none => some (true, n)
  | some (some left) =>
    if n.cmp left vars = some 0 then some (true, n)
    else if n.recNum < cfgIterations ∧ insertVars = true then
      if (n.recNum - left) * n.varNum < 2 ^ 32 then (n.insertAt left vars).map fun m => (false, m)
      else none
    else some (false, n)

/-- The answers of a sequence of calls, and what is stored after them. -/
def runCalls (cfgIterations : ℕ) (n : VisitedNode) :
    List (List ℕ × Bool) → Option (List Bool × VisitedNode)
  | [] => some ([], n)
  | (vars, insertVars) :: calls =>
    (n.searchVars cfgIterations vars insertVars).bind fun out =>
      (runCalls cfgIterations out.2 calls).map fun rest => (out.1 :: rest.1, rest.2)

/-! ## What the set is for -/

/-- The vectors a set of bounded size remembers, in the order they came. -/
def remember (cfgIterations : ℕ) (seen : List (List ℕ)) (vars : List ℕ) (insertVars : Bool) :
    List (List ℕ) :=
  if seen.contains vars = false ∧ seen.length < cfgIterations ∧ insertVars = true then seen ++ [vars]
  else seen

/-- The answers such a set gives, and what it remembers after them. -/
def rememberAll (cfgIterations : ℕ) (seen : List (List ℕ)) :
    List (List ℕ × Bool) → List Bool × List (List ℕ)
  | [] => ([], seen)
  | (vars, insertVars) :: calls =>
    let rest := rememberAll cfgIterations (remember cfgIterations seen vars insertVars) calls
    (seen.contains vars :: rest.1, rest.2)

/-- The rows stored are the vectors of `seen`, strictly increasing. -/
structure Stores (varNum : ℕ) (seen : List (List ℕ)) (n : VisitedNode) : Prop where
  width : n.varNum = varNum
  count : n.recNum = seen.length
  sorted : n.rows.Pairwise (List.Lex (· < ·))
  mem : ∀ x, x ∈ seen ↔ x ∈ n.rows

/-! ## Comparing rows -/

variable {n m : VisitedNode} {vars : List ℕ}

theorem cmpRow_cases {a b : List ℕ} (h : a.length = b.length) :
    (cmpRow a b = 0 ∧ a = b) ∨ (cmpRow a b = 1 ∧ List.Lex (· < ·) b a) ∨
      (cmpRow a b = -1 ∧ List.Lex (· < ·) a b) := by
  induction a generalizing b with
  | nil =>
    cases b with
    | nil => exact .inl ⟨rfl, rfl⟩
    | cons y b => exact absurd h (by simp)
  | cons x a ih =>
    cases b with
    | nil => exact absurd h (by simp)
    | cons y b =>
      rw [cmpRow]
      rcases Nat.lt_trichotomy x y with hlt | heq | hgt
      · rw [if_neg (by omega), if_pos hlt]
        exact .inr (.inr ⟨rfl, List.Lex.rel hlt⟩)
      · -- the first entries agree: the rest decides
        subst heq
        rw [if_neg (lt_irrefl x), if_neg (lt_irrefl x)]
        rcases ih (Nat.succ.inj h) with ⟨hc, rfl⟩ | ⟨hc, hlex⟩ | ⟨hc, hlex⟩
        · exact .inl ⟨hc, rfl⟩
        · exact .inr (.inl ⟨hc, List.Lex.cons hlex⟩)
        · exact .inr (.inr ⟨hc, List.Lex.cons hlex⟩)
      · rw [if_pos hgt]
        exact .inr (.inl ⟨rfl, List.Lex.rel hgt⟩)

theorem lex_irrefl (a : List ℕ) : ¬ List.Lex (· < ·) a a :=
  List.lex_irrefl lt_irrefl a

theorem lex_trans {a b c : List ℕ} : List.Lex (· < ·) a b → List.Lex (· < ·) b c →
    List.Lex (· < ·) a c :=
  List.lex_trans lt_trans

theorem length_row (n : VisitedNode) (idx : ℕ) : (n.row idx).length = n.varNum := by
  rw [row, length_map, length_range]

theorem cmp_eq_zero (hvars : vars.length = n.varNum) {idx : ℕ} :
    n.cmp idx vars = some 0 ↔ idx < n.recNum ∧ n.row idx = vars := by
  unfold cmp
  split
  · next hidx =>
    rw [and_iff_right hidx, some_inj]
    rcases cmpRow_cases ((n.length_row idx).trans hvars.symm) with ⟨hc, heq⟩ | ⟨hc, hlex⟩ | ⟨hc, hlex⟩
    · exact iff_of_true hc heq
    · exact iff_of_false (by omega) fun heq => lex_irrefl _ (heq ▸ hlex)
    · exact iff_of_false (by omega) fun heq => lex_irrefl _ (heq ▸ hlex)
  · next hidx => exact iff_of_false nofun fun h => hidx h.1

/-! ## The search -/

/-- The stored rows below a vector are those before its place. -/
def PlaceOf (n : VisitedNode) (vars : List ℕ) (p : ℕ) : Prop :=
  p ≤ n.recNum ∧ ∀ idx < n.recNum, (List.Lex (· < ·) (n.row idx) vars ↔ idx < p)

/-- Halving `size` rows of which the first `place` are below a vector ends behind those: the first
row that is not below it is never probed with rows of the range before it. The first number bounds
the halvings. -/
def landsAt : ℕ → ℕ → ℕ → Bool
  | 0, _, place => place == 0
  | fuel + 1, size, place =>
    if size = 0 then place == 0
    else if place < size / 2 then landsAt fuel (size / 2 - 1) place
    else if place = size / 2 then place == 0
    else landsAt fuel (size - (size / 2 + 1)) (place - (size / 2 + 1))

/-- A call is good where at most `2 ^ 30` rows are stored and, if it has to insert a new vector, the
search ends at the place of the vector and fewer than `2 ^ 32` numbers are behind it. -/
def Lands (cfgIterations : ℕ) (n : VisitedNode) (vars : List ℕ) (insertVars : Bool) : Prop :=
  n.recNum ≤ 2 ^ 30 ∧
    (n.recNum < cfgIterations → insertVars = true → vars ∉ n.rows → ∀ p, n.PlaceOf vars p →
      landsAt n.recNum n.recNum p = true ∧ (n.recNum - p) * n.varNum < 2 ^ 32)

/-- Every call of a run is good in the state before it. -/
def EachLands (cfgIterations : ℕ) (n : VisitedNode) : List (List ℕ × Bool) → Prop
  | [] => True
  | (vars, insertVars) :: calls => Lands cfgIterations n vars insertVars ∧
      ∀ out, n.searchVars cfgIterations vars insertVars = some out → EachLands cfgIterations out.2 calls

theorem landsAt_zero (fuel : ℕ) : landsAt fuel 0 0 = true := by
  cases fuel with
  | zero => rfl
  | succ fuel => rfl

/-- The search finds only what is stored, and it ends at the place of a vector that is stored or at
which the halving lands. -/
theorem searchLoop_spec (hvars : vars.length = n.varNum) (hrec : n.recNum ≤ 2 ^ 30) {p : ℕ}
    (hp : n.PlaceOf vars p) {fuel left right : ℕ} (hfuel : right - left ≤ fuel)
    (hright : right ≤ n.recNum) :
    ∃ r, n.searchLoop vars (fuel + 1) left right = some r ∧ (r = none → vars ∈ n.rows) ∧
      (left ≤ p → p ≤ right ∨ p = left →
        n.row p = vars ∨ landsAt fuel (right - left) (p - left) = true → ∀ l, r = some l → l = p) := by
  induction fuel generalizing left right with
  | zero =>
    refine ⟨some left, ?_, nofun, fun hlow hhigh _ l hl => ?_⟩
    · rw [searchLoop, if_neg (by omega)]
    · have := Option.some.inj hl
      omega
  | succ fuel ih =>
    rw [searchLoop]
    by_cases hlt : left < right
    · have hmid : (left + right) / 2 < n.recNum := by omega
      have hbelow := hp.2 _ hmid
      have hsize : ¬ right - left = 0 := by omega
      rw [if_pos hlt, if_pos (by omega), cmp, if_pos hmid]
      dsimp only
      rw [landsAt, if_neg hsize]
      rcases cmpRow_cases ((n.length_row ((left + right) / 2)).trans hvars.symm) with
        ⟨hc, heq⟩ | ⟨hc, hlex⟩ | ⟨hc, hlex⟩
      · exact ⟨none, by rw [if_pos hc], fun _ => heq ▸ mem_map_of_mem (mem_range.mpr hmid),
          fun _ _ _ => nofun⟩
      · -- the probed row is above: on with the rows before the one before it
        rw [hc, if_neg (by omega), if_pos (by omega)]
        obtain ⟨r, hr, hfound, hend⟩ :=
          @ih left ((left + right) / 2 - 1) (by omega) (by omega)
        refine ⟨r, hr, hfound, fun hlow hhigh hland => ?_⟩
        have hle : ¬ (left + right) / 2 < p := fun hlt =>
          lex_irrefl _ (lex_trans hlex (hbelow.mpr hlt))
        rcases Nat.lt_or_eq_of_le (Nat.le_of_not_lt hle) with hbefore | hhere
        · refine hend hlow (by omega) (hland.imp_right fun h => ?_)
          have hsub : (right - left) / 2 - 1 = (left + right) / 2 - 1 - left := by omega
          rw [if_pos (by omega), hsub] at h
          exact h
        · -- the place itself is probed: it is the first row of the range, which the search keeps
          have hzero : p = left := by
            rcases hland with hrow | hland
            · exact absurd hlex (hhere ▸ hrow ▸ lex_irrefl _)
            · rw [if_neg (by omega), if_pos (by omega), beq_iff_eq] at hland
              omega
          have hsub : (left + right) / 2 - 1 - left = 0 := by omega
          refine hend hlow (.inr hzero) (.inr ?_)
          rw [hsub, hzero, Nat.sub_self]
          exact landsAt_zero fuel
      · rw [hc, if_neg (by omega), if_neg (by omega)]
        have hafter : (left + right) / 2 < p := hbelow.mp hlex
        obtain ⟨r, hr, hfound, hend⟩ :=
          @ih ((left + right) / 2 + 1) right (by omega) hright
        refine ⟨r, hr, hfound, fun hlow hhigh hland => hend (by omega) (by omega) ?_⟩
        have hsize : right - left - ((right - left) / 2 + 1) = right - ((left + right) / 2 + 1) := by omega
        have hplace : p - left - ((right - left) / 2 + 1) = p - ((left + right) / 2 + 1) := by omega
        rw [if_neg (by omega), if_neg (by omega), hsize, hplace] at hland
        exact hland
    · refine ⟨some left, by rw [if_neg hlt], nofun, fun hlow hhigh _ l hl => ?_⟩
      have := Option.some.inj hl
      omega

/-! ## The insertion -/

/-- A loop over `head` whose turn `i` leads from `F i` to `F (i + 1)`. -/
theorem foldlM_range {step : (ℕ → ℕ) → ℕ → Option (ℕ → ℕ)} {head : ℕ → ℕ} (F : ℕ → ℕ → ℕ)
    (hzero : F 0 = head) {c : ℕ} (hstep : ∀ i < c, step (F i) i = some (F (i + 1))) :
    (range c).foldlM step head = some (F c) := by
  induction c with
  | zero => exact congrArg some hzero.symm
  | succ c ih =>
    rw [range_succ, foldlM_append, ih fun i hi => hstep i (by omega)]
    simp [hstep c (Nat.lt_succ_self c)]

theorem shift_spec {c : ℕ} (hc : c ≤ n.recNum * n.varNum) :
    (range c).foldlM n.shiftStep n.head = some fun j =>
      if (n.recNum + 1) * n.varNum ≤ j + c ∧ j < (n.recNum + 1) * n.varNum then n.head (j - n.varNum)
      else n.head j := by
  have hnext : (n.recNum + 1) * n.varNum = n.recNum * n.varNum + n.varNum := Nat.succ_mul _ _
  let F (i j : ℕ) : ℕ :=
    if (n.recNum + 1) * n.varNum ≤ j + i ∧ j < (n.recNum + 1) * n.varNum then n.head (j - n.varNum)
    else n.head j
  have hzero : F 0 = n.head := funext fun j => if_neg (by omega)
  refine foldlM_range F hzero fun i hi => ?_
  rw [shiftStep, if_pos (by omega)]
  refine congrArg some (funext fun j => ?_)
  rw [update_apply]
  by_cases hj : j = (n.recNum + 1) * n.varNum - i - 1
  · -- the source of this turn has not been written yet
    have hsource : F i (n.recNum * n.varNum - i - 1) = n.head (j - n.varNum) := by
      refine (if_neg (by omega)).trans (congrArg n.head ?_)
      omega
    rw [if_pos hj, hsource]
    exact (if_pos (by omega)).symm
  · rw [if_neg hj]
    exact if_congr (by omega) rfl rfl

theorem write_spec {left : ℕ} (hleft : left ≤ n.recNum) (head : ℕ → ℕ) :
    (range n.varNum).foldlM (n.writeStep left vars) head = some fun j =>
      if left * n.varNum ≤ j ∧ j < left * n.varNum + n.varNum then vars.getD (j - left * n.varNum) 0
      else head j := by
  have hle : left * n.varNum ≤ n.recNum * n.varNum := Nat.mul_le_mul_right _ hleft
  have hnext : (n.recNum + 1) * n.varNum = n.recNum * n.varNum + n.varNum := Nat.succ_mul _ _
  let F (i j : ℕ) : ℕ :=
    if left * n.varNum ≤ j ∧ j < left * n.varNum + i then vars.getD (j - left * n.varNum) 0
    else head j
  have hzero : F 0 = head := funext fun j => if_neg (by omega)
  refine foldlM_range F hzero fun i hi => ?_
  rw [writeStep, if_pos (by omega)]
  refine congrArg some (funext fun j => ?_)
  rw [update_apply]
  by_cases hj : j = left * n.varNum + i
  · rw [if_pos hj, hj]
    refine Eq.trans ?_ (if_pos (by omega)).symm
    rw [Nat.add_sub_cancel_left]
  · rw [if_neg hj]
    exact if_congr (by omega) rfl rfl

theorem insertAt_spec {p : ℕ} (hvars : vars.length = n.varNum) (hp : p ≤ n.recNum) :
    ∃ m, n.insertAt p vars = some m ∧ m.recNum = n.recNum + 1 ∧ m.varNum = n.varNum ∧
      m.rows = n.rows.take p ++ vars :: n.rows.drop p := by
  have hmove : (n.recNum - p) * n.varNum + p * n.varNum = n.recNum * n.varNum := by
    rw [← add_mul, Nat.sub_add_cancel hp]
  have hnext (k : ℕ) : (k + 1) * n.varNum = k * n.varNum + n.varNum := Nat.succ_mul _ _
  have hrecs := hnext n.recNum
  rw [insertAt, shift_spec (by omega), bind_some, write_spec hp, map_some]
  refine ⟨_, rfl, rfl, rfl, ext_getElem (by simp [rows]; omega) fun idx hidx _ => ?_⟩
  simp only [rows, length_map, length_range] at hidx
  simp only [rows, row, getElem_append, getElem_cons, getElem_take, getElem_drop,
    getElem_map, getElem_range, length_take, length_map, length_range]
  have hidxs := hnext idx
  rcases Nat.lt_trichotomy idx p with hlt | rfl | hgt
  · have hle : (idx + 1) * n.varNum ≤ p * n.varNum := Nat.mul_le_mul_right _ hlt
    rw [dif_pos (by omega)]
    refine map_congr_left fun i hi => ?_
    have := mem_range.mp hi
    rw [if_neg (by omega), if_neg (by omega)]
  · rw [dif_neg (by omega), dif_pos (by omega)]
    refine ext_getElem (by simp [hvars]) fun i hi hi' => ?_
    rw [getElem_map, getElem_range, if_pos (by omega), Nat.add_sub_cancel_left,
      getD_eq_getElem?_getD, getElem?_eq_getElem hi', getD_some]
  · obtain ⟨k, rfl⟩ : ∃ k, idx = k + 1 := ⟨idx - 1, by omega⟩
    have hle : p * n.varNum ≤ k * n.varNum := Nat.mul_le_mul_right _ (Nat.le_of_lt_succ hgt)
    have hend : (k + 1) * n.varNum ≤ n.recNum * n.varNum :=
      Nat.mul_le_mul_right _ (Nat.le_of_lt_succ hidx)
    have hk := hnext k
    rw [dif_neg (by omega), dif_neg (by omega)]
    refine map_congr_left fun i hi => ?_
    have := mem_range.mp hi
    have hsub : p + (k + 1 - min p n.recNum - 1) = k := by omega
    rw [if_neg (by omega), if_pos (by omega), hsub]
    congr 1
    omega

/-! ## Along a run -/

variable {cfgIterations varNum : ℕ} {insertVars : Bool} {seen : List (List ℕ)}

namespace Stores

theorem row_lt (h : Stores varNum seen n) {i j : ℕ} (hij : i < j) (hj : j < n.recNum) :
    List.Lex (· < ·) (n.row i) (n.row j) := by
  have hlength : n.rows.length = n.recNum := by simp [rows]
  simpa [rows] using pairwise_iff_getElem.mp h.sorted i j (by omega) (by omega) hij

theorem exists_place (h : Stores varNum seen n) (vars : List ℕ) : ∃ p, n.PlaceOf vars p := by
  classical
  have hanti : ∀ i j, i ≤ j → decide (j < n.recNum ∧ List.Lex (· < ·) (n.row j) vars) = true →
      decide (i < n.recNum ∧ List.Lex (· < ·) (n.row i) vars) = true := by
    intro i j hij hj
    obtain ⟨hrec, hlex⟩ := of_decide_eq_true hj
    rcases lt_or_eq_of_le hij with hlt | rfl
    · exact decide_eq_true ⟨by omega, lex_trans (h.row_lt hlt hrec) hlex⟩
    · exact hj
  obtain ⟨p, hp, hbelow⟩ := exists_bound hanti n.recNum
  refine ⟨p, hp, fun idx hidx => ?_⟩
  rw [← hbelow idx hidx, decide_eq_true_eq]
  exact (and_iff_right hidx).symm

/-- What holds after an insertion at the place of a vector that is not stored. -/
theorem inserted (h : Stores varNum seen n) (hvars : vars.length = n.varNum) {p : ℕ}
    (hp : n.PlaceOf vars p) (hnew : vars ∉ n.rows) (hrec : m.recNum = n.recNum + 1)
    (hwidth : m.varNum = n.varNum) (hrows : m.rows = n.rows.take p ++ vars :: n.rows.drop p) :
    Stores varNum (seen ++ [vars]) m := by
  constructor
  case width => exact hwidth.trans h.width
  case count => rw [hrec, h.count, length_append, length_singleton]
  case sorted =>
    have hsplit := h.sorted
    rw [← take_append_drop p n.rows, pairwise_append] at hsplit
    have hlow : ∀ a ∈ n.rows.take p, List.Lex (· < ·) a vars := by
      intro a ha
      obtain ⟨i, hi, rfl⟩ := mem_iff_getElem.mp ha
      simp only [rows, length_take, length_map, length_range] at hi
      simpa [rows] using (hp.2 i (by omega)).mpr (by omega)
    have hhigh : ∀ b ∈ n.rows.drop p, List.Lex (· < ·) vars b := by
      intro b hb
      obtain ⟨i, hi, rfl⟩ := mem_iff_getElem.mp hb
      simp only [rows, length_drop, length_map, length_range] at hi
      rcases cmpRow_cases ((n.length_row (p + i)).trans hvars.symm) with ⟨-, heq⟩ | ⟨-, hlex⟩ | ⟨-, hlex⟩
      · exact absurd (heq ▸ mem_map_of_mem (mem_range.mpr (by omega))) hnew
      · simpa [rows] using hlex
      · have := (hp.2 (p + i) (by omega)).mp hlex
        omega
    rw [hrows, pairwise_append, pairwise_cons]
    refine ⟨hsplit.1, ⟨hhigh, hsplit.2.1⟩, fun a ha b hb => ?_⟩
    rcases mem_cons.mp hb with rfl | hb
    · exact hlow a ha
    · exact hsplit.2.2 a ha b hb
  case mem =>
    intro x
    have hsplit : x ∈ n.rows ↔ x ∈ n.rows.take p ∨ x ∈ n.rows.drop p := by
      rw [← mem_append, take_append_drop]
    rw [mem_append, mem_singleton, h.mem x, hrows, mem_append, mem_cons, hsplit]
    exact or_assoc.trans (or_congr_right or_comm)

/-- A good call answers as the set it stands for, and stores what that remembers. -/
theorem call (h : Stores varNum seen n) (hvars : vars.length = varNum)
    (hgood : Lands cfgIterations n vars insertVars) :
    ∃ m, n.searchVars cfgIterations vars insertVars = some (seen.contains vars, m) ∧
      Stores varNum (remember cfgIterations seen vars insertVars) m := by
  have hwidth := hvars.trans h.width.symm
  obtain ⟨p, hp⟩ := h.exists_place vars
  obtain ⟨r, hr, hfound, hend⟩ := @searchLoop_spec n vars hwidth hgood.1 p hp n.recNum 0 n.recNum
    (Nat.sub_le _ _) (Nat.le_refl n.recNum)
  have hend := hend (Nat.zero_le _) (.inl hp.1)
  have hcontains : seen.contains vars = true ↔ vars ∈ n.rows := contains_iff_mem.trans (h.mem vars)
  rw [searchVars, hr]
  cases hstored : seen.contains vars with
  | true =>
    obtain ⟨idx, hidx, hrow⟩ := mem_map.mp (hcontains.mp hstored)
    have hidx := mem_range.mp hidx
    refine ⟨n, ?_, ?_⟩
    · cases r with
      | none => rfl
      | some l =>
        have hlow : ¬ idx < p := fun hlt => lex_irrefl _ (hrow ▸ (hp.2 idx hidx).mpr hlt)
        have hhigh : ¬ p < idx := fun hlt =>
          Nat.lt_irrefl _ ((hp.2 p (by omega)).mp (hrow ▸ h.row_lt hlt hidx))
        obtain rfl : idx = p := by omega
        obtain rfl := hend (.inl hrow) l rfl
        dsimp only
        rw [if_pos ((cmp_eq_zero hwidth).mpr ⟨hidx, hrow⟩)]
    · rw [remember, if_neg fun hc => Bool.noConfusion (hstored.symm.trans hc.1)]
      exact h
  | false =>
    have hnew : vars ∉ n.rows := fun hmem => absurd (hcontains.mpr hmem) (hstored ▸ Bool.false_ne_true)
    cases r with
    | none => exact absurd (hfound rfl) hnew
    | some l =>
      have hmiss : n.cmp l vars ≠ some 0 := fun hc => by
        obtain ⟨hl, hrow⟩ := (cmp_eq_zero hwidth).mp hc
        exact hnew (mem_map.mpr ⟨l, mem_range.mpr hl, hrow⟩)
      dsimp only
      rw [if_neg hmiss]
      by_cases hroom : n.recNum < cfgIterations ∧ insertVars = true
      · obtain ⟨hland, hcount⟩ := hgood.2 hroom.1 hroom.2 hnew p hp
        obtain rfl := hend (.inr hland) l rfl
        obtain ⟨m, hm, hrec, hmwidth, hrows⟩ := insertAt_spec hwidth hp.1
        rw [if_pos hroom, if_pos hcount, remember, if_pos ⟨hstored, h.count ▸ hroom⟩]
        exact ⟨m, hm ▸ rfl, h.inserted hwidth hp hnew hrec hmwidth hrows⟩
      · rw [if_neg hroom, remember, if_neg fun hc => hroom (h.count ▸ hc.2)]
        exact ⟨n, rfl, h⟩

theorem run (h : Stores varNum seen n) {calls : List (List ℕ × Bool)}
    (hvars : ∀ call ∈ calls, call.1.length = varNum) (hgood : EachLands cfgIterations n calls) :
    ∃ m, runCalls cfgIterations n calls = some ((rememberAll cfgIterations seen calls).1, m) ∧
      Stores varNum (rememberAll cfgIterations seen calls).2 m := by
  induction calls generalizing n seen with
  | nil => exact ⟨n, rfl, h⟩
  | cons call calls ih =>
    obtain ⟨vars, insertVars⟩ := call
    obtain ⟨next, hnext, hstores⟩ := h.call (hvars _ mem_cons_self) hgood.1
    obtain ⟨m, hm, hlast⟩ := ih hstores (fun c hc => hvars c (mem_cons_of_mem _ hc))
      (hgood.2 _ hnext)
    refine ⟨m, ?_, hlast⟩
    rw [runCalls, hnext, bind_some, hm]
    rfl

end Stores

/-- In every run of good calls from the empty set, each call answers whether its vector was stored
before, and the rows are what a set of that size remembers. -/
theorem runCalls_remembers (head : ℕ → ℕ) {calls : List (List ℕ × Bool)}
    (hvars : ∀ call ∈ calls, call.1.length = varNum)
    (hgood : EachLands cfgIterations ⟨0, varNum, head⟩ calls) :
    ∃ m, runCalls cfgIterations ⟨0, varNum, head⟩ calls =
        some ((rememberAll cfgIterations [] calls).1, m) ∧
      Stores varNum (rememberAll cfgIterations [] calls).2 m := by
  exact Stores.run ⟨rfl, rfl, List.Pairwise.nil, fun x => Iff.rfl⟩ hvars hgood

theorem runCalls_remembers_one : ∃ m,
    runCalls 100 ⟨0, 1, fun _ => 0⟩ [([1], true)] = some ([false], m) ∧ Stores 1 [[1]] m := by
  refine runCalls_remembers (fun _ => 0) (by simp) ⟨⟨by decide, fun _ _ _ p hp => ?_⟩, fun _ _ => trivial⟩
  obtain rfl : p = 0 := Nat.le_zero.mp hp.1
  decide

/-- The vector 2 comes to stand before the 1, and a later call does not find it. -/
theorem runCalls_misplaced :
    (runCalls 100 ⟨0, 1, fun _ => 0⟩ [([1], true), ([3], true), ([2], true), ([2], false)]).map
        (fun out => (out.1, (range out.2.recNum).map out.2.row)) =
      some ([false, false, false, false], [[2], [1], [3]]) := by
  decide

end VisitedNode

end GraphAutofusion.Att
