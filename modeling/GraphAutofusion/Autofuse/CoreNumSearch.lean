import GraphAutofusion.Autofuse.MulticoreTiling
import GraphAutofusion.Lib.StrideSearch

/-!
# Autofuse.CoreNumSearch — the tile size up to which enough cores are in use

`BinaryFindLowerBoundSatisfiedCoreNum` sets all variables to one tile size and asks whether the cache
line condition fails or the cores in use reach the threshold. The overload with an upper bound for
each variable caps the tile size, asks for the use of the buffer too, and returns the capped end of
the search instead of both ends.

The threshold is a product that the source computes in floating point, and a parameter here.
-/

namespace GraphAutofusion.Autofuse

open Lib AxesReorderSolver MulticoreSolver Function List

structure CoreNumSolver (n : ℕ) extends MulticoreSolver n where
  /-- `corenum_threshold * core_num` -/
  maxCoreNum : ℤ

/-- What a search returns, the variables it leaves, and the tile sizes it asked at. -/
structure CoreNumResult (n : ℕ) where
  pair : ℤ × ℤ
  values : Values n
  probes : List ℤ

namespace CoreNumSolver

variable {n : ℕ} (solver : CoreNumSolver n)

def allCacheLineOk (idxs : List ℕ) (st : Values n) : Bool :=
  idxs.all fun idx => solver.satisfyUBSizeCacheLine idx st

def enoughCores (st : Values n) : Bool := solver.maxCoreNum ≤ solver.calRealUsedCoreNum st

/-- The question at one tile size, with the variables it leaves. -/
def askCoreNum (vars : List (Fin n)) (idxs : List ℕ) (mid : ℤ) (st : Values n) : Bool × Values n :=
  let st := setValues st vars mid
  (!solver.allCacheLineOk idxs st || solver.enoughCores st, st)

def binaryFindLowerBoundSatisfiedCoreNum (vars : List (Fin n)) (idxs : List ℕ) (lowerBound : ℤ)
    (fuel : ℕ) (st : Values n) : Option (CoreNumResult n) :=
  match vars with
  | [] => some ⟨(lowerBound, lowerBound), st, []⟩
  | var :: _ =>
    let upperBound := st var
    if upperBound ≤ lowerBound then some ⟨(lowerBound, lowerBound), st, []⟩
    else
      let oldValues := vars.map st
      match solver.multicoreTilingCore false fuel st with
      | none => none
      | some run =>
        if solver.enoughCores run.values then some ⟨(upperBound, upperBound), run.values, []⟩
        else
          (strideSearch (solver.align var) (solver.askCoreNum vars idxs) fuel lowerBound
            (upperBound - solver.align var) run.values []).map fun r =>
              ⟨(r.right, r.left), restoreValues r.state vars oldValues, r.probes⟩

/-- Each variable is set to the tile size, or to its upper bound if that is smaller. -/
def setCapped (st : Values n) (vars : List (Fin n)) (upperBounds : List ℤ) (val : ℤ) : Values n :=
  (vars.zip upperBounds).foldl (fun st p => setValue st p.1 (if val ≤ p.2 then val else p.2)) st

/-- The question of the overload. The use of the buffer is asked for at the tile size itself. -/
def askCappedCoreNum (vars : List (Fin n)) (idxs : List ℕ) (upperBounds : List ℤ) (mid : ℤ)
    (st : Values n) : Bool × Values n :=
  let st := setCapped st vars upperBounds mid
  match vars with
  | [] => (true, st)
  | var :: _ =>
    if solver.allCacheLineOk idxs st then
      let below := solver.isSatisfyCons var mid .LOCAL_BUFFER st
      (below.1 || solver.enoughCores below.2, below.2)
    else (true, st)

/-- The overload for the upper bounds of two variables. With fewer of them it reads past the end of
its results. -/
def binaryFindLowerBoundSatisfiedCoreNumCapped (vars : List (Fin n)) (idxs : List ℕ) (lowerBound : ℤ)
    (upperBounds : List ℤ) (fuel : ℕ) (st : Values n) : Option (CoreNumResult n) :=
  match vars, upperBounds with
  | var :: _, upperA :: rest =>
    let maxUpperBound := rest.foldl (fun m b => if m < b then b else m) upperA
    if maxUpperBound ≤ lowerBound then some ⟨(lowerBound, lowerBound), st, []⟩
    else
      let oldValues := vars.map st
      match solver.multicoreTilingCore false fuel (setCapped st vars upperBounds maxUpperBound) with
      | none => none
      | some run =>
        if solver.enoughCores run.values then
          -- the variables are left at their upper bounds
          some ⟨(rest.foldl min upperA, rest.foldl max upperA), run.values, []⟩
        else
          match strideSearch (solver.align var) (solver.askCappedCoreNum vars idxs upperBounds) fuel
              lowerBound (maxUpperBound - solver.align var) run.values [] with
          | none => none
          | some r =>
            match upperBounds.map fun b => min r.left b with
            | a :: b :: _ => some ⟨(a, b), restoreValues r.state vars oldValues, r.probes⟩
            | _ => none
  | _, _ => some ⟨(lowerBound, lowerBound), st, []⟩

/-! ## Values set one by one -/

section Values

variable {st st' : Values n} {vars : List (Fin n)} {vals : List ℤ}

theorem restoreValues_of_notMem (hpos : ∀ x ∈ vals, 0 < x) {v : Fin n} (hv : v ∉ vars) :
    restoreValues st vars vals v = st v := by
  induction vars generalizing st vals with
  | nil => rfl
  | cons var vars ih =>
    cases vals with
    | nil => rfl
    | cons x vals =>
      have hset : setValue st var x = update st var x := if_pos (hpos x mem_cons_self)
      have hne : v ≠ var := fun h => hv (h ▸ mem_cons_self)
      show restoreValues (setValue st var x) vars vals v = st v
      rw [hset, ih (fun y hy => hpos y (mem_cons_of_mem _ hy))
        (fun h => hv (mem_cons_of_mem _ h)), update_of_ne hne]

/-- What the variables hold is overwritten, so only the other ones matter. -/
theorem restoreValues_congr (hlen : vars.length = vals.length) (hpos : ∀ x ∈ vals, 0 < x)
    (hagree : ∀ v, v ∉ vars → st' v = st v) :
    restoreValues st' vars vals = restoreValues st vars vals := by
  induction vars generalizing st st' vals with
  | nil =>
    funext v
    exact hagree v not_mem_nil
  | cons var vars ih =>
    cases vals with
    | nil => cases hlen
    | cons x vals =>
      have hset : ∀ s : Values n, setValue s var x = update s var x := fun s =>
        if_pos (hpos x mem_cons_self)
      show restoreValues (setValue st' var x) vars vals = restoreValues (setValue st var x) vars vals
      rw [hset, hset]
      refine ih (Nat.succ.inj hlen) (fun y hy => hpos y (mem_cons_of_mem _ hy)) fun v hv => ?_
      by_cases heq : v = var
      · rw [heq, update_self, update_self]
      · rw [update_of_ne heq, update_of_ne heq]
        exact hagree v fun h => (mem_cons.mp h).elim heq hv

/-- The saved values come back, and the other variables stay as they are. -/
theorem restoreValues_saved_of_agree (hpos : ∀ v ∈ vars, 0 < st v) {v : Fin n} :
    (v ∈ vars → restoreValues st' vars (vars.map st) v = st v) ∧
      (v ∉ vars → restoreValues st' vars (vars.map st) v = st' v) := by
  have hmap : vars.map (fun w => if w ∈ vars then st w else st' w) = vars.map st :=
    map_congr_left fun w hw => if_pos hw
  have hsaved := @restoreValues_saved n (fun w => if w ∈ vars then st w else st' w) st' vars
    (fun w hw => (if_neg hw).symm) (fun w hw => by
      rw [if_pos hw]
      exact hpos w hw)
  rw [hmap] at hsaved
  rw [hsaved]
  exact ⟨fun hv => if_pos hv, fun hv => if_neg hv⟩

/-- The tile size that a variable with this upper bound gets. -/
def capped (val b : ℤ) : ℤ := if val ≤ b then val else b

theorem setCapped_eq (st : Values n) (vars : List (Fin n)) (upperBounds : List ℤ) (val : ℤ) :
    setCapped st vars upperBounds val = restoreValues st vars (upperBounds.map (capped val)) := by
  unfold setCapped restoreValues
  rw [zip_map_right, foldl_map]
  rfl

theorem capped_pos {val b : ℤ} (hval : 0 < val) (hb : 0 < b) : 0 < capped val b := by
  unfold capped
  split
  · exact hval
  · exact hb

end Values

/-! ## The searches -/

/-- The two ends of a search from `lower` to `upper`: they are at most one alignment apart, and a change
of the test lies between the points one alignment beyond them. Where the interval halves evenly they
are adjacent multiples, and so is every point asked at. -/
structure CoreNumBracket (align lower upper : ℤ) (test : ℤ → Bool) (left right : ℤ)
    (probes : List ℤ) : Prop where
  lt : right < left
  le : left ≤ right + align
  below : left = lower ∨ test (left - align) = true
  above : right + align = upper ∨ test (right + align) = false
  inRange : ∀ p ∈ probes, lower ≤ p ∧ p ≤ upper
  grid : (align = 1 ∨ ∃ levels : ℕ, upper - lower + align = 2 ^ levels * align) →
    left = right + align ∧ ∀ p ∈ probes, align ∣ p

theorem exists_bracket {align lower upper : ℤ} (halign : 0 < align) (hdvd : align ∣ lower)
    (hlt : lower < upper) (hdvd' : align ∣ upper) {test : ℤ → Values n → Bool × Values n}
    {holds : ℤ → Bool} {agree : Values n → Prop} {st : Values n} (hst : agree st)
    (htest : ∀ m s, lower ≤ m → m ≤ upper → agree s → (test m s).1 = holds m ∧ agree (test m s).2) :
    ∃ r size, (∀ fuel, size < fuel →
        strideSearch align test fuel lower (upper - align) st [] = some r) ∧ agree r.state ∧
      CoreNumBracket align lower upper holds r.left r.right r.probes := by
  -- both ends are multiples, so the first one is at most the last one below `upper`
  have hgap : align ≤ upper - lower := Int.le_of_dvd (by omega) (Int.dvd_sub hdvd' hdvd)
  have hstart : StrideInv align lower (upper - align) holds agree ⟨lower, upper - align, st, []⟩ :=
    { lower_le := Int.le_refl lower
      le_upper := Int.le_refl _
      gap := by
        show lower ≤ upper - align + align
        omega
      below := .inl rfl
      above := .inl rfl
      agrees := hst
      probes := fun p hp => by cases hp }
  have htest' : ∀ m s, lower ≤ m → m ≤ upper - align → agree s →
      (test m s).1 = holds m ∧ agree (test m s).2 := fun m s hl hu => htest m s hl (by omega)
  obtain ⟨r, hr, hend, hrun⟩ := strideSearch_ends halign htest' hstart
  refine ⟨r, _, hrun, hr.agrees, hend, hr.gap, hr.below, ?_, fun p hp => ?_, fun hgrid => ?_⟩
  · rcases hr.above with h | h
    · exact .inl (by omega)
    · exact .inr h
  · have hp' := hr.probes p hp
    exact ⟨hp'.1, by omega⟩
  · rcases hgrid with hone | ⟨levels, hspan⟩
    · have h1 := hr.gap
      exact ⟨by omega, fun p _ => ⟨p, by rw [hone, Int.one_mul]⟩⟩
    · have hspan' : upper - align - lower + 2 * align = 2 ^ levels * align := by
        rw [← hspan]
        omega
      exact strideSearch_grid hspan' halign hdvd (fun p hp => (not_mem_nil hp).elim)
        (hrun _ (Nat.lt_succ_self _))

/-- What the search without caps promises, after the multicore variables came to `run`: the upper end
twice, or the two ends of a bracket, and the variables as they were. -/
def PlainBrackets (solver : CoreNumSolver n) (vars : List (Fin n)) (idxs : List ℕ)
    (align lowerBound upper : ℤ) (st : Values n) (run : McRun n) : Prop :=
  ∃ r size, (∀ fuel, size < fuel →
      solver.binaryFindLowerBoundSatisfiedCoreNum vars idxs lowerBound fuel st = some r) ∧
    r.values = run.values ∧ (∀ v ∈ vars, r.values v = st v) ∧
    (solver.enoughCores run.values = true ∧ r.pair = (upper, upper) ∧ r.probes = [] ∨
      solver.enoughCores run.values = false ∧
      CoreNumBracket align lowerBound upper
        (fun m => (solver.askCoreNum vars idxs m run.values).1) r.pair.2 r.pair.1 r.probes)

/-- What the overload promises: the smallest and the largest bound, or the left end of a bracket, cut
to the bounds of the first two variables, and then the variables as they were. -/
def CappedBrackets (solver : CoreNumSolver n) (vars : List (Fin n)) (idxs : List ℕ)
    (align lowerBound upperA upperB : ℤ) (more : List ℤ) (st : Values n) (run : McRun n) : Prop :=
  let upperBounds := upperA :: upperB :: more
  let upper := (upperB :: more).foldl max upperA
  ∃ r size, (∀ fuel, size < fuel →
      solver.binaryFindLowerBoundSatisfiedCoreNumCapped vars idxs lowerBound upperBounds fuel st =
        some r) ∧
    (solver.enoughCores run.values = true ∧ r.probes = [] ∧
        r.pair = ((upperB :: more).foldl min upperA, upper) ∨
      solver.enoughCores run.values = false ∧ (∀ v ∈ vars, r.values v = st v) ∧
      ∃ left right, r.pair = (min left upperA, min left upperB) ∧
        CoreNumBracket align lowerBound upper
          (fun m => (solver.askCappedCoreNum vars idxs upperBounds m run.values).1) left right
          r.probes)

section Plain

variable {solver : CoreNumSolver n} {st st' : Values n} {vars : List (Fin n)} {idxs : List ℕ}

/-- The question does not depend on what the variables hold. -/
theorem askCoreNum_congr {m : ℤ} (hm : 0 < m) (hagree : ∀ v, v ∉ vars → st' v = st v) :
    solver.askCoreNum vars idxs m st' = solver.askCoreNum vars idxs m st := by
  unfold askCoreNum
  rw [setValues_congr hagree hm]

theorem askCoreNum_frame {m : ℤ} (hm : 0 < m) {v : Fin n} (hv : v ∉ vars) :
    (solver.askCoreNum vars idxs m st).2 v = st v :=
  setValues_of_notMem hm hv

/-- What the search without caps does, after the multicore variables came to `run`. -/
theorem plain_spec {var : Fin n} {rest : List (Fin n)} {lowerBound : ℤ} (hvars : vars = var :: rest)
    (halign : 0 < solver.align var) (hdvd : solver.align var ∣ lowerBound) (hpos : 0 < lowerBound)
    (hlt : lowerBound < st var) (hdvd' : solver.align var ∣ st var) (hst : ∀ v ∈ vars, 0 < st v)
    (hmc : ∀ v ∈ vars, v ∉ solver.pureMcVars) {size : ℕ} {run : McRun n}
    (hrun : ∀ fuel, size < fuel → solver.multicoreTilingCore false fuel st = some run) :
    PlainBrackets solver vars idxs (solver.align var) lowerBound (st var) st run := by
  have hsame : ∀ v ∈ vars, run.values v = st v := fun v hv =>
    multicoreTilingCore_frame (hmc v hv) (hrun (size + 1) (by omega))
  have hfind : ∀ fuel, solver.binaryFindLowerBoundSatisfiedCoreNum vars idxs lowerBound fuel st =
      match solver.multicoreTilingCore false fuel st with
      | none => none
      | some run =>
        if solver.enoughCores run.values then some ⟨(st var, st var), run.values, []⟩
        else
          (strideSearch (solver.align var) (solver.askCoreNum vars idxs) fuel lowerBound
            (st var - solver.align var) run.values []).map fun r =>
              ⟨(r.right, r.left), restoreValues r.state vars (vars.map st), r.probes⟩ := fun fuel => by
    subst hvars
    simp only [binaryFindLowerBoundSatisfiedCoreNum, if_neg (not_le.mpr hlt)]
  cases henough : solver.enoughCores run.values with
  | true =>
    refine ⟨⟨(st var, st var), run.values, []⟩, size, fun fuel hfuel => ?_, rfl, hsame,
      .inl ⟨henough, rfl, rfl⟩⟩
    rw [hfind, hrun fuel hfuel]
    simp only [henough, if_true]
  | false =>
    have htest : ∀ m (s : Values n), lowerBound ≤ m → m ≤ st var →
        (∀ v, v ∉ vars → s v = run.values v) →
        (solver.askCoreNum vars idxs m s).1 = (solver.askCoreNum vars idxs m run.values).1 ∧
          ∀ v, v ∉ vars → (solver.askCoreNum vars idxs m s).2 v = run.values v := by
      intro m s hl hu hs
      rw [askCoreNum_congr (by omega) hs]
      exact ⟨rfl, fun v hv => askCoreNum_frame (by omega) hv⟩
    obtain ⟨r, size', hsearch, hagree, hbracket⟩ :=
      exists_bracket halign hdvd hlt hdvd' (fun _ _ => rfl) htest
    have hrestore : restoreValues r.state vars (vars.map st) = run.values := by
      have hmap : vars.map st = vars.map run.values :=
        map_congr_left fun v hv => (hsame v hv).symm
      rw [hmap]
      exact restoreValues_saved hagree fun v hv => by
        rw [hsame v hv]
        exact hst v hv
    refine ⟨⟨(r.right, r.left), run.values, r.probes⟩, max size size', fun fuel hfuel => ?_, rfl, hsame,
      .inr ⟨henough, hbracket⟩⟩
    rw [hfind, hrun fuel (by omega)]
    simp only [henough, Bool.false_eq_true, if_false]
    rw [hsearch fuel (by omega), Option.map_some, hrestore]

end Plain

section Capped

variable {solver : CoreNumSolver n} {st st' : Values n} {vars : List (Fin n)} {idxs : List ℕ}
  {upperBounds : List ℤ}

theorem map_capped_pos {val : ℤ} (hval : 0 < val) (hbounds : ∀ b ∈ upperBounds, 0 < b) :
    ∀ x ∈ upperBounds.map (capped val), 0 < x := by
  intro x hx
  obtain ⟨b, hb, rfl⟩ := mem_map.mp hx
  exact capped_pos hval (hbounds b hb)

theorem setCapped_congr {val : ℤ} (hlen : vars.length = upperBounds.length) (hval : 0 < val)
    (hbounds : ∀ b ∈ upperBounds, 0 < b) (hagree : ∀ v, v ∉ vars → st' v = st v) :
    setCapped st' vars upperBounds val = setCapped st vars upperBounds val := by
  rw [setCapped_eq, setCapped_eq]
  refine restoreValues_congr ?_ (map_capped_pos hval hbounds) hagree
  rw [length_map, hlen]

theorem setCapped_of_notMem {val : ℤ} (hval : 0 < val) (hbounds : ∀ b ∈ upperBounds, 0 < b) {v : Fin n}
    (hv : v ∉ vars) : setCapped st vars upperBounds val v = st v := by
  rw [setCapped_eq]
  exact restoreValues_of_notMem (map_capped_pos hval hbounds) hv

/-- The question about the buffer sets the variable and sets it back. -/
theorem isSatisfyCons_frame {var v : Fin n} {val : ℤ} {type : ConstraintType} (hval : 0 < val)
    (hv : v ≠ var) : (solver.isSatisfyCons var val type st).2 v = st v := by
  unfold isSatisfyCons
  dsimp only
  have hset : setValue st var val = update st var val := if_pos hval
  rw [hset]
  unfold setValue
  split
  · rw [update_of_ne hv, update_of_ne hv]
  · exact update_of_ne hv _ _

theorem askCappedCoreNum_congr {m : ℤ} (hlen : vars.length = upperBounds.length) (hm : 0 < m)
    (hbounds : ∀ b ∈ upperBounds, 0 < b) (hagree : ∀ v, v ∉ vars → st' v = st v) :
    solver.askCappedCoreNum vars idxs upperBounds m st' =
      solver.askCappedCoreNum vars idxs upperBounds m st := by
  unfold askCappedCoreNum
  rw [setCapped_congr hlen hm hbounds hagree]

theorem askCappedCoreNum_frame {m : ℤ} (hm : 0 < m) (hbounds : ∀ b ∈ upperBounds, 0 < b) {v : Fin n}
    (hv : v ∉ vars) : (solver.askCappedCoreNum vars idxs upperBounds m st).2 v = st v := by
  have hset : setCapped st vars upperBounds m v = st v := setCapped_of_notMem hm hbounds hv
  unfold askCappedCoreNum
  cases vars with
  | nil => exact hset
  | cons var rest =>
    dsimp only
    split
    · have hne : v ≠ var := fun h => hv (h ▸ mem_cons_self)
      rw [← hset]
      exact @isSatisfyCons_frame n solver _ var v m .LOCAL_BUFFER hm hne
    · exact hset

/-- The largest upper bound, as the source looks for it. -/
theorem foldl_larger_eq (rest : List ℤ) (upperA : ℤ) :
    rest.foldl (fun m b => if m < b then b else m) upperA = rest.foldl max upperA := by
  induction rest generalizing upperA with
  | nil => rfl
  | cons b rest ih =>
    rw [foldl_cons, foldl_cons, ih, Int.max_def]
    congr 1
    split
    · rw [if_pos (by omega)]
    · split
      · omega
      · rfl

/-- What the overload does, after the multicore variables came to `run` with every variable at its
upper bound. -/
theorem capped_spec {var : Fin n} {rest : List (Fin n)} {lowerBound upperA upperB : ℤ}
    {more : List ℤ} (hvars : vars = var :: rest) (hbounds : upperBounds = upperA :: upperB :: more)
    (hlen : vars.length = upperBounds.length) {upper : ℤ}
    (hupper : upper = (upperB :: more).foldl max upperA)
    (halign : 0 < solver.align var) (hdvd : solver.align var ∣ lowerBound) (hpos : 0 < lowerBound)
    (hlt : lowerBound < upper) (hdvd' : solver.align var ∣ upper) (hub : ∀ b ∈ upperBounds, 0 < b)
    (hst : ∀ v ∈ vars, 0 < st v) {size : ℕ} {run : McRun n}
    (hrun : ∀ fuel, size < fuel → solver.multicoreTilingCore false fuel
      (setCapped st vars upperBounds upper) = some run) :
    CappedBrackets solver vars idxs (solver.align var) lowerBound upperA upperB more st run := by
  have hfind : ∀ fuel, size < fuel →
      solver.binaryFindLowerBoundSatisfiedCoreNumCapped vars idxs lowerBound upperBounds fuel st =
        if solver.enoughCores run.values then
          some ⟨((upperB :: more).foldl min upperA, upper), run.values, []⟩
        else
          match strideSearch (solver.align var) (solver.askCappedCoreNum vars idxs upperBounds) fuel
              lowerBound (upper - solver.align var) run.values [] with
          | none => none
          | some r => some ⟨(min r.left upperA, min r.left upperB),
              restoreValues r.state vars (vars.map st), r.probes⟩ := fun fuel hfuel => by
    have h := hrun fuel hfuel
    subst hvars hbounds hupper
    simp only [binaryFindLowerBoundSatisfiedCoreNumCapped, foldl_larger_eq,
      if_neg (not_le.mpr hlt), h]
    rfl
  cases henough : solver.enoughCores run.values with
  | true =>
    refine ⟨⟨((upperB :: more).foldl min upperA, upper), run.values, []⟩, size, fun fuel hfuel => ?_,
      .inl ⟨henough, rfl, by rw [hupper]⟩⟩
    rw [← hbounds, hfind fuel hfuel, henough, if_pos rfl]
  | false =>
    have htest : ∀ m (s : Values n), lowerBound ≤ m → m ≤ upper →
        (∀ v, v ∉ vars → s v = run.values v) →
        (solver.askCappedCoreNum vars idxs upperBounds m s).1 =
            (solver.askCappedCoreNum vars idxs upperBounds m run.values).1 ∧
          ∀ v, v ∉ vars → (solver.askCappedCoreNum vars idxs upperBounds m s).2 v = run.values v := by
      intro m s hl hu hs
      rw [askCappedCoreNum_congr hlen (by omega) hub hs]
      exact ⟨rfl, fun v hv => askCappedCoreNum_frame (by omega) hub hv⟩
    obtain ⟨r, size', hsearch, hagree, hbracket⟩ :=
      exists_bracket halign hdvd hlt hdvd' (fun _ _ => rfl) htest
    rw [hupper, hbounds] at hbracket
    refine ⟨⟨(min r.left upperA, min r.left upperB), restoreValues r.state vars (vars.map st),
      r.probes⟩, max size size', fun fuel hfuel => ?_, .inr ⟨henough,
        fun v hv => (restoreValues_saved_of_agree hst).1 hv, r.left, r.right, rfl, hbracket⟩⟩
    rw [← hbounds, hfind fuel (by omega), henough, if_neg Bool.false_ne_true, hsearch fuel (by omega)]

end Capped

/-- Both searches bracket the tile size up to which the test holds, from a positive lower end on the
multiples of the alignment. -/
theorem binaryFindLowerBoundSatisfiedCoreNum_brackets {solver : CoreNumSolver n} {st : Values n}
    {vars rest : List (Fin n)} {var : Fin n} (hvars : vars = var :: rest) (idxs : List ℕ)
    {lowerBound : ℤ} (halign : 0 < solver.align var) (hdvd : solver.align var ∣ lowerBound)
    (hpos : 0 < lowerBound) (hst : ∀ v ∈ vars, 0 < st v) (hmc : ∀ v ∈ vars, v ∉ solver.pureMcVars) :
    (∀ size run, lowerBound < st var → solver.align var ∣ st var →
      (∀ fuel, size < fuel → solver.multicoreTilingCore false fuel st = some run) →
      PlainBrackets solver vars idxs (solver.align var) lowerBound (st var) st run) ∧
    ∀ upperA upperB more size run, vars.length = (upperA :: upperB :: more).length →
      (∀ b ∈ upperA :: upperB :: more, 0 < b) →
      lowerBound < (upperB :: more).foldl max upperA →
      solver.align var ∣ (upperB :: more).foldl max upperA →
      (∀ fuel, size < fuel → solver.multicoreTilingCore false fuel
        (setCapped st vars (upperA :: upperB :: more) ((upperB :: more).foldl max upperA)) =
          some run) →
      CappedBrackets solver vars idxs (solver.align var) lowerBound upperA upperB more st run := by
  constructor
  · intro size run hlt hdvd' hrun
    exact plain_spec hvars halign hdvd hpos hlt hdvd' hst hmc hrun
  · intro upperA upperB more size run hlen hub hlt hdvd' hrun
    exact capped_spec hvars rfl hlen rfl halign hdvd hpos hlt hdvd' hub hst hrun

/-- Two local variables with the alignment four, no multicore variables, and a hundred cores less the
second variable in use. -/
def twoTiles (maxCoreNum : ℤ) : CoreNumSolver 2 where
  allCons := []
  relCons := fun _ => [⟨.LOCAL_BUFFER, 0, fun _ _ => 1⟩]
  satisfyUBSizeCacheLine := fun _ _ => true
  ubThresholdSpec := fun spec => spec
  pureMcVars := []
  align := fun _ => 4
  coreNum := 100
  calRealUsedCoreNum := fun st => 100 - st ⟨1, Nat.one_lt_two⟩
  getPerf := fun _ => 0
  maxCoreNum := maxCoreNum

theorem binaryFindLowerBoundSatisfiedCoreNum_brackets_twoTiles :
    PlainBrackets (twoTiles 92) [0, 1] [0, 1] 4 4 16 (fun _ => 16) ⟨true, [], fun _ => 16⟩ ∧
      CappedBrackets (twoTiles 92) [0, 1] [0, 1] 4 4 16 16 [] (fun _ => 16)
        ⟨true, [], setCapped (fun _ => 16) [0, 1] [16, 16] 16⟩ := by
  have h := @binaryFindLowerBoundSatisfiedCoreNum_brackets 2 (twoTiles 92) (fun _ => 16) [0, 1] [1] 0
    rfl [0, 1] 4 (by decide) (by decide) (by decide) (fun _ _ => by decide)
    (fun _ _ => not_mem_nil)
  exact ⟨h.1 0 _ (by decide) (by decide) fun _ _ => rfl,
    h.2 16 16 [] 0 _ rfl (by decide) (by decide) (by decide) fun _ _ => rfl⟩

/-- From four to twelve the search asks at six, and its ends eight and ten are two apart. With the
bounds sixteen and sixteen the overload returns twelve twice, which is not the upper end. -/
theorem not_brackets_twoTiles :
    (∀ fuel, ((twoTiles 94).binaryFindLowerBoundSatisfiedCoreNum [0, 1] [0, 1] 4 (fuel + 3)
      (fun _ => 12)).map (fun r => (r.pair, r.probes)) = some ((8, 10), [6])) ∧
    ∀ fuel, ((twoTiles 92).binaryFindLowerBoundSatisfiedCoreNumCapped [0, 1] [0, 1] 4 [16, 16]
      (fuel + 3) (fun _ => 16)).map (fun r => r.pair) = some (12, 12) :=
  ⟨fun _ => rfl, fun _ => rfl⟩

end CoreNumSolver

end GraphAutofusion.Autofuse
