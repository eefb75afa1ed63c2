import Mathlib.Algebra.Order.Ring.Int

/-!
# Lib.Bisect — halving a range of points

A search over `size` points from `start` on probes the point `pivot size` of the range and goes
on with the points after it when the probe holds, else with the points before it. For a probe
that holds exactly below `bound`, the search ends at `bound`. Which of the two points at the bound
it probes last depends on the range alone: `splitsLeft` says whether the range still has points on
the left of the bound when the bound is probed.
-/

namespace GraphAutofusion.Lib

/-- Where the search ends, and the last point it probed. -/
def bisect (pivot : ℕ → ℕ) (holds : ℕ → Bool) : ℕ → ℕ → ℕ → Option ℕ → ℕ × Option ℕ
  | 0, start, _, last => (start, last)
  | _ + 1, start, 0, last => (start, last)
  | fuel + 1, start, size + 1, _ =>
    let point := start + pivot (size + 1)
    if holds point then bisect pivot holds fuel (point + 1) (size - pivot (size + 1)) (some point)
    else bisect pivot holds fuel start (pivot (size + 1)) (some point)

/-- Halving `size` points reaches the point `bound` with other points on its left. The first number
bounds the halvings. -/
def splitsLeft (pivot : ℕ → ℕ) : ℕ → ℕ → ℕ → Bool
  | 0, _, _ => false
  | _ + 1, 0, _ => false
  | fuel + 1, size + 1, bound =>
    let point := pivot (size + 1)
    if bound = point then decide (0 < point)
    else if bound < point then splitsLeft pivot fuel point bound
    else splitsLeft pivot fuel (size - point) (bound - (point + 1))

/-- The first `size` points are those below a bound, when no point holds after one that does not. -/
theorem exists_bound {holds : ℕ → Bool} (hanti : ∀ i j, i ≤ j → holds j = true → holds i = true)
    (size : ℕ) : ∃ bound ≤ size, ∀ i < size, (holds i = true ↔ i < bound) := by
  induction size with
  | zero => exact ⟨0, le_refl 0, fun i hi => absurd hi (Nat.not_lt_zero i)⟩
  | succ size ih =>
    obtain ⟨bound, hle, hbound⟩ := ih
    by_cases hlast : holds size = true
    · refine ⟨size + 1, le_refl _, fun i hi => ⟨fun _ => hi, fun _ => ?_⟩⟩
      exact hanti i size (Nat.le_of_lt_succ hi) hlast
    refine ⟨bound, Nat.le_succ_of_le hle, fun i hi => ?_⟩
    rcases lt_or_eq_of_le (Nat.le_of_lt_succ hi) with hlt | heq
    · exact hbound i hlt
    · subst heq
      constructor
      · intro hi
        exact absurd hi hlast
      · intro hi
        omega

/-- The points below the bound are as many as hold. -/
theorem countP_range_eq {holds : ℕ → Bool} {size bound : ℕ} (hbound : bound ≤ size)
    (hholds : ∀ i < size, (holds i = true ↔ i < bound)) : (List.range size).countP holds = bound := by
  induction size generalizing bound with
  | zero =>
    rw [List.range_zero, List.countP_nil]
    omega
  | succ size ih =>
    rw [List.range_succ, List.countP_append, List.countP_singleton]
    rcases Nat.lt_or_eq_of_le hbound with hlt | heq
    · -- the last point does not hold
      have hlast : ¬ holds size = true := fun h => by
        have hlow := (hholds size (Nat.lt_succ_self size)).mp h
        omega
      rw [ih (by omega) fun i hi => hholds i (by omega), if_neg hlast]
      omega
    · have hlast : holds size = true := (hholds size (Nat.lt_succ_self size)).mpr (by omega)
      have hbelow : ∀ i < size, (holds i = true ↔ i < size) := fun i hi =>
        (hholds i (by omega)).trans (by omega)
      rw [ih (Nat.le_refl size) hbelow, if_pos hlast]
      omega

/-- More fuel than points changes nothing. -/
theorem splitsLeft_fuel {pivot : ℕ → ℕ} (hpivot : ∀ size, pivot (size + 1) ≤ size)
    {fuel fuel' size : ℕ} (hfuel : size ≤ fuel) (hfuel' : size ≤ fuel') (bound : ℕ) :
    splitsLeft pivot fuel size bound = splitsLeft pivot fuel' size bound := by
  induction fuel generalizing fuel' size bound with
  | zero =>
    obtain rfl : size = 0 := by omega
    cases fuel' with
    | zero => rw [splitsLeft]
    | succ fuel' => rw [splitsLeft, splitsLeft]
  | succ fuel ih =>
    cases size with
    | zero =>
      cases fuel' with
      | zero => rw [splitsLeft, splitsLeft]
      | succ fuel' => rw [splitsLeft, splitsLeft]
    | succ size =>
      have hp := hpivot size
      obtain ⟨rest, rfl⟩ : ∃ rest, fuel' = rest + 1 := ⟨fuel' - 1, by omega⟩
      rw [splitsLeft, splitsLeft, @ih rest (pivot (size + 1)) (by omega) (by omega),
        @ih rest (size - pivot (size + 1)) (by omega) (by omega)]

section Search

variable {pivot : ℕ → ℕ} {holds : ℕ → Bool} {bound : ℕ}

/-- A search with enough fuel ends at the bound. -/
theorem bisect_fst (hpivot : ∀ size, pivot (size + 1) ≤ size) {fuel start size : ℕ}
    (hfuel : size ≤ fuel) (hlow : start ≤ bound) (hhigh : bound ≤ start + size)
    (hholds : ∀ i, start ≤ i → i < start + size → (holds i = true ↔ i < bound)) (last : Option ℕ) :
    (bisect pivot holds fuel start size last).1 = bound := by
  induction fuel generalizing start size last with
  | zero =>
    rw [bisect]
    omega
  | succ fuel ih =>
    cases size with
    | zero =>
      rw [bisect]
      omega
    | succ size =>
      have hp := hpivot size
      have hpoint := hholds (start + pivot (size + 1)) (by omega) (by omega)
      rw [bisect]
      split
      · next hyes =>
        -- the points up to the probed one are below the bound
        have hlt := hpoint.mp hyes
        refine ih (by omega) (by omega) (by omega) (fun i hi hi' => hholds i ?_ ?_) _
        · omega
        · omega
      · next hno =>
        have hge : ¬ start + pivot (size + 1) < bound := fun hlt => hno (hpoint.mpr hlt)
        refine ih (by omega) (by omega) (by omega) (fun i hi hi' => hholds i hi ?_) _
        omega

/-- The last probe of a search over a range that is not empty: the point before the bound if no
point of the range is past it, or if the bound was probed before; else the bound itself. -/
theorem bisect_snd (hpivot : ∀ size, pivot (size + 1) ≤ size) {fuel start size : ℕ}
    (hfuel : size ≤ fuel) (hlow : start ≤ bound) (hhigh : bound ≤ start + size)
    (hholds : ∀ i, start ≤ i → i < start + size → (holds i = true ↔ i < bound)) (last : Option ℕ)
    (hsize : 0 < size) :
    (bisect pivot holds fuel start size last).2 =
      if bound = start + size ∨ splitsLeft pivot fuel size (bound - start) = true then some (bound - 1)
      else some bound := by
  induction fuel generalizing start size last with
  | zero => omega
  | succ fuel ih =>
    cases size with
    | zero => omega
    | succ size =>
      have hp := hpivot size
      have hpoint := hholds (start + pivot (size + 1)) (by omega) (by omega)
      rw [bisect, splitsLeft]
      split
      · next hyes =>
        have hlt := hpoint.mp hyes
        have hne : ¬ bound - start = pivot (size + 1) := by omega
        have hnlt : ¬ bound - start < pivot (size + 1) := by omega
        rw [if_neg hne, if_neg hnlt]
        rcases Nat.eq_zero_or_pos (size - pivot (size + 1)) with hrest | hrest
        · -- nothing is left: the probed point was the last one
          have hbound : bound = start + (size + 1) := by omega
          have hpt : start + pivot (size + 1) = bound - 1 := by omega
          rw [hrest, if_pos (.inl hbound)]
          cases fuel with
          | zero => rw [bisect, hpt]
          | succ fuel => rw [bisect, hpt]
        · have hsub : bound - (start + pivot (size + 1) + 1) = bound - start - (pivot (size + 1) + 1) := by
            omega
          have hend : start + pivot (size + 1) + 1 + (size - pivot (size + 1)) = start + (size + 1) := by
            omega
          rw [ih (by omega) (by omega) (by omega) (fun i hi hi' => hholds i (by omega) (by omega)) _ hrest,
            hsub, hend]
      · next hno =>
        have hge : ¬ start + pivot (size + 1) < bound := fun hlt => hno (hpoint.mpr hlt)
        have hnend : ¬ bound = start + (size + 1) := by omega
        rcases Nat.eq_zero_or_pos (pivot (size + 1)) with hzero | hpos
        · -- the bound is the first point of the range
          have hbound : bound - start = pivot (size + 1) := by omega
          have hpt : start + 0 = bound := by omega
          have hnone : ¬ decide (0 < pivot (size + 1)) = true := by simp [hzero]
          rw [if_pos hbound, if_neg fun h => h.elim hnend hnone, hzero]
          cases fuel with
          | zero => rw [bisect, hpt]
          | succ fuel => rw [bisect, hpt]
        · rw [ih (by omega) hlow (by omega) (fun i hi hi' => hholds i hi (by omega)) _ hpos]
          by_cases heq : bound - start = pivot (size + 1)
          · have hbound : bound = start + pivot (size + 1) := by omega
            rw [if_pos heq, if_pos (.inl hbound), if_pos (.inr (decide_eq_true hpos))]
          · have hlt : bound - start < pivot (size + 1) := by omega
            have hnpt : ¬ bound = start + pivot (size + 1) := by omega
            rw [if_neg heq, if_pos hlt]
            simp only [hnend, hnpt, false_or]

end Search

/-! ## Over integer indices -/

section Indices

variable {S : Type*} {probe : ℤ → S → Bool × S} {keep : Bool} {candidate : ℤ → ℤ} {P : S → Prop}

/-- A search whose probe changes a state. The answer true leads to the right; the candidate of the last
index with the answer `keep` is the result. -/
def searchIdx (probe : ℤ → S → Bool × S) (keep : Bool) (candidate : ℤ → ℤ) :
    ℕ → ℤ → ℤ → ℤ → S → Option (ℤ × S)
  | 0, _, _, _, _ => none
  | fuel + 1, left, right, result, s =>
    if right < left then some (result, s)
    else
      let mid := left + (right - left).tdiv 2
      let answer := probe mid s
      let result := if answer.1 = keep then candidate mid else result
      if answer.1 then searchIdx probe keep candidate fuel (mid + 1) right result answer.2
      else searchIdx probe keep candidate fuel left (mid - 1) result answer.2

/-- The search over `size` indices, of which the first `bound` have the answer true: it ends at the
last one of them or at the first one behind, as `keep` says. -/
theorem searchIdx_eq {fuel size bound : ℕ} {left result : ℤ} {s : S} (hfuel : size < fuel)
    (hbound : bound ≤ size) (hs : P s)
    (hprobe : ∀ i < size, ∀ s, P s →
      ((probe (left + (i : ℕ)) s).1 = true ↔ i < bound) ∧ P (probe (left + (i : ℕ)) s).2) :
    ∃ last, searchIdx probe keep candidate fuel left (left + size - 1) result s =
        some (if keep then (if bound = 0 then result else candidate (left + bound - 1))
          else if bound = size then result else candidate (left + bound), last) ∧ P last := by
  induction fuel generalizing size bound left result s with
  | zero => omega
  | succ fuel ih =>
    rw [searchIdx]
    rcases Nat.eq_zero_or_pos size with rfl | hpos
    · obtain rfl : bound = 0 := by omega
      rw [if_pos (by omega), if_pos rfl, if_pos rfl, ite_self]
      exact ⟨s, rfl, hs⟩
    -- the middle index is the one at `half`
    obtain ⟨half, hhalf, hlt⟩ : ∃ half : ℕ, (left + (size : ℤ) - 1 - left).tdiv 2 = half ∧ half < size := by
      refine ⟨(size - 1) / 2, ?_, by omega⟩
      rw [Int.tdiv_eq_ediv_of_nonneg (by omega)]
      omega
    rcases hprobe half hlt s hs with ⟨hanswer, hP⟩
    rw [if_neg (by omega), hhalf]
    dsimp only
    by_cases hyes : half < bound
    · rw [hanswer.mpr hyes, if_pos rfl]
      have hright : left + (size : ℤ) - 1 = left + half + 1 + (size - half - 1 : ℕ) - 1 := by omega
      have hshift : ∀ i < size - half - 1, ∀ s, P s →
          ((probe (left + half + 1 + (i : ℕ)) s).1 = true ↔ i < bound - half - 1) ∧
            P (probe (left + half + 1 + (i : ℕ)) s).2 := by
        intro i hi s hs
        have h := hprobe (half + 1 + i) (by omega) s hs
        have hidx : left + ((half + 1 + i : ℕ) : ℤ) = left + half + 1 + i := by omega
        rw [hidx] at h
        exact ⟨h.1.trans (by omega), h.2⟩
      rw [hright]
      rcases @ih _ (bound - half - 1) (left + half + 1) (if true = keep then candidate (left + half) else result)
        _ (by omega) (by omega) hP hshift with ⟨last, hrun, hlast⟩
      refine ⟨last, ?_, hlast⟩
      have hbest : left + half + 1 + ((bound - half - 1 : ℕ) : ℤ) = left + bound := by omega
      rw [hrun, hbest]
      cases keep with
      | true =>
        rw [if_pos rfl, if_pos rfl, if_pos rfl, if_neg (by omega : ¬ bound = 0)]
        split
        · next hzero =>
          have hlastYes : left + (half : ℤ) = left + bound - 1 := by omega
          rw [hlastYes]
        · rfl
      | false =>
        have hend : bound - half - 1 = size - half - 1 ↔ bound = size := by omega
        simp only [hend, Bool.false_eq_true, if_false, Bool.true_eq_false]
    · rw [Bool.eq_false_iff.mpr fun h => hyes (hanswer.mp h), if_neg Bool.false_ne_true]
      rcases @ih half bound left (if false = keep then candidate (left + half) else result) _ (by omega)
        (by omega) hP fun i hi => hprobe i (by omega) with ⟨last, hrun, hlast⟩
      refine ⟨last, ?_, hlast⟩
      rw [hrun]
      cases keep with
      | true => simp only [if_true, Bool.false_eq_true, if_false]
      | false =>
        rw [if_neg Bool.false_ne_true, if_neg Bool.false_ne_true, if_pos rfl,
          if_neg (by omega : ¬ bound = size)]
        split
        · next heq => rw [heq]
        · rfl

end Indices

end GraphAutofusion.Lib
