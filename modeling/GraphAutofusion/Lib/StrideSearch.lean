import Mathlib.Algebra.Order.Ring.Int

/-!
# Lib.StrideSearch — a binary search whose ends move by a stride

The search asks at the middle of two ends, which are integers, and moves one end past the middle by a
stride. The middle is not rounded to the stride. The test may change a state, and is a predicate as
long as the state agrees with the one at the start.
-/

namespace GraphAutofusion.Lib

variable {σ : Type*}

/-- Where a search ends, and the points it asked at. -/
structure StrideResult (σ : Type*) where
  left : ℤ
  right : ℤ
  state : σ
  probes : List ℤ

def strideSearch (stride : ℤ) (test : ℤ → σ → Bool × σ) :
    ℕ → ℤ → ℤ → σ → List ℤ → Option (StrideResult σ)
  | 0, _, _, _, _ => none
  | fuel + 1, left, right, s, probes =>
    if left ≤ right then
      let mid := left + (right - left).tdiv 2
      let tested := test mid s
      if tested.1 then strideSearch stride test fuel (mid + stride) right tested.2 (probes ++ [mid])
      else strideSearch stride test fuel left (mid - stride) tested.2 (probes ++ [mid])
    else some ⟨left, right, s, probes⟩

section Rules

variable {stride lower upper left right : ℤ} {test : ℤ → σ → Bool × σ} {holds : ℤ → Bool}
  {agree : σ → Prop} {s : σ} {probes : List ℤ}

/-- What holds between the rounds of a search over the points from `lower` to `upper`. -/
structure StrideInv (stride lower upper : ℤ) (holds : ℤ → Bool) (agree : σ → Prop)
    (r : StrideResult σ) : Prop where
  lower_le : lower ≤ r.left
  le_upper : r.right ≤ upper
  gap : r.left ≤ r.right + stride
  below : r.left = lower ∨ holds (r.left - stride) = true
  above : r.right = upper ∨ holds (r.right + stride) = false
  agrees : agree r.state
  probes : ∀ m ∈ r.probes, lower ≤ m ∧ m ≤ upper

/-- The search ends with its ends at most a stride apart, on the two sides of a change. -/
theorem strideSearch_ends (hstride : 0 < stride)
    (htest : ∀ m s, lower ≤ m → m ≤ upper → agree s → (test m s).1 = holds m ∧ agree (test m s).2)
    (h : StrideInv stride lower upper holds agree ⟨left, right, s, probes⟩) :
    ∃ r, StrideInv stride lower upper holds agree r ∧ r.right < r.left ∧
      ∀ fuel, (right - left + 1).toNat < fuel →
        strideSearch stride test fuel left right s probes = some r := by
  induction hsize : (right - left + 1).toNat using Nat.strongRecOn
    generalizing left right s probes with
  | ind size ih =>
    subst hsize
    by_cases hgo : left ≤ right
    · have hlow : lower ≤ left := h.lower_le
      have hup : right ≤ upper := h.le_upper
      have hmid : (right - left).tdiv 2 = (right - left) / 2 :=
        Int.tdiv_eq_ediv_of_nonneg (by omega)
      generalize hm : left + (right - left).tdiv 2 = mid
      rw [hmid] at hm
      have hmlow : left ≤ mid := by omega
      have hmup : mid ≤ right := by omega
      obtain ⟨hval, hagree⟩ := htest mid s (by omega) (by omega) h.agrees
      have hprobes : ∀ p ∈ probes ++ [mid], lower ≤ p ∧ p ≤ upper := fun p hp => by
        rcases List.mem_append.mp hp with hp | hp
        · exact h.probes p hp
        · obtain rfl := List.mem_singleton.mp hp
          exact ⟨by omega, by omega⟩
      have hround : ∀ fuel, strideSearch stride test (fuel + 1) left right s probes =
          if holds mid then
            strideSearch stride test fuel (mid + stride) right (test mid s).2 (probes ++ [mid])
          else strideSearch stride test fuel left (mid - stride) (test mid s).2
            (probes ++ [mid]) := fun fuel => by
        rw [strideSearch, if_pos hgo]
        dsimp only
        rw [hmid, hm, hval]
      by_cases hyes : holds mid = true
      · obtain ⟨r, hr, hend, hrun⟩ := @ih _ (by omega) (mid + stride) right (test mid s).2
          (probes ++ [mid]) ⟨by show lower ≤ mid + stride; omega, hup,
            by show mid + stride ≤ right + stride; omega,
            .inr (by rw [Int.add_sub_cancel]; exact hyes), h.above, hagree, hprobes⟩ rfl
        refine ⟨r, hr, hend, fun fuel hfuel => ?_⟩
        obtain ⟨rest, rfl⟩ : ∃ rest, fuel = rest + 1 := ⟨fuel - 1, by omega⟩
        rw [hround, if_pos hyes]
        exact hrun rest (by omega)
      · obtain ⟨r, hr, hend, hrun⟩ := @ih _ (by omega) left (mid - stride) (test mid s).2
          (probes ++ [mid]) ⟨hlow, by show mid - stride ≤ upper; omega,
            by show left ≤ mid - stride + stride; omega, h.below,
            .inr (by rw [Int.sub_add_cancel]; exact Bool.eq_false_iff.mpr hyes), hagree, hprobes⟩
          rfl
        refine ⟨r, hr, hend, fun fuel hfuel => ?_⟩
        obtain ⟨rest, rfl⟩ : ∃ rest, fuel = rest + 1 := ⟨fuel - 1, by omega⟩
        rw [hround, if_neg hyes]
        exact hrun rest (by omega)
    · refine ⟨_, h, by show right < left; omega, fun fuel hfuel => ?_⟩
      obtain ⟨rest, rfl⟩ : ∃ rest, fuel = rest + 1 := ⟨fuel - 1, by omega⟩
      rw [strideSearch, if_neg hgo]

/-- Over one point less than a power of two, the middle is always one of the points, and the ends come
to be adjacent ones. -/
theorem strideSearch_grid {levels fuel : ℕ} {r : StrideResult σ}
    (hspan : right - left + 2 * stride = 2 ^ levels * stride) (hstride : 0 < stride)
    (hleft : stride ∣ left) (hprobes : ∀ m ∈ probes, stride ∣ m)
    (hrun : strideSearch stride test fuel left right s probes = some r) :
    r.left = r.right + stride ∧ ∀ m ∈ r.probes, stride ∣ m := by
  induction levels generalizing fuel left right s probes with
  | zero =>
    rw [pow_zero, one_mul] at hspan
    cases fuel with
    | zero => cases hrun
    | succ fuel =>
      rw [strideSearch, if_neg (by omega)] at hrun
      obtain rfl := Option.some.inj hrun
      exact ⟨by show left = right + stride; omega, hprobes⟩
  | succ levels ih =>
    cases fuel with
    | zero => cases hrun
    | succ fuel =>
      have hdouble : (2 : ℤ) ^ (levels + 1) * stride = 2 * (2 ^ levels * stride) := by
        rw [pow_succ, mul_comm (2 ^ levels) 2, mul_assoc]
      have hpos : stride ≤ 2 ^ levels * stride := by
        have hone : (1 : ℤ) ≤ 2 ^ levels := Int.add_one_le_iff.mpr (pow_pos (by decide) levels)
        have hle := mul_le_mul_of_nonneg_right hone (le_of_lt hstride)
        rwa [one_mul] at hle
      rw [hdouble] at hspan
      have hmid : (right - left).tdiv 2 = 2 ^ levels * stride - stride := by
        rw [Int.tdiv_eq_ediv_of_nonneg (by omega)]
        omega
      have hdvd : stride ∣ left + (2 ^ levels * stride - stride) :=
        Int.dvd_add hleft (Int.dvd_sub (dvd_mul_left _ _) (dvd_refl stride))
      have hprobes' : ∀ m ∈ probes ++ [left + (2 ^ levels * stride - stride)], stride ∣ m := by
        intro m hm
        rcases List.mem_append.mp hm with hm | hm
        · exact hprobes m hm
        · exact List.mem_singleton.mp hm ▸ hdvd
      rw [strideSearch, if_pos (by omega)] at hrun
      dsimp only at hrun
      rw [hmid] at hrun
      split at hrun
      · refine ih ?_ ?_ hprobes' hrun
        · omega
        · exact Int.dvd_add hdvd (dvd_refl stride)
      · refine ih ?_ hleft hprobes' hrun
        omega

end Rules

end GraphAutofusion.Lib
