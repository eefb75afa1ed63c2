import Mathlib.Data.List.Perm.Basic

/-!
# Lib.KeepPositions — erasing positions from the back

Erasing the positions of an ascending list one after the other, the largest first, leaves the members
at all other positions in their order.
-/

namespace GraphAutofusion.Lib

open List

variable {α : Type}

/-- The members at positions that are not listed; the first member has position `k`. -/
def keepPositions (positions : List ℕ) : ℕ → List α → List α
  | _, [] => []
  | k, a :: l =>
    if positions.contains k then keepPositions positions (k + 1) l
    else a :: keepPositions positions (k + 1) l

section Rules

variable {positions : List ℕ} {l : List α} {a : α} {i k : ℕ}

theorem keepPositions_of_mem (h : k ∈ positions) :
    keepPositions positions k (a :: l) = keepPositions positions (k + 1) l := by
  rw [keepPositions, if_pos (contains_iff_mem.mpr h)]

theorem keepPositions_of_not_mem (h : k ∉ positions) :
    keepPositions positions k (a :: l) = a :: keepPositions positions (k + 1) l := by
  rw [keepPositions, if_neg fun hk => h (contains_iff_mem.mp hk)]

/-- Positions in front of the list do not count. -/
theorem keepPositions_cons_of_lt (h : i < k) :
    keepPositions (i :: positions) k l = keepPositions positions k l := by
  induction l generalizing k with
  | nil => rfl
  | cons a l ih =>
    have hmem : k ∈ i :: positions ↔ k ∈ positions := by
      rw [mem_cons]
      exact or_iff_right (by omega)
    by_cases hk : k ∈ positions
    · rw [keepPositions_of_mem hk, keepPositions_of_mem (hmem.mpr hk), ih (by omega)]
    · rw [keepPositions_of_not_mem hk, keepPositions_of_not_mem (mt hmem.mp hk), ih (by omega)]

theorem keepPositions_nil (k : ℕ) (l : List α) : keepPositions [] k l = l := by
  induction l generalizing k with
  | nil => rfl
  | cons a l ih => rw [keepPositions_of_not_mem not_mem_nil, ih]

/-- Erasing a position in front of all that are erased. -/
theorem eraseIdx_keepPositions (hlt : ∀ p ∈ positions, i < p) (hk : k ≤ i) :
    (keepPositions positions k l).eraseIdx (i - k) = keepPositions (i :: positions) k l := by
  induction l generalizing k with
  | nil => rfl
  | cons a l ih =>
    have hnot : k ∉ positions := fun hmem => by
      have := hlt k hmem
      omega
    rw [keepPositions_of_not_mem hnot]
    rcases Nat.eq_or_lt_of_le hk with rfl | hlt'
    · rw [Nat.sub_self, eraseIdx_cons_zero, keepPositions_of_mem mem_cons_self,
        keepPositions_cons_of_lt (Nat.lt_succ_self k)]
    · have hne : k ∉ i :: positions := by
        rw [mem_cons, not_or]
        exact ⟨by omega, hnot⟩
      have hsub : i - k = (i - (k + 1)) + 1 := by omega
      rw [keepPositions_of_not_mem hne, hsub, eraseIdx_cons_succ, ih hlt']

theorem foldl_eraseIdx_reverse (h : positions.Pairwise (· < ·)) (l : List α) :
    positions.reverse.foldl eraseIdx l = keepPositions positions 0 l := by
  induction positions with
  | nil => exact (keepPositions_nil 0 l).symm
  | cons i positions ih =>
    rw [pairwise_cons] at h
    rw [reverse_cons, foldl_append, ih h.2]
    exact eraseIdx_keepPositions h.1 (Nat.zero_le i)

theorem keepPositions_append (k : ℕ) (l l' : List α) :
    keepPositions positions k (l ++ l') =
      keepPositions positions k l ++ keepPositions positions (k + l.length) l' := by
  induction l generalizing k with
  | nil => rfl
  | cons a l ih =>
    have hlength : k + (a :: l).length = k + 1 + l.length := by
      rw [length_cons]
      omega
    rw [cons_append, hlength]
    by_cases hk : k ∈ positions
    · rw [keepPositions_of_mem hk, keepPositions_of_mem hk, ih]
    · rw [keepPositions_of_not_mem hk, keepPositions_of_not_mem hk, ih, cons_append]

theorem keepPositions_of_lt (h : ∀ p : ℕ, p ∈ positions → p < k) : keepPositions positions k l = l := by
  induction l generalizing k with
  | nil => rfl
  | cons a l ih =>
    have hnot : k ∉ positions := fun hmem => Nat.lt_irrefl k (h k hmem)
    rw [keepPositions_of_not_mem hnot, ih fun p hp => Nat.lt_succ_of_lt (h p hp)]

/-- A member that is kept divides what is kept. -/
theorem keepPositions_split (ha : l[i]? = some a) (hi : k + i ∉ positions) :
    keepPositions positions k l = keepPositions positions k (l.take i) ++
      a :: keepPositions positions (k + i + 1) (l.drop (i + 1)) := by
  rcases List.getElem?_eq_some_iff.mp ha with ⟨hlt, hget⟩
  have hl : l = l.take i ++ a :: l.drop (i + 1) := by
    rw [← hget, ← drop_eq_getElem_cons hlt, take_append_drop]
  have hlength : (l.take i).length = i := length_take_of_le (Nat.le_of_lt hlt)
  conv_lhs => rw [hl]
  rw [keepPositions_append, hlength, keepPositions_of_not_mem hi]

theorem exists_keepPositions (ha : l[i]? = some a) (hi : k + i ∉ positions) :
    ∃ p : ℕ, (keepPositions positions k l)[p]? = some a := by
  refine ⟨(keepPositions positions k (l.take i)).length, ?_⟩
  rw [keepPositions_split ha hi, getElem?_append_right (Nat.le_refl _), Nat.sub_self,
    getElem?_cons_zero]

/-- Members that are kept stay in their order. -/
theorem keepPositions_order {b : α} {j : ℕ} (hij : i < j) (ha : l[i]? = some a) (hb : l[j]? = some b)
    (hi : k + i ∉ positions) (hj : k + j ∉ positions) :
    ∃ p q : ℕ, p < q ∧ (keepPositions positions k l)[p]? = some a ∧
      (keepPositions positions k l)[q]? = some b := by
  have hb' : (l.drop (i + 1))[j - (i + 1)]? = some b := by
    rw [getElem?_drop, Nat.add_sub_cancel' hij, hb]
  have hj' : k + i + 1 + (j - (i + 1)) ∉ positions := by
    have heq : k + i + 1 + (j - (i + 1)) = k + j := by omega
    rwa [heq]
  rcases exists_keepPositions hb' hj' with ⟨q, hq⟩
  refine ⟨_, (keepPositions positions k (l.take i)).length + (q + 1), Nat.lt_add_of_pos_right
    (Nat.succ_pos q), ?_, ?_⟩
  · rw [keepPositions_split ha hi, getElem?_append_right (Nat.le_refl _), Nat.sub_self,
      getElem?_cons_zero]
  · rw [keepPositions_split ha hi, getElem?_append_right (Nat.le_add_right _ _),
      Nat.add_sub_cancel_left, getElem?_cons_succ, hq]

/-- Nothing is lost: what is kept and what is listed are the whole list. -/
theorem keepPositions_perm (h : positions.Pairwise (· < ·))
    (hrange : ∀ p : ℕ, p ∈ positions → k ≤ p ∧ p < k + l.length) :
    (keepPositions positions k l ++ positions.filterMap fun p : ℕ => l[p - k]?).Perm l := by
  induction l generalizing k positions with
  | nil =>
    cases positions with
    | nil => exact Perm.refl _
    | cons p positions =>
      have hp := hrange p mem_cons_self
      rw [length_nil] at hp
      omega
  | cons a l ih =>
    have hlater : ∀ ps : List ℕ, (∀ p ∈ ps, k < p) →
        (ps.filterMap fun p : ℕ => (a :: l)[p - k]?) = ps.filterMap fun p : ℕ => l[p - (k + 1)]? := by
      intro ps hps
      refine filterMap_congr fun p hp => ?_
      have hsub : p - k = (p - (k + 1)) + 1 := by
        have := hps p hp
        omega
      rw [hsub, getElem?_cons_succ]
    have hnext : ∀ ps : List ℕ, (∀ p ∈ ps, k < p ∧ p ∈ positions) →
        ∀ p ∈ ps, k + 1 ≤ p ∧ p < k + 1 + l.length := by
      intro ps hps p hp
      have hlt := (hrange p (hps p hp).2).2
      rw [length_cons] at hlt
      exact ⟨(hps p hp).1, by omega⟩
    by_cases hk : k ∈ positions
    · -- the smallest position is that of the first member
      cases positions with
      | nil => cases hk
      | cons p ps =>
        rw [pairwise_cons] at h
        have hpk : p = k := by
          rcases mem_cons.mp hk with heq | hmem
          · exact heq.symm
          · have hlt := h.1 k hmem
            have hle := (hrange p mem_cons_self).1
            omega
        subst hpk
        rw [keepPositions_of_mem mem_cons_self, keepPositions_cons_of_lt (Nat.lt_succ_self p),
          filterMap_cons, Nat.sub_self, getElem?_cons_zero, hlater ps h.1]
        exact perm_middle.trans
          ((ih h.2 (hnext ps fun q hq => ⟨h.1 q hq, mem_cons_of_mem p hq⟩)).cons a)
    · have hgt : ∀ p ∈ positions, k < p := fun p hp => by
        have hle := (hrange p hp).1
        have hne : p ≠ k := fun heq => hk (heq ▸ hp)
        omega
      rw [keepPositions_of_not_mem hk, cons_append, hlater positions hgt]
      exact (ih h (hnext positions fun q hq => ⟨hgt q hq, hq⟩)).cons a

end Rules

end GraphAutofusion.Lib
