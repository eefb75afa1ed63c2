import Mathlib.Data.List.Nodup

/-!
# Lib.Embeddings — increasing maps between two rows of places

A row of `n` places is mapped into a row of `bound` places. The map is increasing, a place goes only
to a place it matches, and the places left out may be skipped. The maps are listed in the order of a
search that tries to match before it skips.
-/

namespace GraphAutofusion.Lib

open List

variable (n bound : ℕ) (ok : ℕ → ℕ → Bool) (free : ℕ → Bool)

/-- A map of the places from `i` on into the last `left` ones. -/
structure EmbedsFrom (left i : ℕ) (m : List ℕ) : Prop where
  length : m.length + i = n
  increasing : m.Pairwise (· < ·)
  range : ∀ t ∈ m, bound - left ≤ t ∧ t < bound
  matched : ∀ (k : ℕ) (h : k < m.length), ok (i + k) m[k] = true
  skipped : ∀ t, bound - left ≤ t → t < bound → t ∉ m → free t = true

/-- All of them. -/
def embeddings : ℕ → ℕ → List (List ℕ)
  | 0, i => if i = n then [[]] else []
  | left + 1, i =>
    let t := bound - (left + 1)
    (if i < n ∧ ok i t = true then (embeddings left (i + 1)).map (t :: ·) else []) ++
      (if free t = true then embeddings left i else [])

variable {n bound ok free} {left i t : ℕ} {m : List ℕ}

theorem embedsFrom_zero : EmbedsFrom n bound ok free 0 i m ↔ i = n ∧ m = [] := by
  constructor
  · intro h
    have hm : m = [] := by
      rw [eq_nil_iff_forall_not_mem]
      intro t ht
      have := h.range t ht
      omega
    have hlen := h.length
    rw [hm, length_nil, Nat.zero_add] at hlen
    exact ⟨hlen, hm⟩
  · rintro ⟨rfl, rfl⟩
    refine ⟨Nat.zero_add i, .nil, fun t ht => absurd ht not_mem_nil,
      fun k hk => absurd hk (Nat.not_lt_zero k), fun t hlow hhigh => ?_⟩
    omega

theorem EmbedsFrom.leave (h : EmbedsFrom n bound ok free left i m)
    (hfree : free (bound - (left + 1)) = true) (hleft : left < bound) :
    EmbedsFrom n bound ok free (left + 1) i m := by
  refine ⟨h.length, h.increasing, fun t ht => ?_, h.matched, fun t hlow hhigh hnot => ?_⟩
  · have := h.range t ht
    omega
  · by_cases heq : t = bound - (left + 1)
    · rw [heq, hfree]
    · exact h.skipped t (by omega) hhigh hnot

theorem EmbedsFrom.cons (h : EmbedsFrom n bound ok free left (i + 1) m)
    (hok : ok i (bound - (left + 1)) = true) (hleft : left < bound) :
    EmbedsFrom n bound ok free (left + 1) i ((bound - (left + 1)) :: m) := by
  refine ⟨?_, pairwise_cons.mpr ⟨fun t ht => ?_, h.increasing⟩, fun t ht => ?_, fun k hk => ?_,
    fun t hlow hhigh hnot => ?_⟩
  · have := h.length
    rw [length_cons]
    omega
  · have := h.range t ht
    omega
  · rcases mem_cons.mp ht with rfl | ht
    · omega
    · have := h.range t ht
      omega
  · cases k with
    | zero => exact hok
    | succ k =>
      have hmatch := h.matched k (Nat.lt_of_succ_lt_succ hk)
      rwa [Nat.add_assoc, Nat.add_comm 1 k] at hmatch
  · rw [mem_cons, not_or] at hnot
    exact h.skipped t (by omega) hhigh hnot.2

/-- The first place is matched or skipped. -/
theorem EmbedsFrom.uncons (h : EmbedsFrom n bound ok free (left + 1) i m) (hleft : left < bound) :
    (∃ m', m = (bound - (left + 1)) :: m' ∧ i < n ∧ ok i (bound - (left + 1)) = true ∧
      EmbedsFrom n bound ok free left (i + 1) m') ∨
    (free (bound - (left + 1)) = true ∧ EmbedsFrom n bound ok free left i m) := by
  by_cases hmem : bound - (left + 1) ∈ m
  · cases m with
    | nil => exact absurd hmem not_mem_nil
    | cons x m =>
      rcases pairwise_cons.mp h.increasing with ⟨hlt, hincreasing⟩
      have hx := h.range x mem_cons_self
      -- the least place the map may use is its first one
      have heq : x = bound - (left + 1) := by
        rcases mem_cons.mp hmem with heq | hmem
        · exact heq.symm
        · have := hlt _ hmem
          omega
      have hlen := h.length
      rw [length_cons] at hlen
      refine .inl ⟨m, by rw [heq], by omega, heq ▸ h.matched 0 (Nat.succ_pos _), ?_⟩
      refine ⟨by omega, hincreasing, fun t ht => ?_, fun k hk => ?_, fun t hlow hhigh hnot => ?_⟩
      · have hrange := h.range t (mem_cons_of_mem _ ht)
        have := hlt t ht
        omega
      · have hmatch := h.matched (k + 1) (Nat.succ_lt_succ hk)
        rw [show i + 1 + k = i + (k + 1) by omega]
        exact hmatch
      · refine h.skipped t (by omega) hhigh fun ht => ?_
        rcases mem_cons.mp ht with rfl | ht
        · omega
        · exact hnot ht
  · refine .inr ⟨h.skipped _ (Nat.le_refl _) (by omega) hmem, h.length, h.increasing, fun t ht => ?_,
      h.matched, fun t hlow hhigh hnot => h.skipped t (by omega) hhigh hnot⟩
    have hrange := h.range t ht
    have hne : t ≠ bound - (left + 1) := fun heq => hmem (heq ▸ ht)
    omega

theorem mem_embeddings (hleft : left ≤ bound) :
    m ∈ embeddings n bound ok free left i ↔ EmbedsFrom n bound ok free left i m := by
  induction left generalizing i m with
  | zero =>
    rw [embedsFrom_zero, embeddings]
    by_cases hi : i = n
    · rw [if_pos hi, mem_singleton, and_iff_right hi]
    · rw [if_neg hi]
      exact iff_of_false not_mem_nil fun h => hi h.1
  | succ left ih =>
    rw [embeddings, mem_append, mem_ite_nil_right, mem_ite_nil_right, mem_map]
    constructor
    · rintro (⟨⟨-, hok⟩, m', hm', rfl⟩ | ⟨hfree, hm⟩)
      · exact ((ih (by omega)).mp hm').cons hok hleft
      · exact ((ih (by omega)).mp hm).leave hfree hleft
    · intro h
      rcases h.uncons hleft with ⟨m', rfl, hi, hok, hm'⟩ | ⟨hfree, hm⟩
      · exact .inl ⟨⟨hi, hok⟩, m', (ih (by omega)).mpr hm', rfl⟩
      · exact .inr ⟨hfree, (ih (by omega)).mpr hm⟩

theorem nodup_embeddings (hleft : left ≤ bound) : (embeddings n bound ok free left i).Nodup := by
  induction left generalizing i with
  | zero =>
    rw [embeddings]
    by_cases hi : i = n
    · rw [if_pos hi]
      exact nodup_singleton []
    · rw [if_neg hi]
      exact nodup_nil
  | succ left ih =>
    have hmap : ((embeddings n bound ok free left (i + 1)).map ((bound - (left + 1)) :: ·)).Nodup :=
      (ih (by omega)).map fun a b hab => (List.cons.inj hab).2
    rw [embeddings, nodup_append']
    refine ⟨?_, ?_, ?_⟩
    · by_cases hi : i < n ∧ ok i (bound - (left + 1)) = true
      · rwa [if_pos hi]
      · rw [if_neg hi]
        exact nodup_nil
    · by_cases hfree : free (bound - (left + 1)) = true
      · rw [if_pos hfree]
        exact ih (by omega)
      · rw [if_neg hfree]
        exact nodup_nil
    · intro m hm hm'
      rw [mem_ite_nil_right, mem_map] at hm
      rw [mem_ite_nil_right] at hm'
      rcases hm with ⟨-, m', -, rfl⟩
      -- maps that skip the place do not use it
      have hrange := ((mem_embeddings (by omega)).mp hm'.2).range _ mem_cons_self
      omega

/-- Too few places are left. -/
theorem embeddings_eq_nil (h : left + i < n) : embeddings n bound ok free left i = [] := by
  induction left generalizing i with
  | zero => exact if_neg (by omega)
  | succ left ih =>
    have hmatch := ih (i := i + 1) (by omega)
    have hleave := ih (i := i) (by omega)
    rw [embeddings, hmatch, hleave, map_nil, ite_self, ite_self]
    rfl

/-- All places are mapped, the others have to be free. -/
theorem embeddings_self (hleft : left ≤ bound) : embeddings n bound ok free left n =
    if (range' (bound - left) left).all free = true then [[]] else [] := by
  induction left with
  | zero => exact (if_pos rfl).trans (if_pos rfl).symm
  | succ left ih =>
    have hnext : bound - (left + 1) + 1 = bound - left := by omega
    rw [embeddings, ih (by omega), if_neg fun h => Nat.lt_irrefl n h.1, nil_append,
      range'_succ, all_cons, hnext]
    by_cases hfree : free (bound - (left + 1)) = true
    · rw [if_pos hfree, hfree, Bool.true_and]
    · rw [if_neg hfree, eq_false_of_ne_true hfree, Bool.false_and]
      rfl

end GraphAutofusion.Lib
