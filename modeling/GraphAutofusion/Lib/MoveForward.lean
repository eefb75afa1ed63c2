import Mathlib.Data.Finset.Max
import Mathlib.Order.Interval.Finset.Nat

/-!
# Lib.MoveForward — moving places of a row to the front

Some places behind the first one are moved right behind it, in the order in which they were written
down; the others move back and keep their order. A place written down twice takes a number for each
time. The result is a row again exactly when nothing new was written down after a repetition.
-/

namespace GraphAutofusion.Lib

open List

variable (first : ℕ) (seq : List ℕ)

/-- The number of moved places that come later. -/
def movedAfter (x : ℕ) : ℕ := (seq.toFinset.filter (x < ·)).card

def newPlace (x : ℕ) : ℕ :=
  if x ≤ first then x
  else if x ∈ seq then first + seq.idxOf x + 1
  else x + movedAfter seq x

/-- Nothing new stands behind a repetition. -/
def RepeatsLast : Prop := ∀ v ∈ seq, (seq.take (seq.idxOf v)).Nodup

variable {first seq} {n u v x : ℕ}

theorem newPlace_of_le (h : x ≤ first) : newPlace first seq x = x := if_pos h

theorem newPlace_nil (first x : ℕ) : newPlace first [] x = x := by
  by_cases h : x ≤ first
  · exact if_pos h
  · rw [newPlace, if_neg h, if_neg not_mem_nil]
    rfl

theorem newPlace_of_mem (h : first < x) (hx : x ∈ seq) :
    newPlace first seq x = first + seq.idxOf x + 1 := by
  rw [newPlace, if_neg (not_le.mpr h), if_pos hx]

theorem newPlace_of_notMem (h : first < x) (hx : x ∉ seq) :
    newPlace first seq x = x + movedAfter seq x := by
  rw [newPlace, if_neg (not_le.mpr h), if_neg hx]

/-- Between two places that stay lie enough others. -/
theorem movedAfter_le (u : ℕ) (hv : v ∉ seq) :
    movedAfter seq u ≤ movedAfter seq v + (v - u - 1) := by
  have hsub : seq.toFinset.filter (u < ·) ⊆ seq.toFinset.filter (v < ·) ∪ Finset.Ioo u v := by
    intro x hx
    rw [Finset.mem_filter, mem_toFinset] at hx
    rw [Finset.mem_union, Finset.mem_filter, mem_toFinset, Finset.mem_Ioo]
    have hne : x ≠ v := fun heq => hv (heq ▸ hx.1)
    by_cases hlt : v < x
    · exact .inl ⟨hx.1, hlt⟩
    · exact .inr ⟨hx.2, by omega⟩
  calc movedAfter seq u ≤ (seq.toFinset.filter (v < ·) ∪ Finset.Ioo u v).card :=
        Finset.card_le_card hsub
    _ ≤ movedAfter seq v + (Finset.Ioo u v).card := Finset.card_union_le _ _
    _ = movedAfter seq v + (v - u - 1) := by rw [Nat.card_Ioo]

theorem movedAfter_add_le (hbound : ∀ v ∈ seq, v < n) (hx : x < n) : x + movedAfter seq x < n := by
  have hsub : seq.toFinset.filter (x < ·) ⊆ Finset.Ioo x n := by
    intro y hy
    rw [Finset.mem_filter, mem_toFinset] at hy
    rw [Finset.mem_Ioo]
    exact ⟨hy.2, hbound y hy.1⟩
  have hcard := Finset.card_le_card hsub
  rw [Nat.card_Ioo] at hcard
  unfold movedAfter
  omega

theorem movedAfter_succ_of_notMem (h : x + 1 ∉ seq) : movedAfter seq x = movedAfter seq (x + 1) := by
  unfold movedAfter
  congr 1
  apply Finset.filter_congr
  intro v hv
  have hne : v ≠ x + 1 := fun heq => h (heq ▸ mem_toFinset.mp hv)
  omega

theorem movedAfter_succ_of_mem (h : x + 1 ∈ seq) :
    movedAfter seq x = movedAfter seq (x + 1) + 1 := by
  have hinsert : seq.toFinset.filter (x < ·)
      = insert (x + 1) (seq.toFinset.filter (x + 1 < ·)) := by
    apply Finset.ext
    intro v
    rw [Finset.mem_insert, Finset.mem_filter, Finset.mem_filter, mem_toFinset]
    constructor
    · rintro ⟨hv, hlt⟩
      by_cases heq : v = x + 1
      · exact .inl heq
      · exact .inr ⟨hv, by omega⟩
    · rintro (rfl | ⟨hv, hlt⟩)
      · exact ⟨h, by omega⟩
      · exact ⟨hv, by omega⟩
  rw [movedAfter, hinsert, Finset.card_insert_of_notMem]
  · rfl
  · intro hmem
    exact lt_irrefl _ (Finset.mem_filter.mp hmem).2

theorem movedAfter_eq_zero (h : ∀ v ∈ seq, v ≤ x) : movedAfter seq x = 0 := by
  rw [movedAfter, Finset.card_eq_zero, Finset.filter_eq_empty_iff]
  intro v hv
  exact not_lt.mpr (h v (mem_toFinset.mp hv))

section

variable (hfirst : ∀ v ∈ seq, first < v)
include hfirst

theorem movedAfter_first : movedAfter seq first = seq.toFinset.card := by
  rw [movedAfter, Finset.filter_true_of_mem]
  intro v hv
  exact hfirst v (mem_toFinset.mp hv)

/-- The first number behind the moved places. -/
theorem le_newPlace (hx : first < x) (hnot : x ∉ seq) :
    first + seq.toFinset.card < newPlace first seq x := by
  have hall := movedAfter_first hfirst
  have hle := movedAfter_le first hnot
  rw [newPlace_of_notMem hx hnot]
  omega

/-- The places that stay keep their order. -/
theorem newPlace_lt_of_notMem (huv : u < v) (hu : u ∉ seq)
    (hv : v ∉ seq) : newPlace first seq u < newPlace first seq v := by
  by_cases hlow : v ≤ first
  · rw [newPlace_of_le hlow, newPlace_of_le (by omega)]
    exact huv
  · have hhigh := le_newPlace hfirst (not_le.mp hlow) hv
    by_cases hlow' : u ≤ first
    · rw [newPlace_of_le hlow']
      omega
    · have hle := movedAfter_le u hv
      rw [newPlace_of_notMem (not_le.mp hlow') hu, newPlace_of_notMem (not_le.mp hlow) hv]
      omega

end

/-! ## Repetitions -/

theorem card_toFinset_take_lt {i : ℕ} (h : ¬ (seq.take i).Nodup) (hi : i ≤ seq.length) :
    (seq.take i).toFinset.card < i := by
  have hlen : (seq.take i).length = i := length_take_of_le hi
  have hle := toFinset_card_le (seq.take i)
  rw [hlen] at hle
  refine lt_of_le_of_ne hle fun heq => h ?_
  have hcard : (seq.take i : Multiset ℕ).toFinset.card = (seq.take i : Multiset ℕ).card :=
    heq.trans hlen.symm
  exact Multiset.toFinset_card_eq_card_iff_nodup.mp hcard

/-- What was first written down at or before some place. -/
theorem mem_take_idxOf {w : ℕ} (hw : w ∈ seq) (hle : seq.idxOf w ≤ seq.idxOf v) :
    w ∈ insert v (seq.take (seq.idxOf v)).toFinset := by
  rw [Finset.mem_insert, mem_toFinset]
  by_cases heq : seq.idxOf w = seq.idxOf v
  · exact .inl ((idxOf_inj hw).mp heq)
  · exact .inr ((mem_take_iff_idxOf_lt hw).mpr (by omega))

/-- The numbers of the first mentions are the least ones. -/
theorem repeatsLast_iff : RepeatsLast seq ↔ ∀ v ∈ seq, seq.idxOf v < seq.toFinset.card := by
  constructor
  · intro h v hv
    have hlt := idxOf_lt_length_iff.mpr hv
    have hnot : v ∉ (seq.take (seq.idxOf v)).toFinset := by
      rw [mem_toFinset, mem_take_iff_idxOf_lt hv]
      exact lt_irrefl _
    have hsub : insert v (seq.take (seq.idxOf v)).toFinset ⊆ seq.toFinset := by
      intro w hw
      rw [Finset.mem_insert, mem_toFinset] at hw
      rw [mem_toFinset]
      exact hw.elim (fun h => h ▸ hv) mem_of_mem_take
    have hcard := Finset.card_le_card hsub
    rw [Finset.card_insert_of_notMem hnot, toFinset_card_of_nodup (h v hv),
      length_take_of_le hlt.le] at hcard
    exact hcard
  · intro h v hv
    by_contra hdup
    -- the last place that is written down for the first time
    rcases Finset.exists_max_image seq.toFinset seq.idxOf ⟨v, mem_toFinset.mpr hv⟩ with
      ⟨w, hw, hmax⟩
    rw [mem_toFinset] at hw
    have hvw := hmax v (mem_toFinset.mpr hv)
    have hdup' : ¬ (seq.take (seq.idxOf w)).Nodup := fun hnodup =>
      hdup (hnodup.sublist (take_sublist_take_left hvw))
    have hsub : seq.toFinset ⊆ insert w (seq.take (seq.idxOf w)).toFinset := fun x hx =>
      mem_take_idxOf (mem_toFinset.mp hx) (hmax x hx)
    have hcard := (Finset.card_le_card hsub).trans (Finset.card_insert_le _ _)
    have hlt := card_toFinset_take_lt hdup' (idxOf_lt_length_iff.mpr hw).le
    have := h w hw
    omega

/-! ## Rows -/

section

variable (hfirst : ∀ v ∈ seq, first < v)
include hfirst

theorem newPlace_le_card (h : RepeatsLast seq) (hv : v ∈ seq) :
    newPlace first seq v ≤ first + seq.toFinset.card := by
  have := repeatsLast_iff.mp h v hv
  rw [newPlace_of_mem (hfirst v hv) hv]
  omega

theorem newPlace_injective (h : RepeatsLast seq) (huv : u ≠ v) :
    newPlace first seq u ≠ newPlace first seq v := by
  -- a moved place against any other one
  have hmoved : ∀ x y, x ∈ seq → x ≠ y → newPlace first seq x ≠ newPlace first seq y := by
    intro x y hx hne
    have hle := newPlace_le_card hfirst h hx
    have hplace := newPlace_of_mem (hfirst x hx) hx
    by_cases hlow : y ≤ first
    · rw [newPlace_of_le hlow]
      omega
    · by_cases hy : y ∈ seq
      · have hidx : seq.idxOf x ≠ seq.idxOf y := fun heq => hne ((idxOf_inj hx).mp heq)
        rw [hplace, newPlace_of_mem (not_le.mp hlow) hy]
        omega
      · have := le_newPlace hfirst (not_le.mp hlow) hy
        omega
  by_cases hu : u ∈ seq
  · exact hmoved u v hu huv
  · by_cases hv : v ∈ seq
    · exact (hmoved v u hv huv.symm).symm
    · rcases Nat.lt_or_gt_of_ne huv with hlt | hlt
      · exact (newPlace_lt_of_notMem hfirst hlt hu hv).ne
      · exact (newPlace_lt_of_notMem hfirst hlt hv hu).ne'

theorem newPlace_lt (hbound : ∀ v ∈ seq, v < n)
    (h : RepeatsLast seq) (hx : x < n) : newPlace first seq x < n := by
  by_cases hlow : x ≤ first
  · rwa [newPlace_of_le hlow]
  by_cases hmem : x ∈ seq
  · -- the moved places lie between the first one and the end
    have hle := newPlace_le_card hfirst h hmem
    have hsub : seq.toFinset ⊆ Finset.Ioo first n := fun v hv =>
      Finset.mem_Ioo.mpr ⟨hfirst v (mem_toFinset.mp hv), hbound v (mem_toFinset.mp hv)⟩
    have hcard := Finset.card_le_card hsub
    rw [Nat.card_Ioo] at hcard
    have := not_le.mp hlow
    omega
  · rw [newPlace_of_notMem (not_le.mp hlow) hmem]
    exact movedAfter_add_le hbound hx

/-- The places are numbered again without gaps exactly when nothing new stands behind a repetition. -/
theorem perm_newPlace_iff (hbound : ∀ v ∈ seq, v < n) :
    ((range n).map (newPlace first seq)).Perm (range n) ↔ RepeatsLast seq := by
  constructor
  · intro hperm
    have hnodup := hperm.nodup_iff.mpr nodup_range
    have hinj : ∀ x < n, ∀ y < n, newPlace first seq x = newPlace first seq y → x = y := by
      intro x hx y hy heq
      exact inj_on_of_nodup_map hnodup (mem_range.mpr hx) (mem_range.mpr hy) heq
    have hlt : ∀ x < n, newPlace first seq x < n := fun x hx =>
      mem_range.mp (hperm.mem_iff.mp (mem_map_of_mem (mem_range.mpr hx)))
    rw [repeatsLast_iff]
    intro v hv
    by_contra hgap
    -- the places that stay fill all numbers behind the moved ones, and one of these is taken
    have hothers : ((Finset.Ioo first n \ seq.toFinset).image (newPlace first seq))
        = Finset.Ico (first + 1 + seq.toFinset.card) n := by
      apply Finset.eq_of_subset_of_card_le
      · intro y hy
        rcases Finset.mem_image.mp hy with ⟨x, hx, rfl⟩
        rw [Finset.mem_sdiff, Finset.mem_Ioo, mem_toFinset] at hx
        have hlow := le_newPlace hfirst hx.1.1 hx.2
        exact Finset.mem_Ico.mpr ⟨by omega, hlt x hx.1.2⟩
      · have hsub : seq.toFinset ⊆ Finset.Ioo first n := fun v hv => Finset.mem_Ioo.mpr
          ⟨hfirst v (mem_toFinset.mp hv), hbound v (mem_toFinset.mp hv)⟩
        rw [Finset.card_image_of_injOn, Finset.card_sdiff_of_subset hsub, Nat.card_Ioo, Nat.card_Ico]
        · omega
        · intro x hx y hy heq
          rw [Finset.mem_coe, Finset.mem_sdiff, Finset.mem_Ioo] at hx hy
          exact hinj x hx.1.2 y hy.1.2 heq
    have hplace := newPlace_of_mem (hfirst v hv) hv
    have hmem : newPlace first seq v ∈ Finset.Ico (first + 1 + seq.toFinset.card) n :=
      Finset.mem_Ico.mpr ⟨by omega, hlt v (hbound v hv)⟩
    rw [← hothers] at hmem
    rcases Finset.mem_image.mp hmem with ⟨x, hx, heq⟩
    rw [Finset.mem_sdiff, Finset.mem_Ioo, mem_toFinset] at hx
    exact hx.2 (hinj x hx.1.2 v (hbound v hv) heq ▸ hv)
  · intro h
    have hnodup : ((range n).map (newPlace first seq)).Nodup :=
      nodup_range.map_on fun x _ y _ heq => by
        by_contra hne
        exact newPlace_injective hfirst h hne heq
    have hsub : (range n).map (newPlace first seq) ⊆ range n := by
      intro y hy
      rcases mem_map.mp hy with ⟨x, hx, rfl⟩
      exact mem_range.mpr (newPlace_lt hfirst hbound h (mem_range.mp hx))
    exact (hnodup.subperm hsub).perm_of_length_le (by rw [length_map])

/-- A moved place comes behind the places it is to follow when these do not move behind it. -/
theorem newPlace_lt_iff (h : RepeatsLast seq) (huv : u < v) :
    newPlace first seq u < newPlace first seq v ↔
      (v ∈ seq → u ≤ first ∨ seq.idxOf u < seq.idxOf v) := by
  by_cases hv : v ∈ seq
  · rw [imp_iff_right hv]
    have hplace := newPlace_of_mem (hfirst v hv) hv
    by_cases hlow : u ≤ first
    · rw [newPlace_of_le hlow, hplace]
      exact iff_of_true (by omega) (.inl hlow)
    rw [or_iff_right hlow]
    by_cases hu : u ∈ seq
    · rw [hplace, newPlace_of_mem (not_le.mp hlow) hu]
      omega
    · have hle := newPlace_le_card hfirst h hv
      have hlt := le_newPlace hfirst (not_le.mp hlow) hu
      rw [idxOf_eq_length hu]
      have := idxOf_lt_length_iff.mpr hv
      omega
  · refine iff_of_true ?_ fun hmem => absurd hmem hv
    by_cases hu : u ∈ seq
    · have hle := newPlace_le_card hfirst h hu
      have hlt := le_newPlace hfirst ((hfirst u hu).trans huv) hv
      omega
    · exact newPlace_lt_of_notMem hfirst huv hu hv

end

end GraphAutofusion.Lib
