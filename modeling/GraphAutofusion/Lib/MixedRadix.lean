import Mathlib.Algebra.BigOperators.Group.List.Basic
import Mathlib.Data.List.Nodup
import Mathlib.Tactic.Linarith
import Mathlib.Tactic.Ring

/-!
# Lib.MixedRadix — a point of a box as one number

The first coordinate of a list of them counts most. Where a list is reordered, the number of a point stays
for all points only when the coordinates that can move keep their order.
-/

namespace GraphAutofusion.Lib

open List

variable {α : Type*}

def mixedRadix (r idx : α → ℤ) : List α → ℤ
  | [] => 0
  | a :: l => idx a * (l.map r).prod + mixedRadix r idx l

/-- The point lies in the box. -/
def InBox (r idx : α → ℤ) (l : List α) : Prop := ∀ a ∈ l, 0 ≤ idx a ∧ idx a < r a

section Rules

variable {r idx idx' : α → ℤ} {l l' : List α} {a : α} {k : ℤ}

theorem mixedRadix_congr (h : ∀ a ∈ l, idx a = idx' a) : mixedRadix r idx l = mixedRadix r idx' l := by
  induction l with
  | nil => rfl
  | cons a l ih =>
    rw [mixedRadix, mixedRadix, h a mem_cons_self, ih fun b hb => h b (mem_cons_of_mem _ hb)]

theorem prod_pos_of_sizes (h : ∀ a ∈ l, 1 ≤ r a) : 0 < (l.map r).prod := by
  induction l with
  | nil => exact Int.one_pos
  | cons a l ih =>
    rw [map_cons, prod_cons]
    exact mul_pos (h a mem_cons_self) (ih fun b hb => h b (mem_cons_of_mem _ hb))

theorem InBox.size_pos (h : InBox r idx l) : ∀ a ∈ l, 1 ≤ r a := by
  intro a ha
  have ha' := h a ha
  omega

theorem mixedRadix_range (h : InBox r idx l) :
    0 ≤ mixedRadix r idx l ∧ mixedRadix r idx l < (l.map r).prod := by
  induction l with
  | nil => exact ⟨le_refl 0, Int.one_pos⟩
  | cons a l ih =>
    have hrest : InBox r idx l := fun b hb => h b (mem_cons_of_mem _ hb)
    rcases h a mem_cons_self with ⟨hlo, hhi⟩
    rcases ih hrest with ⟨hrlo, hrhi⟩
    have hpos := prod_pos_of_sizes hrest.size_pos
    rw [mixedRadix, map_cons, prod_cons]
    constructor
    · exact Int.add_nonneg (Int.mul_nonneg hlo hpos.le) hrlo
    · calc idx a * (l.map r).prod + mixedRadix r idx l
          < idx a * (l.map r).prod + (l.map r).prod := by linarith only [hrhi]
        _ = (idx a + 1) * (l.map r).prod := by ring
        _ ≤ r a * (l.map r).prod := mul_le_mul_of_nonneg_right hhi hpos.le

/-! ## Coordinates that cannot move -/

theorem prod_filter : ((l.filter fun a => decide (r a ≠ 1)).map r).prod = (l.map r).prod := by
  induction l with
  | nil => rfl
  | cons a l ih =>
    by_cases ha : r a = 1
    · rw [filter_cons_of_neg (by simp [ha]), ih, map_cons, prod_cons, ha, one_mul]
    · rw [filter_cons_of_pos (by simp [ha]), map_cons, prod_cons, ih, map_cons,
        prod_cons]

theorem mixedRadix_filter (h : InBox r idx l) :
    mixedRadix r idx (l.filter fun a => decide (r a ≠ 1)) = mixedRadix r idx l := by
  induction l with
  | nil => rfl
  | cons a l ih =>
    have hrest : InBox r idx l := fun b hb => h b (mem_cons_of_mem _ hb)
    by_cases ha : r a = 1
    · -- the only index is zero
      have hzero : idx a = 0 := by
        have ha' := h a mem_cons_self
        omega
      rw [filter_cons_of_neg (by simp [ha]), ih hrest, mixedRadix, hzero, zero_mul, zero_add]
    · rw [filter_cons_of_pos (by simp [ha]), mixedRadix, mixedRadix, ih hrest, prod_filter]

/-! ## Points on the axes -/

section Single

variable [DecidableEq α]

theorem mixedRadix_single_of_notMem (ha : a ∉ l) : mixedRadix r (Pi.single a 1) l = 0 := by
  induction l with
  | nil => rfl
  | cons b l ih =>
    rw [mem_cons, not_or] at ha
    rw [mixedRadix, ih ha.2, Pi.single_eq_of_ne (Ne.symm ha.1), zero_mul, zero_add]

theorem mixedRadix_single {p q : List α} (hp : a ∉ p) (hq : a ∉ q) :
    mixedRadix r (Pi.single a 1) (p ++ a :: q) = (q.map r).prod := by
  induction p with
  | nil => rw [nil_append, mixedRadix, mixedRadix_single_of_notMem hq, Pi.single_eq_same, one_mul,
      add_zero]
  | cons b p ih =>
    rw [mem_cons, not_or] at hp
    rw [cons_append, mixedRadix, ih hp.2, Pi.single_eq_of_ne (Ne.symm hp.1), zero_mul, zero_add]

omit [DecidableEq α] in
/-- A product of sizes that can move is one for none only. -/
theorem eq_nil_of_prod (h : ∀ a ∈ l, 2 ≤ r a) (hone : (l.map r).prod = 1) : l = [] := by
  cases l with
  | nil => rfl
  | cons a l =>
    rw [map_cons, prod_cons] at hone
    have ha := h a mem_cons_self
    have hpos := prod_pos_of_sizes (r := r) (l := l) fun b hb => by
      have hb' := h b (mem_cons_of_mem _ hb)
      omega
    nlinarith only [hone, ha, hpos]

/-- Two orders of coordinates that can all move give the same numbers only if they are one. -/
theorem eq_of_mixedRadix (hperm : l.Perm l') (hnodup : l.Nodup) (hsize : ∀ a ∈ l, 2 ≤ r a)
    (h : ∀ a ∈ l, mixedRadix r (Pi.single a 1) l = mixedRadix r (Pi.single a 1) l') : l = l' := by
  induction l generalizing l' with
  | nil => exact hperm.nil_eq
  | cons a l ih =>
    have hnodup' := hperm.nodup_iff.mp hnodup
    rcases append_of_mem (hperm.mem_iff.mp mem_cons_self) with ⟨p, q, rfl⟩
    rw [nodup_append, nodup_cons] at hnodup'
    have hp : a ∉ p := fun hmem => hnodup'.2.2 a hmem a mem_cons_self rfl
    rw [nodup_cons] at hnodup
    have hrest : l.Perm (p ++ q) := (perm_cons a).mp (hperm.trans perm_middle)
    -- nothing stands in front of the first coordinate
    have hweight := h a mem_cons_self
    have hself := mixedRadix_single (r := r) (p := []) (not_mem_nil) hnodup.1
    rw [nil_append] at hself
    rw [hself, mixedRadix_single hp hnodup'.2.1.1, (hrest.map r).prod_eq, map_append,
      prod_append] at hweight
    have hq : 0 < (q.map r).prod := prod_pos_of_sizes fun b hb => by
      have hb' := hsize b (mem_cons_of_mem _ (hrest.mem_iff.mpr (mem_append_right _ hb)))
      omega
    have hpnil : p = [] := by
      refine eq_nil_of_prod (r := r) (fun b hb => ?_) ?_
      · exact hsize b (mem_cons_of_mem _ (hrest.mem_iff.mpr (mem_append_left _ hb)))
      · exact Int.eq_of_mul_eq_mul_right hq.ne' (hweight.trans (one_mul _).symm)
    subst hpnil
    rw [nil_append] at hrest ⊢
    refine congrArg (a :: ·) (ih hrest hnodup.2 (fun b hb => hsize b (mem_cons_of_mem _ hb)) ?_)
    intro b hb
    have hb' := h b (mem_cons_of_mem _ hb)
    have hab : a ≠ b := fun heq => hnodup.1 (heq ▸ hb)
    rwa [nil_append, mixedRadix, mixedRadix, Pi.single_eq_of_ne hab, zero_mul, zero_add, zero_mul,
      zero_add] at hb'

/-- A multiple of the number of a point does not depend on the order of the coordinates exactly when it is
zero or those that can move keep their order. -/
theorem mul_mixedRadix_eq_iff (hperm : l.Perm l') (hnodup : l.Nodup) (hsize : ∀ a ∈ l, 1 ≤ r a) :
    (∀ idx, InBox r idx l → k * mixedRadix r idx l = k * mixedRadix r idx l') ↔
      k = 0 ∨ l.filter (fun a => decide (r a ≠ 1)) = l'.filter fun a => decide (r a ≠ 1) := by
  constructor
  · intro h
    by_cases hk : k = 0
    · exact .inl hk
    refine .inr (eq_of_mixedRadix (r := r) (hperm.filter _) (hnodup.filter _) (fun a ha => ?_)
      fun a ha => ?_)
    · have hone := hsize a (mem_filter.mp ha).1
      have hne := of_decide_eq_true (mem_filter.mp ha).2
      omega
    · -- one step along one coordinate
      have hbox : InBox r (Pi.single a 1) l := by
        intro b hb
        by_cases hba : b = a
        · subst hba
          have hone := hsize b hb
          have hne := of_decide_eq_true (mem_filter.mp ha).2
          rw [Pi.single_eq_same]
          omega
        · have hone := hsize b hb
          rw [Pi.single_eq_of_ne hba]
          omega
      have hbox' : InBox r (Pi.single a 1) l' := fun b hb => hbox b (hperm.mem_iff.mpr hb)
      rw [mixedRadix_filter hbox, mixedRadix_filter hbox']
      exact Int.eq_of_mul_eq_mul_left hk (h _ hbox)
  · intro h idx hidx
    rcases h with rfl | heq
    · rw [zero_mul, zero_mul]
    · have hidx' : InBox r idx l' := fun b hb => hidx b (hperm.mem_iff.mpr hb)
      rw [← mixedRadix_filter hidx, heq, mixedRadix_filter hidx']

end Single

end Rules

end GraphAutofusion.Lib
