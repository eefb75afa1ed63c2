import Mathlib.Data.List.OfFn
import Mathlib.Algebra.Group.Fin.Basic
import Mathlib.Algebra.GroupWithZero.Nat

/-!
# Lib.Probing — open addressing with linear probing

A table of slots in a ring. A key has a home slot and is looked for from there on, up to an empty slot.
It is found when no slot on the way from its home was empty, which putting a key into the first empty
slot and taking a key out without emptying its slot both keep.
-/

namespace GraphAutofusion.Lib

open List Option

section Walk

variable {n : ℕ} [NeZero n] {p : Fin n → Bool} {start i j : Fin n}

/-- The first slot that a test accepts, from a start once round the table. -/
def firstFrom (p : Fin n → Bool) (start : Fin n) : Option (Fin n) :=
  ((range n).map fun d => start + Fin.ofNat n d).find? p

/-- The number of steps from one slot to another. -/
def stepsTo (start i : Fin n) : ℕ := (i - start).val

omit [NeZero n] in
theorem stepsTo_lt : stepsTo start i < n := (i - start).isLt

theorem add_stepsTo : start + Fin.ofNat n (stepsTo start i) = i := by
  have hval : Fin.ofNat n (stepsTo start i) = i - start := Fin.ext (Nat.mod_eq_of_lt stepsTo_lt)
  rw [hval, add_sub_cancel]

theorem stepsTo_add {d : ℕ} (hd : d < n) : stepsTo start (start + Fin.ofNat n d) = d := by
  rw [stepsTo, add_sub_cancel_left]
  exact Nat.mod_eq_of_lt hd

theorem stepsTo_inj (h : stepsTo start i = stepsTo start j) : i = j := by
  calc i = start + Fin.ofNat n (stepsTo start i) := add_stepsTo.symm
    _ = start + Fin.ofNat n (stepsTo start j) := by rw [h]
    _ = j := add_stepsTo

theorem add_ofNat_succ (d : ℕ) : start + Fin.ofNat n d + 1 = start + Fin.ofNat n (d + 1) := by
  rw [add_assoc]
  congr 1
  apply Fin.ext
  rw [Fin.val_add, Fin.val_ofNat, Fin.val_ofNat, Fin.val_one', ← Nat.add_mod]

/-- A slot after all those before it were refused. -/
theorem firstFrom_eq_some (h : firstFrom p start = some i) :
    p i = true ∧ ∀ j, stepsTo start j < stepsTo start i → p j = false := by
  rw [firstFrom, find?_map, map_eq_some_iff] at h
  rcases h with ⟨d, hfind, rfl⟩
  rw [find?_range_eq_some] at hfind
  rcases hfind with ⟨hp, hd, hbefore⟩
  refine ⟨hp, fun j hj => ?_⟩
  rw [stepsTo_add (mem_range.mp hd)] at hj
  have hnot := hbefore _ hj
  rw [Function.comp_apply, add_stepsTo] at hnot
  simpa using hnot

theorem firstFrom_eq_none : firstFrom p start = none ↔ ∀ i, p i = false := by
  rw [firstFrom, find?_eq_none]
  constructor
  · intro h i
    have hmem : i ∈ (range n).map fun d => start + Fin.ofNat n d :=
      mem_map.mpr ⟨stepsTo start i, mem_range.mpr stepsTo_lt, add_stepsTo⟩
    simpa using h i hmem
  · intro h i _
    rw [h i]
    exact Bool.false_ne_true

/-- The same search as a loop: it takes one step at a time and stops back at the start. -/
def walkFrom (p : Fin n → Bool) (start : Fin n) : ℕ → Fin n → Option (Option (Fin n))
  | 0, _ => none
  | fuel + 1, i =>
    if p i then some (some i)
    else if i + 1 = start then some none
    else walkFrom p start fuel (i + 1)

/-- The loop ends once round the table. -/
theorem walkFrom_eq (p : Fin n → Bool) (start : Fin n) :
    walkFrom p start n start = some (firstFrom p start) := by
  have hloop : ∀ k d, d + (k + 1) = n → walkFrom p start (k + 1) (start + Fin.ofNat n d) =
      some (((range' d (k + 1)).map fun d => start + Fin.ofNat n d).find? p) := by
    intro k
    induction k with
    | zero =>
      intro d hd
      -- the last slot before the start
      have hround : start + Fin.ofNat n d + 1 = start := by
        rw [add_ofNat_succ, hd]
        simp
      rw [walkFrom, range'_one, map_singleton, find?_singleton, if_pos hround]
      split <;> rfl
    | succ k ih =>
      intro d hd
      have hnext : start + Fin.ofNat n d + 1 ≠ start := by
        rw [add_ofNat_succ]
        intro heq
        have hzero := congrArg Fin.val (add_eq_left.mp heq)
        rw [Fin.val_ofNat, Nat.mod_eq_of_lt (by omega)] at hzero
        exact Nat.succ_ne_zero d hzero
      rw [walkFrom, range'_succ, map_cons, find?_cons, if_neg hnext, add_ofNat_succ,
        ih (d + 1) (by omega)]
      cases p (start + Fin.ofNat n d) <;> rfl
  cases n with
  | zero => exact start.elim0
  | succ k =>
    have hstart : start + Fin.ofNat (k + 1) 0 = start := add_zero start
    have hall := hloop k 0 (Nat.zero_add _)
    rw [hstart] at hall
    rw [hall, firstFrom, range_eq_range']

end Walk

/-! ## Keys in the slots -/

section Table

variable {n : ℕ} [NeZero n] {κ : Type} [DecidableEq κ]

/-- No key has two slots, and no slot between a key and its home is empty. -/
structure Probed (home : κ → Fin n) (empty : Fin n → Bool) (keyAt : Fin n → Option κ) : Prop where
  full : ∀ i k, keyAt i = some k → empty i = false
  unique : ∀ i j k, keyAt i = some k → keyAt j = some k → i = j
  reach : ∀ i k, keyAt i = some k → ∀ j, stepsTo (home k) j < stepsTo (home k) i → empty j = false

variable {home : κ → Fin n} {empty empty' : Fin n → Bool} {keyAt keyAt' : Fin n → Option κ} {i : Fin n} {k : κ}

/-- What the search for a key stops at. -/
def stopsAt (empty : Fin n → Bool) (keyAt : Fin n → Option κ) (k : κ) (i : Fin n) : Bool :=
  empty i || decide (keyAt i = some k)

theorem Probed.lookup_eq_some (h : Probed home empty keyAt) (hi : keyAt i = some k) :
    firstFrom (stopsAt empty keyAt k) (home k) = some i := by
  cases hfind : firstFrom (stopsAt empty keyAt k) (home k) with
  | none =>
    have hstop := firstFrom_eq_none.mp hfind i
    rw [stopsAt, decide_eq_true hi, Bool.or_true] at hstop
    cases hstop
  | some j =>
    rcases firstFrom_eq_some hfind with ⟨hstop, hbefore⟩
    rcases Nat.lt_trichotomy (stepsTo (home k) i) (stepsTo (home k) j) with hlt | heq | hgt
    · -- the search would have stopped at the key
      have hno := hbefore i hlt
      rw [stopsAt, decide_eq_true hi, Bool.or_true] at hno
      cases hno
    · rw [stepsTo_inj heq]
    · -- it stops before the key at the key only
      rw [stopsAt, h.reach i k hi j hgt, Bool.false_or, decide_eq_true_iff] at hstop
      rw [h.unique i j k hi hstop]

/-- A key that is in no slot is not found. -/
theorem lookup_eq_empty (hk : ∀ i, keyAt i ≠ some k) {j : Fin n}
    (hfind : firstFrom (stopsAt empty keyAt k) (home k) = some j) : empty j = true := by
  have hstop := (firstFrom_eq_some hfind).1
  rwa [stopsAt, decide_eq_false (hk j), Bool.or_false] at hstop

omit [DecidableEq κ] in
/-- A new key goes into the first empty slot from its home on. -/
theorem Probed.insert (h : Probed home empty keyAt) (hk : ∀ i, keyAt i ≠ some k)
    (hi : firstFrom empty (home k) = some i) (hempty : ∀ j, empty' j = if j = i then false else empty j)
    (hkey : ∀ j, keyAt' j = if j = i then some k else keyAt j) : Probed home empty' keyAt' where
  full j k' hj := by
    rw [hkey] at hj
    rw [hempty]
    split at hj
    · next heq => rw [if_pos heq]
    · next hne =>
      rw [if_neg hne]
      exact h.full j k' hj
  unique j j' k' hj hj' := by
    rw [hkey] at hj hj'
    split at hj
    · next heq =>
      split at hj'
      · next heq' => rw [heq, heq']
      · exact absurd (hj.symm ▸ hj' : keyAt j' = some k) (hk j')
    · split at hj'
      · exact absurd (hj'.symm ▸ hj : keyAt j = some k) (hk j)
      · exact h.unique j j' k' hj hj'
  reach j k' hj j' hj' := by
    rw [hkey] at hj
    rw [hempty]
    split
    · rfl
    · split at hj
      · next heq =>
        -- all slots before the first empty one are not empty
        obtain rfl := some.inj hj
        exact (firstFrom_eq_some hi).2 j' (heq ▸ hj')
      · exact h.reach j k' hj j' hj'

omit [NeZero n] [DecidableEq κ] in
/-- A slot may lose its key without getting empty. -/
theorem Probed.mono (h : Probed home empty keyAt) (hempty : ∀ j, empty' j = empty j)
    (hkey : ∀ j k, keyAt' j = some k → keyAt j = some k) : Probed home empty' keyAt' where
  full j k hj := by
    rw [hempty]
    exact h.full j k (hkey j k hj)
  unique i j k hi hj := h.unique i j k (hkey i k hi) (hkey j k hj)
  reach j k hj j' hj' := by
    rw [hempty]
    exact h.reach j k (hkey j k hj) j' hj'

omit [NeZero n] [DecidableEq κ] in
theorem probed_of_no_keys (hkey : ∀ j, keyAt j = none) : Probed home empty keyAt where
  full j _ hj := (some_ne_none _ ((hkey j).symm.trans hj).symm).elim
  unique i _ _ hi := (some_ne_none _ ((hkey i).symm.trans hi).symm).elim
  reach j _ hj := (some_ne_none _ ((hkey j).symm.trans hj).symm).elim

end Table

end GraphAutofusion.Lib
