import Mathlib.Data.List.TakeDrop
import Mathlib.Data.Bool.Basic
import Mathlib.Algebra.GroupWithZero.Nat

/-!
# GraphMetadef.LargeBitmap — bit maps of more than 64 bits

A bit map is a list of 64-bit words. Its size is checked when a bit is read or set, but the words
are or-ed as a whole, and only as far as the other map has words.
-/

namespace GraphAutofusion.GraphMetadef

open List

def kBitsEachValue : ℕ := 64

def alignBitSize (bitSize : ℕ) : ℕ := bitSize + kBitsEachValue - 1

def alignArraySize (bitSize : ℕ) : ℕ := alignBitSize bitSize / 2 ^ 6

structure LargeBitmap where
  size : ℕ
  bits : List (BitVec 64)
deriving DecidableEq, Repr

namespace LargeBitmap

def ofSize (size : ℕ) : LargeBitmap := { size, bits := replicate (alignArraySize size) 0 }

def setValues (m : LargeBitmap) (value : BitVec 64) : LargeBitmap :=
  { m with bits := m.bits.map fun _ => value }

def setBit (m : LargeBitmap) (index : ℕ) : LargeBitmap :=
  if index < m.size then
    { m with bits := m.bits.modify (index / kBitsEachValue) fun word =>
        word ||| BitVec.twoPow 64 (index % kBitsEachValue) }
  else m

def getBit (m : LargeBitmap) (index : ℕ) : Bool :=
  if index < m.size then
    (m.bits.getD (index / kBitsEachValue) 0).getLsbD (index % kBitsEachValue)
  else false

/-- The size is not checked. -/
def clearBit (m : LargeBitmap) (index : ℕ) : LargeBitmap :=
  { m with bits := m.bits.modify (index / 2 ^ 6) fun word =>
      word &&& ~~~(BitVec.twoPow 64 (index % kBitsEachValue)) }

def resizeBits (m : LargeBitmap) (newSize : ℕ) : LargeBitmap :=
  if newSize < m.size then m
  else
    let newByteSize := alignArraySize newSize
    if newByteSize = alignArraySize m.size then { m with size := newSize }
    else
      let resized := { m with bits := m.bits.takeD newByteSize 0 }
      let cleared := (range' m.size (alignBitSize m.size - m.size)).foldl clearBit resized
      { cleared with size := newSize }

def orWords : List (BitVec 64) → List (BitVec 64) → List (BitVec 64)
  | word :: words, other :: others => (word ||| other) :: orWords words others
  | words, _ => words

def or (m other : LargeBitmap) : LargeBitmap := { m with bits := orWords m.bits other.bits }

/-! ## Bits -/

/-- A bit of the words, whatever the size is. -/
def rawBit (m : LargeBitmap) (index : ℕ) : Bool :=
  (m.bits.getD (index / kBitsEachValue) 0).getLsbD (index % kBitsEachValue)

/-- There are words for all bits. -/
def WellSized (m : LargeBitmap) : Prop := m.bits.length = alignArraySize m.size

variable {m other : LargeBitmap} {i index : ℕ}

theorem getBit_eq : m.getBit i = (decide (i < m.size) && m.rawBit i) := by
  unfold getBit rawBit
  by_cases h : i < m.size
  · simp [h]
  · simp [h]

theorem WellSized.lt (h : m.WellSized) (hi : i < m.size) : i / kBitsEachValue < m.bits.length := by
  unfold WellSized alignArraySize alignBitSize at h
  unfold kBitsEachValue at h ⊢
  omega

@[simp] theorem size_or : (m.or other).size = m.size := rfl

@[simp] theorem size_setBit : (m.setBit index).size = m.size := by
  unfold setBit
  split <;> rfl

theorem length_orWords (words others : List (BitVec 64)) :
    (orWords words others).length = words.length := by
  induction words generalizing others with
  | nil => cases others <;> rfl
  | cons word words ih =>
    cases others with
    | nil => rfl
    | cons other others => rw [orWords, length_cons, ih, length_cons]

theorem WellSized.or (h : m.WellSized) : (m.or other).WellSized := by
  unfold WellSized at h ⊢
  show (orWords m.bits other.bits).length = alignArraySize m.size
  rw [length_orWords, h]

theorem WellSized.setBit (h : m.WellSized) : (m.setBit index).WellSized := by
  unfold WellSized LargeBitmap.setBit at *
  split
  · rw [length_modify, h]
  · exact h

theorem WellSized.setValues (h : m.WellSized) (value : BitVec 64) :
    (m.setValues value).WellSized := by
  unfold WellSized LargeBitmap.setValues at *
  rw [length_map, h]

theorem wellSized_ofSize (n : ℕ) : (ofSize n).WellSized := length_replicate

@[simp] theorem rawBit_ofSize (n : ℕ) : (ofSize n).rawBit i = false := by
  unfold rawBit ofSize
  simp only
  rw [getD_eq_getElem?_getD, getElem?_replicate]
  split <;> simp

@[simp] theorem rawBit_setValues_zero : (m.setValues 0).rawBit i = false := by
  unfold rawBit setValues
  simp only
  rw [getD_eq_getElem?_getD, getElem?_map]
  cases m.bits[i / kBitsEachValue]? with
  | none => simp
  | some word => simp

theorem getD_orWords (words others : List (BitVec 64)) (k : ℕ) :
    (orWords words others).getD k 0
      = if k < words.length then words.getD k 0 ||| others.getD k 0 else 0 := by
  induction words generalizing others k with
  | nil => cases others <;> simp [orWords]
  | cons word words ih =>
    cases others with
    | nil =>
      show (word :: words).getD k 0 = _
      by_cases hk : k < (word :: words).length
      · rw [if_pos hk]
        simp
      · rw [if_neg hk, getD_eq_getElem?_getD, getElem?_eq_none (Nat.not_lt.mp hk)]
        rfl
    | cons other others =>
      cases k with
      | zero => simp [orWords]
      | succ k =>
        rw [orWords, getD_cons_succ, ih, getD_cons_succ, getD_cons_succ,
          length_cons]
        simp only [Nat.add_lt_add_iff_right]

/-- Or-ing reaches as far as the map has words. -/
theorem rawBit_or : (m.or other).rawBit i
    = (m.rawBit i || (decide (i / kBitsEachValue < m.bits.length) && other.rawBit i)) := by
  unfold rawBit
  show ((orWords m.bits other.bits).getD _ 0).getLsbD _ = _
  rw [getD_orWords]
  split
  · rename_i h
    rw [BitVec.getLsbD_or]
    simp [h]
  · rename_i h
    rw [getD_eq_getElem?_getD, getElem?_eq_none (Nat.not_lt.mp h)]
    simp [h]

theorem getD_modify {words : List (BitVec 64)} {f : BitVec 64 → BitVec 64} (k j : ℕ)
    (hk : k < words.length) :
    (words.modify k f).getD j 0 = if j = k then f (words.getD j 0) else words.getD j 0 := by
  rw [getD_eq_getElem?_getD, getElem?_modify, getD_eq_getElem?_getD]
  by_cases hj : j = k
  · simp [hj, getElem?_eq_getElem hk]
  · have hj' : ¬ k = j := fun h => hj h.symm
    cases words[j]? <;> simp [hj, hj']

theorem same_bit_iff : i / kBitsEachValue = index / kBitsEachValue ∧
    i % kBitsEachValue = index % kBitsEachValue ↔ i = index := by
  unfold kBitsEachValue
  omega

theorem rawBit_setBit (h : m.WellSized) (hlt : index < m.size) :
    (m.setBit index).rawBit i = (decide (i = index) || m.rawBit i) := by
  unfold rawBit setBit
  rw [if_pos hlt]
  simp only
  rw [getD_modify _ _ (h.lt hlt)]
  by_cases hword : i / kBitsEachValue = index / kBitsEachValue
  · rw [if_pos hword, BitVec.getLsbD_or, BitVec.getLsbD_twoPow]
    have hiff : (index % kBitsEachValue = i % kBitsEachValue) ↔ i = index := by
      rw [← @same_bit_iff i index]
      exact ⟨fun h => ⟨hword, h.symm⟩, fun h => h.2.symm⟩
    have hmod' : index % kBitsEachValue < 64 := Nat.mod_lt _ (by decide)
    rw [Bool.or_comm]
    congr 1
    simp [hiff, hmod']
  · rw [if_neg hword]
    have hne : i ≠ index := fun heq => hword (by rw [heq])
    simp [hne]

theorem rawBit_clearBit_of_ne (hne : i ≠ index) : (m.clearBit index).rawBit i = m.rawBit i := by
  unfold rawBit clearBit
  show ((m.bits.modify (index / kBitsEachValue) _).getD _ 0).getLsbD _ = _
  by_cases hk : index / kBitsEachValue < m.bits.length
  · rw [getD_modify _ _ hk]
    split
    · rename_i hword
      have hbit : ¬ index % kBitsEachValue = i % kBitsEachValue := fun h =>
        hne (same_bit_iff.mp ⟨hword, h.symm⟩)
      have hmod : i % kBitsEachValue < 64 := Nat.mod_lt _ (by decide)
      rw [BitVec.getLsbD_and, BitVec.getLsbD_not, BitVec.getLsbD_twoPow]
      simp [hbit, hmod]
    · rfl
  · rw [modify_eq_self (Nat.not_lt.mp hk)]

theorem rawBit_clearBit_le : (m.clearBit index).rawBit i = true → m.rawBit i = true := by
  unfold rawBit clearBit
  show ((m.bits.modify (index / kBitsEachValue) _).getD _ 0).getLsbD _ = true → _
  by_cases hk : index / kBitsEachValue < m.bits.length
  · rw [getD_modify _ _ hk]
    split
    · rw [BitVec.getLsbD_and, Bool.and_eq_true]
      exact fun h => h.1
    · exact id
  · rw [modify_eq_self (Nat.not_lt.mp hk)]
    exact id

theorem length_clearBit : (m.clearBit index).bits.length = m.bits.length := by
  unfold clearBit
  exact length_modify _ _ _

theorem foldl_clearBit (indices : List ℕ) :
    (indices.foldl clearBit m).bits.length = m.bits.length ∧
      ∀ i, (∀ k ∈ indices, i = k → m.rawBit i = false) →
        (indices.foldl clearBit m).rawBit i = m.rawBit i := by
  induction indices generalizing m with
  | nil => exact ⟨rfl, fun _ _ => rfl⟩
  | cons k indices ih =>
    obtain ⟨hlength, hbits⟩ := @ih (m.clearBit k)
    refine ⟨hlength.trans length_clearBit, fun i hi => ?_⟩
    have hk : (m.clearBit k).rawBit i = m.rawBit i := by
      by_cases hik : i = k
      · rw [hi k mem_cons_self hik]
        by_contra htrue
        have h := rawBit_clearBit_le (Bool.eq_true_of_not_eq_false htrue)
        rw [hi k mem_cons_self hik] at h
        exact Bool.false_ne_true h
      · exact rawBit_clearBit_of_ne hik
    rw [foldl_cons, hbits i fun k' hk' hik => ?_, hk]
    rw [hk]
    exact hi k' (mem_cons_of_mem k hk') hik

@[simp] theorem size_resizeBits {n : ℕ} (h : m.size ≤ n) : (m.resizeBits n).size = n := by
  unfold resizeBits
  rw [if_neg (Nat.not_lt.mpr h)]
  simp only
  split <;> rfl

theorem WellSized.resizeBits (hm : m.WellSized) {n : ℕ} (h : m.size ≤ n) :
    (m.resizeBits n).WellSized := by
  unfold WellSized LargeBitmap.resizeBits at *
  rw [if_neg (Nat.not_lt.mpr h)]
  simp only
  split
  · rename_i hsame
    exact hm.trans hsame.symm
  · rw [(foldl_clearBit _).1]
    exact takeD_length _ _ _

theorem getD_takeD {words : List (BitVec 64)} {n : ℕ} (h : words.length ≤ n) (k : ℕ) :
    (words.takeD n 0).getD k 0 = words.getD k 0 := by
  induction n generalizing words k with
  | zero =>
    rw [eq_nil_of_length_eq_zero (Nat.le_zero.mp h)]
    rfl
  | succ n ih =>
    cases words with
    | nil =>
      rw [takeD_nil, getD_eq_getElem?_getD, getElem?_replicate]
      split <;> rfl
    | cons word words =>
      cases k with
      | zero => rfl
      | succ k =>
        show (words.takeD n 0).getD k 0 = words.getD k 0
        exact ih (Nat.le_of_succ_le_succ h) k

/-- A map without bits behind its size keeps its bits. -/
theorem rawBit_resizeBits (hm : m.WellSized) (hclean : ∀ i, m.size ≤ i → m.rawBit i = false)
    {n : ℕ} (h : m.size ≤ n) : (m.resizeBits n).rawBit i = m.rawBit i := by
  unfold resizeBits
  rw [if_neg (Nat.not_lt.mpr h)]
  simp only
  split
  · rfl
  · -- the words that are added are zero, and only bits behind the size are cleared
    have hpad : ∀ i, LargeBitmap.rawBit { m with bits := m.bits.takeD (alignArraySize n) 0 } i
        = m.rawBit i := by
      intro i
      unfold rawBit
      have hlength : m.bits.length ≤ alignArraySize n := by
        rw [show m.bits.length = _ from hm]
        unfold alignArraySize alignBitSize
        omega
      show ((m.bits.takeD (alignArraySize n) 0).getD _ 0).getLsbD _ = _
      rw [getD_takeD hlength]
    have hfold := (foldl_clearBit (m := { m with bits := m.bits.takeD (alignArraySize n) 0 })
      (range' m.size (alignBitSize m.size - m.size))).2 i fun k hk hik => by
        rw [hpad, hik]
        exact hclean k (mem_range'_1.mp hk).1
    exact hfold.trans (hpad i)

end LargeBitmap

end GraphAutofusion.GraphMetadef
