import Mathlib.Data.List.Basic

/-!
# Lib.Fence — fences in a sequence of actions

In a sequence of actions some start work, some must not happen while started work may still
run, and a fence waits for all work before it. `Fenced` says that a fence stands
between the two wherever they meet. It is decided from the parts of a sequence: what a
part leaves open, what it exposes at its front, and whether it holds a fence.
-/

namespace GraphAutofusion.Lib

open List

variable {α : Type*} (starts fence needs : α → Prop)

/-- A fence stands between each action that starts work and each later one that needs it done. -/
def Fenced (l : List α) : Prop :=
  ∀ (i j : ℕ) x y, l[i]? = some x → l[j]? = some y → i < j → starts x → needs y →
    ∃ (k : ℕ) (b : α), i < k ∧ k < j ∧ l[k]? = some b ∧ fence b

/-- Some work is started, and no fence follows. -/
def OpenAfter (l : List α) : Prop :=
  ∃ (i : ℕ) (x : α), l[i]? = some x ∧ starts x ∧ ∀ (k : ℕ) b, i < k → l[k]? = some b → ¬ fence b

/-- Some action needs earlier work done, and no fence comes first. -/
def Exposed (l : List α) : Prop :=
  ∃ (j : ℕ) (y : α), l[j]? = some y ∧ needs y ∧ ∀ (k : ℕ) b, k < j → l[k]? = some b → ¬ fence b

def HasFence (l : List α) : Prop := ∃ b ∈ l, fence b

variable {starts fence needs} {a : α} {l m : List α} {L : List (List α)}

@[simp] theorem not_hasFence_nil : ¬ HasFence fence ([] : List α) := by
  simp [HasFence]

theorem hasFence_cons : HasFence fence (a :: l) ↔ fence a ∨ HasFence fence l := by
  simp only [HasFence, exists_mem_cons_iff]

theorem hasFence_append : HasFence fence (l ++ m) ↔ HasFence fence l ∨ HasFence fence m := by
  simp only [HasFence, mem_append, or_and_right, exists_or]

@[simp] theorem not_exposed_nil : ¬ Exposed fence needs ([] : List α) := by
  rintro ⟨j, y, hy, _⟩
  simp at hy

@[simp] theorem not_openAfter_nil : ¬ OpenAfter starts fence ([] : List α) := by
  rintro ⟨i, x, hx, _⟩
  simp at hx

@[simp] theorem fenced_nil : Fenced starts fence needs ([] : List α) := by
  intro i j x y hx
  simp at hx

theorem exposed_cons :
    Exposed fence needs (a :: l) ↔ needs a ∨ ¬ fence a ∧ Exposed fence needs l := by
  constructor
  · rintro ⟨j, y, hy, hneeds, hfree⟩
    cases j with
    | zero =>
      have hya : a = y := by simpa using hy
      exact .inl (hya ▸ hneeds)
    | succ j =>
      refine .inr ⟨hfree 0 a (Nat.zero_lt_succ j) rfl, j, y, by simpa using hy, hneeds, ?_⟩
      intro k b hk hb
      exact hfree (k + 1) b (Nat.succ_lt_succ hk) (by simpa using hb)
  · rintro (hneeds | ⟨hfence, j, y, hy, hneeds, hfree⟩)
    · exact ⟨0, a, rfl, hneeds, fun k b hk => absurd hk (Nat.not_lt_zero k)⟩
    · refine ⟨j + 1, y, by simpa using hy, hneeds, fun k b hk hb => ?_⟩
      cases k with
      | zero =>
        have hba : a = b := by simpa using hb
        exact hba ▸ hfence
      | succ k => exact hfree k b (Nat.lt_of_succ_lt_succ hk) (by simpa using hb)

theorem openAfter_cons :
    OpenAfter starts fence (a :: l) ↔
      starts a ∧ ¬ HasFence fence l ∨ OpenAfter starts fence l := by
  constructor
  · rintro ⟨i, x, hx, hstarts, hfree⟩
    cases i with
    | zero =>
      have hxa : a = x := by simpa using hx
      refine .inl ⟨hxa ▸ hstarts, ?_⟩
      rintro ⟨b, hb, hfence⟩
      rcases mem_iff_getElem?.mp hb with ⟨k, hk⟩
      exact hfree (k + 1) b (Nat.zero_lt_succ k) (by simpa using hk) hfence
    | succ i =>
      refine .inr ⟨i, x, by simpa using hx, hstarts, fun k b hk hb => ?_⟩
      exact hfree (k + 1) b (Nat.succ_lt_succ hk) (by simpa using hb)
  · rintro (⟨hstarts, hnone⟩ | ⟨i, x, hx, hstarts, hfree⟩)
    · refine ⟨0, a, rfl, hstarts, fun k b hk hb hfence => hnone ⟨b, ?_, hfence⟩⟩
      cases k with
      | zero => exact absurd hk (Nat.lt_irrefl 0)
      | succ k => exact mem_of_getElem? (by simpa using hb)
    · refine ⟨i + 1, x, by simpa using hx, hstarts, fun k b hk hb => ?_⟩
      cases k with
      | zero => exact absurd hk (Nat.not_lt_zero _)
      | succ k => exact hfree k b (Nat.lt_of_succ_lt_succ hk) (by simpa using hb)

theorem fenced_cons :
    Fenced starts fence needs (a :: l) ↔
      ¬ (starts a ∧ Exposed fence needs l) ∧ Fenced starts fence needs l := by
  constructor
  · intro h
    constructor
    · rintro ⟨hstarts, j, y, hy, hneeds, hfree⟩
      rcases h 0 (j + 1) a y rfl (by simpa using hy) (Nat.zero_lt_succ j) hstarts hneeds with
        ⟨k, b, hk, hkj, hb, hfence⟩
      cases k with
      | zero => exact Nat.lt_irrefl 0 hk
      | succ k => exact hfree k b (Nat.lt_of_succ_lt_succ hkj) (by simpa using hb) hfence
    · intro i j x y hx hy hij hstarts hneeds
      rcases h (i + 1) (j + 1) x y (by simpa using hx) (by simpa using hy) (Nat.succ_lt_succ hij)
        hstarts hneeds with ⟨k, b, hk, hkj, hb, hfence⟩
      cases k with
      | zero => exact absurd hk (Nat.not_lt_zero _)
      | succ k =>
        exact ⟨k, b, Nat.lt_of_succ_lt_succ hk, Nat.lt_of_succ_lt_succ hkj, by simpa using hb,
          hfence⟩
  · rintro ⟨hfirst, hrest⟩ i j x y hx hy hij hstarts hneeds
    cases j with
    | zero => exact absurd hij (Nat.not_lt_zero i)
    | succ j =>
      cases i with
      | zero =>
        -- without a fence in between the first action would be exposed to `y`
        by_contra hnone
        have hxa : a = x := by simpa using hx
        refine hfirst ⟨hxa ▸ hstarts, j, y, by simpa using hy, hneeds, fun k b hk hb hfence => ?_⟩
        exact hnone ⟨k + 1, b, Nat.zero_lt_succ k, Nat.succ_lt_succ hk, by simpa using hb, hfence⟩
      | succ i =>
        rcases hrest i j x y (by simpa using hx) (by simpa using hy) (Nat.lt_of_succ_lt_succ hij)
          hstarts hneeds with ⟨k, b, hk, hkj, hb, hfence⟩
        exact ⟨k + 1, b, Nat.succ_lt_succ hk, Nat.succ_lt_succ hkj, by simpa using hb, hfence⟩

/-! ## Parts of a sequence -/

theorem exposed_append :
    Exposed fence needs (l ++ m) ↔
      Exposed fence needs l ∨ ¬ HasFence fence l ∧ Exposed fence needs m := by
  induction l with
  | nil => simp
  | cons a l ih =>
    rw [cons_append, exposed_cons, ih, exposed_cons, hasFence_cons]
    tauto

theorem openAfter_append :
    OpenAfter starts fence (l ++ m) ↔
      OpenAfter starts fence l ∧ ¬ HasFence fence m ∨ OpenAfter starts fence m := by
  induction l with
  | nil => simp
  | cons a l ih =>
    rw [cons_append, openAfter_cons, ih, openAfter_cons, hasFence_append]
    tauto

theorem fenced_append :
    Fenced starts fence needs (l ++ m) ↔
      Fenced starts fence needs l ∧ Fenced starts fence needs m ∧
        ¬ (OpenAfter starts fence l ∧ Exposed fence needs m) := by
  induction l with
  | nil => simp
  | cons a l ih =>
    rw [cons_append, fenced_cons, ih, fenced_cons, exposed_append, openAfter_cons]
    tauto

theorem exposed_flatten :
    Exposed fence needs L.flatten ↔ Exposed (HasFence fence) (Exposed fence needs) L := by
  induction L with
  | nil => simp
  | cons l L ih => rw [flatten_cons, exposed_append, ih, exposed_cons]

/-- A sequence of parts is fenced when each part is, and the parts are as actions. -/
theorem fenced_flatten :
    Fenced starts fence needs L.flatten ↔
      (∀ l ∈ L, Fenced starts fence needs l) ∧
        Fenced (OpenAfter starts fence) (HasFence fence) (Exposed fence needs) L := by
  induction L with
  | nil => simp
  | cons l L ih =>
    rw [flatten_cons, fenced_append, ih, fenced_cons, exposed_flatten, forall_mem_cons]
    tauto

/-- A sequence of neutral actions has no part in fencing. -/
theorem neutral_of_forall (h : ∀ b ∈ l, ¬ starts b ∧ ¬ fence b ∧ ¬ needs b) :
    ¬ OpenAfter starts fence l ∧ ¬ HasFence fence l ∧ ¬ Exposed fence needs l ∧
      Fenced starts fence needs l := by
  induction l with
  | nil => simp
  | cons b l ih =>
    rcases ih fun c hc => h c (mem_cons_of_mem b hc) with ⟨hopen, hfence, hexposed, hfenced⟩
    have hb := h b mem_cons_self
    rw [openAfter_cons, exposed_cons, fenced_cons, hasFence_cons]
    tauto

end GraphAutofusion.Lib
