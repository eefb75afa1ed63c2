import Mathlib.Data.List.DropRight

/-!
# Lib.Trim — padding at the ends of a list

A list is trimmed by dropping the entries of one kind from both ends. A separator of another kind
cuts a list into pieces, and the pieces trimmed do not depend on the padding of the whole list.
-/

namespace GraphAutofusion.Lib

open List

variable {α : Type*} (p : α → Bool)

def trim (l : List α) : List α := (l.dropWhile p).rdropWhile p

/-- The token with padding on both sides. -/
def Padded (token text : List α) : Prop :=
  ∃ front back, (∀ x ∈ front, p x = true) ∧ (∀ x ∈ back, p x = true) ∧ text = front ++ token ++ back

variable {p} {l front back token text : List α} {x : α}

theorem rdropWhile_append_padding (h : ∀ x ∈ back, p x = true) :
    (l ++ back).rdropWhile p = l.rdropWhile p := by
  induction back using reverseRecOn with
  | nil => rw [append_nil]
  | append_singleton back x ih =>
    have hx : p x = true := h x (mem_append_right _ (mem_singleton_self x))
    rw [← append_assoc, rdropWhile_concat_pos _ _ _ hx]
    exact ih fun y hy => h y (mem_append_left _ hy)

theorem dropWhile_padding_append (h : ∀ x ∈ front, p x = true) :
    (front ++ l).dropWhile p = l.dropWhile p := by
  rw [dropWhile_append, dropWhile_eq_nil_iff.mpr h]
  rfl

theorem trim_padding_append (h : ∀ x ∈ front, p x = true) : trim p (front ++ l) = trim p l := by
  rw [trim, trim, dropWhile_padding_append h]

theorem trim_append_padding (h : ∀ x ∈ back, p x = true) : trim p (l ++ back) = trim p l := by
  rw [trim, trim, dropWhile_append]
  by_cases hl : (l.dropWhile p).isEmpty
  · rw [if_pos hl, List.isEmpty_iff.mp hl, dropWhile_eq_nil_iff.mpr h]
  · rw [if_neg hl, rdropWhile_append_padding h]

theorem padded_trim (l : List α) : Padded p (trim p l) l := by
  refine ⟨l.takeWhile p, (l.dropWhile p).rtakeWhile p, fun x => mem_takeWhile_imp,
    fun x => mem_rtakeWhile_imp, ?_⟩
  rw [append_assoc, trim, rdropWhile_append_rtakeWhile, takeWhile_append_dropWhile]

/-- A list without padding is what is left of it. -/
theorem trim_eq_self (h : ∀ x ∈ l, p x = false) : trim p l = l := by
  have hleft : l.dropWhile p = l := by
    cases l with
    | nil => rfl
    | cons x l => rw [dropWhile_cons, h x mem_cons_self]; rfl
  rw [trim, hleft, rdropWhile_eq_self_iff]
  intro hl
  rw [h _ (getLast_mem hl)]
  exact Bool.false_ne_true

theorem Padded.trim_eq (h : Padded p token text) (htoken : ∀ x ∈ token, p x = false) :
    trim p text = token := by
  rcases h with ⟨front, back, hfront, hback, rfl⟩
  rw [trim_append_padding hback, trim_padding_append hfront, trim_eq_self htoken]

theorem Padded.mem (h : Padded p token text) (hx : x ∈ text) : x ∈ token ∨ p x = true := by
  rcases h with ⟨front, back, hfront, hback, rfl⟩
  rw [mem_append, mem_append] at hx
  rcases hx with (hx | hx) | hx
  · exact .inr (hfront x hx)
  · exact .inl hx
  · exact .inr (hback x hx)

/-- Trimming one side first changes nothing. -/
theorem trim_dropWhile (l : List α) : trim p (l.dropWhile p) = trim p l := by
  rw [trim, trim, dropWhile_idempotent]

theorem trim_trim (l : List α) : trim p (trim p l) = trim p l := by
  rcases padded_trim (p := p) l with ⟨front, back, hfront, hback, hl⟩
  conv_rhs => rw [hl]
  rw [trim_append_padding hback, trim_padding_append hfront]

theorem mem_rdropWhile_iff (hx : p x = false) : x ∈ l.rdropWhile p ↔ x ∈ l := by
  constructor
  · exact fun h => (List.rdropWhile_prefix p l).mem h
  · intro h
    rw [← @rdropWhile_append_rtakeWhile _ p l, mem_append] at h
    exact h.resolve_right fun hback =>
      Bool.false_ne_true (hx.symm.trans (mem_rtakeWhile_imp hback))

theorem mem_of_mem_trim (h : x ∈ trim p l) : x ∈ l :=
  (dropWhile_suffix p).mem ((List.rdropWhile_prefix p _).mem h)

theorem dropWhile_append_cons (front back : List α) (hx : p x = false) :
    (front ++ x :: back).dropWhile p = front.dropWhile p ++ x :: back := by
  rw [dropWhile_append]
  by_cases hfront : (front.dropWhile p).isEmpty
  · rw [if_pos hfront, List.isEmpty_iff.mp hfront, dropWhile_cons, hx]
    rfl
  · rw [if_neg hfront]

/-- Something that is no padding keeps the sides apart. -/
theorem trim_append_cons (front back : List α) (hx : p x = false) :
    trim p (front ++ x :: back) = front.dropWhile p ++ x :: back.rdropWhile p := by
  rw [trim, dropWhile_append_cons front back hx, rdropWhile, reverse_append,
    reverse_cons, append_assoc, singleton_append, dropWhile_append_cons _ _ hx,
    reverse_append, reverse_cons, reverse_reverse, append_assoc,
    singleton_append, rdropWhile]

/-! ## Pieces -/

theorem mem_of_mem_intercalate {sep : α} {pieces : List (List α)}
    (h : x ∈ [sep].intercalate pieces) : x = sep ∨ ∃ piece ∈ pieces, x ∈ piece := by
  induction pieces with
  | nil => exact absurd h not_mem_nil
  | cons piece pieces ih =>
    cases pieces with
    | nil =>
      rw [intercalate_singleton] at h
      exact .inr ⟨piece, mem_cons_self, h⟩
    | cons next pieces =>
      rw [intercalate_cons_cons, mem_append, mem_append, mem_singleton] at h
      rcases h with (h | h) | h
      · exact .inr ⟨piece, mem_cons_self, h⟩
      · exact .inl h
      · exact (ih h).imp_right fun ⟨l, hl, hx⟩ => ⟨l, mem_cons_of_mem _ hl, hx⟩

section Pieces

variable [BEq α] [LawfulBEq α] {sep : α}

/-- The first separator is where the first piece ends. -/
theorem idxOf?_append_cons (h : x ∉ front) : (front ++ x :: back).idxOf? x = some front.length := by
  induction front with
  | nil =>
    rw [nil_append, idxOf?_cons, if_pos (beq_self_eq_true x)]
    rfl
  | cons y front ih =>
    have hne : ¬ (y == x) = true := fun hbeq => h (eq_of_beq hbeq ▸ mem_cons_self)
    rw [cons_append, idxOf?_cons, if_neg hne,
      ih fun hmem => h (mem_cons_of_mem _ hmem)]
    rfl

theorem splitOn_cons_of_ne (hx : x ≠ sep) :
    (x :: l).splitOn sep = (l.splitOn sep).modifyHead (x :: ·) := by
  rw [splitOn_cons_eq_if_modifyHead, if_neg fun h => hx (eq_of_beq h)]

/-- The last piece takes what is appended. -/
theorem splitOn_append_last (sep : α) (l : List α) :
    ∃ pieces last, l.splitOn sep = pieces ++ [last] ∧ ∀ back, sep ∉ back → (l ++ back).splitOn sep = pieces ++ [last ++ back] := by
  induction l with
  | nil => exact ⟨[], [], splitOn_nil sep, fun back h => splitOn_eq_singleton h⟩
  | cons x l ih =>
    rcases ih with ⟨pieces, last, hl, hback⟩
    by_cases hx : x = sep
    · subst hx
      refine ⟨[] :: pieces, last, ?_, ?_⟩
      · rw [splitOn_cons_eq_if_modifyHead, if_pos (beq_self_eq_true x), hl]
        rfl
      · intro back h
        rw [cons_append, splitOn_cons_eq_if_modifyHead, if_pos (beq_self_eq_true x),
          hback back h]
        rfl
    · cases pieces with
      | nil =>
        refine ⟨[], x :: last, ?_, ?_⟩
        · rw [splitOn_cons_of_ne hx, hl]
          rfl
        · intro back h
          rw [cons_append, splitOn_cons_of_ne hx, hback back h]
          rfl
      | cons piece pieces =>
        refine ⟨(x :: piece) :: pieces, last, ?_, ?_⟩
        · rw [splitOn_cons_of_ne hx, hl]
          rfl
        · intro back h
          rw [cons_append, splitOn_cons_of_ne hx, hback back h]
          rfl

section

variable (hsep : p sep = false)
include hsep

theorem map_trim_splitOn_append (h : ∀ x ∈ back, p x = true) :
    ((l ++ back).splitOn sep).map (trim p) = (l.splitOn sep).map (trim p) := by
  have hnot : sep ∉ back := fun hmem => Bool.false_ne_true (hsep.symm.trans (h sep hmem))
  rcases splitOn_append_last sep l with ⟨pieces, last, hl, hback⟩
  rw [hback back hnot, hl, map_append, map_append, map_singleton,
    map_singleton, trim_append_padding h]

theorem map_trim_splitOn_rdropWhile (l : List α) :
    ((l.rdropWhile p).splitOn sep).map (trim p) = (l.splitOn sep).map (trim p) := by
  conv_rhs => rw [← @rdropWhile_append_rtakeWhile _ p l]
  exact (map_trim_splitOn_append hsep fun x => mem_rtakeWhile_imp).symm

theorem map_trim_splitOn_padding (h : ∀ x ∈ front, p x = true) :
    ((front ++ l).splitOn sep).map (trim p) = (l.splitOn sep).map (trim p) := by
  induction front with
  | nil => rfl
  | cons x front ih =>
    have hx : p x = true := h x mem_cons_self
    have hne : x ≠ sep := by
      rintro rfl
      exact Bool.false_ne_true (hsep.symm.trans hx)
    rw [cons_append, splitOn_cons_of_ne hne, ← ih fun y hy => h y (mem_cons_of_mem _ hy)]
    cases (front ++ l).splitOn sep with
    | nil => rfl
    | cons piece pieces =>
      have hpiece : trim p ([x] ++ piece) = trim p piece := by
        apply trim_padding_append
        intro y hy
        rwa [mem_singleton.mp hy]
      exact congrArg (· :: pieces.map (trim p)) hpiece

/-- The pieces of the trimmed list are those of the list. -/
theorem map_trim_splitOn_trim (l : List α) :
    ((trim p l).splitOn sep).map (trim p) = (l.splitOn sep).map (trim p) := by
  rcases padded_trim (p := p) l with ⟨front, back, hfront, hback, hl⟩
  conv_rhs => rw [hl]
  rw [map_trim_splitOn_append hsep hback, map_trim_splitOn_padding hsep hfront]

end

end Pieces

end GraphAutofusion.Lib
