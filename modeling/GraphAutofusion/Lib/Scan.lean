import Mathlib.Data.Int.Notation
import Mathlib.Data.List.Basic

/-!
# Lib.Scan — decimal numbers in a text

Numbers are written in decimal notation and read back in two ways: by collecting all digits of a
text, or by scanning a number at its front as `scanf` does. Both find a number that was written,
whatever follows it, as long as no further digit does.
-/

namespace GraphAutofusion.Lib

open List

abbrev Text := List Char

def decimal (n : ℕ) : Text := Nat.toDigits 10 n

/-- Negative numbers with a sign in front. -/
def decimalInt (z : ℤ) : Text := if z < 0 then '-' :: decimal z.natAbs else decimal z.natAbs

/-- The number that all digits of the text make up, and whether there is a digit. -/
def collectDigits (text : Text) : ℕ × Bool :=
  text.foldl (fun p c => if c.isDigit then (10 * p.1 + (c.toNat - '0'.toNat), true) else p) (0, false)

/-- A number at the front. -/
def scanNat (text : Text) : Option ℕ :=
  match text.takeWhile Char.isDigit with
  | [] => none
  | digits => some (Nat.ofDigitChars 10 digits 0)

/-- The conversion `%d`: blanks and a sign are read before the digits. -/
def scanInt (text : Text) : Option ℤ :=
  match text.dropWhile Char.isWhitespace with
  | '-' :: rest => (scanNat rest).map fun n => -(n : ℤ)
  | '+' :: rest => (scanNat rest).map Int.ofNat
  | rest => (scanNat rest).map Int.ofNat

/-- The text behind a literal one. -/
def scanLiteral (literal text : Text) : Option Text :=
  if literal.isPrefixOf text then some (text.drop literal.length) else none

variable {n : ℕ} {text rest : Text} {c : Char}

theorem isDigit_of_mem_decimal (h : c ∈ decimal n) : c.isDigit = true :=
  Nat.isDigit_of_mem_toDigits (by decide) (by decide) h

theorem decimal_ne_nil : decimal n ≠ [] := Nat.toDigits_ne_nil

theorem foldl_collect_digits {p : ℕ × Bool} (h : ∀ c ∈ text, c.isDigit = true) (hne : text ≠ []) :
    text.foldl (fun p c => if c.isDigit then (10 * p.1 + (c.toNat - '0'.toNat), true) else p) p
      = (Nat.ofDigitChars 10 text p.1, true) := by
  induction text generalizing p with
  | nil => exact absurd rfl hne
  | cons c text ih =>
    rw [foldl_cons, if_pos (h c mem_cons_self), Nat.ofDigitChars_cons]
    have hrest : ∀ c ∈ text, c.isDigit = true := fun d hd => h d (mem_cons_of_mem _ hd)
    cases text with
    | nil => rfl
    | cons d text => rw [ih hrest (cons_ne_nil d text)]

theorem foldl_collect_others {p : ℕ × Bool} (h : ∀ c ∈ text, c.isDigit = false) :
    text.foldl (fun p c => if c.isDigit then (10 * p.1 + (c.toNat - '0'.toNat), true) else p) p
      = p := by
  induction text generalizing p with
  | nil => rfl
  | cons c text ih =>
    rw [foldl_cons, h c mem_cons_self]
    exact ih fun d hd => h d (mem_cons_of_mem _ hd)

/-- A written number is found between other characters. -/
theorem collectDigits_decimal (front back : Text) (hfront : ∀ c ∈ front, c.isDigit = false)
    (hback : ∀ c ∈ back, c.isDigit = false) :
    collectDigits (front ++ (decimal n ++ back)) = (n, true) := by
  unfold collectDigits
  rw [foldl_append, foldl_append, foldl_collect_others hfront,
    foldl_collect_digits (fun c hc => isDigit_of_mem_decimal hc) decimal_ne_nil,
    foldl_collect_others hback, decimal, Nat.ofDigitChars_ten_toDigits]

section

variable (h : ∀ c, rest.head? = some c → c.isDigit = false)
include h

theorem takeWhile_isDigit_decimal : (decimal n ++ rest).takeWhile Char.isDigit = decimal n := by
  rw [takeWhile_append_of_pos fun c hc => isDigit_of_mem_decimal hc]
  cases rest with
  | nil => rw [takeWhile_nil, append_nil]
  | cons c rest => rw [takeWhile_cons_of_neg (by simp [h c rfl]), append_nil]

theorem scanNat_decimal : scanNat (decimal n ++ rest) = some n := by
  unfold scanNat
  rw [takeWhile_isDigit_decimal h]
  split
  · next hnil => exact absurd hnil decimal_ne_nil
  · rw [decimal, Nat.ofDigitChars_ten_toDigits]

omit h in
theorem not_isWhitespace_of_isDigit (h : c.isDigit = true) :
    c.isWhitespace = false ∧ c ≠ '-' ∧ c ≠ '+' := by
  refine ⟨?_, ?_, ?_⟩
  · by_contra hs
    simp only [Char.isWhitespace, Bool.or_eq_true, decide_eq_true_iff, Bool.not_eq_false] at hs
    rcases hs with ((rfl | rfl) | rfl) | rfl <;> exact absurd h (by decide)
  · rintro rfl
    exact absurd h (by decide)
  · rintro rfl
    exact absurd h (by decide)

theorem scanInt_decimal : scanInt (decimal n ++ rest) = some (n : ℤ) := by
  have hscan := @scanNat_decimal n rest h
  obtain ⟨c, digits, hc⟩ : ∃ c digits, decimal n = c :: digits :=
    exists_cons_of_ne_nil decimal_ne_nil
  have hdigit : c.isDigit = true := isDigit_of_mem_decimal (hc ▸ mem_cons_self)
  obtain ⟨hspace, hminus, hplus⟩ := not_isWhitespace_of_isDigit hdigit
  rw [hc, cons_append] at hscan ⊢
  unfold scanInt
  rw [dropWhile_cons_of_neg (by simp [hspace])]
  split
  · next heq =>
    rw [List.cons.injEq] at heq
    exact absurd heq.1 hminus
  · next heq =>
    rw [List.cons.injEq] at heq
    exact absurd heq.1 hplus
  · rw [hscan]
    rfl

end

theorem scanLiteral_append (literal text : Text) : scanLiteral literal (literal ++ text) = some text := by
  unfold scanLiteral
  rw [if_pos (List.isPrefixOf_iff_prefix.mpr (prefix_append _ _)), drop_left]

end GraphAutofusion.Lib
