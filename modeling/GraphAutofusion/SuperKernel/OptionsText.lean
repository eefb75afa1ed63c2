import GraphAutofusion.Lib.Scan
import GraphAutofusion.Lib.Trim

/-!
# SuperKernel.OptionsText — the texts of options

The value of an option is a text of bytes. White space is what `isspace` says in the default locale,
letters and digits are those of `isalnum`.
-/

namespace GraphAutofusion.SuperKernel

open Lib List

def isSpace (ch : Char) : Bool :=
  ch == ' ' || ch == '\t' || ch == '\n' || ch == '\x0b' || ch == '\x0c' || ch == '\r'

def trimString (input : Text) : Text := trim isSpace input

/-- The loop of `SplitString`: a token up to the next delimiter, then what stands behind it. -/
def splitLoop (delimiter : Char) : ℕ → Text → List Text
  | 0, input => [input]
  | fuel + 1, input =>
    if input.contains delimiter then
      input.takeWhile (· != delimiter) ::
        splitLoop delimiter fuel (input.dropWhile (· != delimiter)).tail
    else [input]

/-- Each round but the last takes a delimiter away. -/
def splitString (input : Text) (delimiter : Char) : List Text :=
  splitLoop delimiter input.length input

/-- The check of one character in `IsValidExtendOptionToken`. -/
def isTokenChar (allowSlash : Bool) (ch : Char) : Bool :=
  ch.isAlphanum || ch == '_' || ch == '-' || ch == '.' || (allowSlash && ch == '/')

def isValidExtendOptionToken (token : Text) (allowSlash : Bool) : Bool :=
  !token.isEmpty && token.all (isTokenChar allowSlash)

variable {input : Text} {delimiter : Char}

theorem exists_of_contains (h : input.contains delimiter = true) :
    input = input.takeWhile (· != delimiter) ++
      delimiter :: (input.dropWhile (· != delimiter)).tail := by
  induction input with
  | nil => exact nomatch h
  | cons c input ih =>
    by_cases hc : c = delimiter
    · subst hc
      simp
    · have hinput : input.contains delimiter = true := by
        rw [contains_cons, Bool.or_eq_true] at h
        exact h.resolve_left fun hbeq => hc (eq_of_beq hbeq).symm
      have hne : (c != delimiter) = true := bne_iff_ne.mpr hc
      rw [takeWhile_cons, if_pos hne, dropWhile_cons, if_pos hne, cons_append,
        ← ih hinput]

theorem splitLoop_eq {fuel : ℕ} (h : input.length ≤ fuel) :
    splitLoop delimiter fuel input = input.splitOn delimiter := by
  induction fuel generalizing input with
  | zero =>
    rw [length_eq_zero_iff.mp (Nat.le_zero.mp h)]
    exact (splitOn_nil delimiter).symm
  | succ fuel ih =>
    rw [splitLoop]
    by_cases hd : input.contains delimiter = true
    · have hsplit := exists_of_contains hd
      have hfront : delimiter ∉ input.takeWhile (· != delimiter) := by
        intro hmem
        have hne := mem_takeWhile_imp hmem
        simp at hne
      have hlen := congrArg length hsplit
      rw [length_append, length_cons] at hlen
      rw [if_pos hd, ih (by omega)]
      conv_rhs => rw [hsplit]
      rw [splitOn_append_cons_self_of_not_mem hfront]
    · rw [if_neg hd]
      refine (splitOn_eq_singleton fun hmem => hd ?_).symm
      exact contains_iff_mem.mpr hmem

theorem splitString_eq (input : Text) (delimiter : Char) :
    splitString input delimiter = input.splitOn delimiter := splitLoop_eq le_rfl

theorem isValidExtendOptionToken_iff {token : Text} {allowSlash : Bool} :
    isValidExtendOptionToken token allowSlash = true ↔
      token ≠ [] ∧ ∀ c ∈ token, isTokenChar allowSlash c = true := by
  rw [isValidExtendOptionToken, Bool.and_eq_true, all_eq_true, Bool.not_eq_true',
    isEmpty_eq_false_iff]

/-- White space and the separators stand in no token. -/
theorem not_isTokenChar {allowSlash : Bool} {c : Char}
    (h : isSpace c = true ∨ c = ':' ∨ c = '=' ∨ c = ',') : isTokenChar allowSlash c = false := by
  unfold isSpace at h
  simp only [Bool.or_eq_true, beq_iff_eq] at h
  rcases h with (((((rfl | rfl) | rfl) | rfl) | rfl) | rfl) | rfl | rfl | rfl <;>
    cases allowSlash <;> rfl

end GraphAutofusion.SuperKernel
