import GraphAutofusion.Lib.LetterLanguage
import GraphAutofusion.Lib.PrefixTable
import GraphAutofusion.SuperKernel.OptionsText

/-!
# SuperKernel.OptionsRegex — patterns for kernel names

An option lists patterns of kernel names. A pattern is made of elements, a character or `.`, each of
them perhaps followed by `*`. `MatchRegex` fills a table over the prefixes of the name and of the
pattern. The table decides a language that is read off the pattern from its end, with a `*` taken as
the repetition of whatever stands before it, another `*` included. Patterns with `**` pass the
checks, although such a `*` repeats no element just as a leading one.
-/

namespace GraphAutofusion.SuperKernel

open Lib List
open scoped Computability

/-! ## The code -/

def isPatternChar (ch : Char) : Bool :=
  ch.isAlphanum || ch == '_' || ch == '-' || ch == '.' || ch == '*'

def isValidRegexPattern (pattern : Text) : Bool := !pattern.isEmpty && pattern.all isPatternChar

/-- The closure `matches`: the character before position `i` of the name against the one before
position `j` of the pattern. -/
def regexMatches (pattern opName : Text) (i j : ℕ) : Bool :=
  if i = 0 ∨ j = 0 then false
  else if pattern[j - 1]? = some '.' then true
  else opName[i - 1]? == pattern[j - 1]?

/-- The value `matchFlag[i][j]` gets. -/
def matchFlagCell (pattern opName : Text) (matchFlag : Table Bool) (i j : ℕ) : Bool :=
  if pattern[j - 1]? = some '*' then
    if 2 ≤ j then
      let skipped := matchFlag i j || matchFlag i (j - 2)
      if regexMatches pattern opName i (j - 1) then skipped || matchFlag (i - 1) j else skipped
    else matchFlag i j
  else if regexMatches pattern opName i j then matchFlag i j || matchFlag (i - 1) (j - 1)
  else matchFlag i j

def initialMatchFlag : Table Bool := fun i j => i == 0 && j == 0

/-- The body of `MatchRegex` behind the checks. -/
def matchTable (pattern opName : Text) : Bool :=
  Table.fill (matchFlagCell pattern opName) opName.length pattern.length initialMatchFlag
    opName.length pattern.length

def matchRegex (pattern opName : Text) : Bool :=
  let trimmedPattern := trimString pattern
  if trimmedPattern.isEmpty then false
  else if !isValidRegexPattern trimmedPattern then false
  else if trimmedPattern.head? == some '*' then false
  else matchTable trimmedPattern opName

def matchKernelNameInList (kernelList : List Text) (kernelName : Text) : Bool :=
  kernelList.any fun pattern => matchRegex pattern kernelName

def judgeUbufLockIgnoreKernel (ignoredKernels : List Text) (opName : Text) : Bool :=
  ignoredKernels.any fun ignoredKernel => matchRegex ignoredKernel opName

/-! ## The languages -/

/-- What one element stands for. -/
def element (c : Char) : Language Char := letter fun x => c = '.' ∨ x = c

/-- The meaning of a pattern, read from its start. -/
def patternLanguage : Text → Language Char
  | [] => 1
  | [c] => element c
  | c :: d :: pattern =>
    if d = '*' then (element c)∗ * patternLanguage pattern
    else element c * patternLanguage (d :: pattern)

/-- The patterns that have a meaning. -/
structure IntendedPattern (pattern : Text) : Prop where
  ne_nil : pattern ≠ []
  chars : ∀ c ∈ pattern, isPatternChar c = true
  head : pattern.head? ≠ some '*'
  double : ¬ ['*', '*'] <:+: pattern

/-- The same characters, read from the end of the pattern: a `*` repeats what stands before it. -/
def backLanguage : Text → Language Char
  | [] => 1
  | [c] => if c = '*' then 0 else element c
  | d :: c :: pattern =>
    if d = '*' then backLanguage pattern * (element c)∗
    else backLanguage (c :: pattern) * element d

variable {pattern opName word : Text} {c d x : Char} {i j : ℕ} {L : Language Char}

theorem append_mem_mul_element :
    word ++ [x] ∈ L * element c ↔ word ∈ L ∧ (c = '.' ∨ x = c) := append_mem_mul_letter

theorem append_mem_mul_star : word ++ [x] ∈ L * (element c)∗ ↔
    word ++ [x] ∈ L ∨ (word ∈ L * (element c)∗ ∧ (c = '.' ∨ x = c)) := append_mem_mul_kstar_letter

theorem backLanguage_singleton (hd : d ≠ '*') : backLanguage [d] = element d := if_neg hd

theorem backLanguage_cons (hd : d ≠ '*') (pattern : Text) :
    backLanguage (d :: pattern) = backLanguage pattern * element d := by
  cases pattern with
  | nil => rw [backLanguage_singleton hd, backLanguage, one_mul]
  | cons c pattern => rw [backLanguage, if_neg hd]

theorem backLanguage_star (c : Char) (pattern : Text) :
    backLanguage ('*' :: c :: pattern) = backLanguage pattern * (element c)∗ := by
  rw [backLanguage, if_pos rfl]

theorem patternLanguage_nil : patternLanguage [] = 1 := rfl

theorem patternLanguage_singleton : patternLanguage [c] = element c := rfl

theorem patternLanguage_star : patternLanguage (c :: '*' :: pattern)
    = (element c)∗ * patternLanguage pattern := by
  rw [patternLanguage, if_pos rfl]

theorem patternLanguage_cons (hd : d ≠ '*') : patternLanguage (c :: d :: pattern)
    = element c * patternLanguage (d :: pattern) := by
  rw [patternLanguage, if_neg hd]

theorem patternLanguage_append_element (hd : d ≠ '*') (pattern : Text) :
    patternLanguage (pattern ++ [d]) = patternLanguage pattern * element d := by
  induction pattern using patternLanguage.induct with
  | case1 => rw [nil_append, patternLanguage_singleton, patternLanguage_nil, one_mul]
  | case2 c => rw [singleton_append, patternLanguage_cons hd, patternLanguage_singleton,
      patternLanguage_singleton]
  | case3 c pattern ih =>
    rw [cons_append, cons_append, patternLanguage_star, ih, patternLanguage_star,
      mul_assoc]
  | case4 c e pattern he ih =>
    rw [cons_append, cons_append, patternLanguage_cons he, ← cons_append, ih,
      patternLanguage_cons he, mul_assoc]

theorem patternLanguage_append_star (hc : c ≠ '*') (pattern : Text) :
    patternLanguage (pattern ++ [c, '*']) = patternLanguage pattern * (element c)∗ := by
  have hlast : patternLanguage [c, '*'] = (element c)∗ := by
    rw [patternLanguage_star, patternLanguage_nil, mul_one]
  induction pattern using patternLanguage.induct with
  | case1 => rw [nil_append, hlast, patternLanguage_nil, one_mul]
  | case2 b => rw [singleton_append, patternLanguage_cons hc, hlast, patternLanguage_singleton]
  | case3 b pattern ih =>
    rw [cons_append, cons_append, patternLanguage_star, ih, patternLanguage_star,
      mul_assoc]
  | case4 b e pattern he ih =>
    rw [cons_append, cons_append, patternLanguage_cons he, ← cons_append, ih,
      patternLanguage_cons he, mul_assoc]

/-- Where every `*` follows an element, both readings agree. -/
theorem patternLanguage_reverse (hhead : pattern.getLast? ≠ some '*')
    (hdouble : ¬ ['*', '*'] <:+: pattern) :
    patternLanguage pattern.reverse = backLanguage pattern := by
  induction pattern using backLanguage.induct with
  | case1 => rfl
  | case2 =>
    exact absurd rfl hhead
  | case3 c hc => exact (backLanguage_singleton hc).symm
  | case4 c pattern ih =>
    have hc : c ≠ '*' := by
      rintro rfl
      exact hdouble ⟨[], pattern, rfl⟩
    have hhead' : pattern.getLast? ≠ some '*' := by
      cases pattern with
      | nil => exact fun h => nomatch h
      | cons e pattern => exact hhead
    have hdouble' : ¬ ['*', '*'] <:+: pattern := fun h =>
      hdouble (h.trans (suffix_append ['*', c] pattern).isInfix)
    rw [reverse_cons, reverse_cons, append_assoc, singleton_append,
      patternLanguage_append_star hc, ih hhead' hdouble', backLanguage_star]
  | case5 d c pattern hd ih =>
    have hdouble' : ¬ ['*', '*'] <:+: c :: pattern := fun h =>
      hdouble (h.trans (suffix_cons d (c :: pattern)).isInfix)
    rw [reverse_cons, patternLanguage_append_element hd, ih hhead hdouble',
      backLanguage_cons hd]

/-- No pattern that the checks let through is without names. -/
theorem backLanguage_nonempty (hhead : pattern.getLast? ≠ some '*') :
    ∃ name, name ∈ backLanguage pattern := by
  have helement : ∀ c, [c] ∈ element c := fun c => ⟨c, .inr rfl, rfl⟩
  induction pattern using backLanguage.induct with
  | case1 => exact ⟨[], rfl⟩
  | case2 => exact absurd rfl hhead
  | case3 c hc =>
    rw [backLanguage_singleton hc]
    exact ⟨[c], helement c⟩
  | case4 c pattern ih =>
    cases pattern with
    | nil =>
      rw [backLanguage_star]
      exact ⟨[] ++ [], Language.append_mem_mul rfl (Language.nil_mem_kstar _)⟩
    | cons e pattern =>
      rcases ih hhead with ⟨name, hname⟩
      rw [backLanguage_star]
      exact ⟨name ++ [], Language.append_mem_mul hname (Language.nil_mem_kstar _)⟩
  | case5 d c pattern hd ih =>
    rcases ih hhead with ⟨name, hname⟩
    rw [backLanguage_cons hd]
    exact ⟨name ++ [d], Language.append_mem_mul hname (helement d)⟩

/-! ## The table -/

/-- The flag of two prefixes says whether the name's is in the language of the pattern's. -/
def FlagRight (pattern opName : Text) (i j : ℕ) (flag : Bool) : Prop :=
  flag = true ↔ opName.take i ∈ backLanguage (pattern.take j).reverse

theorem take_succ_reverse (hj : j < pattern.length) :
    (pattern.take (j + 1)).reverse = pattern[j] :: (pattern.take j).reverse := by
  rw [take_succ_eq_append_getElem hj, reverse_append, reverse_singleton,
    singleton_append]

theorem ite_or_else {a b v : Bool} : (if b = true then a || v else a) = (a || (b && v)) := by
  cases b
  · exact (Bool.or_false a).symm
  · rfl

theorem regexMatches_zero : regexMatches pattern opName 0 j = false := by
  rw [regexMatches, if_pos (.inl rfl)]

theorem regexMatches_succ (hi : i < opName.length) (hj : j < pattern.length) :
    regexMatches pattern opName (i + 1) (j + 1) = true ↔ pattern[j] = '.' ∨ opName[i] = pattern[j] := by
  rw [regexMatches, if_neg (by omega), Nat.add_sub_cancel, Nat.add_sub_cancel,
    getElem?_eq_getElem hi, getElem?_eq_getElem hj]
  by_cases hdot : pattern[j] = '.'
  · rw [if_pos (congrArg some hdot)]
    exact iff_of_true rfl (.inl hdot)
  · rw [if_neg fun h => hdot (Option.some.inj h), beq_iff_eq, Option.some.injEq]
    exact (or_iff_right hdot).symm

/-- A cell is right when the cells it reads are. -/
theorem matchFlagCell_right (pattern opName : Text) :
    Table.Computes (FlagRight pattern opName) initialMatchFlag (matchFlagCell pattern opName)
      opName.length pattern.length := by
  intro t i j hi hj hbefore hstart
  have hblank : t i (j + 1) = false := by
    rw [hstart, initialMatchFlag]
    exact Bool.and_false _
  have hlast : (pattern.take (j + 1)).reverse = pattern[j] :: (pattern.take j).reverse :=
    take_succ_reverse hj
  unfold FlagRight
  rw [matchFlagCell, Nat.add_sub_cancel, getElem?_eq_getElem hj, hblank, hlast]
  by_cases hstar : pattern[j] = '*'
  · rw [if_pos (congrArg some hstar), hstar]
    cases j with
    | zero =>
      -- a leading `*` matches nothing
      rw [if_neg (by omega)]
      exact iff_of_false (fun h => nomatch h) (Language.notMem_zero _)
    | succ k =>
      have hk : k < pattern.length := by omega
      have hskip := hbefore i k ⟨by omega, .inr ⟨rfl, by omega⟩⟩
      rw [if_pos (by omega), take_succ_reverse hk, backLanguage_star]
      cases i with
      | zero =>
        rw [regexMatches_zero]
        exact hskip.trans nil_mem_mul_kstar_letter.symm
      | succ i =>
        have hextend := hbefore i (k + 2) ⟨by omega, .inl (Nat.lt_succ_self i)⟩
        unfold FlagRight at hskip hextend
        rw [take_succ_reverse hj, hstar, take_succ_reverse hk, backLanguage_star] at hextend
        rw [take_succ_eq_append_getElem (show i < opName.length by omega)] at hskip ⊢
        rw [append_mem_mul_star, ← hskip, ← hextend, ← regexMatches_succ (by omega) hk]
        show (if _ then false || t (i + 1) k || t i (k + 2) else false || t (i + 1) k) = true ↔ _
        rw [ite_or_else, Bool.false_or, Bool.or_eq_true, Bool.and_eq_true, and_comm]
  · rw [if_neg fun h => hstar (Option.some.inj h), backLanguage_cons hstar]
    cases i with
    | zero =>
      rw [regexMatches_zero]
      exact iff_of_false (fun h => nomatch h) nil_notMem_mul_letter
    | succ i =>
      have hdiag := hbefore i j ⟨by omega, .inl (Nat.lt_succ_self i)⟩
      unfold FlagRight at hdiag
      rw [take_succ_eq_append_getElem (show i < opName.length by omega),
        append_mem_mul_element, ← hdiag, ← regexMatches_succ (by omega) hj]
      show (if _ then false || t i j else false) = true ↔ _
      rw [ite_or_else, Bool.false_or, Bool.and_eq_true, and_comm]

theorem matchTable_iff (pattern opName : Text) :
    matchTable pattern opName = true ↔ opName ∈ backLanguage pattern.reverse := by
  have hfirst : ∀ i ≤ opName.length, FlagRight pattern opName i 0 (initialMatchFlag i 0) := by
    intro i hi
    unfold FlagRight
    rw [initialMatchFlag, take_zero, reverse_nil, backLanguage, Language.mem_one,
      take_eq_nil_iff, Bool.and_eq_true, beq_iff_eq]
    constructor
    · exact fun h => .inl h.1
    · rintro (rfl | rfl)
      · exact ⟨rfl, rfl⟩
      · exact ⟨Nat.le_zero.mp hi, rfl⟩
  have hfill : FlagRight pattern opName opName.length pattern.length (matchTable pattern opName) :=
    Table.right_fill (matchFlagCell_right pattern opName) hfirst le_rfl le_rfl
  rwa [FlagRight, take_length, take_length] at hfill

/-! ## The checks -/

/-- What the checks let through. -/
structure AcceptedPattern (pattern : Text) : Prop where
  valid : isValidRegexPattern pattern = true
  head : pattern.head? ≠ some '*'

theorem isValidRegexPattern_iff :
    isValidRegexPattern pattern = true ↔ pattern ≠ [] ∧ ∀ c ∈ pattern, isPatternChar c = true := by
  rw [isValidRegexPattern, Bool.and_eq_true, all_eq_true, Bool.not_eq_true',
    isEmpty_eq_false_iff]

theorem intendedPattern_iff :
    IntendedPattern pattern ↔ AcceptedPattern pattern ∧ ¬ ['*', '*'] <:+: pattern := by
  constructor
  · intro h
    exact ⟨⟨isValidRegexPattern_iff.mpr ⟨h.ne_nil, h.chars⟩, h.head⟩, h.double⟩
  · rintro ⟨h, hdouble⟩
    have hvalid := isValidRegexPattern_iff.mp h.valid
    exact ⟨hvalid.1, hvalid.2, h.head, hdouble⟩

theorem matchRegex_iff (pattern opName : Text) : matchRegex pattern opName = true ↔
    AcceptedPattern (trimString pattern) ∧ opName ∈ backLanguage (trimString pattern).reverse := by
  unfold matchRegex
  rw [← matchTable_iff]
  by_cases hvalid : isValidRegexPattern (trimString pattern) = true
  · have hne : (trimString pattern).isEmpty = false :=
      isEmpty_eq_false_iff.mpr (isValidRegexPattern_iff.mp hvalid).1
    by_cases hhead : (trimString pattern).head? = some '*'
    · simp only [hne, hvalid, hhead, beq_self_eq_true, if_true]
      exact iff_of_false (by simp) fun h => h.1.head hhead
    · simp only [hne, hvalid, Bool.not_true, Bool.false_eq_true, if_false, beq_iff_eq, hhead]
      exact (and_iff_right ⟨hvalid, hhead⟩).symm
  · have hrejected : ¬ AcceptedPattern (trimString pattern) := fun h => hvalid h.valid
    simp only [hvalid, Bool.not_false, if_true, ite_self]
    exact iff_of_false Bool.false_ne_true fun h => hrejected h.1

/-- On the patterns that have a meaning the code finds it. -/
theorem matchRegex_of_intended (h : IntendedPattern (trimString pattern)) :
    matchRegex pattern opName = true ↔ opName ∈ patternLanguage (trimString pattern) := by
  have hdouble : ¬ ['*', '*'] <:+: (trimString pattern).reverse := fun hinfix =>
    h.double (List.reverse_infix.mp hinfix)
  have hlast : (trimString pattern).reverse.getLast? ≠ some '*' := by
    rw [getLast?_reverse]
    exact h.head
  rw [matchRegex_iff, ← patternLanguage_reverse hlast hdouble, reverse_reverse]
  exact and_iff_right (intendedPattern_iff.mp h).1

/-- The code meets the intended language for every name except on the patterns with `**` that pass
the checks. -/
theorem matchRegex_intended_iff (pattern : Text) :
    (∀ opName, matchRegex pattern opName = true ↔
      IntendedPattern (trimString pattern) ∧ opName ∈ patternLanguage (trimString pattern)) ↔
    ¬ (AcceptedPattern (trimString pattern) ∧ ['*', '*'] <:+: trimString pattern) := by
  constructor
  · rintro h ⟨haccepted, hdouble⟩
    have hlast : (trimString pattern).reverse.getLast? ≠ some '*' := by
      rw [getLast?_reverse]
      exact haccepted.head
    rcases backLanguage_nonempty hlast with ⟨name, hname⟩
    have hmatch := (matchRegex_iff pattern name).mpr ⟨haccepted, hname⟩
    exact ((h name).mp hmatch).1.double hdouble
  · intro h opName
    by_cases hintended : IntendedPattern (trimString pattern)
    · rw [matchRegex_of_intended hintended]
      exact (and_iff_right hintended).symm
    · have hrejected : ¬ AcceptedPattern (trimString pattern) := fun haccepted =>
        hintended (intendedPattern_iff.mpr ⟨haccepted, fun hdouble => h ⟨haccepted, hdouble⟩⟩)
      exact iff_of_false (fun hmatch => hrejected ((matchRegex_iff pattern opName).mp hmatch).1)
        fun hmem => hintended hmem.1

/-- The pattern `a**` is let through and has the name `a`. -/
theorem not_matchRegex_intended_doubleStar : ¬ ∀ pattern opName : Text,
    (matchRegex pattern opName = true ↔
      IntendedPattern (trimString pattern) ∧ opName ∈ patternLanguage (trimString pattern)) := by
  intro h
  have hmatch : matchRegex ['a', '*', '*'] ['a'] = true := by decide
  exact ((h _ _).mp hmatch).1.double (by decide)

end GraphAutofusion.SuperKernel
