import GraphAutofusion.SuperKernel.OptionsText
import Mathlib.Data.List.Forall2

/-!
# SuperKernel.ExtendOption — options with values of their own

An extended option is a text `key=value,value:key=value`. It is trimmed, cut at `:`, and every piece
is trimmed again before its `=` is looked for; keys and values are trimmed after that. What is
accepted are exactly the renderings of a map from keys to lists of values, with white space around
the tokens.
-/

namespace GraphAutofusion.SuperKernel

open Lib List

/-! ## The code -/

def kMaxExtendOptionLength : ℕ := 1024

/-- `parsedValue` and `tmpResult`, by their entries. -/
abbrev ExtendMap := Text → Option (List Text)

def parseExtendValue (rawSubValue : Text) : Option Text :=
  let value := trimString rawSubValue
  if isValidExtendOptionToken value true then some value else none

/-- The body of the loop over the pairs: the map with one more entry. -/
def parseExtendPair (tmpResult : ExtendMap) (rawPair : Text) : Option ExtendMap :=
  let pair := trimString rawPair
  if pair.isEmpty then none
  else
    match pair.idxOf? '=' with
    | none => none
    | some eqPos =>
      if eqPos == 0 || eqPos == pair.length - 1 || (pair.drop (eqPos + 1)).contains '=' then none
      else
        let key := trimString (pair.take eqPos)
        if !isValidExtendOptionToken key false then none
        else if (tmpResult key).isSome then none
        else
          match (splitString (pair.drop (eqPos + 1)) ',').mapM parseExtendValue with
          | none => none
          | some valueList => some (Function.update tmpResult key (some valueList))

/-- The result and `parsedValue` afterwards. `rawValue` is the text before the terminating zero, if
the pointer is not null. -/
def parseAndValidateExtendOptionValue (rawValue : Option Text) (parsedValue : ExtendMap) :
    Bool × ExtendMap :=
  match rawValue with
  | none => (false, parsedValue)
  | some input =>
    if kMaxExtendOptionLength < input.length then (false, parsedValue)
    else
      let trimmedInput := trimString input
      if trimmedInput.isEmpty then (false, parsedValue)
      else
        match (splitString trimmedInput ':').foldlM parseExtendPair fun _ => none with
        | none => (false, parsedValue)
        | some tmpResult => (true, tmpResult)

/-! ## Renderings -/

abbrev ExtendEntry := Text × List Text

/-- A key and its values as they may stand in an option. -/
structure ValidEntry (entry : ExtendEntry) : Prop where
  key : isValidExtendOptionToken entry.1 false = true
  ne_nil : entry.2 ≠ []
  values : ∀ value ∈ entry.2, isValidExtendOptionToken value true = true

/-- `key=value,value` with white space around every token. -/
def RendersEntry (entry : ExtendEntry) (text : Text) : Prop :=
  ∃ key values, Padded isSpace entry.1 key ∧ Forall₂ (Padded isSpace) entry.2 values ∧
    text = key ++ '=' :: [','].intercalate values

/-- The text renders the map with its entries in some order. -/
structure RenderingOf (map : ExtendMap) (text : Text) (entries : List ExtendEntry) : Prop where
  ne_nil : entries ≠ []
  valid : ∀ entry ∈ entries, ValidEntry entry
  nodup : (entries.map Prod.fst).Nodup
  map_iff : ∀ key values, map key = some values ↔ (key, values) ∈ entries
  text : ∃ parts, Forall₂ RendersEntry entries parts ∧ text = [':'].intercalate parts

/-! ## One pair -/

variable {text key : Text} {values raws : List Text} {entry : ExtendEntry} {map tmp : ExtendMap}
  {allowSlash : Bool} {c : Char}

/-- A key stands before the only `=`, the values behind it between commas. -/
def SplitsInto (entry : ExtendEntry) (text : Text) : Prop :=
  ∃ front back, text = front ++ '=' :: back ∧ '=' ∉ front ∧ '=' ∉ back ∧
    trimString front = entry.1 ∧ (back.splitOn ',').map trimString = entry.2

theorem not_isSpace_of_valid (h : isValidExtendOptionToken text allowSlash = true) :
    ∀ c ∈ text, isSpace c = false := by
  intro c hc
  by_contra hspace
  have hfalse : isTokenChar allowSlash c = false :=
    not_isTokenChar (.inl (eq_true_of_ne_false hspace))
  exact Bool.false_ne_true (hfalse.symm.trans ((isValidExtendOptionToken_iff.mp h).2 c hc))

/-- No separator stands in a padded token. -/
theorem notMem_of_padded (hvalid : isValidExtendOptionToken key allowSlash = true)
    (h : Padded isSpace key text) (hc : c = ':' ∨ c = '=' ∨ c = ',') : c ∉ text := by
  intro hmem
  rcases h.mem hmem with htoken | hspace
  · have htrue := (isValidExtendOptionToken_iff.mp hvalid).2 c htoken
    rw [not_isTokenChar (.inr hc)] at htrue
    exact Bool.false_ne_true htrue
  · rcases hc with rfl | rfl | rfl <;> exact Bool.false_ne_true hspace

theorem map_trimString_of_padded (hvalid : ∀ value ∈ values, isValidExtendOptionToken value true = true)
    (h : Forall₂ (Padded isSpace) values raws) : raws.map trimString = values := by
  induction h with
  | nil => rfl
  | cons hpad _ ih =>
    have htoken := not_isSpace_of_valid (hvalid _ mem_cons_self)
    rw [map_cons, ih fun value hvalue => hvalid value (mem_cons_of_mem _ hvalue)]
    exact congrArg (· :: _) (hpad.trim_eq htoken)

theorem notMem_of_forall₂ (hvalid : ∀ value ∈ values, isValidExtendOptionToken value true = true)
    (h : Forall₂ (Padded isSpace) values raws) (hc : c = ':' ∨ c = '=' ∨ c = ',') :
    ∀ raw ∈ raws, c ∉ raw := by
  induction h with
  | nil => exact fun raw hraw => nomatch hraw
  | cons hpad _ ih =>
    intro raw hraw
    rcases mem_cons.mp hraw with rfl | hraw
    · exact notMem_of_padded (hvalid _ mem_cons_self) hpad hc
    · exact ih (fun value hvalue => hvalid value (mem_cons_of_mem _ hvalue)) raw hraw

theorem forall₂_padded_trimString (raws : List Text) :
    Forall₂ (Padded isSpace) (raws.map trimString) raws := by
  induction raws with
  | nil => exact .nil
  | cons raw raws ih => exact .cons (padded_trim raw) ih

/-- The rendering of an entry, cut at its separators. -/
theorem rendersEntry_iff (hvalid : ValidEntry entry) :
    RendersEntry entry text ↔ SplitsInto entry text := by
  constructor
  · rintro ⟨front, raws, hkey, hvalues, rfl⟩
    have hne : raws ≠ [] := by
      rintro rfl
      exact hvalid.ne_nil (forall₂_nil_right_iff.mp hvalues)
    have hcomma : ∀ raw ∈ raws, ',' ∉ raw :=
      notMem_of_forall₂ hvalid.values hvalues (.inr (.inr rfl))
    refine ⟨front, _, rfl, notMem_of_padded hvalid.key hkey (.inr (.inl rfl)), ?_,
      hkey.trim_eq (not_isSpace_of_valid hvalid.key), ?_⟩
    · intro hmem
      rcases mem_of_mem_intercalate hmem with heq | ⟨raw, hraw, hmem⟩
      · exact absurd heq (by decide)
      · exact notMem_of_forall₂ hvalid.values hvalues (.inr (.inl rfl)) raw hraw hmem
    · rw [splitOn_intercalate ',' hcomma hne]
      exact map_trimString_of_padded hvalid.values hvalues
  · rintro ⟨front, back, rfl, -, -, hkey, hvalues⟩
    refine ⟨front, back.splitOn ',', hkey ▸ padded_trim front,
      hvalues ▸ forall₂_padded_trimString _, ?_⟩
    rw [intercalate_splitOn]

theorem parseExtendValue_iff {raw value : Text} : parseExtendValue raw = some value ↔
    value = trimString raw ∧ isValidExtendOptionToken value true = true := by
  rw [parseExtendValue, Option.ite_none_right_eq_some, Option.some.injEq]
  constructor
  · rintro ⟨hvalid, rfl⟩
    exact ⟨rfl, hvalid⟩
  · rintro ⟨rfl, hvalid⟩
    exact ⟨hvalid, rfl⟩

/-- The loop over the values. -/
theorem mapM_parseExtendValue : raws.mapM parseExtendValue = some values ↔
    values = raws.map trimString ∧ ∀ value ∈ values, isValidExtendOptionToken value true = true := by
  induction raws generalizing values with
  | nil =>
    rw [mapM_nil, map_nil]
    constructor
    · intro h
      cases h
      exact ⟨rfl, fun value hvalue => nomatch hvalue⟩
    · rintro ⟨rfl, -⟩
      rfl
  | cons raw raws ih =>
    rw [mapM_cons, Option.bind_eq_bind, Option.bind_eq_some_iff]
    constructor
    · rintro ⟨value, hvalue, hmore⟩
      rcases Option.bind_eq_some_iff.mp hmore with ⟨rest, hrest, heq⟩
      rcases parseExtendValue_iff.mp hvalue with ⟨rfl, hvalid⟩
      rcases ih.mp hrest with ⟨rfl, hall⟩
      cases heq
      exact ⟨rfl, forall_mem_cons.mpr ⟨hvalid, hall⟩⟩
    · rintro ⟨rfl, hall⟩
      rcases forall_mem_cons.mp hall with ⟨hvalid, hrest⟩
      refine ⟨_, parseExtendValue_iff.mpr ⟨rfl, hvalid⟩, Option.bind_eq_some_iff.mpr ?_⟩
      exact ⟨_, ih.mpr ⟨rfl, hrest⟩, rfl⟩

/-- The pair around its first `=`: the checks of the position say that something stands on both
sides, which valid tokens imply. -/
theorem parseExtendPair_cut {front back : Text} (hfront : '=' ∉ front) :
    parseExtendPair tmp (front ++ '=' :: back) = some map ↔
      ('=' ∉ back ∧ ValidEntry (trimString front, (back.splitOn ',').map trimString) ∧
        tmp (trimString front) = none) ∧
      map = Function.update tmp (trimString front) (some ((back.splitOn ',').map trimString)) := by
  have hpair : trimString (front ++ '=' :: back) =
      front.dropWhile isSpace ++ '=' :: back.rdropWhile isSpace := trim_append_cons front back rfl
  have hkey : trimString (front.dropWhile isSpace) = trimString front := trim_dropWhile front
  have hvalues : ((back.rdropWhile isSpace).splitOn ',').map trimString
      = (back.splitOn ',').map trimString := map_trim_splitOn_rdropWhile rfl back
  have hsign : '=' ∈ back.rdropWhile isSpace ↔ '=' ∈ back := mem_rdropWhile_iff rfl
  have hnot : '=' ∉ front.dropWhile isSpace := fun h => hfront ((dropWhile_suffix _).mem h)
  rw [parseExtendPair]
  dsimp only
  rw [hpair, idxOf?_append_cons hnot]
  generalize front.dropWhile isSpace = a at *
  generalize back.rdropWhile isSpace = b at *
  have hne : (a ++ '=' :: b).isEmpty = false := by simp
  have hdrop : (a ++ '=' :: b).drop (a.length + 1) = b := by simp
  dsimp only
  rw [hdrop, take_left, hkey, if_neg (by rw [hne]; exact Bool.false_ne_true), splitString_eq]
  by_cases hbad : (a.length == 0 || a.length == (a ++ '=' :: b).length - 1 || b.contains '=') = true
  · rw [if_pos hbad]
    refine iff_of_false (fun h => nomatch h) ?_
    rintro ⟨⟨hback, hvalid, -⟩, -⟩
    have ha : a ≠ [] := by
      rintro rfl
      exact (isValidExtendOptionToken_iff.mp hvalid.key).1 hkey.symm
    have hb : b ≠ [] := by
      rintro rfl
      -- the empty text is cut into one empty value
      have hempty : [] ∈ (back.splitOn ',').map trimString := by
        rw [← hvalues]
        exact mem_singleton_self _
      exact (isValidExtendOptionToken_iff.mp (hvalid.values _ hempty)).1 rfl
    have hla := length_pos_iff.mpr ha
    have hlb := length_pos_iff.mpr hb
    rw [Bool.or_eq_true, Bool.or_eq_true, beq_iff_eq, beq_iff_eq, contains_iff_mem, hsign,
      length_append, length_cons] at hbad
    rcases hbad with (hbad | hbad) | hbad
    · omega
    · omega
    · exact hback hbad
  · have hback : '=' ∉ back := fun h => hbad (by
      rw [Bool.or_eq_true, contains_iff_mem, hsign]
      exact .inr h)
    rw [if_neg hbad]
    by_cases hvalid : isValidExtendOptionToken (trimString front) false = true
    · rw [if_neg (by rw [hvalid]; exact Bool.false_ne_true)]
      by_cases htmp : tmp (trimString front) = none
      · rw [if_neg (by rw [htmp]; exact Bool.false_ne_true)]
        cases hparse : (b.splitOn ',').mapM parseExtendValue with
        | none =>
          refine iff_of_false (fun h => nomatch h) fun h => ?_
          have hsome := mapM_parseExtendValue.mpr ⟨hvalues.symm, h.1.2.1.values⟩
          rw [hparse] at hsome
          exact nomatch hsome
        | some valueList =>
          rcases mapM_parseExtendValue.mp hparse with ⟨rfl, hall⟩
          dsimp only
          rw [hvalues] at hall ⊢
          have hne : (back.splitOn ',').map trimString ≠ [] := fun h =>
            splitOn_ne_nil ',' back (map_eq_nil_iff.mp h)
          rw [Option.some.injEq, eq_comm]
          exact (and_iff_right ⟨hback, ⟨hvalid, hne, hall⟩, htmp⟩).symm
      · rw [if_pos (Option.isSome_iff_ne_none.mpr htmp)]
        exact iff_of_false (fun h => nomatch h) fun h => htmp h.1.2.2
    · rw [if_pos (by rw [eq_false_of_ne_true hvalid]; rfl)]
      exact iff_of_false (fun h => nomatch h) fun h => hvalid h.1.2.1.key

theorem parseExtendPair_iff {rawPair : Text} : parseExtendPair tmp rawPair = some map ↔
    ∃ entry, ValidEntry entry ∧ SplitsInto entry rawPair ∧ tmp entry.1 = none ∧
      map = Function.update tmp entry.1 (some entry.2) := by
  by_cases hmem : '=' ∈ rawPair
  · rcases eq_append_cons_of_mem hmem with ⟨front, back, rfl, hfront⟩
    rw [parseExtendPair_cut hfront]
    constructor
    · rintro ⟨⟨hback, hvalid, htmp⟩, rfl⟩
      exact ⟨_, hvalid, ⟨front, back, rfl, hfront, hback, rfl, rfl⟩, htmp, rfl⟩
    · rintro ⟨⟨key, values⟩, hvalid, ⟨front', back', heq, hfront', hback, rfl, rfl⟩, htmp, rfl⟩
      rcases (append_cons_inj_of_notMem hfront' hback).mp heq.symm with ⟨rfl, -, rfl⟩
      exact ⟨⟨hback, hvalid, htmp⟩, rfl⟩
  · have htrim : '=' ∉ trimString rawPair := fun h => hmem (mem_of_mem_trim h)
    have hnone : parseExtendPair tmp rawPair = none := by
      rw [parseExtendPair]
      dsimp only
      rw [idxOf?_eq_none_iff.mpr htrim]
      exact ite_self _
    rw [hnone]
    refine iff_of_false (fun h => nomatch h) ?_
    rintro ⟨entry, -, ⟨front, back, rfl, -⟩, -⟩
    exact hmem (mem_append_right _ mem_cons_self)

/-! ## The whole option -/

/-- One more entry in the map. -/
theorem update_eq_some_iff {values' : List Text} {key' : Text} (htmp : tmp key = none) :
    Function.update tmp key (some values) key' = some values' ↔
      (key', values') = (key, values) ∨ tmp key' = some values' := by
  by_cases hkey : key' = key
  · subst hkey
    rw [Function.update_self, htmp, Option.some.injEq, Prod.mk.injEq]
    constructor
    · rintro rfl
      exact .inl ⟨rfl, rfl⟩
    · rintro (⟨-, rfl⟩ | h)
      · rfl
      · exact nomatch h
  · rw [Function.update_of_ne hkey]
    refine (or_iff_right fun heq => hkey ?_).symm
    exact congrArg Prod.fst heq

/-- The loop over the pairs collects entries with new keys. -/
theorem foldlM_parseExtendPair {pieces : List Text} :
    pieces.foldlM parseExtendPair tmp = some map ↔
      ∃ entries, (∀ entry ∈ entries, ValidEntry entry) ∧ Forall₂ SplitsInto entries pieces ∧
        (entries.map Prod.fst).Nodup ∧ (∀ entry ∈ entries, tmp entry.1 = none) ∧
        ∀ key values, map key = some values ↔ (key, values) ∈ entries ∨ tmp key = some values := by
  induction pieces generalizing tmp with
  | nil =>
    rw [foldlM_nil]
    constructor
    · intro h
      cases h
      exact ⟨[], forall_mem_nil _, .nil, nodup_nil, forall_mem_nil _,
        fun key values => (or_iff_right not_mem_nil).symm⟩
    · rintro ⟨entries, -, hparts, -, -, hmap⟩
      cases hparts
      have heq : tmp = map := funext fun key => Option.ext fun values => by
        rw [hmap]
        exact (or_iff_right not_mem_nil).symm
      rw [heq]
      rfl
  | cons piece pieces ih =>
    rw [foldlM_cons, Option.bind_eq_bind, Option.bind_eq_some_iff]
    constructor
    · rintro ⟨tmp', hpair, hrest⟩
      rcases parseExtendPair_iff.mp hpair with ⟨entry, hvalid, hsplit, hfree, rfl⟩
      rcases ih.mp hrest with ⟨entries, hvalids, hparts, hnodup, hnew, hmap⟩
      -- the keys that follow are neither in the map before nor the key of this entry
      have hkeys : ∀ e ∈ entries, e.1 ≠ entry.1 ∧ tmp e.1 = none := by
        intro e he
        have hnone := hnew e he
        have hne : e.1 ≠ entry.1 := by
          intro heq
          rw [heq, Function.update_self] at hnone
          exact nomatch hnone
        rw [Function.update_of_ne hne] at hnone
        exact ⟨hne, hnone⟩
      refine ⟨entry :: entries, forall_mem_cons.mpr ⟨hvalid, hvalids⟩, .cons hsplit hparts,
        ?_, forall_mem_cons.mpr ⟨hfree, fun e he => (hkeys e he).2⟩, ?_⟩
      · rw [map_cons, nodup_cons]
        refine ⟨fun hmem => ?_, hnodup⟩
        rcases mem_map.mp hmem with ⟨e, he, heq⟩
        exact (hkeys e he).1 heq
      · intro key values
        rw [hmap, update_eq_some_iff hfree, mem_cons, ← or_assoc, or_comm (a := _ ∈ entries)]
    · rintro ⟨entries, hvalids, hparts, hnodup, hnew, hmap⟩
      cases hparts with
      | @cons entry _ rest _ hsplit hparts =>
        rcases forall_mem_cons.mp hvalids with ⟨hvalid, hvalids⟩
        rcases forall_mem_cons.mp hnew with ⟨hfree, hnew⟩
        rw [map_cons, nodup_cons] at hnodup
        refine ⟨_, parseExtendPair_iff.mpr ⟨entry, hvalid, hsplit, hfree, rfl⟩, ?_⟩
        apply ih.mpr
        refine ⟨rest, hvalids, hparts, hnodup.2, ?_, ?_⟩
        · intro e he
          have hne : e.1 ≠ entry.1 := fun heq =>
            hnodup.1 (heq ▸ mem_map_of_mem he)
          rw [Function.update_of_ne hne]
          exact hnew e he
        · intro key values
          rw [hmap, update_eq_some_iff hfree, mem_cons, ← or_assoc, or_comm (a := _ ∈ rest)]

theorem notMem_colon (hvalid : ValidEntry entry) (h : RendersEntry entry text) : ':' ∉ text := by
  rcases h with ⟨front, raws, hkey, hvalues, rfl⟩
  intro hmem
  rcases mem_append.mp hmem with hmem | hmem
  · exact notMem_of_padded hvalid.key hkey (.inl rfl) hmem
  · rcases mem_cons.mp hmem with heq | hmem
    · exact absurd heq (by decide)
    · rcases mem_of_mem_intercalate hmem with heq | ⟨raw, hraw, hmem⟩
      · exact absurd heq (by decide)
      · exact notMem_of_forall₂ hvalid.values hvalues (.inl rfl) raw hraw hmem

theorem forall₂_rendersEntry_iff {entries : List ExtendEntry} {parts : List Text}
    (hvalid : ∀ entry ∈ entries, ValidEntry entry) :
    Forall₂ RendersEntry entries parts ↔ Forall₂ SplitsInto entries parts := by
  induction entries generalizing parts with
  | nil => rw [forall₂_nil_left_iff, forall₂_nil_left_iff]
  | cons entry entries ih =>
    rcases forall_mem_cons.mp hvalid with ⟨hentry, hentries⟩
    rw [forall₂_cons_left_iff, forall₂_cons_left_iff]
    exact exists_congr fun part => exists_congr fun parts =>
      and_congr (rendersEntry_iff hentry) (and_congr_left fun _ => ih hentries)

/-- The loop over the pairs of an untrimmed text succeeds on the renderings. -/
theorem foldlM_eq_some_iff : (text.splitOn ':').foldlM parseExtendPair (fun _ => none) = some map ↔
    ∃ entries, RenderingOf map text entries := by
  rw [foldlM_parseExtendPair]
  constructor
  · rintro ⟨entries, hvalid, hparts, hnodup, -, hmap⟩
    refine ⟨entries, ?_, hvalid, hnodup, ?_, text.splitOn ':', ?_, ?_⟩
    · rintro rfl
      exact splitOn_ne_nil ':' text (forall₂_nil_left_iff.mp hparts)
    · intro key values
      rw [hmap]
      exact or_iff_left fun h => nomatch h
    · exact (forall₂_rendersEntry_iff hvalid).mpr hparts
    · rw [intercalate_splitOn]
  · rintro ⟨entries, hne, hvalid, hnodup, hmap, parts, hparts, rfl⟩
    have hparts_ne : parts ≠ [] := by
      rintro rfl
      exact hne (forall₂_nil_right_iff.mp hparts)
    have hcolon : ∀ part ∈ parts, ':' ∉ part := by
      intro part hpart
      rcases getElem_of_mem hpart with ⟨i, hi, rfl⟩
      have hlen := hparts.length_eq
      have hrender := Forall₂.get hparts (by omega : i < entries.length) hi
      exact notMem_colon (hvalid _ (get_mem entries ⟨i, by omega⟩)) hrender
    rw [splitOn_intercalate ':' hcolon hparts_ne]
    refine ⟨entries, hvalid, (forall₂_rendersEntry_iff hvalid).mp hparts, hnodup,
      fun entry _ => rfl, fun key values => ?_⟩
    rw [hmap]
    exact (or_iff_left fun h => nomatch h).symm

theorem parseExtendPair_trimString (tmp : ExtendMap) (rawPair : Text) :
    parseExtendPair tmp (trimString rawPair) = parseExtendPair tmp rawPair := by
  have htrim : trimString (trimString rawPair) = trimString rawPair := trim_trim rawPair
  rw [parseExtendPair, parseExtendPair, htrim]

/-- Trimming the whole text first changes nothing. -/
theorem foldlM_trimString (input : Text) :
    (splitString (trimString input) ':').foldlM parseExtendPair tmp =
      (input.splitOn ':').foldlM parseExtendPair tmp := by
  have hpieces : ∀ pieces : List Text,
      (pieces.map trimString).foldlM parseExtendPair tmp = pieces.foldlM parseExtendPair tmp := by
    intro pieces
    rw [foldlM_map]
    simp only [parseExtendPair_trimString]
  have htrim : ((trimString input).splitOn ':').map trimString
      = (input.splitOn ':').map trimString := map_trim_splitOn_trim rfl input
  rw [splitString_eq, ← hpieces, htrim, hpieces]

theorem parseAndValidateExtendOptionValue_eq {input : Text} (parsedValue : ExtendMap)
    (h : input.length ≤ kMaxExtendOptionLength) :
    parseAndValidateExtendOptionValue (some input) parsedValue =
      match (input.splitOn ':').foldlM parseExtendPair fun _ => none with
      | none => (false, parsedValue)
      | some tmpResult => (true, tmpResult) := by
  rw [parseAndValidateExtendOptionValue]
  dsimp only
  rw [if_neg (not_lt.mpr h)]
  by_cases hempty : (trimString input).isEmpty = true
  · -- a blank text is one blank pair
    rw [if_pos hempty, ← foldlM_trimString, List.isEmpty_iff.mp hempty]
    rfl
  · rw [if_neg hempty, foldlM_trimString]

/-- The parser accepts the renderings of maps in at most `kMaxExtendOptionLength` characters, yields
the map, and leaves `parsedValue` alone otherwise. -/
theorem parseAndValidateExtendOptionValue_exact (rawValue : Option Text) (parsedValue : ExtendMap) :
    (∀ map entries text, rawValue = some text → text.length ≤ kMaxExtendOptionLength →
      RenderingOf map text entries →
        parseAndValidateExtendOptionValue rawValue parsedValue = (true, map)) ∧
    ((¬ ∃ map entries text, rawValue = some text ∧ text.length ≤ kMaxExtendOptionLength ∧
      RenderingOf map text entries) →
        parseAndValidateExtendOptionValue rawValue parsedValue = (false, parsedValue)) := by
  constructor
  · rintro map entries text rfl hlen hrender
    rw [parseAndValidateExtendOptionValue_eq parsedValue hlen,
      foldlM_eq_some_iff.mpr ⟨entries, hrender⟩]
  · intro hno
    cases rawValue with
    | none => rfl
    | some input =>
      by_cases hlen : input.length ≤ kMaxExtendOptionLength
      · rw [parseAndValidateExtendOptionValue_eq parsedValue hlen]
        cases hfold : (input.splitOn ':').foldlM parseExtendPair fun _ => none with
        | none => rfl
        | some map =>
          rcases foldlM_eq_some_iff.mp hfold with ⟨entries, hrender⟩
          exact absurd ⟨map, entries, input, rfl, hlen, hrender⟩ hno
      · rw [parseAndValidateExtendOptionValue]
        exact if_pos (Nat.not_le.mp hlen)

example : (parseAndValidateExtendOptionValue
    (some [' ', 'k', ' ', '=', 'a', ' ', ',', '\t', 'b']) fun _ => none).2 ['k']
      = some [['a'], ['b']] := by decide

end GraphAutofusion.SuperKernel
