import GraphAutofusion.AscIr.Attr
import GraphAutofusion.Lib.Embeddings
import GraphAutofusion.Symbolizer.ShapeEnv

/-!
# Autofuse.AxisMapping — where the axes of a tensor went

When a fused graph is unfolded, a tensor of an inner graph is found again with axes of size one
added. `BuildLocalAxisMapping` looks for the increasing map of its dimensions into those of the other
tensor that keeps the addresses. It searches depth first and stops at the second map, which is enough
to tell one map from none and from several. The static comparison of expressions is a parameter.
-/

namespace GraphAutofusion.Autofuse.AxisMapping

open AscIr Lib Symbolizer List

/-! ## The code -/

inductive AxisMappingStatus where
  | kSuccess
  | kUnsupported
  | kAmbiguous
deriving DecidableEq, Repr

inductive AxisMappingFailureReason where
  | kNone
  | kInvalidRank
  | kInvalidTensorAttr
  | kNonUnitInsertedAxis
  | kMultipleMappings
deriving DecidableEq, Repr

structure AxisMappingResult where
  status : AxisMappingStatus := .kUnsupported
  reason : AxisMappingFailureReason := .kNone
  oldToGlobal : List ℕ := []
  insertedAxes : List Bool := []
deriving DecidableEq, Repr

variable {E : Type} (staticCheckEq : E → E → TriBool) (kSymbolOne : E)

def isTensorAttrValid (attr : AscTensorAttr E) : Bool :=
  attr.axis.length == attr.repeats.length && attr.axis.length == attr.strides.length

/-- The comparison of two entries answers `kTrue`; the indices are in range where it is made. -/
def knownEq (a b : Option E) : Bool :=
  match a, b with
  | some a, some b => staticCheckEq a b == .true
  | _, _ => false

def isUnit (attr : AscTensorAttr E) (index : ℕ) : Bool :=
  knownEq staticCheckEq attr.repeats[index]? (some kSymbolOne)

def isAxisMatch (source : AscTensorAttr E) (sourceIndex : ℕ) (target : AscTensorAttr E)
    (targetIndex : ℕ) : Bool :=
  if !knownEq staticCheckEq source.repeats[sourceIndex]? target.repeats[targetIndex]? then false
  else isUnit staticCheckEq kSymbolOne source sourceIndex ||
    knownEq staticCheckEq source.strides[sourceIndex]? target.strides[targetIndex]?

/-- `mapping` is the same before and after a call, `candidates` is returned. -/
def searchLocalAxisMappings (source target : AscTensorAttr E) (sourceIndex targetIndex : ℕ)
    (mapping : List ℕ) (candidates : List (List ℕ)) : List (List ℕ) :=
  if candidates.length = 2 ∨
      target.axis.length - targetIndex < source.axis.length - sourceIndex then candidates
  else if sourceIndex = source.axis.length then
    if (range' targetIndex (target.axis.length - targetIndex)).all
        (isUnit staticCheckEq kSymbolOne target) then candidates ++ [mapping]
    else candidates
  else if _h : target.axis.length ≤ targetIndex then candidates
  else
    let candidates :=
      if isAxisMatch staticCheckEq kSymbolOne source sourceIndex target targetIndex then
        searchLocalAxisMappings source target (sourceIndex + 1) (targetIndex + 1)
          (mapping ++ [targetIndex]) candidates
      else candidates
    if isUnit staticCheckEq kSymbolOne target targetIndex then
      searchLocalAxisMappings source target sourceIndex (targetIndex + 1) mapping candidates
    else candidates
termination_by target.axis.length - targetIndex

/-- Whether the call succeeds, and the result. -/
def buildLocalAxisMapping (source target : AscTensorAttr E) : Bool × AxisMappingResult :=
  if !isTensorAttrValid source || !isTensorAttrValid target then
    (false, { reason := .kInvalidTensorAttr })
  else if target.axis.length < source.axis.length then (false, { reason := .kInvalidRank })
  else
    match searchLocalAxisMappings staticCheckEq kSymbolOne source target 0 0 [] [] with
    | [] => (false, { reason := .kNonUnitInsertedAxis })
    | [mapping] =>
      (true,
        { status := .kSuccess
          oldToGlobal := mapping
          insertedAxes := mapping.foldl (fun inserted index => inserted.set index false)
            (replicate target.axis.length true) })
    | _ => (false, { status := .kAmbiguous, reason := .kMultipleMappings })

/-! ## What is looked for -/

/-- An increasing map of the dimensions that keeps the addresses. -/
structure AddressPreserving (source target : AscTensorAttr E) (mapping : List ℕ) : Prop where
  length : mapping.length = source.axis.length
  increasing : mapping.Pairwise (· < ·)
  range : ∀ t ∈ mapping, t < target.axis.length
  repeats : ∀ (k : ℕ) (h : k < mapping.length),
    knownEq staticCheckEq source.repeats[k]? target.repeats[mapping[k]]? = true
  strides : ∀ (k : ℕ) (h : k < mapping.length), isUnit staticCheckEq kSymbolOne source k = true ∨
    knownEq staticCheckEq source.strides[k]? target.strides[mapping[k]]? = true
  inserted : ∀ t < target.axis.length, t ∉ mapping →
    isUnit staticCheckEq kSymbolOne target t = true

variable {staticCheckEq kSymbolOne} {source target : AscTensorAttr E} {mapping m : List ℕ}
  {candidates : List (List ℕ)}

/-- All maps, in the order of the unlimited search. -/
abbrev allMappings (staticCheckEq : E → E → TriBool) (kSymbolOne : E)
    (source target : AscTensorAttr E) (left sourceIndex : ℕ) : List (List ℕ) :=
  embeddings source.axis.length target.axis.length
    (fun i t => isAxisMatch staticCheckEq kSymbolOne source i target t)
    (isUnit staticCheckEq kSymbolOne target) left sourceIndex

theorem allMappings_succ {left i : ℕ} :
    allMappings staticCheckEq kSymbolOne source target (left + 1) i =
      (if i < source.axis.length ∧ isAxisMatch staticCheckEq kSymbolOne source i target
          (target.axis.length - (left + 1)) = true then
        (allMappings staticCheckEq kSymbolOne source target left (i + 1)).map
          ((target.axis.length - (left + 1)) :: ·) else []) ++
      (if isUnit staticCheckEq kSymbolOne target (target.axis.length - (left + 1)) = true then
        allMappings staticCheckEq kSymbolOne source target left i else []) := rfl

theorem isAxisMatch_iff {i t : ℕ} :
    isAxisMatch staticCheckEq kSymbolOne source i target t = true ↔
      knownEq staticCheckEq source.repeats[i]? target.repeats[t]? = true ∧
        (isUnit staticCheckEq kSymbolOne source i = true ∨
          knownEq staticCheckEq source.strides[i]? target.strides[t]? = true) := by
  rw [isAxisMatch]
  by_cases h : knownEq staticCheckEq source.repeats[i]? target.repeats[t]? = true
  · rw [if_neg (by rw [h]; exact Bool.false_ne_true), Bool.or_eq_true, and_iff_right h]
  · rw [if_pos (by rw [eq_false_of_ne_true h]; rfl)]
    exact iff_of_false Bool.false_ne_true fun hand => h hand.1

theorem mem_allMappings_iff : m ∈ allMappings staticCheckEq kSymbolOne source target
    target.axis.length 0 ↔ AddressPreserving staticCheckEq kSymbolOne source target m := by
  rw [mem_embeddings le_rfl]
  constructor
  · intro h
    have hmatch : ∀ (k : ℕ) (hk : k < m.length),
        isAxisMatch staticCheckEq kSymbolOne source k target m[k] = true := fun k hk => by
      have hok := h.matched k hk
      rwa [zero_add] at hok
    exact ⟨h.length, h.increasing, fun t ht => (h.range t ht).2,
      fun k hk => (isAxisMatch_iff.mp (hmatch k hk)).1,
      fun k hk => (isAxisMatch_iff.mp (hmatch k hk)).2,
      fun t ht hnot => h.skipped t (by omega) ht hnot⟩
  · intro h
    refine ⟨h.length, h.increasing, fun t ht => ⟨by omega, h.range t ht⟩, fun k hk => ?_,
      fun t _ ht hnot => h.inserted t ht hnot⟩
    rw [zero_add]
    exact isAxisMatch_iff.mpr ⟨h.repeats k hk, h.strides k hk⟩

/-! ## The search -/

theorem take_two_append {α : Type*} (l l' : List α) :
    (l.take 2 ++ l').take 2 = (l ++ l').take 2 := by
  rw [take_append, take_append, take_take, length_take]
  congr 2
  omega

/-- The limited search finds what the unlimited one finds first. -/
theorem searchLocalAxisMappings_eq {sourceIndex targetIndex left : ℕ}
    (hleft : targetIndex + left = target.axis.length) (hsource : sourceIndex ≤ source.axis.length)
    (hc : candidates.length ≤ 2) :
    searchLocalAxisMappings staticCheckEq kSymbolOne source target sourceIndex targetIndex mapping
        candidates =
      (candidates ++ (allMappings staticCheckEq kSymbolOne source target left sourceIndex).map
        (mapping ++ ·)).take 2 := by
  induction left using Nat.strong_induction_on generalizing sourceIndex targetIndex mapping
    candidates with
  | _ left ih =>
    have hkeep : candidates = candidates.take 2 := (take_of_length_le hc).symm
    have hindex : target.axis.length - left = targetIndex := by omega
    rw [searchLocalAxisMappings, show target.axis.length - targetIndex = left by omega]
    by_cases hstop : candidates.length = 2 ∨ left < source.axis.length - sourceIndex
    · rw [if_pos hstop]
      rcases hstop with htwo | hfew
      · rw [take_append_of_le_length (by omega)]
        exact hkeep
      · have hnone : allMappings staticCheckEq kSymbolOne source target left sourceIndex = [] :=
          embeddings_eq_nil (by omega)
        rw [hnone, map_nil, append_nil]
        exact hkeep
    rw [not_or] at hstop
    rw [if_neg (not_or.mpr hstop)]
    by_cases hend : sourceIndex = source.axis.length
    · -- all source dimensions are mapped
      have hself : embeddings source.axis.length target.axis.length
          (fun i t => isAxisMatch staticCheckEq kSymbolOne source i target t)
          (isUnit staticCheckEq kSymbolOne target) left source.axis.length =
            if (range' (target.axis.length - left) left).all
              (isUnit staticCheckEq kSymbolOne target) = true then [[]] else [] :=
        embeddings_self (by omega)
      rw [if_pos hend, hend, allMappings, hself, hindex]
      by_cases hunit : (range' targetIndex left).all
          (isUnit staticCheckEq kSymbolOne target) = true
      · rw [if_pos hunit, if_pos hunit, map_singleton, append_nil,
          take_of_length_le]
        rw [length_append, length_singleton]
        omega
      · rw [if_neg hunit, if_neg hunit, map_nil, append_nil]
        exact hkeep
    · cases left with
      | zero => omega
      | succ left =>
        have hrest := @ih left (Nat.lt_succ_self left)
        have hmatched : (if isAxisMatch staticCheckEq kSymbolOne source sourceIndex target
            targetIndex = true then
            searchLocalAxisMappings staticCheckEq kSymbolOne source target (sourceIndex + 1)
              (targetIndex + 1) (mapping ++ [targetIndex]) candidates else candidates) =
            (candidates ++ (if sourceIndex < source.axis.length ∧ isAxisMatch staticCheckEq
              kSymbolOne source sourceIndex target targetIndex = true then
              (allMappings staticCheckEq kSymbolOne source target left (sourceIndex + 1)).map
                (targetIndex :: ·) else []).map (mapping ++ ·)).take 2 := by
          by_cases hok : isAxisMatch staticCheckEq kSymbolOne source sourceIndex target
              targetIndex = true
          · rw [if_pos hok, if_pos ⟨by omega, hok⟩, hrest (by omega) (by omega) hc, map_map]
            congr 3
            funext m
            exact append_cons mapping targetIndex m |>.symm
          · rw [if_neg hok, if_neg fun h => hok h.2, map_nil, append_nil]
            exact hkeep
        rw [if_neg hend, dif_neg (by omega)]
        dsimp only
        rw [hmatched, allMappings_succ, hindex, map_append, ← append_assoc]
        by_cases hunit : isUnit staticCheckEq kSymbolOne target targetIndex = true
        · rw [if_pos hunit, if_pos hunit, hrest (by omega) hsource (length_take_le _ _),
            take_two_append]
        · rw [if_neg hunit, if_neg hunit, map_nil, append_nil]

/-! ## The result -/

theorem foldl_set_false (mapping : List ℕ) (inserted : List Bool) (t : ℕ) :
    (mapping.foldl (fun inserted index => inserted.set index false) inserted)[t]? =
      if t ∈ mapping then inserted[t]?.map fun _ => false else inserted[t]? := by
  induction mapping generalizing inserted with
  | nil => exact (if_neg not_mem_nil).symm
  | cons index mapping ih =>
    rw [foldl_cons, ih, getElem?_set']
    by_cases hmem : t ∈ mapping
    · rw [if_pos hmem, if_pos (mem_cons_of_mem _ hmem)]
      by_cases ht : index = t
      · rw [if_pos ht]
        cases inserted[t]? <;> rfl
      · rw [if_neg ht]
    · rw [if_neg hmem]
      by_cases ht : index = t
      · rw [if_pos ht, if_pos (mem_cons.mpr (.inl ht.symm))]
        rfl
      · rw [if_neg ht, if_neg fun h => (mem_cons.mp h).elim (fun h => ht h.symm) hmem]

theorem inserted_eq (mapping : List ℕ) (rank : ℕ) :
    mapping.foldl (fun inserted index => inserted.set index false) (replicate rank true) =
      (List.range rank).map fun t => !mapping.contains t := by
  apply ext_getElem?
  intro t
  rw [foldl_set_false, getElem?_map, getElem?_replicate]
  by_cases ht : t < rank
  · rw [if_pos ht, getElem?_range ht]
    by_cases hmem : t ∈ mapping
    · rw [if_pos hmem, Option.map_some, Option.map_some, contains_iff_mem.mpr hmem]
      rfl
    · have hnot : mapping.contains t = false :=
        eq_false_of_ne_true fun h => hmem (contains_iff_mem.mp h)
      rw [if_neg hmem, Option.map_some, hnot]
      rfl
  · have hrange : (List.range rank)[t]? = none :=
      getElem?_eq_none (by rw [length_range]; omega)
    rw [if_neg ht, hrange, Option.map_none, Option.map_none, ite_self]

/-- The candidates are the first two of all maps. -/
theorem searchLocalAxisMappings_exact (staticCheckEq : E → E → TriBool) (kSymbolOne : E)
    (source target : AscTensorAttr E) :
    ∃ all : List (List ℕ), all.Nodup ∧
      (∀ m, m ∈ all ↔ AddressPreserving staticCheckEq kSymbolOne source target m) ∧
      searchLocalAxisMappings staticCheckEq kSymbolOne source target 0 0 [] [] = all.take 2 := by
  refine ⟨allMappings staticCheckEq kSymbolOne source target target.axis.length 0,
    nodup_embeddings le_rfl, fun m => mem_allMappings_iff, ?_⟩
  rw [searchLocalAxisMappings_eq (Nat.zero_add _) (Nat.zero_le _) (Nat.zero_le _), nil_append]
  congr 1
  exact map_id _

/-- One map: it is the result. No map or several: the call fails and says which. -/
structure MappingExact (staticCheckEq : E → E → TriBool) (kSymbolOne : E)
    (source target : AscTensorAttr E) (r : Bool × AxisMappingResult) : Prop where
  success_iff : r.1 = true ↔ ∃! m, AddressPreserving staticCheckEq kSymbolOne source target m
  status_iff : r.2.status = .kSuccess ↔ r.1 = true
  mapping : r.1 = true → AddressPreserving staticCheckEq kSymbolOne source target r.2.oldToGlobal
  inserted : r.1 = true → r.2.insertedAxes =
    (List.range target.axis.length).map fun t => !r.2.oldToGlobal.contains t
  ambiguous_iff : r.2.status = .kAmbiguous ↔ ∃ m m', m ≠ m' ∧
    AddressPreserving staticCheckEq kSymbolOne source target m ∧
      AddressPreserving staticCheckEq kSymbolOne source target m'

theorem mappingExact_of_none {reason : AxisMappingFailureReason}
    (h : ∀ m, ¬ AddressPreserving staticCheckEq kSymbolOne source target m) :
    MappingExact staticCheckEq kSymbolOne source target (false, { reason := reason }) where
  success_iff := iff_of_false Bool.false_ne_true fun ⟨m, hm, _⟩ => h m hm
  status_iff := iff_of_false (fun h => nomatch h) Bool.false_ne_true
  mapping := fun hfalse => absurd hfalse Bool.false_ne_true
  inserted := fun hfalse => absurd hfalse Bool.false_ne_true
  ambiguous_iff := iff_of_false (fun h => nomatch h) fun ⟨m, _, _, hm, _⟩ => h m hm

theorem buildLocalAxisMapping_exact (hsource : isTensorAttrValid source = true)
    (htarget : isTensorAttrValid target = true) :
    MappingExact staticCheckEq kSymbolOne source target
        (buildLocalAxisMapping staticCheckEq kSymbolOne source target) ∧
      ∃ all : List (List ℕ), all.Nodup ∧
        (∀ m, m ∈ all ↔ AddressPreserving staticCheckEq kSymbolOne source target m) ∧
        searchLocalAxisMappings staticCheckEq kSymbolOne source target 0 0 [] [] = all.take 2 := by
  rcases searchLocalAxisMappings_exact staticCheckEq kSymbolOne source target with ⟨all, hnodup, hall, hsearch⟩
  refine ⟨?_, all, hnodup, hall, hsearch⟩
  rw [buildLocalAxisMapping, hsource, htarget, hsearch, if_neg (by decide)]
  cases all with
  | nil =>
    have hnone : ∀ m, ¬ AddressPreserving staticCheckEq kSymbolOne source target m := fun m hm =>
      not_mem_nil ((hall m).mpr hm)
    by_cases hrank : target.axis.length < source.axis.length
    · rw [if_pos hrank]
      exact mappingExact_of_none hnone
    · rw [if_neg hrank]
      exact mappingExact_of_none hnone
  | cons m rest =>
    have hm := (hall m).mp mem_cons_self
    have hrank : ¬ target.axis.length < source.axis.length := by
      intro hrank
      -- the search would have stopped at once
      rw [searchLocalAxisMappings, if_pos (.inr hrank)] at hsearch
      exact nomatch hsearch
    rw [if_neg hrank]
    cases rest with
    | nil =>
      have hunique : ∃! m, AddressPreserving staticCheckEq kSymbolOne source target m :=
        ⟨m, hm, fun m' hm' => mem_singleton.mp ((hall m').mpr hm')⟩
      constructor
      · exact iff_of_true rfl hunique
      · exact iff_of_true rfl rfl
      · exact fun _ => hm
      · exact fun _ => inserted_eq m target.axis.length
      · refine iff_of_false (fun h => nomatch h) ?_
        rintro ⟨m₁, m₂, hne, h₁, h₂⟩
        exact hne (hunique.unique h₁ h₂)
    | cons m' rest =>
      have hm' := (hall m').mp (mem_cons_of_mem _ mem_cons_self)
      have hne : m ≠ m' := fun heq =>
        (nodup_cons.mp hnodup).1 (heq ▸ mem_cons_self)
      constructor
      · exact iff_of_false Bool.false_ne_true fun h => hne (h.unique hm hm')
      · exact iff_of_false (fun h => nomatch h) Bool.false_ne_true
      · exact fun hfalse => absurd hfalse Bool.false_ne_true
      · exact fun hfalse => absurd hfalse Bool.false_ne_true
      · exact iff_of_true rfl ⟨m, m', hne, hm, hm'⟩

def constantCheckEq (a b : ℕ) : TriBool := if a = b then .true else .false

/-- A matrix, and the matrix with two axes of size one between its dimensions. -/
def matrixAttr : AscTensorAttr ℕ := { axis := [101, 102], repeats := [55, 3], strides := [3, 1] }

def widenedAttr : AscTensorAttr ℕ :=
  { axis := [201, 202, 203, 204], repeats := [55, 1, 1, 3], strides := [3, 0, 0, 1] }

theorem buildLocalAxisMapping_exact_widened :
    MappingExact constantCheckEq 1 matrixAttr widenedAttr
        (buildLocalAxisMapping constantCheckEq 1 matrixAttr widenedAttr) ∧
      ∃ all : List (List ℕ), all.Nodup ∧
        (∀ m, m ∈ all ↔ AddressPreserving constantCheckEq 1 matrixAttr widenedAttr m) ∧
        searchLocalAxisMappings constantCheckEq 1 matrixAttr widenedAttr 0 0 [] [] = all.take 2 :=
  buildLocalAxisMapping_exact rfl rfl

end GraphAutofusion.Autofuse.AxisMapping
