import GraphAutofusion.Autofuse.GroupReduction

/-!
# Autofuse.GroupReductionClasses — the classes that are merged

A class holds simple groups whose axes are known to equal those of its first member. The classes are
disjoint, and if the comparison is an equivalence no two comparable groups are kept apart.
-/

namespace GraphAutofusion.Autofuse.GroupReduction

open Lib Symbolizer List

variable {E : Type}

/-- Axes with the same id, name and size for all values of the symbols. -/
def SameAxes {V : Type} (eval : V → E → ℤ) (lhs rhs : List (Axis E)) : Prop :=
  Forall₂ (fun a b : Axis E => a.id = b.id ∧ a.name = b.name ∧ ∀ v, eval v a.size = eval v b.size)
    lhs rhs

/-- The static comparison says `kTrue` of equal expressions only. -/
def Sound {V : Type} (staticCheckEq : E → E → TriBool) (eval : V → E → ℤ) : Prop :=
  ∀ a b, staticCheckEq a b = .true → ∀ v, eval v a = eval v b

structure Classes (staticCheckEq : E → E → TriBool) (groups : List (Group E))
    (classes : List MergeableGraphs) : Prop where
  nodup : (classes.flatMap MergeableGraphs.graphIndices).Nodup
  size : ∀ c ∈ classes, 2 ≤ c.graphIndices.length
  counts : ∀ c ∈ classes, c.nodeCounts = c.graphIndices.map (countAt groups)
  lt : ∀ c ∈ classes, ∀ i ∈ c.graphIndices, i < groups.length
  simple : ∀ c ∈ classes, ∀ i ∈ c.graphIndices, simpleAt groups i = true
  axes : ∀ c ∈ classes, ∃ lead ∈ c.graphIndices, ∀ i ∈ c.graphIndices,
    i = lead ∨ isAxisVecEqual staticCheckEq (axesAt groups lead) (axesAt groups i) = true

section Axes

variable {V : Type} {eval : V → E → ℤ} {staticCheckEq : E → E → TriBool} {a b c : List (Axis E)}

theorem SameAxes.refl (eval : V → E → ℤ) (a : List (Axis E)) : SameAxes eval a a :=
  forall₂_same.mpr fun _ _ => ⟨rfl, rfl, fun _ => rfl⟩

theorem SameAxes.symm (h : SameAxes eval a b) : SameAxes eval b a :=
  Forall₂.flip (h.imp fun _ _ hab => ⟨hab.1.symm, hab.2.1.symm, fun v => (hab.2.2 v).symm⟩)

theorem SameAxes.trans (hab : SameAxes eval a b) (hbc : SameAxes eval b c) : SameAxes eval a c := by
  induction hab generalizing c with
  | nil => exact hbc
  | cons hhead _ ih =>
    cases hbc with
    | cons hhead' htail =>
      refine .cons ⟨hhead.1.trans hhead'.1, hhead.2.1.trans hhead'.2.1, fun v => ?_⟩ (ih htail)
      exact (hhead.2.2 v).trans (hhead'.2.2 v)

theorem sameAxes_of_isAxisVecEqual (hsound : Sound staticCheckEq eval)
    (h : isAxisVecEqual staticCheckEq a b = true) : SameAxes eval a b := by
  rw [isAxisVecEqual] at h
  split at h
  case isTrue => cases h
  case isFalse hlength =>
    rw [SameAxes, forall₂_iff_zip]
    refine ⟨not_not.mp hlength, fun {x y} hmem => ?_⟩
    have hpair := all_eq_true.mp h (x, y) hmem
    rw [isAxisEqual] at hpair
    split at hpair
    case isTrue => cases hpair
    case isFalse hsame =>
      rw [not_or, not_not, not_not] at hsame
      exact ⟨hsame.1, hsame.2, hsound _ _ (beq_iff_eq.mp hpair)⟩

end Axes

/-! ## The loop -/

section Loop

variable {staticCheckEq : E → E → TriBool} {groups : List (Group E)} {merged : ℕ → Bool}
  {i j k : ℕ}

theorem mem_mergeableWith (staticCheckEq : E → E → TriBool) (groups : List (Group E))
    (merged : ℕ → Bool) (i j : ℕ) : j ∈ mergeableWith staticCheckEq groups merged i ↔
    i < j ∧ j < groups.length ∧ merged j = false ∧ simpleAt groups j = true ∧
      isAxisVecEqual staticCheckEq (axesAt groups i) (axesAt groups j) = true := by
  rw [mergeableWith, mem_filter, mem_range'_1]
  simp only [Bool.and_eq_true, Bool.not_eq_true']
  constructor
  · rintro ⟨⟨hle, hlt⟩, ⟨hmerged, hsimple⟩, haxes⟩
    exact ⟨hle, by omega, hmerged, hsimple, haxes⟩
  · rintro ⟨hlt, hlength, hmerged, hsimple, haxes⟩
    exact ⟨⟨hlt, by omega⟩, ⟨hmerged, hsimple⟩, haxes⟩

theorem nodup_mergeableWith : (mergeableWith staticCheckEq groups merged i).Nodup :=
  Nodup.filter _ nodup_range'

/-- The state after the first `k` groups. -/
structure Scanned (staticCheckEq : E → E → TriBool) (groups : List (Group E)) (k : ℕ)
    (s : (ℕ → Bool) × List MergeableGraphs) : Prop extends Classes staticCheckEq groups s.2 where
  flagged : ∀ j ∈ s.2.flatMap MergeableGraphs.graphIndices, j < k ∨ s.1 j = true

theorem Scanned.step {s : (ℕ → Bool) × List MergeableGraphs} (h : Scanned staticCheckEq groups k s)
    (hk : k < groups.length) :
    Scanned staticCheckEq groups (k + 1) (findMergeableStep staticCheckEq groups s k) := by
  rw [findMergeableStep]
  split
  case isTrue => exact ⟨h.toClasses, fun j hj => (h.flagged j hj).imp_left Nat.lt_succ_of_lt⟩
  case isFalse hlead =>
    rw [Bool.or_eq_true, not_or, Bool.not_eq_true, Bool.not_eq_true', Bool.not_eq_false] at hlead
    rcases hlead with ⟨hmerged, hsimple⟩
    have hflag : ∀ j ∈ s.2.flatMap MergeableGraphs.graphIndices,
        j < k + 1 ∨ (s.1 j || (mergeableWith staticCheckEq groups s.1 k).contains j) = true := by
      intro j hj
      rcases h.flagged j hj with hlt | hflagged
      · exact .inl (Nat.lt_succ_of_lt hlt)
      · rw [hflagged]
        exact .inr rfl
    dsimp only
    split
    case isTrue => exact ⟨h.toClasses, hflag⟩
    case isFalse hnonempty =>
      rw [List.isEmpty_iff] at hnonempty
      have hfound := mem_mergeableWith staticCheckEq groups s.1 k
      -- the new class: the leader is not flagged, the others were not flagged
      have hnew : ∀ j ∈ k :: mergeableWith staticCheckEq groups s.1 k,
          j ∉ s.2.flatMap MergeableGraphs.graphIndices := by
        intro j hj hold
        rcases mem_cons.mp hj with rfl | hj
        · rcases h.flagged j hold with hlt | hflagged
          · exact Nat.lt_irrefl j hlt
          · rw [hmerged] at hflagged
            cases hflagged
        · rcases (hfound j).mp hj with ⟨hlt, _, hunmerged, _⟩
          rcases h.flagged j hold with hlt' | hflagged
          · omega
          · rw [hunmerged] at hflagged
            cases hflagged
      have hnodup : (k :: mergeableWith staticCheckEq groups s.1 k).Nodup :=
        nodup_cons.mpr ⟨fun hmem => Nat.lt_irrefl k ((hfound k).mp hmem).1, nodup_mergeableWith⟩
      constructor
      · constructor
        · rw [flatMap_append, flatMap_singleton]
          refine nodup_append.mpr ⟨h.nodup, hnodup, ?_⟩
          rintro a ha b hb rfl
          exact hnew a hb ha
        · intro c hc
          rcases mem_append.mp hc with hc | hc
          · exact h.size c hc
          · rw [mem_singleton.mp hc]
            exact Nat.succ_le_succ (length_pos_iff.mpr hnonempty)
        · intro c hc
          rcases mem_append.mp hc with hc | hc
          · exact h.counts c hc
          · rw [mem_singleton.mp hc]
        · intro c hc j hj
          rcases mem_append.mp hc with hc | hc
          · exact h.lt c hc j hj
          · rw [mem_singleton.mp hc] at hj
            rcases mem_cons.mp hj with rfl | hj
            · exact hk
            · exact ((hfound j).mp hj).2.1
        · intro c hc j hj
          rcases mem_append.mp hc with hc | hc
          · exact h.simple c hc j hj
          · rw [mem_singleton.mp hc] at hj
            rcases mem_cons.mp hj with rfl | hj
            · exact hsimple
            · exact ((hfound j).mp hj).2.2.2.1
        · intro c hc
          rcases mem_append.mp hc with hc | hc
          · exact h.axes c hc
          · rw [mem_singleton.mp hc]
            refine ⟨k, mem_cons_self, fun j hj => ?_⟩
            rcases mem_cons.mp hj with rfl | hj
            · exact .inl rfl
            · exact .inr ((hfound j).mp hj).2.2.2.2
      · intro j hj
        rw [flatMap_append, flatMap_singleton] at hj
        rcases mem_append.mp hj with hj | hj
        · exact hflag j hj
        · rcases mem_cons.mp hj with rfl | hj
          · exact .inl (Nat.lt_succ_self j)
          · right
            show (s.1 j || (mergeableWith staticCheckEq groups s.1 k).contains j) = true
            rw [contains_iff_mem.mpr hj, Bool.or_true]

theorem scanned (k : ℕ) (hk : k ≤ groups.length) :
    Scanned staticCheckEq groups k
      ((range k).foldl (findMergeableStep staticCheckEq groups) (fun _ => false, [])) := by
  induction k with
  | zero =>
    refine ⟨⟨nodup_nil, ?_, ?_, ?_, ?_, ?_⟩, ?_⟩ <;> intro c hc <;> cases hc
  | succ k ih =>
    rw [range_succ, foldl_append]
    exact (ih (Nat.le_of_succ_le hk)).step hk

theorem findMergeableGraphs_classes (staticCheckEq : E → E → TriBool) (groups : List (Group E)) :
    Classes staticCheckEq groups (findMergeableGraphs staticCheckEq groups) :=
  (scanned groups.length (le_refl _)).toClasses

/-! ## No class is split -/

/-- Two simple groups, the first before the second, whose axes compare equal. -/
def Comparable (staticCheckEq : E → E → TriBool) (groups : List (Group E)) (i j : ℕ) : Prop :=
  i < j ∧ j < groups.length ∧ simpleAt groups i = true ∧ simpleAt groups j = true ∧
    isAxisVecEqual staticCheckEq (axesAt groups i) (axesAt groups j) = true

/-- The state after the first `k` groups when the comparison is an equivalence. -/
structure Gathered (staticCheckEq : E → E → TriBool) (groups : List (Group E)) (k : ℕ)
    (s : (ℕ → Bool) × List MergeableGraphs) : Prop where
  flag_iff : ∀ j, s.1 j = true ↔ ∃ i < k, Comparable staticCheckEq groups i j
  gathered : ∀ i < k, s.1 i = false → (∃ j, Comparable staticCheckEq groups i j) →
    ∃ c ∈ s.2, i ∈ c.graphIndices ∧ ∀ j, Comparable staticCheckEq groups i j → j ∈ c.graphIndices

variable (hequiv : Equivalence fun a b : List (Axis E) => isAxisVecEqual staticCheckEq a b = true)
include hequiv

theorem Comparable.trans (hij : Comparable staticCheckEq groups i j)
    (hjk : Comparable staticCheckEq groups j k) : Comparable staticCheckEq groups i k :=
  ⟨hij.1.trans hjk.1, hjk.2.1, hij.2.2.1, hjk.2.2.2.1, hequiv.trans hij.2.2.2.2 hjk.2.2.2.2⟩

theorem Gathered.step {s : (ℕ → Bool) × List MergeableGraphs} (h : Gathered staticCheckEq groups k s) :
    Gathered staticCheckEq groups (k + 1) (findMergeableStep staticCheckEq groups s k) := by
  rw [findMergeableStep]
  split
  case isTrue hskip =>
    rw [Bool.or_eq_true, Bool.not_eq_true'] at hskip
    constructor
    · intro j
      rw [h.flag_iff]
      constructor
      · rintro ⟨i, hi, hij⟩
        exact ⟨i, Nat.lt_succ_of_lt hi, hij⟩
      · rintro ⟨i, hi, hij⟩
        rcases Nat.lt_succ_iff_lt_or_eq.mp hi with hi | rfl
        · exact ⟨i, hi, hij⟩
        · rcases hskip with hflag | hsimple
          · rcases (h.flag_iff i).mp hflag with ⟨i', hi', hcomp⟩
            exact ⟨i', hi', hcomp.trans hequiv hij⟩
          · rw [hij.2.2.1] at hsimple
            cases hsimple
    · intro i hi hflag hex
      rcases Nat.lt_succ_iff_lt_or_eq.mp hi with hi | rfl
      · exact h.gathered i hi hflag hex
      · rcases hskip with hskip | hsimple
        · rw [hflag] at hskip
          cases hskip
        · rcases hex with ⟨j, hij⟩
          rw [hij.2.2.1] at hsimple
          cases hsimple
  case isFalse hlead =>
    rw [Bool.or_eq_true, not_or, Bool.not_eq_true, Bool.not_eq_true', Bool.not_eq_false] at hlead
    rcases hlead with ⟨hmerged, hsimple⟩
    have hfound : ∀ j, j ∈ mergeableWith staticCheckEq groups s.1 k ↔
        Comparable staticCheckEq groups k j := by
      intro j
      rw [mem_mergeableWith]
      constructor
      · rintro ⟨hlt, hlength, _, hj, haxes⟩
        exact ⟨hlt, hlength, hsimple, hj, haxes⟩
      · intro hkj
        refine ⟨hkj.1, hkj.2.1, ?_, hkj.2.2.2.1, hkj.2.2.2.2⟩
        -- an earlier leader of `j` would have flagged `k`
        by_contra hj
        rcases (h.flag_iff j).mp (Bool.of_not_eq_false hj) with ⟨i, hi, hij⟩
        have hflag : s.1 k = true := (h.flag_iff k).mpr ⟨i, hi, hi, hkj.1.trans hkj.2.1, hij.2.2.1,
          hsimple, hequiv.trans hij.2.2.2.2 (hequiv.symm hkj.2.2.2.2)⟩
        rw [hmerged] at hflag
        cases hflag
    dsimp only
    constructor
    · intro j
      show (s.1 j || (mergeableWith staticCheckEq groups s.1 k).contains j) = true ↔ _
      rw [Bool.or_eq_true, contains_iff_mem, hfound, h.flag_iff]
      constructor
      · rintro (⟨i, hi, hij⟩ | hkj)
        · exact ⟨i, Nat.lt_succ_of_lt hi, hij⟩
        · exact ⟨k, Nat.lt_succ_self k, hkj⟩
      · rintro ⟨i, hi, hij⟩
        rcases Nat.lt_succ_iff_lt_or_eq.mp hi with hi | rfl
        · exact .inl ⟨i, hi, hij⟩
        · exact .inr hij
    · intro i hi hflag hex
      have hflag' : (s.1 i || (mergeableWith staticCheckEq groups s.1 k).contains i) = false := hflag
      rw [Bool.or_eq_false_iff] at hflag'
      split
      case isTrue hempty =>
        rw [List.isEmpty_iff] at hempty
        rcases Nat.lt_succ_iff_lt_or_eq.mp hi with hi | rfl
        · exact h.gathered i hi hflag'.1 hex
        · rcases hex with ⟨j, hij⟩
          have hmem := (hfound j).mpr hij
          rw [hempty] at hmem
          cases hmem
      case isFalse =>
        rcases Nat.lt_succ_iff_lt_or_eq.mp hi with hi | rfl
        · rcases h.gathered i hi hflag'.1 hex with ⟨c, hc, hic, hall⟩
          exact ⟨c, mem_append_left _ hc, hic, hall⟩
        · refine ⟨_, mem_append_right _ (mem_singleton_self _), mem_cons_self,
            fun j hij => mem_cons_of_mem i ((hfound j).mpr hij)⟩

theorem gathered (k : ℕ) : Gathered staticCheckEq groups k
    ((range k).foldl (findMergeableStep staticCheckEq groups) (fun _ => false, [])) := by
  induction k with
  | zero =>
    refine ⟨fun j => ⟨fun h => ?_, ?_⟩, fun i hi => absurd hi (Nat.not_lt_zero i)⟩
    · cases h
    · rintro ⟨i, hi, _⟩
      exact absurd hi (Nat.not_lt_zero i)
  | succ k ih =>
    rw [range_succ, foldl_append]
    exact ih.step hequiv

/-- Comparable groups are in one class. -/
theorem findMergeableGraphs_complete (hij : Comparable staticCheckEq groups i j) :
    ∃ c ∈ findMergeableGraphs staticCheckEq groups, i ∈ c.graphIndices ∧ j ∈ c.graphIndices := by
  have hg : Gathered staticCheckEq groups groups.length _ := gathered hequiv groups.length
  -- the first group of the class leads it
  have hex : ∃ l, l = i ∨ Comparable staticCheckEq groups l i := ⟨i, .inl rfl⟩
  classical
  let lead := Nat.find hex
  have hlead : lead = i ∨ Comparable staticCheckEq groups lead i := Nat.find_spec hex
  have hleadj : Comparable staticCheckEq groups lead j := by
    rcases hlead with heq | hcomp
    · rwa [heq]
    · exact hcomp.trans hequiv hij
  have hflag : ((range groups.length).foldl (findMergeableStep staticCheckEq groups)
      (fun _ => false, [])).1 lead = false := by
    by_contra hne
    rcases (hg.flag_iff lead).mp (Bool.of_not_eq_false hne) with ⟨l, _, hl⟩
    refine Nat.find_min hex hl.1 (.inr ?_)
    rcases hlead with heq | hcomp
    · rwa [heq] at hl
    · exact hl.trans hequiv hcomp
  rcases hg.gathered lead (hleadj.1.trans hleadj.2.1) hflag ⟨j, hleadj⟩ with ⟨c, hc, hmem, hall⟩
  refine ⟨c, hc, ?_, hall j hleadj⟩
  rcases hlead with heq | hcomp
  · rwa [← heq]
  · exact hall i hcomp

end Loop

end GraphAutofusion.Autofuse.GroupReduction
