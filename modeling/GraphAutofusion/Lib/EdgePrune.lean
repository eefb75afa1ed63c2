import Mathlib.Data.Set.Finite.Lattice
import Mathlib.Order.Preorder.Finite

/-!
# Lib.EdgePrune — pruning sync edges between two ordered queues

An edge `(s, r)` lets the item `r` of one queue start only after the item `s` of
the other. An edge that starts no earlier and ends no later enforces at least as
much, so it covers `(s, r)`. Three prunings keep a cover: edges that another one crosses,
all but the first target of a source, and all but the last source of a target. What
is left is a strictly increasing matching.
-/

namespace GraphAutofusion.Lib

variable {α β : Type*} [LinearOrder α] [LinearOrder β]

/-- Edge `e'` enforces `e`, given the order of both queues. -/
def Covers (e' e : α × β) : Prop := e.1 ≤ e'.1 ∧ e'.2 ≤ e.2

/-- Edge `e'` starts strictly later and ends strictly earlier. -/
def Crosses (e' e : α × β) : Prop := e.1 < e'.1 ∧ e'.2 < e.2

/-- Every edge of `E` is enforced by one of `E'`. -/
def CoversAll (E' E : Set (α × β)) : Prop := ∀ e ∈ E, ∃ e' ∈ E', Covers e' e

/-- The edges that no other edge crosses. -/
def uncrossed (E : Set (α × β)) : Set (α × β) :=
  fun e => e ∈ E ∧ ∀ e' ∈ E, ¬ Crosses e' e

/-- For each source the edge with the first target. -/
def firstTargets (E : Set (α × β)) : Set (α × β) :=
  fun e => e ∈ E ∧ ∀ e' ∈ E, e'.1 = e.1 → e.2 ≤ e'.2

/-- For each target the edge with the last source. -/
def lastSources (E : Set (α × β)) : Set (α × β) :=
  fun e => e ∈ E ∧ ∀ e' ∈ E, e'.2 = e.2 → e'.1 ≤ e.1

def pruned (E : Set (α × β)) : Set (α × β) := lastSources (firstTargets (uncrossed E))

variable {E E' E'' : Set (α × β)} {e e' e'' : α × β}

theorem uncrossed_subset : uncrossed E ⊆ E := fun _ he => he.1

omit [LinearOrder α] in
theorem firstTargets_subset : firstTargets E ⊆ E := fun _ he => he.1

omit [LinearOrder β] in
theorem lastSources_subset : lastSources E ⊆ E := fun _ he => he.1

theorem pruned_subset : pruned E ⊆ E := fun _ he =>
  uncrossed_subset (firstTargets_subset (lastSources_subset he))

/-! ## Covers -/

theorem Covers.refl (e : α × β) : Covers e e := ⟨le_refl _, le_refl _⟩

theorem Covers.trans (h : Covers e'' e') (h' : Covers e' e) : Covers e'' e :=
  ⟨h'.1.trans h.1, h.2.trans h'.2⟩

theorem CoversAll.trans (h : CoversAll E'' E') (h' : CoversAll E' E) : CoversAll E'' E := by
  intro e he
  rcases h' e he with ⟨e', he', hcov'⟩
  rcases h e' he' with ⟨e'', he'', hcov⟩
  exact ⟨e'', he'', hcov.trans hcov'⟩

/-- Among the edges that cover a crossed one, the one with the last source is not crossed
itself. -/
theorem uncrossed_coversAll (hfin : E.Finite) : CoversAll (uncrossed E) E := by
  intro e he
  have hcandidates : {e' | e' ∈ E ∧ Covers e' e}.Finite := hfin.subset fun _ h => h.1
  rcases hcandidates.exists_maximalFor Prod.fst _ ⟨e, he, Covers.refl e⟩ with
    ⟨e', ⟨he', hcov⟩, hmax⟩
  refine ⟨e', ⟨he', fun e'' he'' hcross => ?_⟩, hcov⟩
  have hcov'' : Covers e'' e := ⟨hcov.1.trans hcross.1.le, hcross.2.le.trans hcov.2⟩
  have hle := hmax ⟨he'', hcov''⟩ hcross.1.le
  exact absurd hcross.1 (not_lt_of_ge hle)

theorem firstTargets_coversAll (hfin : E.Finite) : CoversAll (firstTargets E) E := by
  intro e he
  have hcandidates : {e' | e' ∈ E ∧ e'.1 = e.1}.Finite := hfin.subset fun _ h => h.1
  rcases hcandidates.exists_minimalFor Prod.snd _ ⟨e, he, rfl⟩ with ⟨e', ⟨he', hsource⟩, hmin⟩
  have hfirst : ∀ e'' ∈ E, e''.1 = e.1 → e'.2 ≤ e''.2 := by
    intro e'' he'' hsource''
    rcases le_total e'.2 e''.2 with hle | hle
    · exact hle
    · exact hmin ⟨he'', hsource''⟩ hle
  refine ⟨e', ⟨he', fun e'' he'' hsource'' => ?_⟩, hsource.ge, hfirst e he rfl⟩
  exact hfirst e'' he'' (hsource''.trans hsource)

theorem lastSources_coversAll (hfin : E.Finite) : CoversAll (lastSources E) E := by
  intro e he
  have hcandidates : {e' | e' ∈ E ∧ e'.2 = e.2}.Finite := hfin.subset fun _ h => h.1
  rcases hcandidates.exists_maximalFor Prod.fst _ ⟨e, he, rfl⟩ with ⟨e', ⟨he', htarget⟩, hmax⟩
  have hlast : ∀ e'' ∈ E, e''.2 = e.2 → e''.1 ≤ e'.1 := by
    intro e'' he'' htarget''
    rcases le_total e''.1 e'.1 with hle | hle
    · exact hle
    · exact hmax ⟨he'', htarget''⟩ hle
  refine ⟨e', ⟨he', fun e'' he'' htarget'' => ?_⟩, hlast e he rfl, htarget.le⟩
  exact hlast e'' he'' (htarget''.trans htarget)

/-- Pruning keeps a cover. -/
theorem pruned_coversAll (hfin : E.Finite) : CoversAll (pruned E) E := by
  have hfin₁ : (uncrossed E).Finite := hfin.subset uncrossed_subset
  have hfin₂ : (firstTargets (uncrossed E)).Finite := hfin₁.subset firstTargets_subset
  have hlast := lastSources_coversAll hfin₂
  have hfirst := firstTargets_coversAll hfin₁
  exact (hlast.trans hfirst).trans (uncrossed_coversAll hfin)

/-! ## Matchings -/

/-- One edge for each source and each target, increasing in both. -/
structure Matching (E : Set (α × β)) : Prop where
  source : ∀ e ∈ E, ∀ e' ∈ E, e.1 = e'.1 → e = e'
  target : ∀ e ∈ E, ∀ e' ∈ E, e.2 = e'.2 → e = e'
  increasing : ∀ e ∈ E, ∀ e' ∈ E, e.1 < e'.1 → e.2 < e'.2

/-- Whatever the edges, only one from each source is left. -/
theorem lastSources_firstTargets_source : ∀ e ∈ lastSources (firstTargets E),
    ∀ e' ∈ lastSources (firstTargets E), e.1 = e'.1 → e = e' := by
  intro e he e' he' heq
  exact Prod.ext heq (le_antisymm (he.1.2 e' he'.1.1 heq.symm) (he'.1.2 e he.1.1 heq))

/-- Whatever the edges, only one to each target is left. -/
theorem lastSources_firstTargets_target : ∀ e ∈ lastSources (firstTargets E),
    ∀ e' ∈ lastSources (firstTargets E), e.2 = e'.2 → e = e' := by
  intro e he e' he' heq
  exact Prod.ext (le_antisymm (he'.2 e he.1 heq) (he.2 e' he'.1 heq.symm)) heq

/-- Without crossings, what is left is a matching. -/
theorem lastSources_firstTargets_matching
    (hcross : ∀ e ∈ lastSources (firstTargets E), ∀ e' ∈ lastSources (firstTargets E),
      ¬ Crosses e' e) :
    Matching (lastSources (firstTargets E)) := by
  refine ⟨lastSources_firstTargets_source, lastSources_firstTargets_target, ?_⟩
  intro e he e' he' hlt
  -- the later edge does not cross the earlier one, and their targets differ
  have hle : e.2 ≤ e'.2 := by
    by_contra hgt
    exact hcross e he e' he' ⟨hlt, not_le.mp hgt⟩
  refine lt_of_le_of_ne hle fun heq => ?_
  have hsame := lastSources_firstTargets_target e he e' he' heq
  rw [hsame] at hlt
  exact absurd hlt (lt_irrefl _)

/-- Pruning leaves a matching. -/
theorem pruned_matching (E : Set (α × β)) : Matching (pruned E) :=
  lastSources_firstTargets_matching fun _ he e' he' => he.1.1.2 e' he'.1.1.1

/-- Listed in ascending order, the sources of a matching meet its targets place by place. -/
theorem Matching.forall₂ (hm : Matching E) {sources : List α} {targets : List β}
    (hsources : sources.Pairwise (· < ·)) (htargets : targets.Pairwise (· < ·))
    (hs : ∀ s, s ∈ sources ↔ ∃ r, (s, r) ∈ E) (hr : ∀ r, r ∈ targets ↔ ∃ s, (s, r) ∈ E) :
    List.Forall₂ (fun s r => (s, r) ∈ E) sources targets := by
  cases htarget : targets with
  | nil =>
    have hnone : sources = [] := by
      refine List.eq_nil_iff_forall_not_mem.mpr fun s hmem => ?_
      rcases (hs s).mp hmem with ⟨r, he⟩
      have hrmem := (hr r).mpr ⟨s, he⟩
      simp [htarget] at hrmem
    rw [hnone]
    exact List.Forall₂.nil
  | cons r₀ rest =>
    have hpartner : ∀ s : α, ∃ r : β, s ∈ sources → (s, r) ∈ E := by
      intro s
      by_cases hmem : s ∈ sources
      · rcases (hs s).mp hmem with ⟨r, he⟩
        exact ⟨r, fun _ => he⟩
      · exact ⟨r₀, fun h => absurd h hmem⟩
    choose f hf using hpartner
    have hsorted : (sources.map f).Pairwise (· < ·) := by
      rw [List.pairwise_map]
      refine hsources.imp_of_mem fun {a b} ha hb hab => ?_
      exact hm.increasing (a, f a) (hf a ha) (b, f b) (hf b hb) hab
    have hmem : ∀ r, r ∈ sources.map f ↔ r ∈ targets := by
      intro r
      rw [List.mem_map, hr r]
      constructor
      · rintro ⟨a, ha, rfl⟩
        exact ⟨a, hf a ha⟩
      · rintro ⟨a, ha⟩
        have hamem : a ∈ sources := (hs a).mpr ⟨r, ha⟩
        have hsame := hm.source (a, f a) (hf a hamem) (a, r) ha rfl
        exact ⟨a, hamem, congrArg Prod.snd hsame⟩
    have hperm : (sources.map f).Perm targets :=
      (List.perm_ext_iff_of_nodup (hsorted.imp ne_of_lt) (htargets.imp ne_of_lt)).mpr hmem
    have heq : sources.map f = targets :=
      hperm.eq_of_pairwise (fun a b _ _ hab hba => absurd hab (lt_asymm hba)) hsorted htargets
    rw [← htarget, ← heq, List.forall₂_map_right_iff]
    exact List.forall₂_same.mpr hf

/-! ## Crossed edges that stay

A pruning may leave some crossed edges `K` in place by mistake. The other two prunings remove
part of them; the rest are the only edges too many. -/

/-- The pruning that leaves the edges `K` where it removes crossed ones. -/
def prunedWith (K E : Set (α × β)) : Set (α × β) :=
  lastSources (firstTargets (uncrossed E ∪ K))

/-- What removes a crossed edge after all: another edge from its source ends earlier, or one to
its target starts later, is the first of its own source, and so takes its place. -/
def Replaced (K E : Set (α × β)) (e : α × β) : Prop :=
  (∃ e' ∈ uncrossed E ∪ K, e'.1 = e.1 ∧ e'.2 < e.2) ∨
    ∃ e' ∈ uncrossed E ∪ K, e'.2 = e.2 ∧ e.1 < e'.1 ∧
      ∀ e'' ∈ uncrossed E ∪ K, e''.1 = e'.1 → e'.2 ≤ e''.2

section PrunedWith

variable {K : Set (α × β)}

/-- Every edge of `K` is crossed by another edge. -/
def AllCrossed (K E : Set (α × β)) : Prop := ∀ e ∈ K, e ∈ E ∧ ∃ e' ∈ E, Crosses e' e

theorem Crosses.of_covers (hcross : Crosses e' e) (hcov : Covers e'' e') : Crosses e'' e :=
  ⟨hcross.1.trans_le hcov.1, hcov.2.trans_lt hcross.2⟩

/-- A crossed edge is also crossed by one that is left. -/
theorem AllCrossed.exists_uncrossed (hK : AllCrossed K E) (hfin : E.Finite) (he : e ∈ K) :
    ∃ e' ∈ uncrossed E, Crosses e' e := by
  rcases (hK e he).2 with ⟨e', he', hcross⟩
  rcases uncrossed_coversAll hfin e' he' with ⟨e'', he'', hcov⟩
  exact ⟨e'', he'', hcross.of_covers hcov⟩

/-- An edge of `K` that shares its source with an uncrossed edge does not end before it. -/
theorem AllCrossed.target_le (hK : AllCrossed K E) (hfin : E.Finite) (he : e ∈ uncrossed E)
    (he' : e' ∈ K) (hsource : e'.1 = e.1) : e.2 ≤ e'.2 := by
  by_contra hlt
  rcases hK.exists_uncrossed hfin he' with ⟨e'', he'', hcross⟩
  refine he.2 e'' he''.1 ⟨hsource ▸ hcross.1, hcross.2.trans (not_le.mp hlt)⟩

/-- An edge of `K` that shares its target with an uncrossed edge does not start after it. -/
theorem AllCrossed.source_le (hK : AllCrossed K E) (hfin : E.Finite) (he : e ∈ uncrossed E)
    (he' : e' ∈ K) (htarget : e'.2 = e.2) : e'.1 ≤ e.1 := by
  by_contra hlt
  rcases hK.exists_uncrossed hfin he' with ⟨e'', he'', hcross⟩
  refine he.2 e'' he''.1 ⟨(not_le.mp hlt).trans hcross.1, htarget ▸ hcross.2⟩

theorem prunedWith_coversAll (hfin : E.Finite) (hK : AllCrossed K E) :
    CoversAll (prunedWith K E) E := by
  have hsub : uncrossed E ∪ K ⊆ E := by
    intro e he
    rcases he with he | he
    · exact he.1
    · exact (hK e he).1
  have hfin₁ := hfin.subset hsub
  have hfin₂ : (firstTargets _).Finite := hfin₁.subset firstTargets_subset
  have hkept := (lastSources_coversAll hfin₂).trans (firstTargets_coversAll hfin₁)
  have hleft : CoversAll (uncrossed E ∪ K) E := by
    intro e he
    rcases uncrossed_coversAll hfin e he with ⟨e', he', hcov⟩
    exact ⟨e', .inl he', hcov⟩
  exact hkept.trans hleft

/-- The edges of `K` take nothing from the pruning and add only themselves. -/
theorem mem_prunedWith (hfin : E.Finite) (hK : AllCrossed K E) :
    e ∈ prunedWith K E ↔ e ∈ pruned E ∨ e ∈ K ∧ e ∈ prunedWith K E := by
  have hfirst : ∀ e ∈ uncrossed E,
      (e ∈ firstTargets (uncrossed E ∪ K) ↔ e ∈ firstTargets (uncrossed E)) := by
    intro e he
    constructor
    · intro h
      exact ⟨he, fun e' he' hsource => h.2 e' (.inl he') hsource⟩
    · intro h
      refine ⟨.inl he, fun e' he' hsource => ?_⟩
      rcases he' with he' | he'
      · exact h.2 e' he' hsource
      · exact hK.target_le hfin he he' hsource
  constructor
  · intro h
    rcases h.1.1 with he | he
    · refine .inl ⟨(hfirst e he).mp h.1, fun e' he' htarget => ?_⟩
      exact h.2 e' ((hfirst e' he'.1).mpr he') htarget
    · exact .inr ⟨he, h⟩
  · intro h
    rcases h with h | h
    · have he : e ∈ uncrossed E := h.1.1
      refine ⟨(hfirst e he).mpr h.1, fun e' he' htarget => ?_⟩
      rcases he'.1 with hun | hmem
      · exact h.2 e' ((hfirst e' hun).mp he') htarget
      · exact hK.source_le hfin he hmem htarget
    · exact h.2

/-- An edge of `K` is gone exactly when another one replaces it. -/
theorem notMem_prunedWith (he : e ∈ K) : e ∉ prunedWith K E ↔ Replaced K E e := by
  constructor
  · intro hgone
    by_contra hnot
    have hfirst : e ∈ firstTargets (uncrossed E ∪ K) := by
      refine ⟨.inr he, fun e' he' hsource => ?_⟩
      by_contra hlt
      exact hnot (.inl ⟨e', he', hsource, not_le.mp hlt⟩)
    refine hgone ⟨hfirst, fun e' he' htarget => ?_⟩
    by_contra hlt
    exact hnot (.inr ⟨e', he'.1, htarget, not_le.mp hlt, he'.2⟩)
  · intro hrep h
    rcases hrep with ⟨e', he', hsource, hlt⟩ | ⟨e', he', htarget, hlt, hfirst⟩
    · exact absurd (h.1.2 e' he' hsource) (not_le.mpr hlt)
    · exact absurd (h.2 e' ⟨he', hfirst⟩ htarget) (not_le.mpr hlt)

/-- The result is the intended one exactly when every edge of `K` is replaced. -/
theorem prunedWith_eq_iff (hfin : E.Finite) (hK : AllCrossed K E) :
    (∀ e, e ∈ prunedWith K E ↔ e ∈ pruned E) ↔ ∀ e ∈ K, Replaced K E e := by
  constructor
  · intro h e he
    refine (notMem_prunedWith he).mp fun hmem => ?_
    rcases hK.exists_uncrossed hfin he with ⟨e', he', hcross⟩
    exact ((h e).mp hmem).1.1.2 e' he'.1 hcross
  · intro h e
    refine (mem_prunedWith hfin hK).trans (or_iff_left fun hmem => ?_)
    exact (notMem_prunedWith hmem.1).mpr (h e hmem.1) hmem.2

/-- No two edges that are left cross exactly when every edge of `K` is replaced. -/
theorem prunedWith_uncrossed_iff (hfin : E.Finite) (hK : AllCrossed K E) :
    (∀ e ∈ prunedWith K E, ∀ e' ∈ prunedWith K E, ¬ Crosses e' e) ↔ ∀ e ∈ K, Replaced K E e := by
  constructor
  · intro h e he
    refine (notMem_prunedWith he).mp fun hmem => ?_
    -- the edge that crosses it is covered by one that is left
    rcases (hK e he).2 with ⟨e', he', hcross⟩
    rcases prunedWith_coversAll hfin hK e' he' with ⟨e'', he'', hcov⟩
    exact h e hmem e'' he'' (hcross.of_covers hcov)
  · intro h e he e' he'
    have heq := (prunedWith_eq_iff hfin hK).mpr h
    exact ((heq e).mp he).1.1.2 e' ((heq e').mp he').1.1.1

end PrunedWith

end GraphAutofusion.Lib
