import Mathlib.Logic.Relation

/-!
# Lib.Contraction — contracting sets of vertices

Sets of vertices of a directed graph are contracted, each to one vertex. Paths of the contracted
graph are paths that may jump inside a set. It is cyclic when an edge between two different
contracted vertices lies on a closed path. A set that has all vertices it was merged with closes a
cycle exactly when an edge leaves it and a path comes back.
-/

namespace GraphAutofusion.Lib

open Relation List

variable {α : Type*}

def SameSet (sets : List (List α)) (a b : α) : Prop := ∃ S ∈ sets, a ∈ S ∧ b ∈ S

/-- Overlapping sets are contracted together. -/
def Merged (sets : List (List α)) : α → α → Prop := EqvGen (SameSet sets)

def ContractedReach (edge : α → α → Prop) (sets : List (List α)) : α → α → Prop :=
  ReflTransGen fun a b => edge a b ∨ SameSet sets a b

def ContractedCyclic (edge : α → α → Prop) (sets : List (List α)) : Prop :=
  ∃ a b, edge a b ∧ ¬ Merged sets a b ∧ ContractedReach edge sets b a

/-- The vertices among `V` that are merged with one of the set belong to it. -/
def WholeSet (V : α → Prop) (sets : List (List α)) (S : List α) : Prop :=
  ∀ a ∈ S, ∀ b, V b → Merged sets a b → b ∈ S

variable {edge : α → α → Prop} {sets sets' : List (List α)} {S F : List α} {a b : α}
  {V : α → Prop}

theorem SameSet.symm (h : SameSet sets a b) : SameSet sets b a := by
  obtain ⟨S, hS, ha, hb⟩ := h
  exact ⟨S, hS, hb, ha⟩

theorem SameSet.mono (hsub : ∀ S ∈ sets, S ∈ sets') (h : SameSet sets a b) : SameSet sets' a b := by
  obtain ⟨S, hS, ha, hb⟩ := h
  exact ⟨S, hsub S hS, ha, hb⟩

theorem Merged.reach (h : Merged sets a b) :
    ContractedReach edge sets a b ∧ ContractedReach edge sets b a := by
  induction h with
  | rel a b h => exact ⟨.single (.inr h), .single (.inr h.symm)⟩
  | refl a => exact ⟨.refl, .refl⟩
  | symm a b _ ih => exact ⟨ih.2, ih.1⟩
  | trans a b c _ _ ih ih' => exact ⟨ih.1.trans ih'.1, ih'.2.trans ih.2⟩

theorem Merged.mono (hsub : ∀ S ∈ sets, S ∈ sets') (h : Merged sets a b) : Merged sets' a b :=
  EqvGen.mono (fun _ _ h => h.mono hsub) _ _ h

theorem eq_of_merged_nil (h : Merged [] a b) : a = b := by
  induction h with
  | rel a b h =>
    obtain ⟨S, hS, -⟩ := h
    exact nomatch hS
  | refl a => rfl
  | symm a b _ ih => exact ih.symm
  | trans a b c _ _ ih ih' => exact ih.trans ih'

theorem wholeSet_nil : WholeSet V [] S := fun _ ha _ _ h => eq_of_merged_nil h ▸ ha

theorem ContractedReach.mono (hsub : ∀ S ∈ sets, S ∈ sets') (h : ContractedReach edge sets a b) :
    ContractedReach edge sets' a b :=
  ReflTransGen.mono (fun _ _ h => h.imp id (SameSet.mono hsub)) _ _ h

theorem contractedReach_edge (h : edge a b) : ContractedReach edge sets a b :=
  ReflTransGen.single (.inl h)

theorem contractedReach_nil : ContractedReach edge [] a b ↔ ReflTransGen edge a b := by
  have hnone : (fun a b => edge a b ∨ SameSet [] a b) = edge := by
    funext a b
    simp [SameSet]
  unfold ContractedReach
  rw [hnone]

/-- One more set gives the paths through it. -/
theorem contractedReach_cons : ContractedReach edge (F :: sets) a b ↔
    ContractedReach edge sets a b ∨
      (∃ f ∈ F, ContractedReach edge sets a f) ∧ ∃ f ∈ F, ContractedReach edge sets f b := by
  constructor
  · intro h
    induction h with
    | refl => exact .inl ReflTransGen.refl
    | @tail b c _ hstep ih =>
      have hold : (edge b c ∨ SameSet sets b c) ∨ (b ∈ F ∧ c ∈ F) := by
        rcases hstep with h | ⟨S, hS, hb, hc⟩
        · exact .inl (.inl h)
        · rcases mem_cons.mp hS with rfl | hS
          · exact .inr ⟨hb, hc⟩
          · exact .inl (.inr ⟨S, hS, hb, hc⟩)
      rcases hold with hold | ⟨hb, hc⟩
      · rcases ih with ih | ⟨hin, f, hf, ih⟩
        · exact .inl (ih.tail hold)
        · exact .inr ⟨hin, f, hf, ih.tail hold⟩
      · rcases ih with ih | ⟨hin, -⟩
        · exact .inr ⟨⟨b, hb, ih⟩, c, hc, .refl⟩
        · exact .inr ⟨hin, c, hc, .refl⟩
  · have hsub : ∀ S ∈ sets, S ∈ F :: sets := fun S hS => mem_cons_of_mem F hS
    rintro (h | ⟨⟨f, hf, hin⟩, f', hf', hout⟩)
    · exact h.mono hsub
    · have hjump : ContractedReach edge (F :: sets) f f' :=
        ReflTransGen.single (.inr ⟨F, mem_cons_self, hf, hf'⟩)
      exact (hin.mono hsub).trans (hjump.trans (hout.mono hsub))

/-- A path out of a class of vertices leaves it by a step. -/
theorem exists_leaving {r : α → α → Prop} (C : α → Prop) (h : ReflTransGen r a b) (ha : C a)
    (hb : ¬ C b) : ∃ u v, C u ∧ ¬ C v ∧ r u v ∧ ReflTransGen r v b := by
  induction h using ReflTransGen.head_induction_on with
  | refl => exact absurd ha hb
  | @head a c hstep hrest ih =>
    by_cases hc : C c
    · exact ih hc
    · exact ⟨a, c, ha, hc, hstep, hrest⟩

/-- What is merged with a set when it is contracted too, was merged with one of its vertices. -/
theorem merged_of_cons (h : Merged (S :: sets) a b) (ha : ∃ s ∈ S, Merged sets s a) :
    ∃ s ∈ S, Merged sets s b := by
  have hiff : (∃ s ∈ S, Merged sets s a) ↔ ∃ s ∈ S, Merged sets s b := by
    clear ha
    induction h with
    | rel a b h =>
      obtain ⟨T, hT, hat, hbt⟩ := h
      rcases mem_cons.mp hT with rfl | hT
      · exact ⟨fun _ => ⟨b, hbt, EqvGen.refl b⟩, fun _ => ⟨a, hat, EqvGen.refl a⟩⟩
      · have hab : Merged sets a b := EqvGen.rel a b ⟨T, hT, hat, hbt⟩
        exact ⟨fun ⟨s, hs, h⟩ => ⟨s, hs, h.trans _ _ _ hab⟩,
          fun ⟨s, hs, h⟩ => ⟨s, hs, h.trans _ _ _ (hab.symm _ _)⟩⟩
    | refl a => exact Iff.rfl
    | symm a b _ ih => exact ih.symm
    | trans a b c _ _ ih ih' => exact ih.trans ih'
  exact hiff.mp ha

/-- A whole set closes a cycle when an edge leaves it and a path comes back. -/
theorem contractedCyclic_cons_iff (hedge : ∀ a b, edge a b → V a ∧ V b)
    (hacyclic : ¬ ContractedCyclic edge sets) (hwhole : WholeSet V sets S) :
    ContractedCyclic edge (S :: sets) ↔
      ∃ n ∈ S, ∃ p, edge n p ∧ p ∉ S ∧ ∃ m ∈ S, m ≠ n ∧ ContractedReach edge sets p m := by
  constructor
  · rintro ⟨a, b, hab, hapart, hback⟩
    have hsub : ∀ T ∈ sets, T ∈ S :: sets := fun T hT => mem_cons_of_mem S hT
    have hapart' : ¬ Merged sets a b := fun h =>
      hapart (h.mono hsub)
    -- the way back runs through the set
    obtain ⟨⟨f, hf, hbf⟩, g, hg, hga⟩ : (∃ f ∈ S, ContractedReach edge sets b f) ∧
        ∃ g ∈ S, ContractedReach edge sets g a := by
      rcases contractedReach_cons.mp hback with h | h
      · exact absurd ⟨a, b, hab, hapart', h⟩ hacyclic
      · exact h
    have hin : ∀ x, (∃ s ∈ S, Merged sets s x) → Merged (S :: sets) g x := by
      rintro x ⟨s, hs, hx⟩
      exact (EqvGen.rel g s ⟨S, mem_cons_self, hg, hs⟩).trans _ _ _
        (hx.mono hsub)
    -- one of the two ends is outside
    obtain ⟨y, hy, hgy, hyS⟩ : ∃ y, (¬ ∃ s ∈ S, Merged sets s y) ∧
        ContractedReach edge sets g y ∧ ∃ m ∈ S, ContractedReach edge sets y m := by
      by_cases hb : ∃ s ∈ S, Merged sets s b
      · refine ⟨a, fun ha => ?_, hga, ?_⟩
        · exact hapart (((hin a ha).symm _ _).trans _ _ _ (hin b hb))
        · obtain ⟨s, hs, hsb⟩ := hb
          exact ⟨s, hs, (contractedReach_edge hab).trans hsb.reach.2⟩
      · exact ⟨b, hb, hga.tail (.inl hab), f, hf, hbf⟩
    obtain ⟨u, v, ⟨s, hs, hu⟩, hv, hstep, hvy⟩ :=
      exists_leaving (fun x => ∃ s ∈ S, Merged sets s x) hgy ⟨g, hg, EqvGen.refl g⟩ hy
    have huv : edge u v := by
      rcases hstep with h | h
      · exact h
      · exact absurd ⟨s, hs, hu.trans _ _ _ (EqvGen.rel u v h)⟩ hv
    obtain ⟨m, hm, hym⟩ := hyS
    refine ⟨u, hwhole s hs u (hedge u v huv).1 hu, v, huv, ?_, m, hm, ?_, hvy.trans hym⟩
    · exact fun h => hv ⟨v, h, EqvGen.refl v⟩
    · intro hmu
      apply hacyclic
      refine ⟨u, v, huv, fun h => hv ⟨s, hs, hu.trans _ _ _ h⟩, ?_⟩
      rw [← hmu]
      exact hvy.trans hym
  · rintro ⟨n, hn, p, hnp, hp, m, hm, -, hpm⟩
    refine ⟨n, p, hnp, fun h => ?_, ?_⟩
    · obtain ⟨s, hs, hsp⟩ := merged_of_cons h ⟨n, hn, EqvGen.refl n⟩
      exact hp (hwhole s hs p (hedge n p hnp).2 hsp)
    · exact contractedReach_cons.mpr (.inr ⟨⟨m, hm, hpm⟩, n, hn, .refl⟩)

/-- A cycle that one of several disjoint whole sets closes is there when all are contracted. -/
theorem contractedCyclic_append {scopes : List (List α)}
    (hedge : ∀ a b, edge a b → V a ∧ V b) (hacyclic : ¬ ContractedCyclic edge sets)
    (hwhole : ∀ T ∈ scopes, WholeSet V sets T) (hV : ∀ T ∈ scopes, ∀ x ∈ T, V x)
    (hdisjoint : ∀ T ∈ scopes, ∀ T' ∈ scopes, ∀ x ∈ T, x ∈ T' → T = T') (hS : S ∈ scopes)
    (h : ContractedCyclic edge (S :: sets)) : ContractedCyclic edge (scopes ++ sets) := by
  obtain ⟨n, hn, p, hnp, hp, m, hm, -, hpm⟩ :=
    (contractedCyclic_cons_iff hedge hacyclic (hwhole S hS)).mp h
  have hsub : ∀ T ∈ sets, T ∈ scopes ++ sets := fun T hT => mem_append_right _ hT
  -- the other sets have nothing to do with this one
  have hother : ∀ T ∈ scopes, ∀ x ∈ T, (∃ s ∈ S, Merged sets s x) → T = S := by
    rintro T hT x hx ⟨s, hs, hsx⟩
    exact hdisjoint T hT S hS x hx (hwhole S hS s hs x (hV T hT x hx) hsx)
  have hclass : ∀ x y, Merged (scopes ++ sets) x y →
      ((∃ s ∈ S, Merged sets s x) ↔ ∃ s ∈ S, Merged sets s y) := by
    intro x y hxy
    induction hxy with
    | rel x y hxy =>
      obtain ⟨T, hT, hx, hy⟩ := hxy
      rcases mem_append.mp hT with hT | hT
      · constructor
        · intro hsx
          rw [hother T hT x hx hsx] at hy
          exact ⟨y, hy, EqvGen.refl y⟩
        · intro hsy
          rw [hother T hT y hy hsy] at hx
          exact ⟨x, hx, EqvGen.refl x⟩
      · have hxy : Merged sets x y := EqvGen.rel x y ⟨T, hT, hx, hy⟩
        exact ⟨fun ⟨s, hs, h⟩ => ⟨s, hs, h.trans _ _ _ hxy⟩,
          fun ⟨s, hs, h⟩ => ⟨s, hs, h.trans _ _ _ (hxy.symm _ _)⟩⟩
    | refl x => exact Iff.rfl
    | symm x y _ ih => exact ih.symm
    | trans x y z _ _ ih ih' => exact ih.trans ih'
  refine ⟨n, p, hnp, fun hmerged => ?_, ?_⟩
  · obtain ⟨s, hs, hsp⟩ := (hclass n p hmerged).mp ⟨n, hn, EqvGen.refl n⟩
    exact hp (hwhole S hS s hs p (hedge n p hnp).2 hsp)
  · exact (hpm.mono hsub).tail (.inr ⟨S, mem_append_left _ hS, hm, hn⟩)

end GraphAutofusion.Lib
