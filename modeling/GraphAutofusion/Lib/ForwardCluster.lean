import Mathlib.Data.List.Infix
import Mathlib.Data.List.Nodup
import Mathlib.Logic.Relation

/-!
# Lib.ForwardCluster — components of a relation in one forward pass

A cluster starts with the first element that is left and takes, in one pass over the others, every
element that meets a member it has already. A cluster lies within one component of the relation. It
is the whole component iff in the order of the list every member but the first meets an
earlier one.
-/

namespace GraphAutofusion.Lib.ForwardCluster

open Relation List

variable {α : Type*} (r : α → α → Bool)

/-- One pass with the members `ms`: the cluster, and the elements left over. -/
def grow (ms : List α) : List α → List α × List α
  | [] => (ms, [])
  | x :: rest =>
    if ms.any (r · x) then grow (ms ++ [x]) rest
    else ((grow ms rest).1, x :: (grow ms rest).2)

theorem grow_sublist (ms rest : List α) :
    ∃ joined, (grow r ms rest).1 = ms ++ joined ∧ joined.Sublist rest ∧
      (grow r ms rest).2.Sublist rest ∧ (joined ++ (grow r ms rest).2).Perm rest := by
  induction rest generalizing ms with
  | nil => exact ⟨[], (append_nil ms).symm, Sublist.refl _, Sublist.refl _, Perm.refl _⟩
  | cons x rest ih =>
    unfold grow
    split
    · obtain ⟨joined, heq, hjoined, hleft, hperm⟩ := ih (ms ++ [x])
      refine ⟨x :: joined, ?_, hjoined.cons_cons x, hleft.cons x, hperm.cons x⟩
      rw [heq, append_assoc]
      rfl
    · obtain ⟨joined, heq, hjoined, hleft, hperm⟩ := ih ms
      exact ⟨joined, heq, hjoined.cons x, hleft.cons_cons x, perm_middle.trans (hperm.cons x)⟩

theorem grow_length (ms rest : List α) : (grow r ms rest).2.length ≤ rest.length := by
  obtain ⟨_, _, _, hleft, _⟩ := grow_sublist r ms rest
  exact hleft.length_le

def clusters : List α → List (List α)
  | [] => []
  | x :: rest => (grow r [x] rest).1 :: clusters (grow r [x] rest).2
termination_by l => l.length
decreasing_by
  have hle := grow_length r [x] rest
  simp only [length_cons]
  omega

/-- Every element but the first meets an earlier one. -/
def Chained (ms : List α) : Prop :=
  ∀ front x back, ms = front ++ x :: back → front ≠ [] → ∃ y ∈ front, r y x = true

variable {r} {l : List α}

theorem clusters_perm (l : List α) : (clusters r l).flatten.Perm l := by
  induction l using clusters.induct r with
  | case1 => rw [clusters]; exact Perm.refl _
  | case2 x rest ih =>
    obtain ⟨joined, heq, -, -, hperm⟩ := grow_sublist r [x] rest
    rw [clusters, flatten_cons, heq, cons_append, nil_append, cons_append]
    exact (((ih.append_left joined).trans hperm).cons x)

variable {ms : List α}

theorem clusters_sublist (h : ms ∈ clusters r l) : ms.Sublist l := by
  induction l using clusters.induct r with
  | case1 =>
    rw [clusters] at h
    exact absurd h not_mem_nil
  | case2 x rest ih =>
    obtain ⟨joined, heq, hjoined, hleft, -⟩ := grow_sublist r [x] rest
    rw [clusters] at h
    rcases mem_cons.mp h with rfl | h
    · rw [heq]
      exact hjoined.cons_cons x
    · exact (ih h).trans (hleft.cons x)

variable {x : α}

theorem Chained.snoc (h : Chained r ms) (hx : ms.any (r · x) = true) : Chained r (ms ++ [x]) := by
  intro front y back hsplit hfront
  rcases eq_nil_or_concat back with rfl | ⟨back', z, rfl⟩
  · -- the new element
    obtain ⟨hms, hxy⟩ := append_inj' hsplit rfl
    rw [← hms, ← (List.cons.inj hxy).1]
    obtain ⟨m, hm, hr⟩ := any_eq_true.mp hx
    exact ⟨m, hm, hr⟩
  · rw [concat_eq_append, ← cons_append, ← append_assoc] at hsplit
    exact h front y back' (append_inj' hsplit rfl).1 hfront

theorem grow_chained {ms rest : List α} (h : Chained r ms) : Chained r (grow r ms rest).1 := by
  induction rest generalizing ms with
  | nil => exact h
  | cons x rest ih =>
    unfold grow
    split
    · next hx => exact ih (h.snoc hx)
    · exact ih h

theorem clusters_chained (h : ms ∈ clusters r l) : Chained r ms ∧ ms ≠ [] := by
  induction l using clusters.induct r with
  | case1 =>
    rw [clusters] at h
    exact absurd h not_mem_nil
  | case2 x rest ih =>
    rw [clusters] at h
    rcases mem_cons.mp h with rfl | h
    · refine ⟨grow_chained ?_, ?_⟩
      · intro front y back hsplit hfront
        cases front with
        | nil => exact absurd rfl hfront
        | cons z front =>
          have htail := (List.cons.inj hsplit).2
          exact absurd htail.symm (by simp)
      · obtain ⟨joined, heq, -⟩ := grow_sublist r [x] rest
        rw [heq]
        simp
    · exact ih h

/-! ## Components -/

/-- `y` is reached from `x` by steps of the relation within the list. -/
def Connected (r : α → α → Bool) (l : List α) : α → α → Prop :=
  ReflTransGen fun x y => y ∈ l ∧ r x y = true

open Classical in
/-- The component of `x`, in the order of the list. -/
noncomputable def component (r : α → α → Bool) (l : List α) (x : α) : List α :=
  l.filter fun y => Connected r l x y

theorem mem_component {x y : α} : y ∈ component r l x ↔ y ∈ l ∧ Connected r l x y := by
  simp [component]

theorem Chained.front (h : Chained r (ms ++ [x])) : Chained r ms := by
  intro front y back hsplit hfront
  refine h front y (back ++ [x]) ?_ hfront
  rw [hsplit, append_assoc, cons_append]

/-- A chained list is connected from its first element. -/
theorem Chained.connected (h : Chained r (x :: ms)) (hl : ∀ y ∈ ms, y ∈ l) :
    ∀ y ∈ x :: ms, Connected r l x y := by
  induction ms using reverseRecOn with
  | nil =>
    intro y hy
    rw [mem_singleton.mp hy]
    exact .refl
  | append_singleton ms z ih =>
    have hchained : Chained r ((x :: ms) ++ [z]) := h
    have hfront := ih hchained.front fun y hy => hl y (mem_append_left _ hy)
    intro y hy
    rw [← cons_append] at hy
    rcases mem_append.mp hy with hy | hy
    · exact hfront y hy
    · rw [mem_singleton.mp hy]
      obtain ⟨m, hm, hr⟩ := hchained (x :: ms) z [] rfl (cons_ne_nil _ _)
      exact (hfront m hm).tail ⟨hl z (mem_append_right _ mem_cons_self), hr⟩

section Closed

variable {K : α → Prop} [DecidablePred K]

/-- A chained list whose elements are cut out by a closed predicate is taken as a whole. -/
theorem grow_of_chained {ms rest : List α} (hms : ∀ m ∈ ms, K m)
    (hclosed : ∀ m ∈ ms ++ rest, ∀ x ∈ rest, r m x = true → (K m ↔ K x)) (hne : ms ≠ [])
    (h : Chained r (ms ++ rest.filter (K ·))) : (grow r ms rest).1 = ms ++ rest.filter (K ·) := by
  induction rest generalizing ms with
  | nil => exact (append_nil ms).symm
  | cons x rest ih =>
    unfold grow
    by_cases hx : K x
    · rw [filter_cons_of_pos (by simpa using hx)] at h ⊢
      obtain ⟨m, hm, hr⟩ := h ms x (rest.filter (K ·)) rfl hne
      rw [if_pos (any_eq_true.mpr ⟨m, hm, hr⟩)]
      have hms' : ∀ m ∈ ms ++ [x], K m := by
        intro m hm
        rcases mem_append.mp hm with hm | hm
        · exact hms m hm
        · rw [mem_singleton.mp hm]
          exact hx
      have hclosed' : ∀ m ∈ (ms ++ [x]) ++ rest, ∀ y ∈ rest, r m y = true → (K m ↔ K y) := by
        intro m hm y hy
        rw [append_assoc] at hm
        exact hclosed m hm y (mem_cons_of_mem _ hy)
      rw [ih hms' hclosed' (by simp) (by rw [append_assoc]; exact h), append_assoc]
      rfl
    · rw [filter_cons_of_neg (by simpa using hx)] at h ⊢
      rw [if_neg fun hany => ?_]
      · refine ih hms (fun m hm y hy => ?_) hne h
        refine hclosed m ?_ y (mem_cons_of_mem _ hy)
        rcases mem_append.mp hm with hm | hm
        · exact mem_append_left _ hm
        · exact mem_append_right _ (mem_cons_of_mem _ hm)
      · obtain ⟨m, hm, hr⟩ := any_eq_true.mp hany
        exact hx ((hclosed m (mem_append_left _ hm) x mem_cons_self hr).mp (hms m hm))

/-- A cluster of elements outside leaves those of a closed predicate over. -/
theorem grow_of_avoids {ms rest : List α} (hms : ∀ m ∈ ms, ¬ K m)
    (hclosed : ∀ m ∈ ms ++ rest, ∀ x ∈ rest, r m x = true → (K m ↔ K x)) :
    (grow r ms rest).2.filter (K ·) = rest.filter (K ·) := by
  induction rest generalizing ms with
  | nil => rfl
  | cons x rest ih =>
    unfold grow
    split
    · next hany =>
      obtain ⟨m, hm, hr⟩ := any_eq_true.mp hany
      have hx : ¬ K x := fun hx =>
        hms m hm ((hclosed m (mem_append_left _ hm) x mem_cons_self hr).mpr hx)
      have hms' : ∀ m ∈ ms ++ [x], ¬ K m := by
        intro m hm
        rcases mem_append.mp hm with hm | hm
        · exact hms m hm
        · rw [mem_singleton.mp hm]
          exact hx
      have hclosed' : ∀ m ∈ (ms ++ [x]) ++ rest, ∀ y ∈ rest, r m y = true → (K m ↔ K y) := by
        intro m hm y hy
        rw [append_assoc] at hm
        exact hclosed m hm y (mem_cons_of_mem _ hy)
      rw [ih hms' hclosed', filter_cons_of_neg (by simpa using hx)]
    · have hclosed' : ∀ m ∈ ms ++ rest, ∀ y ∈ rest, r m y = true → (K m ↔ K y) := by
        intro m hm y hy
        refine hclosed m ?_ y (mem_cons_of_mem _ hy)
        rcases mem_append.mp hm with hm | hm
        · exact mem_append_left _ hm
        · exact mem_append_right _ (mem_cons_of_mem _ hm)
      rw [filter_cons, filter_cons, ih hms hclosed']

theorem filter_mem_clusters (hclosed : ∀ x ∈ l, ∀ y ∈ l, r x y = true → (K x ↔ K y))
    (hne : l.filter (K ·) ≠ []) (h : Chained r (l.filter (K ·))) :
    l.filter (K ·) ∈ clusters r l := by
  induction l using clusters.induct r with
  | case1 => exact absurd rfl hne
  | case2 x rest ih =>
    have hstep : ∀ m ∈ [x] ++ rest, ∀ y ∈ rest, r m y = true → (K m ↔ K y) := fun m hm y hy =>
      hclosed m hm y (mem_cons_of_mem _ hy)
    rw [clusters]
    by_cases hx : K x
    · -- the first of these elements starts their cluster
      rw [filter_cons_of_pos (by simpa using hx)] at h ⊢
      have hms : ∀ m ∈ [x], K m := fun m hm => by
        rw [mem_singleton.mp hm]
        exact hx
      rw [grow_of_chained hms hstep (cons_ne_nil _ _) h]
      exact mem_cons_self
    · have hms : ∀ m ∈ [x], ¬ K m := fun m hm => by
        rw [mem_singleton.mp hm]
        exact hx
      rw [filter_cons_of_neg (by simpa using hx)] at hne h ⊢
      rw [← grow_of_avoids hms hstep] at hne h ⊢
      obtain ⟨_, -, -, hleft, -⟩ := grow_sublist r [x] rest
      refine mem_cons_of_mem _ (ih (fun a ha b hb => ?_) hne h)
      exact hclosed a (mem_cons_of_mem _ (hleft.subset ha)) b
        (mem_cons_of_mem _ (hleft.subset hb))

end Closed

/-- Within a list without repetitions, a sublist is determined by its elements. -/
theorem eq_of_sublist {ms ks : List α} (hnodup : l.Nodup) (hms : ms.Sublist l) (hks : ks.Sublist l)
    (h : ∀ x, x ∈ ms ↔ x ∈ ks) : ms = ks := by
  induction l generalizing ms ks with
  | nil => rw [sublist_nil.mp hms, sublist_nil.mp hks]
  | cons a l ih =>
    obtain ⟨ha, hnodup⟩ := nodup_cons.mp hnodup
    cases hms with
    | cons _ hms =>
      have hout : a ∉ ks := fun hmem => ha (hms.subset ((h a).mpr hmem))
      cases hks with
      | cons _ hks => exact ih hnodup hms hks h
      | cons_cons _ hks => exact absurd mem_cons_self hout
    | @cons_cons ms _ _ hms =>
      have hmem : a ∈ ks := (h a).mp mem_cons_self
      cases hks with
      | cons _ hks => exact absurd (hks.subset hmem) ha
      | @cons_cons ks _ _ hks =>
        refine congrArg (a :: ·) (ih hnodup hms hks fun x => ?_)
        constructor
        · intro hx
          refine (mem_cons.mp ((h x).mp (mem_cons_of_mem _ hx))).resolve_left ?_
          exact fun hxa => ha (hxa ▸ hms.subset hx)
        · intro hx
          refine (mem_cons.mp ((h x).mpr (mem_cons_of_mem _ hx))).resolve_left ?_
          exact fun hxa => ha (hxa ▸ hks.subset hx)

/-- The component of an element is a cluster iff it is chained. -/
theorem component_mem_clusters_iff (hsymm : ∀ x y, r x y = r y x) (hx : x ∈ l) :
    component r l x ∈ clusters r l ↔ Chained r (component r l x) := by
  classical
  refine ⟨fun h => (clusters_chained h).1, fun h => ?_⟩
  have hmem : x ∈ component r l x := mem_component.mpr ⟨hx, .refl⟩
  refine filter_mem_clusters ?_ (ne_nil_of_mem hmem) h
  intro a ha b hb hr
  constructor
  · intro hconn
    exact hconn.tail ⟨hb, hr⟩
  · intro hconn
    exact hconn.tail ⟨ha, (hsymm b a).trans hr⟩

/-- A cluster with the elements of a component is the component. -/
theorem cluster_eq_component (hnodup : l.Nodup) (hms : ms ∈ clusters r l)
    (h : ∀ y, y ∈ ms ↔ y ∈ component r l x) : ms = component r l x :=
  eq_of_sublist hnodup (clusters_sublist hms) filter_sublist h

end GraphAutofusion.Lib.ForwardCluster
