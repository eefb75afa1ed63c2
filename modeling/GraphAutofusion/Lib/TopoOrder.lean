import GraphAutofusion.Lib.EdgeContraction
import Mathlib.Order.WellFoundedSet

/-!
# Lib.TopoOrder — topological orders

A list is a topological order when no edge goes back in it. Kahn's algorithm counts for each vertex
the edges that come from vertices not yet listed; a vertex whose counter falls to zero becomes
ready, and ready vertices are listed in any order. What is listed at the end is everything exactly
when the graph is acyclic.
-/

namespace GraphAutofusion.Lib

open Relation List

variable {α : Type*} {edge : α → α → Prop} {l l' : List α} {a b x : α}

/-- No edge goes back in the list. -/
def Forward (edge : α → α → Prop) (l : List α) : Prop := l.Pairwise fun a b => ¬ edge b a

theorem Acyclic.irrefl (h : Acyclic edge) (a : α) : ¬ edge a a :=
  fun he => h.ne he rfl

theorem Acyclic.swap (h : Acyclic edge) : Acyclic (Function.swap edge) := by
  intro a ha
  exact h a (transGen_swap.mp ha)

/-- Among finitely many vertices there is one that no edge enters from another of them. -/
theorem Acyclic.exists_source {vertices : List α} (h : Acyclic edge) {P : α → Prop}
    (hP : ∀ a, P a → a ∈ vertices) (hne : ∃ a, P a) : ∃ a, P a ∧ ∀ b, edge b a → ¬ P b := by
  have hfin : {a | P a}.Finite := (finite_toSet vertices).subset hP
  have : IsStrictOrder α (TransGen edge) := { irrefl := h, trans := fun _ _ _ => TransGen.trans }
  have hwf : {a | P a}.WellFoundedOn (TransGen edge) := hfin.wellFoundedOn
  obtain ⟨a, ha⟩ := hne
  obtain ⟨m, -, hmin⟩ := WellFounded.has_min hwf Set.univ ⟨⟨a, ha⟩, trivial⟩
  exact ⟨m, m.2, fun b hb hPb => hmin ⟨b, hPb⟩ trivial (TransGen.single hb)⟩

section Positions

variable [DecidableEq α]

theorem Forward.idxOf_lt (h : Forward edge l) (hirr : ∀ a ∈ l, ¬ edge a a) (ha : a ∈ l)
    (hab : edge a b) : l.idxOf a < l.idxOf b := by
  rcases lt_or_ge (l.idxOf a) (l.idxOf b) with hlt | hge
  · exact hlt
  exfalso
  have hia : l.idxOf a < l.length := idxOf_lt_length_of_mem ha
  have hib : l.idxOf b < l.length := lt_of_le_of_lt hge hia
  have hla : l[l.idxOf a] = a := getElem_idxOf hia
  have hlb : l[l.idxOf b] = b := getElem_idxOf hib
  rcases lt_or_eq_of_le hge with hlt | heq
  · have hno := pairwise_iff_getElem.mp h _ _ hib hia hlt
    rw [hla, hlb] at hno
    exact hno hab
  · -- the same position: a loop at one vertex
    have hba : b = a := by
      rw [← hla, ← hlb]
      simp only [heq]
    exact hirr a ha (hba ▸ hab)

theorem acyclic_of_idxOf_lt (h : ∀ a b, edge a b → l.idxOf a < l.idxOf b) : Acyclic edge := by
  have htrans : ∀ a b, TransGen edge a b → l.idxOf a < l.idxOf b := by
    intro a b hab
    induction hab with
    | single hab => exact h _ _ hab
    | tail _ hbc ih => exact lt_trans ih (h _ _ hbc)
  intro a ha
  exact lt_irrefl _ (htrans a a ha)

end Positions

theorem Forward.append (h : Forward edge l) (h' : Forward edge l')
    (hcross : ∀ a ∈ l, ∀ b ∈ l', ¬ edge b a) : Forward edge (l ++ l') :=
  pairwise_append.mpr ⟨h, h', hcross⟩

theorem forward_append :
    Forward edge (l ++ l') ↔ Forward edge l ∧ Forward edge l' ∧ ∀ a ∈ l, ∀ b ∈ l', ¬ edge b a :=
  pairwise_append

/-- A block moves behind the one that follows it when no edge enters the latter from it. -/
theorem Forward.swap_blocks {front block mid back : List α}
    (h : Forward edge (front ++ (block ++ (mid ++ back))))
    (hfree : ∀ a ∈ block, ∀ b ∈ mid, ¬ edge a b) :
    Forward edge (front ++ (mid ++ (block ++ back))) := by
  simp only [forward_append, mem_append] at h ⊢
  obtain ⟨hfront, ⟨hblock, ⟨hmid, hback, hmb⟩, hbm⟩, hf⟩ := h
  refine ⟨hfront, ⟨hmid, ⟨hblock, hback, fun a ha b hb => hbm a ha b (.inr hb)⟩, ?_⟩, ?_⟩
  · rintro a ha b (hb | hb)
    · exact hfree b hb a ha
    · exact hmb a ha b hb
  · rintro a ha b (hb | hb | hb)
    · exact hf a ha b (.inr (.inl hb))
    · exact hf a ha b (.inl hb)
    · exact hf a ha b (.inr (.inr hb))

/-! ## Kahn's algorithm -/

section Kahn

variable [DecidableEq α]

structure KahnState (α : Type*) where
  /-- The counters. -/
  rem : α → ℕ
  ready : List α
  out : List α

/-- One ready vertex is listed; the vertices whose last counted edge it was become ready. -/
def KahnStep (succs : α → List α) (s s' : KahnState α) : Prop :=
  ∃ x rest new, s.ready.Perm (x :: rest) ∧ s'.ready.Perm (rest ++ new) ∧ s'.out = s.out ++ [x] ∧
    (∀ n, s'.rem n = s.rem n - (succs x).count n) ∧ new.Nodup ∧
    ∀ n, n ∈ new ↔ n ∈ succs x ∧ s'.rem n = 0

/-- The edges into a vertex that come from vertices not listed yet. -/
def pending (vertices : List α) (succs : α → List α) (out : List α) (n : α) : ℕ :=
  ((vertices.filter (· ∉ out)).flatMap succs).count n

structure KahnInv (vertices : List α) (succs : α → List α) (s : KahnState α) : Prop where
  nodup : (s.out ++ s.ready).Nodup
  sub : ∀ n ∈ s.out ++ s.ready, n ∈ vertices
  rem : ∀ n ∈ vertices, s.rem n = pending vertices succs s.out n
  ready : ∀ n ∈ vertices, n ∈ s.out ++ s.ready ↔ pending vertices succs s.out n = 0
  forward : Forward (fun a b => b ∈ succs a) s.out
  irrefl : ∀ n ∈ s.out, n ∉ succs n

variable {vertices out : List α} {succs : α → List α} {s s' : KahnState α}

theorem pending_eq_zero :
    pending vertices succs out x = 0 ↔ ∀ a ∈ vertices, a ∉ out → x ∉ succs a := by
  rw [pending, count_eq_zero, mem_flatMap]
  constructor
  · intro h a ha hout hx
    exact h ⟨a, mem_filter.mpr ⟨ha, by simpa using hout⟩, hx⟩
  · rintro h ⟨a, ha, hx⟩
    rw [mem_filter] at ha
    exact h a ha.1 (by simpa using ha.2) hx

theorem pending_append_singleton (hv : vertices.Nodup) (hx : x ∈ vertices) (hout : x ∉ out)
    (n : α) :
    pending vertices succs out n = (succs x).count n + pending vertices succs (out ++ [x]) n := by
  have hperm : (vertices.filter (· ∉ out)).Perm (x :: vertices.filter (· ∉ out ++ [x])) := by
    rw [perm_ext_iff_of_nodup (hv.filter _)
      (nodup_cons.mpr ⟨by simp [mem_filter], hv.filter _⟩)]
    intro a
    by_cases hax : a = x
    · subst hax
      simp [hx, hout]
    · simp [hax]
  rw [pending, (hperm.flatMap_right succs).count_eq, flatMap_cons, count_append, pending]

theorem KahnInv.step (hv : vertices.Nodup) (hsucc : ∀ a ∈ vertices, ∀ b ∈ succs a, b ∈ vertices)
    (hinv : KahnInv vertices succs s) (hstep : KahnStep succs s s') :
    KahnInv vertices succs s' := by
  obtain ⟨x, rest, new, hready, hready', hout, hrem, hnew, hmem⟩ := hstep
  -- the listed vertex was ready, so all its edges are counted off
  have hall : (s.out ++ s.ready).Perm (s'.out ++ rest) := by
    rw [hout, append_assoc]
    exact hready.append_left s.out
  have hnodup : (s'.out ++ rest).Nodup := hall.nodup_iff.mp hinv.nodup
  have hx : x ∈ s.out ++ s.ready := mem_append.mpr (.inr (hready.mem_iff.mpr mem_cons_self))
  have hxv : x ∈ vertices := hinv.sub x hx
  have hxout : x ∉ s.out := by
    intro h
    exact (nodup_append.mp hinv.nodup).2.2 x h x (hready.mem_iff.mpr mem_cons_self) rfl
  have hxz := pending_eq_zero.mp ((hinv.ready x hxv).mp hx)
  have hpend : ∀ n, pending vertices succs s.out n
      = (succs x).count n + pending vertices succs s'.out n := by
    intro n
    rw [hout]
    exact pending_append_singleton hv hxv hxout n
  have hrem' : ∀ n ∈ vertices, s'.rem n = pending vertices succs s'.out n := by
    intro n hn
    rw [hrem, hinv.rem n hn, hpend n]
    omega
  have hnewv : ∀ n ∈ new, n ∈ vertices := fun n hn => hsucc x hxv n ((hmem n).mp hn).1
  -- a new vertex had a counted edge from `x`, so it was not ready before
  have hfresh : ∀ n ∈ new, n ∉ s.out ++ s.ready := by
    intro n hn hold
    have hz := pending_eq_zero.mp ((hinv.ready n (hnewv n hn)).mp hold)
    exact hz x hxv hxout ((hmem n).mp hn).1
  have hperm' : (s'.out ++ s'.ready).Perm ((s'.out ++ rest) ++ new) := by
    rw [append_assoc]
    exact hready'.append_left s'.out
  refine ⟨?_, ?_, hrem', ?_, ?_, ?_⟩
  · rw [hperm'.nodup_iff, nodup_append]
    refine ⟨hnodup, hnew, fun a ha b hb hab => ?_⟩
    exact hfresh b hb (hall.mem_iff.mpr (hab ▸ ha))
  · intro n hn
    rcases mem_append.mp (hperm'.mem_iff.mp hn) with h | h
    · exact hinv.sub n (hall.mem_iff.mpr h)
    · exact hnewv n h
  · intro n hn
    rw [hperm'.mem_iff, mem_append, ← hall.mem_iff, hinv.ready n hn, hpend n, hmem, hrem' n hn]
    by_cases hc : n ∈ succs x
    · have hpos : 0 < (succs x).count n := count_pos_iff.mpr hc
      constructor
      · rintro (h | h)
        · omega
        · exact h.2
      · exact fun h => .inr ⟨hc, h⟩
    · have hzero : (succs x).count n = 0 := count_eq_zero.mpr hc
      simp [hc, hzero]
  · rw [hout]
    refine hinv.forward.append (pairwise_singleton _ _) ?_
    intro a ha b hb hedge
    rw [mem_singleton] at hb
    subst hb
    have hav : a ∈ vertices := hinv.sub a (mem_append.mpr (.inl ha))
    have hz := pending_eq_zero.mp ((hinv.ready a hav).mp (mem_append.mpr (.inl ha)))
    exact hz b hxv hxout hedge
  · intro n hn
    rw [hout, mem_append, mem_singleton] at hn
    rcases hn with hn | rfl
    · exact hinv.irrefl n hn
    · exact hxz n hxv hxout

theorem KahnInv.length_le (hinv : KahnInv vertices succs s) :
    s.out.length + s.ready.length ≤ vertices.length := by
  rw [← length_append]
  exact (hinv.nodup.subperm hinv.sub).length_le

theorem KahnInv.init {rem : α → ℕ} {ready : List α}
    (hrem : ∀ n ∈ vertices, rem n = (vertices.flatMap succs).count n) (hnodup : ready.Nodup)
    (hready : ∀ n, n ∈ ready ↔ n ∈ vertices ∧ rem n = 0) :
    KahnInv vertices succs ⟨rem, ready, []⟩ := by
  have hpend : ∀ n, pending vertices succs [] n = (vertices.flatMap succs).count n := by
    intro n
    simp [pending]
  refine ⟨hnodup, fun n hn => ((hready n).mp hn).1, fun n hn => ?_, fun n hn => ?_,
    List.Pairwise.nil, fun n hn => nomatch hn⟩
  · exact (hrem n hn).trans (hpend n).symm
  · rw [hpend, ← hrem n hn]
    exact ⟨fun h => ((hready n).mp h).2, fun h => (hready n).mpr ⟨hn, h⟩⟩

/-- When nothing is ready any more, all vertices are listed exactly when the graph is acyclic. -/
theorem KahnInv.length_eq_iff (hv : vertices.Nodup) (hedge : ∀ a b, b ∈ succs a → a ∈ vertices)
    (hinv : KahnInv vertices succs s) (hready : s.ready = []) :
    s.out.length = vertices.length ↔ Acyclic fun a b => b ∈ succs a := by
  have hnodup : s.out.Nodup := (nodup_append.mp hinv.nodup).1
  have hsub : ∀ n ∈ s.out, n ∈ vertices := fun n hn => hinv.sub n (mem_append.mpr (.inl hn))
  constructor
  · intro hlen
    have hperm : s.out.Perm vertices := (hnodup.subperm hsub).perm_of_length_le (le_of_eq hlen.symm)
    refine @acyclic_of_idxOf_lt _ _ s.out _ ?_
    intro a b hab
    exact hinv.forward.idxOf_lt hinv.irrefl (hperm.mem_iff.mpr (hedge a b hab)) hab
  · intro hacyc
    -- a vertex that is not listed, with every predecessor listed, would be ready
    have hall : ∀ n ∈ vertices, n ∈ s.out := by
      by_contra hne
      have hex : ∃ n, n ∈ vertices ∧ n ∉ s.out := by
        by_contra h
        exact hne fun n hn => by_contra fun hno => h ⟨n, hn, hno⟩
      obtain ⟨m, ⟨hmv, hmout⟩, hmin⟩ :=
        hacyc.exists_source (P := fun n => n ∈ vertices ∧ n ∉ s.out) (fun _ h => h.1) hex
      have hz : pending vertices succs s.out m = 0 :=
        pending_eq_zero.mpr fun a ha haout hm => hmin a hm ⟨ha, haout⟩
      have := (hinv.ready m hmv).mpr hz
      rw [hready, append_nil] at this
      exact hmout this
    exact le_antisymm (hnodup.subperm hsub).length_le (hv.subperm hall).length_le

end Kahn

end GraphAutofusion.Lib
