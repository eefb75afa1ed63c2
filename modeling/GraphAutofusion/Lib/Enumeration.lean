import Mathlib.Data.List.Nodup

/-!
# Lib.Enumeration — a list with one entry for each object

A search appends what it finds to a list. `Appends R P l l'` says that `l'` is `l` with one more entry
for each object that has `P`, and that `R` relates the object to its entry. A loop over different
choices appends what its rounds append.
-/

namespace GraphAutofusion.Lib

open List

variable {α β : Type*} {R : α → β → Prop} {P Q : α → Prop} {l l' l'' : List β} {a : α} {b : β}

def Appends (R : α → β → Prop) (P : α → Prop) (l l' : List β) : Prop :=
  ∃ news : List (α × β), l' = l ++ news.map Prod.snd ∧ (news.map Prod.fst).Nodup ∧
    (∀ a, a ∈ news.map Prod.fst ↔ P a) ∧ ∀ p ∈ news, R p.1 p.2

namespace Appends

theorem none (h : ∀ a, ¬ P a) : Appends R P l l := by
  refine ⟨[], by simp, by simp, ?_, by simp⟩
  intro a
  simp [h a]

theorem one (h : R a b) : Appends R (fun x => x = a) l (l ++ [b]) := by
  refine ⟨[(a, b)], rfl, by simp, by simp, ?_⟩
  intro p hp
  rw [mem_singleton] at hp
  rw [hp]
  exact h

theorem congr (h : Appends R P l l') (hiff : ∀ a, P a ↔ Q a) : Appends R Q l l' := by
  rcases h with ⟨news, hlist, hnodup, hmem, hR⟩
  exact ⟨news, hlist, hnodup, fun a => (hmem a).trans (hiff a), hR⟩

theorem append (h : Appends R P l l') (h' : Appends R Q l' l'') (hdisj : ∀ a, P a → ¬ Q a) :
    Appends R (fun a => P a ∨ Q a) l l'' := by
  rcases h with ⟨news, rfl, hnodup, hmem, hR⟩
  rcases h' with ⟨news', rfl, hnodup', hmem', hR'⟩
  refine ⟨news ++ news', by simp, ?_, ?_, ?_⟩
  · rw [map_append, nodup_append']
    refine ⟨hnodup, hnodup', ?_⟩
    intro a ha ha'
    exact hdisj a ((hmem a).mp ha) ((hmem' a).mp ha')
  · intro a
    rw [map_append, mem_append, hmem, hmem']
  · intro p hp
    exact (mem_append.mp hp).elim (hR p) (hR' p)

/-- A loop over different choices. `I` holds between the rounds. -/
theorem foldl {σ γ : Type*} {f : σ → γ → σ} {out : σ → List β} {I : σ → Prop} {P : γ → α → Prop}
    (hdisj : ∀ c c' a, P c a → P c' a → c = c') {cs : List γ} (hcs : cs.Nodup)
    (hstep : ∀ s, ∀ c ∈ cs, I s → I (f s c) ∧ Appends R (P c) (out s) (out (f s c))) {s : σ}
    (hs : I s) :
    I (cs.foldl f s) ∧ Appends R (fun a => ∃ c ∈ cs, P c a) (out s) (out (cs.foldl f s)) := by
  induction cs generalizing s with
  | nil => exact ⟨hs, none (by simp)⟩
  | cons c cs ih =>
    rw [nodup_cons] at hcs
    have hround := hstep s c mem_cons_self hs
    have hrest := ih hcs.2 (fun s c hc => hstep s c (mem_cons_of_mem _ hc)) hround.1
    refine ⟨hrest.1, (hround.2.append hrest.2 ?_).congr ?_⟩
    · rintro a ha ⟨c', hc', ha'⟩
      exact hcs.1 (hdisj c c' a ha ha' ▸ hc')
    · intro a
      simp only [mem_cons, exists_eq_or_imp]

theorem mem (h : Appends R P [] l) (hb : b ∈ l) : ∃ a, P a ∧ R a b := by
  rcases h with ⟨news, rfl, -, hmem, hR⟩
  rcases mem_map.mp hb with ⟨p, hp, rfl⟩
  exact ⟨p.1, (hmem p.1).mp (mem_map_of_mem hp), hR p hp⟩

theorem exists_entry (h : Appends R P [] l) (ha : P a) : ∃ b ∈ l, R a b := by
  rcases h with ⟨news, rfl, -, hmem, hR⟩
  rcases mem_map.mp ((hmem a).mpr ha) with ⟨p, hp, rfl⟩
  exact ⟨p.2, mem_map_of_mem hp, hR p hp⟩

/-- No entry stands twice when an entry belongs to one object. -/
theorem nodup (h : Appends R P [] l)
    (hinj : ∀ a a' b, P a → P a' → R a b → R a' b → a = a') : l.Nodup := by
  rcases h with ⟨news, rfl, hnodup, hmem, hR⟩
  have hP : ∀ p ∈ news, P p.1 := fun p hp => (hmem p.1).mp (mem_map_of_mem hp)
  rw [nil_append]
  refine Nodup.map_on ?_ hnodup.of_map
  intro p hp q hq hpq
  have hfst := hinj p.1 q.1 p.2 (hP p hp) (hP q hq) (hR p hp) (hpq ▸ hR q hq)
  exact Prod.ext hfst hpq

end Appends

end GraphAutofusion.Lib
