import Mathlib.Order.Lattice

/-!
# Lib.RunningBest — the best of a list by two measures

A search keeps the best object so far. A new one is better when its first measure is no smaller, or
reaches a threshold, and its second measure is no smaller. The rule mixes two running maxima, so it
finds the best of an arbitrary list only by luck; it does when the first measure is largest at the
head of the list.
-/

namespace GraphAutofusion.Lib

variable {α β γ : Type*} [LinearOrder β] [LinearOrder γ] (f : α → β) (g : α → γ) (threshold : β)

def keepBetter (best : Option α) (x : α) : Option α :=
  match best with
  | none => some x
  | some b => if (f b ≤ f x ∨ threshold ≤ f x) ∧ g b ≤ g x then some x else some b

/-- Among the objects that reach the threshold, or else among those with the largest first measure,
one with the largest second measure. -/
structure IsBest (P : α → Prop) (b : α) : Prop where
  holds : P b
  of_reached : (∃ x, P x ∧ threshold ≤ f x) →
    threshold ≤ f b ∧ ∀ x, P x → threshold ≤ f x → g x ≤ g b
  of_not_reached : (¬ ∃ x, P x ∧ threshold ≤ f x) →
    (∀ x, P x → f x ≤ f b) ∧ ∀ x, P x → f x = f b → g x ≤ g b

variable {f g threshold} {P : α → Prop} {first b x : α}

theorem IsBest.congr {Q : α → Prop} (h : IsBest f g threshold P b) (hiff : ∀ x, P x ↔ Q x) :
    IsBest f g threshold Q b := by
  have heq : P = Q := funext fun x => propext (hiff x)
  rwa [← heq]

/-- What is known of the best of the objects seen, when the first one has the largest measure. -/
structure BestSoFar (f : α → β) (g : α → γ) (threshold : β) (first : α) (P : α → Prop) (b : α) :
    Prop where
  holds : P b
  of_reached : threshold ≤ f first → threshold ≤ f b ∧ ∀ x, P x → threshold ≤ f x → g x ≤ g b
  of_not_reached : f first < threshold → f b = f first ∧ ∀ x, P x → f x = f first → g x ≤ g b

section

variable (h : BestSoFar f g threshold first P b)
include h

/-- One more object, by the rule. -/
theorem BestSoFar.step (hx : f x ≤ f first) :
    ∃ b', keepBetter f g threshold (some b) x = some b' ∧
      BestSoFar f g threshold first (fun y => P y ∨ y = x) b' := by
  by_cases hbetter : (f b ≤ f x ∨ threshold ≤ f x) ∧ g b ≤ g x
  · refine ⟨x, if_pos hbetter, .inr rfl, ?_, ?_⟩
    · intro hfirst
      rcases h.of_reached hfirst with ⟨hb, hmax⟩
      refine ⟨hbetter.1.elim (le_trans hb) id, ?_⟩
      rintro y (hy | rfl) hreach
      · exact le_trans (hmax y hy hreach) hbetter.2
      · exact le_rfl
    · intro hfirst
      rcases h.of_not_reached hfirst with ⟨hb, hmax⟩
      -- no object reaches the threshold, so the first measure is the largest one again
      have hlt : ¬ threshold ≤ f x := not_le.mpr (lt_of_le_of_lt hx hfirst)
      refine ⟨le_antisymm hx (hb ▸ hbetter.1.resolve_right hlt), ?_⟩
      rintro y (hy | rfl) heq
      · exact le_trans (hmax y hy heq) hbetter.2
      · exact le_rfl
  · refine ⟨b, if_neg hbetter, .inl h.holds, ?_, ?_⟩
    · intro hfirst
      rcases h.of_reached hfirst with ⟨hb, hmax⟩
      refine ⟨hb, ?_⟩
      rintro y (hy | rfl) hreach
      · exact hmax y hy hreach
      · exact le_of_not_ge fun hge => hbetter ⟨.inr hreach, hge⟩
    · intro hfirst
      rcases h.of_not_reached hfirst with ⟨hb, hmax⟩
      refine ⟨hb, ?_⟩
      rintro y (hy | rfl) heq
      · exact hmax y hy heq
      · exact le_of_not_ge fun hge => hbetter ⟨.inl (le_of_eq (hb.trans heq.symm)), hge⟩

theorem BestSoFar.foldl {l : List α} (hl : ∀ x ∈ l, f x ≤ f first) :
    ∃ b', l.foldl (keepBetter f g threshold) (some b) = some b' ∧
      BestSoFar f g threshold first (fun y => P y ∨ y ∈ l) b' := by
  induction l generalizing P b with
  | nil => exact ⟨b, rfl, by simpa using h⟩
  | cons x l ih =>
    rcases h.step (hl x List.mem_cons_self) with ⟨b', hb', hstep⟩
    rcases ih hstep fun y hy => hl y (List.mem_cons_of_mem _ hy) with ⟨b'', hb'', hrest⟩
    refine ⟨b'', by rw [List.foldl_cons, hb', hb''], ?_⟩
    simpa only [List.mem_cons, or_assoc] using hrest

theorem BestSoFar.isBest (hfirst : P first)
    (hP : ∀ x, P x → f x ≤ f first) : IsBest f g threshold P b where
  holds := h.holds
  of_reached := by
    rintro ⟨x, hx, hreach⟩
    exact h.of_reached (le_trans hreach (hP x hx))
  of_not_reached := by
    intro hnone
    have hlt : f first < threshold := not_le.mp fun hle => hnone ⟨first, hfirst, hle⟩
    rcases h.of_not_reached hlt with ⟨hb, hmax⟩
    exact ⟨fun x hx => hb ▸ hP x hx, fun x hx heq => hmax x hx (heq.trans hb)⟩

end

/-- The rule finds the best of a list whose head has the largest first measure. -/
theorem foldl_keepBetter {l : List α} (hl : ∀ x ∈ l, f x ≤ f first) :
    ∃ b, (first :: l).foldl (keepBetter f g threshold) none = some b ∧
      IsBest f g threshold (· ∈ first :: l) b := by
  have hstart : BestSoFar f g threshold first (fun y => y = first) first := by
    refine ⟨rfl, fun hle => ⟨hle, ?_⟩, fun _ => ⟨rfl, ?_⟩⟩
    · rintro x rfl _
      exact le_rfl
    · rintro x rfl _
      exact le_rfl
  rcases hstart.foldl hl with ⟨b, hb, hbest⟩
  refine ⟨b, hb, ?_⟩
  have hmem : (fun y => y = first ∨ y ∈ l) = (· ∈ first :: l) := by
    funext y
    rw [List.mem_cons]
  rw [← hmem]
  refine hbest.isBest (.inl rfl) ?_
  rintro x (rfl | hx)
  · exact le_rfl
  · exact hl x hx

end GraphAutofusion.Lib
