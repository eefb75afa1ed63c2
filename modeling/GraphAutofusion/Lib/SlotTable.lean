import Mathlib.Logic.Basic

/-!
# Lib.SlotTable — records that know their slots

A table of slots and a list of records that name the places they are kept at. A slot holds a record
exactly when the record is listed and names the slot. Taking a record out, putting one into empty
slots and moving one to empty slots keep this.
-/

namespace GraphAutofusion.Lib

variable {P E : Type*}

def Holds (slot : P → Option E) (listed : E → Prop) (home : E → P → Prop) : Prop :=
  ∀ p e, slot p = some e ↔ listed e ∧ home e p

variable {slot slot' : P → Option E} {listed listed' : E → Prop} {home home' : E → P → Prop} {e : E}

section

variable (h : Holds slot listed home)
include h

theorem Holds.congr (hslot : ∀ p, slot' p = slot p)
    (hlisted : ∀ i, listed' i ↔ listed i) (hhome : ∀ i, listed i → ∀ p, home' i p ↔ home i p) :
    Holds slot' listed' home' := fun p i => by
  rw [hslot, h p i, hlisted]
  exact and_congr_right fun hi => (hhome i hi p).symm

theorem Holds.erase (he : listed e)
    (hlisted : ∀ i, listed' i ↔ i ≠ e ∧ listed i)
    (hhome : ∀ i, i ≠ e → ∀ p, home' i p ↔ home i p)
    (hgone : ∀ p, home e p → slot' p = none) (hkeep : ∀ p, ¬ home e p → slot' p = slot p) :
    Holds slot' listed' home' := fun p i => by
  rw [hlisted]
  by_cases hp : home e p
  · -- the slot is empty, and no other record had it
    rw [hgone p hp]
    refine iff_of_false (fun h => nomatch h) fun ⟨⟨hie, hi⟩, hhi⟩ => hie ?_
    have hold := (h p i).mpr ⟨hi, (hhome i hie p).mp hhi⟩
    rw [(h p e).mpr ⟨he, hp⟩] at hold
    exact (Option.some.inj hold).symm
  · rw [hkeep p hp, h p i]
    constructor
    · rintro ⟨hi, hhi⟩
      have hie : i ≠ e := fun heq => hp (heq ▸ hhi)
      exact ⟨⟨hie, hi⟩, (hhome i hie p).mpr hhi⟩
    · rintro ⟨⟨hie, hi⟩, hhi⟩
      exact ⟨hi, (hhome i hie p).mp hhi⟩

theorem Holds.insert (hnew : ¬ listed e)
    (hlisted : ∀ i, listed' i ↔ i = e ∨ listed i)
    (hhome : ∀ i, i ≠ e → ∀ p, home' i p ↔ home i p)
    (hempty : ∀ p, home' e p → slot p = none) (hput : ∀ p, home' e p → slot' p = some e)
    (hkeep : ∀ p, ¬ home' e p → slot' p = slot p) : Holds slot' listed' home' := fun p i => by
  rw [hlisted]
  by_cases hie : i = e
  · rw [hie]
    by_cases hp : home' e p
    · rw [hput p hp]
      exact iff_of_true rfl ⟨.inl rfl, hp⟩
    · rw [hkeep p hp, h p e]
      exact iff_of_false (fun h => hnew h.1) fun h => hp h.2
  · by_cases hp : home' e p
    · rw [hput p hp]
      refine iff_of_false (fun h => hie (Option.some.inj h).symm) fun ⟨hi, hhi⟩ => ?_
      have hold := (h p i).mpr ⟨hi.resolve_left hie, (hhome i hie p).mp hhi⟩
      rw [hempty p hp] at hold
      exact nomatch hold
    · rw [hkeep p hp, h p i, hhome i hie p]
      exact and_congr_left fun _ => ⟨Or.inr, fun h => h.resolve_left hie⟩

/-- A record is taken out and put back at other places. -/
theorem Holds.move (he : listed e) (hhome : ∀ i, i ≠ e → ∀ p, home' i p ↔ home i p)
    (hempty : ∀ p, home' e p → slot p = none) (hput : ∀ p, home' e p → slot' p = some e)
    (hgone : ∀ p, home e p → slot' p = none)
    (hkeep : ∀ p, ¬ home e p → ¬ home' e p → slot' p = slot p) : Holds slot' listed home' := by
  classical
  let out : P → Option E := fun p => if home e p then none else slot p
  have hout : Holds out (fun i => i ≠ e ∧ listed i) home :=
    h.erase he (fun _ => Iff.rfl) (fun _ _ _ => Iff.rfl) (fun p hp => if_pos hp)
      fun p hp => if_neg hp
  refine hout.insert (fun h => h.1 rfl) (fun i => ?_) hhome (fun p hp => ?_) hput fun p hp => ?_
  · by_cases hie : i = e
    · exact iff_of_true (hie ▸ he) (.inl hie)
    · exact ⟨fun hi => .inr ⟨hie, hi⟩, fun h => (h.resolve_left hie).2⟩
  · show (if home e p then none else slot p) = none
    rw [hempty p hp, ite_self]
  · show slot' p = if home e p then none else slot p
    split
    · rename_i hpe
      exact hgone p hpe
    · rename_i hpe
      exact hkeep p hpe hp

end

section MoveSlot

variable [DecidableEq P] {a b : P}

/-- A record is moved from one slot to an empty one. -/
theorem Holds.moveSlot (h : Holds slot listed home) (ha : slot a = some e) (hb : slot b = none)
    (hhome : ∀ i, i ≠ e → ∀ p, home' i p ↔ home i p) (hold : ∀ p, home e p → p = a)
    (hnew : ∀ p, home' e p ↔ p = b)
    (hslot' : ∀ p, slot' p = if p = a then none else if p = b then slot a else slot p) :
    Holds slot' listed home' := by
  have hba : b ≠ a := fun hba => by
    rw [hba, ha] at hb
    exact nomatch hb
  obtain ⟨he, hhere⟩ := (h a e).mp ha
  refine h.move he hhome (fun p hp => ?_) (fun p hp => ?_) (fun p hp => ?_) fun p hp hp' => ?_
  · rw [(hnew p).mp hp, hb]
  · rw [hslot', (hnew p).mp hp, if_neg hba, if_pos rfl, ha]
  · rw [hslot', if_pos (hold p hp)]
  · have hpa : p ≠ a := fun hpa => hp (hpa ▸ hhere)
    rw [hslot', if_neg hpa, if_neg fun hpb => hp' ((hnew p).mpr hpb)]

/-- Between two empty slots nothing is moved. -/
theorem moveSlot_empty (ha : slot a = none) (hb : slot b = none)
    (hslot' : ∀ p, slot' p = if p = a then none else if p = b then slot a else slot p) (p : P) :
    slot' p = slot p := by
  rw [hslot']
  split
  · next hpa => rw [hpa, ha]
  · split
    · next hpb => rw [hpb, ha, hb]
    · rfl

end MoveSlot

end GraphAutofusion.Lib
