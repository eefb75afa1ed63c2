import Mathlib.Data.Option.Basic
import Mathlib.Logic.Relation
import Mathlib.Order.Defs.PartialOrder

/-!
# Lib.EdgeContraction — merging the classes of a partition keeps a graph acyclic

The items of a graph are put into classes. The class graph has an edge where an edge of the
item graph leads from one class into another. Merging a class into one of its successors
contracts the edge between them, and keeps the class graph acyclic when no other path
leads from the one to the other.
-/

namespace GraphAutofusion.Lib

open Relation Option

variable {α β : Type*}

/-- No path leads back to its start. -/
def Acyclic (r : β → β → Prop) : Prop := ∀ x, ¬ TransGen r x x

/-- The edges between the classes of a partition. -/
def ClassEdge (r : α → α → Prop) (f : α → Option β) (a b : β) : Prop :=
  a ≠ b ∧ ∃ x y, r x y ∧ f x = some a ∧ f y = some b

/-- The edges after `a` was merged into `b`. -/
def contract (r : β → β → Prop) (a b x y : β) : Prop :=
  x ≠ a ∧ y ≠ a ∧ x ≠ y ∧ (r x y ∨ (x = b ∧ r a y) ∨ (y = b ∧ r x a))

variable {r : β → β → Prop} {a b c x y z : β}

theorem Acyclic.ne (h : Acyclic r) (hxy : r x y) : x ≠ y := by
  intro heq
  subst heq
  exact h x (TransGen.single hxy)

theorem Acyclic.mono {r' : β → β → Prop} (h : Acyclic r) (hle : ∀ x y, r' x y → r x y) : Acyclic r' :=
  fun x hx => h x (TransGen.mono hle _ _ hx)

/-- A relation that follows a strict order is acyclic. -/
theorem acyclic_of_lt [Preorder β] (h : ∀ x y, r x y → x < y) : Acyclic r := by
  have hlt : ∀ {x y}, TransGen r x y → x < y := by
    intro x y hxy
    induction hxy with
    | single hxy => exact h _ _ hxy
    | tail _ hyz ih => exact lt_trans ih (h _ _ hyz)
  intro x hx
  exact lt_irrefl _ (hlt hx)

/-- The class edges after all items of class `a` were moved into class `b`. -/
theorem classEdge_merge {s : α → α → Prop} {f g : α → Option β} (hab : a ≠ b)
    (hg : ∀ x, (f x = some a ∧ g x = some b) ∨ (f x ≠ some a ∧ g x = f x)) :
    ClassEdge s g x y ↔ contract (ClassEdge s f) a b x y := by
  have hsome : ∀ {v w}, g v = some w → w ≠ a ∧ (f v = some w ∨ (w = b ∧ f v = some a)) := by
    intro v w hv
    rcases hg v with ⟨hfa, hgb⟩ | ⟨hne, heq⟩
    · have hwb : w = b := some.inj (hv.symm.trans hgb)
      exact ⟨hwb ▸ hab.symm, .inr ⟨hwb, hfa⟩⟩
    · rw [heq] at hv
      refine ⟨fun hwa => hne (hwa ▸ hv), .inl hv⟩
  have hmoved : ∀ {v}, f v = some a → g v = some b := by
    intro v hv
    rcases hg v with ⟨_, hgb⟩ | ⟨hne, _⟩
    · exact hgb
    · exact absurd hv hne
  have hkept : ∀ {v w}, w ≠ a → f v = some w → g v = some w := by
    intro v w hw hv
    rcases hg v with ⟨hfa, _⟩ | ⟨_, heq⟩
    · exact absurd (some.inj (hv.symm.trans hfa)) hw
    · exact heq.trans hv
  constructor
  · rintro ⟨hxy, v, w, hvw, hv, hw⟩
    rcases hsome hv with ⟨hxa, hv⟩
    rcases hsome hw with ⟨hya, hw⟩
    refine ⟨hxa, hya, hxy, ?_⟩
    rcases hv with hv | ⟨rfl, hv⟩
    · rcases hw with hw | ⟨rfl, hw⟩
      · exact .inl ⟨hxy, v, w, hvw, hv, hw⟩
      · exact .inr (.inr ⟨rfl, hxa, v, w, hvw, hv, hw⟩)
    · rcases hw with hw | ⟨rfl, hw⟩
      · exact .inr (.inl ⟨rfl, Ne.symm hya, v, w, hvw, hv, hw⟩)
      · exact absurd rfl hxy
  · rintro ⟨hxa, hya, hxy, ⟨_, v, w, hvw, hv, hw⟩ | ⟨rfl, _, v, w, hvw, hv, hw⟩ |
      ⟨rfl, _, v, w, hvw, hv, hw⟩⟩
    · exact ⟨hxy, v, w, hvw, hkept hxa hv, hkept hya hw⟩
    · exact ⟨hxy, v, w, hvw, hmoved hv, hkept hya hw⟩
    · exact ⟨hxy, v, w, hvw, hkept hxa hv, hmoved hw⟩

/-! ## Contraction keeps a graph acyclic -/

/-- A step between two vertices other than `b`. -/
def Off (r : β → β → Prop) (b x y : β) : Prop := r x y ∧ x ≠ b ∧ y ≠ b

/-- The part of a path behind its last visit of `b`. -/
theorem exists_off_path (h : TransGen r b x) (hx : x ≠ b) :
    ∃ y, r b y ∧ y ≠ b ∧ ReflTransGen (Off r b) y x := by
  induction h with
  | single h => exact ⟨_, h, hx, .refl⟩
  | @tail w x _ hwx ih =>
    by_cases hw : w = b
    · subst hw
      exact ⟨x, hwx, hx, .refl⟩
    · rcases ih hw with ⟨y, hby, hy, hpath⟩
      exact ⟨y, hby, hy, hpath.tail ⟨hwx, hw, hx⟩⟩

/-- A path either visits `b` or stays off it. -/
theorem through_or_off (h : TransGen r x y) (hx : x ≠ b) :
    (TransGen r x b ∧ ReflTransGen r b y) ∨ TransGen (Off r b) x y := by
  induction h with
  | @single y hxy =>
    by_cases hy : y = b
    · subst hy
      exact .inl ⟨TransGen.single hxy, .refl⟩
    · exact .inr (TransGen.single ⟨hxy, hx, hy⟩)
  | @tail w y hxw hwy ih =>
    rcases ih with ⟨hxb, hbw⟩ | hoff
    · exact .inl ⟨hxb, hbw.tail hwy⟩
    by_cases hy : y = b
    · subst hy
      exact .inl ⟨hxw.tail hwy, .refl⟩
    · have hw : w ≠ b := by
        cases hoff with
        | single h => exact h.2.2
        | tail _ h => exact h.2.2
      exact .inr (hoff.tail ⟨hwy, hw, hy⟩)

/-- A path through the contracted graph that stays off `b` is a path of the graph. -/
theorem off_contract_le : Off (contract r a b) b x y → r x y := by
  rintro ⟨⟨_, _, _, hxy | ⟨rfl, _⟩ | ⟨rfl, _⟩⟩, hx, hy⟩
  · exact hxy
  · exact absurd rfl hx
  · exact absurd rfl hy

/-- Merging `a` into its successor `b` keeps the graph acyclic when every path from `a` to `b`
is that edge. -/
theorem Acyclic.contract (h : Acyclic r) (hab : r a b)
    (hpath : ∀ c, r a c → c ≠ b → ¬ ReflTransGen r c b) : Acyclic (contract r a b) := by
  have hback : ¬ ReflTransGen r b a := fun hba => h a (TransGen.head' hab hba)
  -- a cycle through `b` unfolds into a path from `b` or `a` to `b` or `a`
  have hthrough : ¬ TransGen (Lib.contract r a b) b b := by
    intro hcycle
    rcases (TransGen.tail'_iff.mp hcycle) with ⟨w, hbw, hwb⟩
    have hw : w ≠ b := hwb.2.2.1
    have hbw' : TransGen (Lib.contract r a b) b w := by
      rcases Relation.reflTransGen_iff_eq_or_transGen.mp hbw with heq | hbw
      · exact absurd heq hw
      · exact hbw
    rcases exists_off_path hbw' hw with ⟨y, hby, hy, hoff⟩
    have hyw : ReflTransGen r y w := ReflTransGen.mono (fun _ _ => off_contract_le) _ _ hoff
    have hstart : r b y ∨ r a y := by
      rcases hby.2.2.2 with hr | ⟨_, hr⟩ | ⟨hyb, _⟩
      · exact .inl hr
      · exact .inr hr
      · exact absurd hyb hy
    have hend : r w b ∨ r w a := by
      rcases hwb.2.2.2 with hr | ⟨hwb', _⟩ | ⟨_, hr⟩
      · exact .inl hr
      · exact absurd hwb' hw
      · exact .inr hr
    rcases hstart with hstart | hstart
    · rcases hend with hend | hend
      · exact h b (TransGen.head' hstart (hyw.tail hend))
      · exact hback (.head hstart (hyw.tail hend))
    · rcases hend with hend | hend
      · exact hpath y hstart hy (hyw.tail hend)
      · exact h a (TransGen.head' hstart (hyw.tail hend))
  intro x hx
  by_cases hxb : x = b
  · subst hxb
    exact hthrough hx
  · rcases through_or_off hx hxb with ⟨hxb', hbx⟩ | hoff
    · exact hthrough (TransGen.trans_right hbx hxb')
    · exact h x (TransGen.mono (fun _ _ => off_contract_le) _ _ hoff)

end GraphAutofusion.Lib
