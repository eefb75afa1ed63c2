import Mathlib.Data.List.Nodup

/-!
# GraphMetadef.QuickList — elements that are recycled through a free list

A graph keeps its nodes, and its edges, in a list it works with and a list of free elements. An
element knows the list it is in. The links between the elements are kept as the lists themselves.
-/

namespace GraphAutofusion.GraphMetadef

open Function Option List

inductive ListMode where
  | kWorkMode
  | kFreeMode
deriving DecidableEq, Repr

/-- The two lists of one kind of elements. The owner of an element is named by the mode of its
list, `next` is the first element that was never allocated. -/
structure QuickLists where
  work : List ℕ
  free : List ℕ
  owner : ℕ → Option ListMode
  mode : ℕ → ListMode
  next : ℕ

namespace QuickLists

def empty : QuickLists where
  work := []
  free := []
  owner := fun _ => none
  mode := fun _ => .kFreeMode
  next := 0

def items (l : QuickLists) : ListMode → List ℕ
  | .kWorkMode => l.work
  | .kFreeMode => l.free

def setItems (l : QuickLists) (m : ListMode) (xs : List ℕ) : QuickLists :=
  match m with
  | .kWorkMode => { l with work := xs }
  | .kFreeMode => { l with free := xs }

/-- An element is put into a list, at the place that gives `xs`. -/
def place (l : QuickLists) (m : ListMode) (x : ℕ) (xs : List ℕ) : QuickLists :=
  { l.setItems m xs with
    owner := update l.owner x (some m)
    mode := update l.mode x m }

def pushBack (l : QuickLists) (m : ListMode) (x : ℕ) : QuickLists := l.place m x (l.items m ++ [x])

def erase (l : QuickLists) (m : ListMode) (x : ℕ) : QuickLists :=
  if l.owner x = some m then
    { l.setItems m ((l.items m).erase x) with
      owner := update l.owner x none
      mode := update l.mode x .kFreeMode }
  else l

/-- The element leaves the list that owns it. -/
def leave (l : QuickLists) (x : ℕ) : QuickLists :=
  match l.owner x with
  | none => l
  | some m => l.erase m x

/-- The first free element, or a new one. -/
def take (l : QuickLists) : QuickLists × ℕ :=
  match l.free with
  | [] => ({ l with next := l.next + 1 }, l.next)
  | x :: _ => (l.erase .kFreeMode x, x)

/-- Every element is in the list its owner names, once, and in no other. -/
structure Consistent (l : QuickLists) : Prop where
  owned : ∀ m x, x ∈ l.items m ↔ l.owner x = some m
  nodup : ∀ m, (l.items m).Nodup
  moded : ∀ m x, l.owner x = some m → l.mode x = m
  allocated : ∀ x, l.owner x ≠ none → x < l.next

variable {l : QuickLists} {m m' : ListMode} {x y : ℕ} {xs : List ℕ}

theorem items_setItems : (l.setItems m xs).items m' = if m' = m then xs else l.items m' := by
  cases m <;> cases m' <;> rfl

theorem next_setItems : (l.setItems m xs).next = l.next := by
  cases m <;> rfl

theorem items_place : (l.place m x xs).items m' = if m' = m then xs else l.items m' :=
  items_setItems (l := l)

theorem consistent_empty : empty.Consistent where
  owned := fun m x => by cases m <;> exact ⟨fun h => (nomatch h), fun h => (nomatch h)⟩
  nodup := fun m => by cases m <;> exact nodup_nil
  moded := fun _ _ h => nomatch h
  allocated := fun _ h => absurd rfl h

/-- An element without owner may be put anywhere into a list. -/
theorem Consistent.place (h : l.Consistent) (hfree : l.owner x = none) (hx : x < l.next)
    (hmem : ∀ y, y ∈ xs ↔ y = x ∨ y ∈ l.items m) (hnodup : xs.Nodup) :
    (l.place m x xs).Consistent where
  owned := fun m' y => by
    rw [items_place]
    show _ ↔ update l.owner x (some m) y = some m'
    rw [update_apply]
    by_cases hy : y = x
    · rw [if_pos hy, hy]
      by_cases hm : m' = m
      · rw [if_pos hm, hm]
        exact iff_of_true ((hmem x).mpr (.inl rfl)) rfl
      · rw [if_neg hm, h.owned, hfree]
        exact iff_of_false (fun h => nomatch h) fun h => hm (some.inj h).symm
    · rw [if_neg hy, ← h.owned]
      by_cases hm : m' = m
      · rw [if_pos hm, hm, hmem]
        exact ⟨fun h => h.elim (fun h => absurd h hy) id, .inr⟩
      · rw [if_neg hm]
  nodup := fun m' => by
    rw [items_place]
    split
    · exact hnodup
    · exact h.nodup m'
  moded := fun m' y hy => by
    have hy : update l.owner x (some m) y = some m' := hy
    show update l.mode x m y = m'
    rw [update_apply] at hy ⊢
    split at hy
    · rename_i hyx
      rw [if_pos hyx]
      exact some.inj hy
    · rename_i hyx
      rw [if_neg hyx]
      exact h.moded m' y hy
  allocated := fun y hy => by
    have hy : update l.owner x (some m) y ≠ none := hy
    show y < (l.setItems m xs).next
    rw [next_setItems]
    rw [update_apply] at hy
    split at hy
    · rename_i hyx
      rw [hyx]
      exact hx
    · exact h.allocated y hy

theorem mem_pushBack : y ∈ (l.pushBack m x).items m' ↔ (m' = m ∧ y = x) ∨ y ∈ l.items m' := by
  unfold QuickLists.pushBack
  rw [items_place]
  by_cases hm : m' = m
  · rw [if_pos hm, hm, mem_append, mem_singleton, or_comm]
    exact or_congr ⟨fun h => ⟨rfl, h⟩, And.right⟩ Iff.rfl
  · rw [if_neg hm]
    exact ⟨Or.inr, fun h => h.elim (fun h => absurd h.1 hm) id⟩

theorem Consistent.pushBack (h : l.Consistent) (hfree : l.owner x = none) (hx : x < l.next) :
    (l.pushBack m x).Consistent := by
  have hnew : x ∉ l.items m := fun hmem => by
    rw [h.owned, hfree] at hmem
    exact nomatch hmem
  refine h.place hfree hx (fun y => ?_) ?_
  · rw [mem_append, mem_singleton]
    exact or_comm
  · rw [nodup_append]
    refine ⟨h.nodup m, nodup_singleton x, fun a ha b hb hab => ?_⟩
    rw [hab, mem_singleton.mp hb] at ha
    exact hnew ha

theorem Consistent.mem_erase (h : l.Consistent) (hx : l.owner x = some m) :
    y ∈ (l.erase m x).items m' ↔ y ≠ x ∧ y ∈ l.items m' := by
  unfold QuickLists.erase
  rw [if_pos hx]
  show y ∈ (l.setItems m _).items m' ↔ _
  rw [items_setItems]
  split
  · rename_i hm
    rw [hm, (h.nodup m).mem_erase_iff]
  · rename_i hm
    refine ⟨fun hy => ⟨fun hyx => ?_, hy⟩, And.right⟩
    rw [h.owned, hyx, hx] at hy
    exact hm (some.inj hy).symm

theorem Consistent.owner_erase (hx : l.owner x = some m) :
    (l.erase m x).owner = update l.owner x none := by
  unfold QuickLists.erase
  rw [if_pos hx]

theorem next_erase : (l.erase m x).next = l.next := by
  unfold QuickLists.erase
  split
  · exact next_setItems
  · rfl

theorem Consistent.erase (h : l.Consistent) (hx : l.owner x = some m) :
    (l.erase m x).Consistent where
  owned := fun m' y => by
    rw [h.mem_erase hx, Consistent.owner_erase hx, update_apply, h.owned]
    by_cases hy : y = x
    · rw [if_pos hy]
      exact iff_of_false (fun h => h.1 hy) fun h => nomatch h
    · rw [if_neg hy]
      exact ⟨And.right, fun h => ⟨hy, h⟩⟩
  nodup := fun m' => by
    unfold QuickLists.erase
    rw [if_pos hx]
    show ((l.setItems m _).items m').Nodup
    rw [items_setItems]
    split
    · exact (h.nodup m).erase x
    · exact h.nodup m'
  moded := fun m' y hy => by
    rw [Consistent.owner_erase hx, update_apply] at hy
    unfold QuickLists.erase
    rw [if_pos hx]
    show update l.mode x .kFreeMode y = m'
    rw [update_apply]
    by_cases hyx : y = x
    · rw [if_pos hyx] at hy
      exact nomatch hy
    · rw [if_neg hyx] at hy ⊢
      exact h.moded m' y hy
  allocated := fun y hy => by
    rw [next_erase]
    rw [Consistent.owner_erase hx, update_apply] at hy
    split at hy
    · exact absurd rfl hy
    · exact h.allocated y hy

theorem next_leave : (l.leave x).next = l.next := by
  unfold leave
  split
  · rfl
  · exact next_erase

/-- Without its owner an element is in no list. -/
theorem Consistent.leave (h : l.Consistent) : (l.leave x).Consistent ∧
    (l.leave x).owner x = none ∧
      ∀ m y, y ∈ (l.leave x).items m ↔ y ≠ x ∧ y ∈ l.items m := by
  unfold QuickLists.leave
  cases hx : l.owner x with
  | none =>
    refine ⟨h, hx, fun m y => ⟨fun hy => ⟨fun hyx => ?_, hy⟩, And.right⟩⟩
    rw [h.owned, hyx, hx] at hy
    exact nomatch hy
  | some m =>
    refine ⟨h.erase hx, ?_, fun m' y => h.mem_erase hx⟩
    show (l.erase m x).owner x = none
    rw [Consistent.owner_erase hx, update_self]

/-- The element that is taken has no owner and was not in use. -/
theorem Consistent.take (h : l.Consistent) : l.take.1.Consistent ∧
    l.take.1.owner l.take.2 = none ∧ l.take.2 < l.take.1.next ∧ l.next ≤ l.take.1.next ∧
      l.take.2 ∉ l.work ∧ l.take.1.work = l.work := by
  unfold QuickLists.take
  split
  · rename_i hfree
    have hnone : l.owner l.next = none := by
      by_contra hsome
      exact Nat.lt_irrefl _ (h.allocated l.next hsome)
    refine ⟨⟨h.owned, h.nodup, h.moded, fun y hy => ?_⟩, hnone, Nat.lt_succ_self _,
      Nat.le_succ _, fun hmem => ?_, rfl⟩
    · exact Nat.lt_succ_of_lt (h.allocated y hy)
    · have howner := (h.owned .kWorkMode l.next).mp hmem
      rw [hnone] at howner
      exact nomatch howner
  · rename_i x rest hfree
    have hx : l.owner x = some .kFreeMode := by
      rw [← h.owned]
      show x ∈ l.free
      rw [hfree]
      exact mem_cons_self
    have hwork : (l.erase .kFreeMode x).work = l.work := by
      unfold QuickLists.erase
      rw [if_pos hx]
      rfl
    refine ⟨h.erase hx, ?_, ?_, Nat.le_of_eq next_erase.symm, fun hmem => ?_, hwork⟩
    · show (l.erase .kFreeMode x).owner x = none
      rw [Consistent.owner_erase hx, update_self]
    · show x < (l.erase .kFreeMode x).next
      rw [next_erase]
      exact h.allocated x (by rw [hx]; exact Option.some_ne_none _)
    · have howner := (h.owned .kWorkMode x).mp hmem
      rw [hx] at howner
      exact nomatch howner

end QuickLists

end GraphAutofusion.GraphMetadef
