import Mathlib.Data.List.Nodup

/-!
# Lib.Ring — a list as a ring of links in both directions

From the head the forward links go through the members of a list and back to the head, and the backward
links go through them in the other order. Linking a member in between two neighbours, or unlinking one,
changes the list there.
-/

namespace GraphAutofusion.Lib

open List

variable {α : Type}

/-- One link leads from the head through the members, in their order, back to the head. -/
def HalfRing (next : α → Option α) (h : α) (xs : List α) : Prop :=
  (h :: xs).map next = (xs ++ [h]).map some

structure Ring (next prev : α → Option α) (h : α) (xs : List α) : Prop where
  nodup : (h :: xs).Nodup
  next_eq : HalfRing next h xs
  prev_eq : HalfRing prev h xs.reverse

section Rules

variable {next next' prev prev' : α → Option α} {h x a b : α} {xs l r : List α}

theorem getLastD_reverse (l : List α) (h : α) : l.reverse.getLastD h = l.headD h := by
  rw [getLastD_eq_getLast?, getLast?_reverse, headD_eq_head?_getD]

theorem headD_reverse (l : List α) (h : α) : l.reverse.headD h = l.getLastD h := by
  rw [headD_eq_head?_getD, head?_reverse, getLastD_eq_getLast?]

/-- The head and a list in front of a place are all before it and the last. -/
theorem cons_eq_concat (h : α) (l : List α) : ∃ A, h :: l = A ++ [l.getLastD h] ∧ A.length = l.length := by
  refine ⟨(h :: l).dropLast, ?_, ?_⟩
  · have hlast : l.getLastD h = (h :: l).getLast (cons_ne_nil h l) := by
      cases l with
      | nil => rfl
      | cons b l => rw [getLastD_eq_getLast?, getLast_cons (cons_ne_nil b l),
          getLast?_eq_some_getLast (cons_ne_nil b l), Option.getD_some]
    rw [hlast, dropLast_append_getLast]
  · rw [length_dropLast, length_cons, Nat.add_sub_cancel]

theorem concat_eq_cons (r : List α) (h : α) : ∃ C, r ++ [h] = r.headD h :: C ∧ C.length = r.length := by
  cases r with
  | nil => exact ⟨[], rfl, rfl⟩
  | cons b r => exact ⟨r ++ [h], rfl, by rw [length_append]; rfl⟩

/-- The links around a place of the list. -/
theorem halfRing_split : HalfRing next h (l ++ r) ↔ ∃ A C : List α,
    h :: l = A ++ [l.getLastD h] ∧ r ++ [h] = r.headD h :: C ∧ A.map next = l.map some ∧
      next (l.getLastD h) = some (r.headD h) ∧ r.map next = C.map some := by
  rcases cons_eq_concat h l with ⟨A, hA, hAlen⟩
  rcases concat_eq_cons r h with ⟨C, hC, hClen⟩
  have hleft : (h :: (l ++ r)).map next = A.map next ++ ([next (l.getLastD h)] ++ r.map next) := by
    rw [← cons_append, hA, map_append, map_append, append_assoc]
    rfl
  have hright : (l ++ r ++ [h]).map some = l.map some ++ ([some (r.headD h)] ++ C.map some) := by
    rw [append_assoc, hC, map_append]
    rfl
  rw [HalfRing, hleft, hright]
  constructor
  · intro heq
    rcases append_inj heq (by rw [length_map, length_map, hAlen]) with ⟨hfront, hback⟩
    rcases List.cons.inj hback with ⟨hmid, hrest⟩
    exact ⟨A, C, hA, hC, hfront, hmid, hrest⟩
  · rintro ⟨A', C', hA', hC', hfront, hmid, hrest⟩
    -- both ways to write the list are the same
    have hAA : A' = A := append_cancel_right (hA'.symm.trans hA)
    have hCC : C' = C := (List.cons.inj (hC'.symm.trans hC)).2
    subst hAA hCC
    rw [hfront, hmid, hrest]

theorem HalfRing.between (hring : HalfRing next h (l ++ r)) : next (l.getLastD h) = some (r.headD h) := by
  rcases halfRing_split.mp hring with ⟨_, _, _, _, _, hmid, _⟩
  exact hmid

theorem HalfRing.congr (hring : HalfRing next h xs) (heq : ∀ y ∈ h :: xs, next' y = next y) :
    HalfRing next' h xs := by
  rw [HalfRing, map_congr_left heq]
  exact hring

/-- A member is linked in between two neighbours. -/
theorem HalfRing.insert (hring : HalfRing next h (l ++ r)) (hnodup : (h :: (l ++ r)).Nodup)
    (hx : x ∉ h :: (l ++ r)) (hbefore : next' (l.getLastD h) = some x)
    (hself : next' x = some (r.headD h)) (hrest : ∀ y, y ≠ l.getLastD h → y ≠ x → next' y = next y) :
    HalfRing next' h (l ++ x :: r) := by
  rcases halfRing_split.mp hring with ⟨A, C, hA, hC, hfront, _, hback⟩
  rw [← cons_append, hA, append_assoc, nodup_append] at hnodup
  rw [← cons_append, hA, append_assoc, mem_append, not_or, mem_append, not_or] at hx
  refine halfRing_split.mpr ⟨A, r ++ [h], hA, rfl, ?_, hbefore, ?_⟩
  · rw [← hfront]
    apply map_congr_left
    intro y hy
    refine hrest y (fun heq => ?_) fun heq => hx.1 (heq ▸ hy)
    exact hnodup.2.2 y hy (l.getLastD h) (mem_append_left _ (mem_singleton_self _)) heq
  · rw [map_cons, hself, hC, map_cons, ← hback]
    congr 1
    apply map_congr_left
    intro y hy
    refine hrest y (fun heq => ?_) fun heq => hx.2.2 (heq ▸ hy)
    have hlast := (nodup_append.mp hnodup.2.1).2.2 (l.getLastD h) (mem_singleton_self _) y hy
    exact hlast heq.symm

/-- A member is unlinked. -/
theorem HalfRing.remove (hring : HalfRing next h (l ++ x :: r)) (hnodup : (h :: (l ++ x :: r)).Nodup)
    (hbefore : next' (l.getLastD h) = some (r.headD h))
    (hrest : ∀ y, y ≠ l.getLastD h → y ≠ x → next' y = next y) : HalfRing next' h (l ++ r) := by
  rcases halfRing_split.mp hring with ⟨A, C, hA, hC, hfront, _, hback⟩
  rcases concat_eq_cons r h with ⟨C', hC', _⟩
  have hCr : C = r ++ [h] := (List.cons.inj hC).2.symm
  rw [← cons_append, hA, append_assoc, nodup_append] at hnodup
  refine halfRing_split.mpr ⟨A, C', hA, hC', ?_, hbefore, ?_⟩
  · rw [← hfront]
    apply map_congr_left
    intro y hy
    refine hrest y (fun heq => ?_) fun heq => ?_
    · exact hnodup.2.2 y hy (l.getLastD h) (mem_append_left _ (mem_singleton_self _)) heq
    · exact hnodup.2.2 y hy x (mem_append_right _ mem_cons_self) heq
  · rw [hCr, hC', map_cons, map_cons] at hback
    have hmap := (List.cons.inj hback).2
    rw [← hmap]
    apply map_congr_left
    intro y hy
    have hright := nodup_append.mp hnodup.2.1
    refine hrest y (fun heq => ?_) fun heq => ?_
    · exact hright.2.2 (l.getLastD h) (mem_singleton_self _) y (mem_cons_of_mem _ hy) heq.symm
    · exact (nodup_cons.mp hright.2.1).1 (heq ▸ hy)

/-! ## The neighbours of a place -/

theorem getLastD_mem (l : List α) (h : α) : l.getLastD h ∈ h :: l := by
  rcases cons_eq_concat h l with ⟨A, hA, _⟩
  rw [hA]
  exact mem_append_right _ (mem_singleton_self _)

theorem headD_mem (r : List α) (h : α) : r.headD h ∈ h :: r := by
  cases r with
  | nil => exact mem_cons_self
  | cons b r => exact mem_cons_of_mem _ mem_cons_self

theorem getLastD_append_cons (l r : List α) (x h : α) : (l ++ x :: r).getLastD h = r.getLastD x := by
  rw [getLastD_eq_getLast?, getLast?_append, getLast?_cons, getLastD_eq_getLast?]
  cases r.getLast? <;> rfl

/-- The last member stays the last when something is put in front of others. -/
theorem getLastD_insert (hr : r ≠ []) : (l ++ x :: r).getLastD h = (l ++ r).getLastD h := by
  cases r with
  | nil => exact absurd rfl hr
  | cons b r => rw [← singleton_append, ← append_assoc, getLastD_append_cons, getLastD_append_cons]

theorem getLastD_append_nil (l : List α) (h : α) : (l ++ []).getLastD h = l.getLastD h := by
  rw [append_nil]

/-- A place is the last one when the member in front of it is the last. -/
theorem getLastD_eq_iff (hnodup : (h :: (l ++ r)).Nodup) :
    (l ++ r).getLastD h = l.getLastD h ↔ r = [] := by
  constructor
  · intro heq
    cases r with
    | nil => rfl
    | cons b r =>
      exfalso
      rw [getLastD_append_cons] at heq
      have hlast := getLastD_mem r b
      have hfirst := getLastD_mem l h
      rw [heq] at hlast
      rw [← cons_append] at hnodup
      exact (nodup_append.mp hnodup).2.2 _ hfirst _ hlast rfl
  · rintro rfl
    exact getLastD_append_nil l h

theorem insertIdx_length (l r : List α) (x : α) : (l ++ r).insertIdx l.length x = l ++ x :: r := by
  induction l with
  | nil => rfl
  | cons a l ih => exact congrArg (a :: ·) ih

theorem idxOf_middle [DecidableEq α] (hx : x ∉ l) : (l ++ x :: r).idxOf x = l.length := by
  rw [idxOf_append_of_notMem hx, idxOf_cons_self, Nat.add_zero]

/-! ## Both directions -/

theorem nodup_reverse (hnodup : (h :: xs).Nodup) : (h :: xs.reverse).Nodup := by
  rw [nodup_cons] at hnodup ⊢
  exact ⟨fun hmem => hnodup.1 (mem_reverse.mp hmem), List.nodup_reverse.mpr hnodup.2⟩

theorem Ring.next_between (hring : Ring next prev h (l ++ r)) :
    next (l.getLastD h) = some (r.headD h) := hring.next_eq.between

theorem Ring.prev_between (hring : Ring next prev h (l ++ r)) :
    prev (r.headD h) = some (l.getLastD h) := by
  have hprev := hring.prev_eq
  rw [reverse_append] at hprev
  have hmid := hprev.between
  rwa [getLastD_reverse, headD_reverse] at hmid

theorem Ring.congr (hring : Ring next prev h xs) (hnext : ∀ y ∈ h :: xs, next' y = next y)
    (hprev : ∀ y ∈ h :: xs, prev' y = prev y) : Ring next' prev' h xs where
  nodup := hring.nodup
  next_eq := hring.next_eq.congr hnext
  prev_eq := hring.prev_eq.congr fun y hy => hprev y (by
    rcases mem_cons.mp hy with rfl | hy
    · exact mem_cons_self
    · exact mem_cons_of_mem _ (mem_reverse.mp hy))

theorem Ring.insert (hring : Ring next prev h (l ++ r)) (hx : x ∉ h :: (l ++ r))
    (ha : next' (l.getLastD h) = some x) (hxn : next' x = some (r.headD h))
    (hnext : ∀ y, y ≠ l.getLastD h → y ≠ x → next' y = next y)
    (hb : prev' (r.headD h) = some x) (hxp : prev' x = some (l.getLastD h))
    (hprev : ∀ y, y ≠ r.headD h → y ≠ x → prev' y = prev y) : Ring next' prev' h (l ++ x :: r) where
  nodup := by
    have hperm : (h :: (l ++ x :: r)).Perm (x :: h :: (l ++ r)) :=
      (Perm.cons h perm_middle).trans (Perm.swap x h _)
    exact hperm.nodup_iff.mpr (nodup_cons.mpr ⟨hx, hring.nodup⟩)
  next_eq := hring.next_eq.insert hring.nodup hx ha hxn hnext
  prev_eq := by
    have hprevRing := hring.prev_eq
    have hnodup := nodup_reverse hring.nodup
    have hx' : x ∉ h :: (l ++ r).reverse := by
      rw [mem_cons, mem_reverse]
      exact fun hmem => hx (mem_cons.mpr hmem)
    rw [reverse_append] at hprevRing hnodup hx'
    have hins : HalfRing prev' h (r.reverse ++ x :: l.reverse) := hprevRing.insert hnodup hx'
      (by rw [getLastD_reverse]; exact hb) (by rw [headD_reverse]; exact hxp)
      (by rw [getLastD_reverse]; exact hprev)
    rw [reverse_append, reverse_cons, append_assoc]
    exact hins

theorem Ring.remove (hring : Ring next prev h (l ++ x :: r))
    (ha : next' (l.getLastD h) = some (r.headD h))
    (hnext : ∀ y, y ≠ l.getLastD h → y ≠ x → next' y = next y)
    (hb : prev' (r.headD h) = some (l.getLastD h))
    (hprev : ∀ y, y ≠ r.headD h → y ≠ x → prev' y = prev y) : Ring next' prev' h (l ++ r) where
  nodup := by
    have hperm : (h :: (l ++ x :: r)).Perm (x :: h :: (l ++ r)) :=
      (Perm.cons h perm_middle).trans (Perm.swap x h _)
    exact (nodup_cons.mp (hperm.nodup_iff.mp hring.nodup)).2
  next_eq := hring.next_eq.remove hring.nodup ha hnext
  prev_eq := by
    have hprevRing := hring.prev_eq
    have hnodup := nodup_reverse hring.nodup
    rw [reverse_append, reverse_cons, append_assoc, singleton_append] at hprevRing hnodup
    rw [reverse_append]
    refine hprevRing.remove hnodup ?_ ?_
    · rw [getLastD_reverse, headD_reverse]
      exact hb
    · rw [getLastD_reverse]
      exact hprev

theorem ring_nil (hnext : next h = some h) (hprev : prev h = some h) : Ring next prev h [] where
  nodup := nodup_singleton h
  next_eq := by
    rw [HalfRing, map_singleton, hnext]
    rfl
  prev_eq := by
    rw [HalfRing, reverse_nil, map_singleton, hprev]
    rfl

/-- The first link of the head. -/
theorem Ring.next_head (hring : Ring next prev h xs) : next h = some (xs.headD h) :=
  hring.next_between (l := [])

theorem Ring.prev_head (hring : Ring next prev h xs) : prev h = some (xs.getLastD h) := by
  have hring' : Ring next prev h (xs ++ []) := (append_nil xs).symm ▸ hring
  exact hring'.prev_between

end Rules

end GraphAutofusion.Lib
