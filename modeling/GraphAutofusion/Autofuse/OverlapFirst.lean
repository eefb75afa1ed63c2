import GraphAutofusion.Autofuse.OverlapSets
import Mathlib.Data.List.Sort

/-!
# Autofuse.OverlapFirst — when the sets are the components, with the right element first

A set is a component iff in the order of the input every member but the first overlaps an earlier
one. Its first element is one that has seen most if at every insertion the counters and
the lengths of the lifecycles fall with the ids: then the comparator is an order, the one of
the ids. Otherwise a set may put any element first, which is right only if all have seen
equally many.
-/

namespace GraphAutofusion.Autofuse

open Lib.ForwardCluster List

variable {S : LifecycleSet} {ms : List NodeLifecycle} {set : S.Carrier} {cur : NodeLifecycle}

/-- With the members `ms`, a lifecycle of smaller id has seen as many and is as long. -/
def InOrder (ms : List NodeLifecycle) : Prop :=
  ∀ x ∈ ms, ∀ y ∈ ms, x.node.id < y.node.id →
    seenAfter ms y ≤ seenAfter ms x ∧ y.finish - y.start ≤ x.finish - x.start

/-- While the lifecycles of the list join one after the other the comparator is an order, or at the
end all have seen equally many. -/
def FirstSeesMost (ms : List NodeLifecycle) : Prop :=
  (∀ front, front <+: ms → InOrder front) ∨ ∀ x ∈ ms, ∀ y ∈ ms, seenAfter ms x = seenAfter ms y

/-! ## The order of the ids -/

theorem lifecycleLess_iff (hids : (ms.map (·.node.id)).Nodup) (h : InOrder ms) {a b : NodeLifecycle}
    (ha : a ∈ ms.map (withSeen ms)) (hb : b ∈ ms.map (withSeen ms)) :
    lifecycleLess a b = true ↔ a.node.id < b.node.id := by
  obtain ⟨x, hx, rfl⟩ := mem_map.mp ha
  obtain ⟨y, hy, rfl⟩ := mem_map.mp hb
  show (decide (seenAfter ms y < seenAfter ms x) || decide (y.finish - y.start < x.finish - x.start) ||
    decide (x.node.id < y.node.id)) = true ↔ x.node.id < y.node.id
  simp only [Bool.or_eq_true, decide_eq_true_eq]
  constructor
  · intro hless
    rcases lt_trichotomy x.node.id y.node.id with hlt | heq | hlt
    · exact hlt
    · have hxy : x = y := inj_on_of_nodup_map hids hx hy heq
      rw [hxy] at hless
      omega
    · have hle := h y hy x hx hlt
      omega
  · exact Or.inr

theorem strictWeakOn_of_inOrder (hids : (ms.map (·.node.id)).Nodup) (h : InOrder ms)
    {l : List NodeLifecycle} (hl : ∀ a ∈ l, a ∈ ms.map (withSeen ms)) : StrictWeakOn l := by
  have hless : ∀ {a b}, a ∈ l → b ∈ l → (lifecycleLess a b = true ↔ a.node.id < b.node.id) :=
    fun ha hb => lifecycleLess_iff hids h (hl _ ha) (hl _ hb)
  refine ⟨?_, ?_, ?_⟩
  · intro a ha
    refine Bool.eq_false_iff.mpr fun hself => ?_
    exact lt_irrefl _ ((hless ha ha).mp hself)
  · intro a ha b hb c hc hab hbc
    exact (hless ha hc).mpr (lt_trans ((hless ha hb).mp hab) ((hless hb hc).mp hbc))
  · intro a ha b hb c hc hac
    rw [hless ha hb, hless hb hc]
    have hlt := (hless ha hc).mp hac
    omega

/-- While the comparator is the order of the ids the set is sorted by them. -/
theorem join_sorted (hids : ((ms ++ [cur]).map (·.node.id)).Nodup) (h : InOrder (ms ++ [cur]))
    (hnew : ∀ y ∈ ms, y.node.id ≠ cur.node.id) (hperm : (S.elems set).Perm (ms.map (withSeen ms)))
    (hsorted : (S.elems set).Pairwise fun a b => a.node.id < b.node.id) :
    (S.elems (join S set cur)).Pairwise fun a b => a.node.id < b.node.id := by
  have hjoined := joined_perm hnew hperm
  have hweak := strictWeakOn_of_inOrder hids h fun a ha => hjoined.mem_iff.mp ha
  have hbefore : (S.elems (S.update (seeNode cur) set)).Pairwise (lifecycleLess · · = true) := by
    rw [S.elems_update, pairwise_map]
    refine hsorted.imp fun {a b} hlt => ?_
    have hid : ∀ x, (seeNode cur x).node = x.node := by
      intro x
      unfold seeNode
      split
      · rfl
      · rfl
    simp [lifecycleLess, hid, hlt]
  have hafter := S.emplace_sorted _ _ (join_distinguished hnew hperm) hweak hbefore
  have hperm' := elems_join hnew hperm
  refine List.Pairwise.imp_of_mem (fun ha hb hless => ?_) hafter
  exact (lifecycleLess_iff hids h (hperm'.mem_iff.mp ha) (hperm'.mem_iff.mp hb)).mp hless

theorem new_of_nodup {others : List NodeLifecycle}
    (hids : ((ms ++ cur :: others).map (·.node.id)).Nodup) : ∀ y ∈ ms, y.node.id ≠ cur.node.id := by
  intro y hy heq
  rw [map_append] at hids
  exact (nodup_append.mp hids).2.2 _ (mem_map_of_mem hy) _ mem_cons_self heq

theorem foldl_join_sorted {others : List NodeLifecycle}
    (hids : ((ms ++ others).map (·.node.id)).Nodup) (h : ∀ front, front <+: ms ++ others → InOrder front)
    (hperm : (S.elems set).Perm (ms.map (withSeen ms)))
    (hsorted : (S.elems set).Pairwise fun a b => a.node.id < b.node.id) :
    (S.elems (others.foldl (join S) set)).Pairwise fun a b => a.node.id < b.node.id := by
  induction others generalizing ms set with
  | nil => exact hsorted
  | cons cur others ih =>
    have hsplit : ms ++ cur :: others = ms ++ [cur] ++ others := by simp
    have hnew := new_of_nodup hids
    rw [hsplit] at hids h
    have hfront : ((ms ++ [cur]).map (·.node.id)).Nodup :=
      hids.sublist ((sublist_append_left _ _).map _)
    refine ih hids h (elems_join hnew hperm) ?_
    exact join_sorted hfront (h _ (prefix_append _ _)) hnew hperm hsorted

/-- The condition is enough, whatever the set does. -/
theorem setOf_first (hids : (ms.map (·.node.id)).Nodup) (h : FirstSeesMost ms) {top : NodeLifecycle}
    (htop : (setOf S ms).head? = some top) : ∀ y ∈ setOf S ms, y.seenNums ≤ top.seenNums := by
  intro y hy
  have hmem : ∀ {a}, a ∈ setOf S ms ↔ a ∈ ms.map (withSeen ms) := (setOf_perm hids).mem_iff
  have htop' : top ∈ setOf S ms := mem_of_head? htop
  obtain ⟨x, hx, hxy⟩ := mem_map.mp (hmem.mp hy)
  obtain ⟨t, ht, htt⟩ := mem_map.mp (hmem.mp htop')
  rcases h with h | h
  · -- the first has the smallest id
    have hsorted : (setOf S ms).Pairwise fun a b => a.node.id < b.node.id := by
      cases ms with
      | nil => exact List.Pairwise.nil
      | cons first others =>
        refine @foldl_join_sorted S [first] _ others hids h (elems_single_perm first) ?_
        rw [S.elems_single]
        exact pairwise_singleton _ _
    obtain ⟨tail, htail⟩ := head?_eq_some_iff.mp htop
    rw [htail] at hsorted hy
    rcases mem_cons.mp hy with rfl | hy
    · exact le_refl _
    · have hlt := (pairwise_cons.mp hsorted).1 y hy
      rw [← hxy, ← htt] at hlt ⊢
      exact (h ms (prefix_refl _) t ht x hx hlt).1
  · rw [← hxy, ← htt]
    exact le_of_eq (h x hx t ht)

/-! ## A set that puts a lifecycle first that has seen less

Where the comparator orders the elements it inserts in their order. Elsewhere it lists them by falling
ids, and when the last one comes, those of the id `low` before the others.
-/

section Hostile

variable (last low : ℤ)

def hostileOrder (x : NodeLifecycle) (s : List NodeLifecycle) : List NodeLifecycle :=
  if x.node.id = last then
    (x :: s).filter (·.node.id = low) ++ (x :: s).filter (¬ ·.node.id = low)
  else (x :: s).insertionSort fun a b => b.node.id ≤ a.node.id

open Classical in
noncomputable def hostileEmplace (x : NodeLifecycle) (s : List NodeLifecycle) : List NodeLifecycle :=
  if StrictWeakOn (x :: s) ∧ s.Pairwise (lifecycleLess · · = true) then
    s.orderedInsert (lifecycleLess · · = true) x
  else hostileOrder last low x s

theorem hostileOrder_perm (x : NodeLifecycle) (s : List NodeLifecycle) :
    (hostileOrder last low x s).Perm (x :: s) := by
  unfold hostileOrder
  split
  · simpa using filter_append_perm (fun a : NodeLifecycle => decide (a.node.id = low)) (x :: s)
  · exact perm_insertionSort _ _

variable {s : List NodeLifecycle} {x : NodeLifecycle}

theorem orderedInsert_sorted (hx : Distinguished x s)
    (hweak : StrictWeakOn (x :: s)) (hsorted : s.Pairwise (lifecycleLess · · = true)) :
    (s.orderedInsert (lifecycleLess · · = true) x).Pairwise (lifecycleLess · · = true) := by
  induction s with
  | nil => exact pairwise_singleton _ _
  | cons y s ih =>
    obtain ⟨hy, hs⟩ := pairwise_cons.mp hsorted
    have hmem : y ∈ x :: y :: s := mem_cons_of_mem _ mem_cons_self
    rw [orderedInsert_cons]
    split
    · next hxy =>
      refine pairwise_cons.mpr ⟨fun z hz => ?_, hsorted⟩
      rcases mem_cons.mp hz with rfl | hz
      · exact hxy
      · exact hweak.trans x mem_cons_self y hmem z
          (mem_cons_of_mem _ (mem_cons_of_mem _ hz)) hxy (hy z hz)
    · next hxy =>
      have hsub : ∀ a ∈ x :: s, a ∈ x :: y :: s := by
        intro a ha
        rcases mem_cons.mp ha with rfl | ha
        · exact mem_cons_self
        · exact mem_cons_of_mem _ (mem_cons_of_mem _ ha)
      have hweak' : StrictWeakOn (x :: s) :=
        ⟨fun a ha => hweak.irrefl a (hsub a ha),
          fun a ha b hb c hc => hweak.trans a (hsub a ha) b (hsub b hb) c (hsub c hc),
          fun a ha b hb c hc => hweak.cotrans a (hsub a ha) b (hsub b hb) c (hsub c hc)⟩
      refine pairwise_cons.mpr ⟨fun z hz => ?_, ih (fun z hz => hx z (mem_cons_of_mem _ hz))
        hweak' hs⟩
      rcases (mem_orderedInsert _).mp hz with rfl | hz
      · exact (hx y mem_cons_self).resolve_left hxy
      · exact hy z hz

noncomputable def hostileSet : LifecycleSet where
  Carrier := List NodeLifecycle
  elems s := s
  single x := [x]
  update f s := s.map f
  emplace := hostileEmplace last low
  elems_single _ := rfl
  elems_update _ _ := rfl
  update_of_id f s h := (map_congr_left h).trans (map_id' s)
  emplace_perm x s _ := by
    unfold hostileEmplace
    split
    · exact perm_orderedInsert _ _ _
    · exact hostileOrder_perm last low x s
  emplace_sorted x s hx hweak hsorted := by
    unfold hostileEmplace
    rw [if_pos ⟨hweak, hsorted⟩]
    exact orderedInsert_sorted hx hweak hsorted

theorem not_strictWeakOn (h : ¬ InOrder ms) {l : List NodeLifecycle}
    (hl : ∀ a ∈ ms.map (withSeen ms), a ∈ l) : ¬ StrictWeakOn l := by
  intro hweak
  refine h fun x hx y hy hlt => ?_
  have hx' := hl _ (mem_map_of_mem hx)
  have hy' := hl _ (mem_map_of_mem hy)
  have hxy : lifecycleLess (withSeen ms x) (withSeen ms y) = true := by
    simp [lifecycleLess, withSeen, hlt]
  -- a second criterion that orders them the other way makes one less than itself
  by_contra hnot
  have hyx : lifecycleLess (withSeen ms y) (withSeen ms x) = true := by
    show (decide (seenAfter ms x < seenAfter ms y) ||
      decide (x.finish - x.start < y.finish - y.start) || decide (y.node.id < x.node.id)) = true
    simp only [Bool.or_eq_true, decide_eq_true_eq]
    omega
  have hself := hweak.trans _ hx' _ hy' _ hx' hxy hyx
  rw [hweak.irrefl _ hx'] at hself
  exact Bool.false_ne_true hself

/-- Two elements by falling ids are in order for the comparator only where it is no order. -/
theorem not_sorted_of_falling (hids : (s.map (·.node.id)).Nodup) (hlen : 2 ≤ s.length)
    (hfall : s.Pairwise fun a b => b.node.id ≤ a.node.id) :
    ¬ (StrictWeakOn (x :: s) ∧ s.Pairwise (lifecycleLess · · = true)) := by
  rintro ⟨hweak, hsorted⟩
  match s, hlen with
  | a :: b :: s, _ =>
    have hb : b ∈ b :: s := mem_cons_self
    have hle := (pairwise_cons.mp hfall).1 b hb
    have hab := (pairwise_cons.mp hsorted).1 b hb
    have hne : a.node.id ≠ b.node.id := by
      intro heq
      refine (nodup_cons.mp hids).1 ?_
      show a.node.id ∈ _
      rw [heq]
      exact mem_map_of_mem hb
    have hba : lifecycleLess b a = true := by
      have hlt : b.node.id < a.node.id := lt_of_le_of_ne hle hne.symm
      simp [lifecycleLess, hlt]
    have ha' : a ∈ x :: a :: b :: s := mem_cons_of_mem _ mem_cons_self
    have hself := hweak.trans a ha' b (mem_cons_of_mem _ (mem_cons_of_mem _ hb)) a ha' hab hba
    rw [hweak.irrefl a ha'] at hself
    exact Bool.false_ne_true hself

def OutOfOrder (ms : List NodeLifecycle) : Prop := ∃ front, front <+: ms ∧ ¬ InOrder front

/-- What the set keeps of the members `ms` that have joined it. -/
structure Falls (ms : List NodeLifecycle) (set : List NodeLifecycle) : Prop where
  perm : set.Perm (ms.map (withSeen ms))
  falling : OutOfOrder ms → set.Pairwise fun a b => b.node.id ≤ a.node.id

theorem two_le_length (h : OutOfOrder ms) : 2 ≤ ms.length := by
  rcases h with ⟨front, hfront, hnot⟩
  by_contra hlen
  refine hnot fun x hx y hy hlt => ?_
  have hx := hfront.subset hx
  have hy := hfront.subset hy
  match ms, hlen with
  | [], _ => exact absurd hx not_mem_nil
  | [a], _ =>
    rw [mem_singleton.mp hx, mem_singleton.mp hy] at hlt
    exact absurd hlt (lt_irrefl _)
  | _ :: _ :: _, hlen => exact absurd (by simp) hlen

variable {last low}

theorem hostile_join {set : List NodeLifecycle} (hids : ((ms ++ [cur]).map (·.node.id)).Nodup)
    (h : Falls ms set) (hout : OutOfOrder (ms ++ [cur])) :
    join (hostileSet last low) set cur =
      hostileOrder last low (seeSet set cur) (set.map (seeNode cur)) := by
  have hnew := new_of_nodup hids
  have hjoined := @joined_perm (hostileSet last low) ms set cur hnew h.perm
  show hostileEmplace last low (seeSet set cur) (set.map (seeNode cur)) = _
  unfold hostileEmplace
  refine if_neg ?_
  rcases hout with ⟨front, hfront, hnot⟩
  rcases prefix_concat_iff.mp hfront with rfl | hfront
  · exact fun hboth => not_strictWeakOn hnot (fun a ha => hjoined.mem_iff.mpr ha) hboth.1
  have hout : OutOfOrder ms := ⟨front, hfront, hnot⟩
  have hid : ∀ x, (seeNode cur x).node = x.node := by
    intro x
    unfold seeNode
    split
    · rfl
    · rfl
  have hsame : (set.map (seeNode cur)).map (·.node.id) = set.map (·.node.id) := by
    rw [map_map]
    exact map_congr_left fun x _ => by rw [Function.comp_apply, hid]
  refine not_sorted_of_falling ?_ ?_ ?_
  · rw [hsame, (h.perm.map _).nodup_iff, map_map]
    exact hids.sublist ((sublist_append_left _ _).map _)
  · rw [length_map, h.perm.length_eq, length_map]
    exact two_le_length hout
  · rw [pairwise_map]
    refine (h.falling hout).imp fun hle => ?_
    rw [hid, hid]
    exact hle

theorem hostile_step {set : List NodeLifecycle} (hids : ((ms ++ [cur]).map (·.node.id)).Nodup)
    (hlast : cur.node.id ≠ last) (h : Falls ms set) :
    Falls (ms ++ [cur]) (join (hostileSet last low) set cur) := by
  refine ⟨@elems_join (hostileSet last low) ms set cur (new_of_nodup hids) h.perm, fun hout => ?_⟩
  have hother : (seeSet set cur).node.id ≠ last := hlast
  rw [hostile_join hids h hout, hostileOrder, if_neg hother]
  have htotal : Std.Total fun a b : NodeLifecycle => b.node.id ≤ a.node.id :=
    ⟨fun a b => le_total b.node.id a.node.id⟩
  have htrans : IsTrans NodeLifecycle fun a b => b.node.id ≤ a.node.id :=
    ⟨fun a b c hab hbc => le_trans hbc hab⟩
  exact List.pairwise_insertionSort _ _

theorem hostile_foldl {set others : List NodeLifecycle}
    (hids : ((ms ++ others).map (·.node.id)).Nodup) (hlast : ∀ y ∈ others, y.node.id ≠ last)
    (h : Falls ms set) : Falls (ms ++ others) (others.foldl (join (hostileSet last low)) set) := by
  induction others generalizing ms set with
  | nil =>
    rw [append_nil]
    exact h
  | cons cur others ih =>
    have hsplit : ms ++ cur :: others = ms ++ [cur] ++ others := by simp
    rw [hsplit] at hids ⊢
    have hfront : ((ms ++ [cur]).map (·.node.id)).Nodup :=
      hids.sublist ((sublist_append_left _ _).map _)
    refine ih hids (fun y hy => hlast y (mem_cons_of_mem _ hy)) ?_
    exact hostile_step hfront (hlast cur mem_cons_self) h

/-- The lifecycles of the id `low` before the others: its only member comes first. -/
theorem head_hostileOrder {x y : NodeLifecycle} (hids : (ms.map (·.node.id)).Nodup)
    (hy : y.node.id = last) (hperm : (y :: s).Perm (ms.map (withSeen ms))) (hx : x ∈ ms) :
    (hostileOrder last x.node.id y s).head? = some (withSeen ms x) := by
  have hmem : withSeen ms x ∈ y :: s := hperm.mem_iff.mpr (mem_map_of_mem hx)
  have hfirst : ((y :: s).filter (·.node.id = x.node.id)).head? = some (withSeen ms x) := by
    rw [head?_filter]
    cases hfind : (y :: s).find? (·.node.id = x.node.id) with
    | none =>
      have hnone := find?_eq_none.mp hfind _ hmem
      exact absurd (decide_eq_true rfl) hnone
    | some a =>
      obtain ⟨b, hb, rfl⟩ := mem_map.mp (hperm.mem_iff.mp (mem_of_find?_eq_some hfind))
      have hid : b.node.id = x.node.id := of_decide_eq_true (find?_some hfind :)
      rw [inj_on_of_nodup_map hids hb hx hid]
  rw [hostileOrder, if_pos hy, head?_append, hfirst]
  rfl

/-- Once the members are out of order, any of them may come first. -/
theorem exists_head (hids : (ms.map (·.node.id)).Nodup) (hout : OutOfOrder ms)
    (hx : x ∈ ms) : ∃ S : LifecycleSet, (setOf S ms).head? = some (withSeen ms x) := by
  match ms, two_le_length hout with
  | first :: b :: others, _ =>
    have hne : b :: others ≠ [] := cons_ne_nil _ _
    obtain ⟨between, z, hsplit⟩ := (eq_nil_or_concat (b :: others)).resolve_left hne
    rw [concat_eq_append] at hsplit
    rw [hsplit] at hids hout hx ⊢
    have hids' : (([first] ++ between ++ [z]).map (·.node.id)).Nodup := hids
    have hnew := new_of_nodup hids'
    have hfront : (([first] ++ between).map (·.node.id)).Nodup :=
      hids'.sublist ((sublist_append_left _ _).map _)
    let S := hostileSet z.node.id x.node.id
    let set := between.foldl (join S) (S.single first)
    have hsingle : Falls [first] (S.single first) :=
      ⟨@elems_single_perm S first, fun hout => absurd (two_le_length hout) (by simp)⟩
    have hfalls : Falls ([first] ++ between) set :=
      hostile_foldl hfront (fun y hy => hnew y (mem_append_right _ hy)) hsingle
    have hset : setOf S (first :: (between ++ [z])) =
        hostileOrder z.node.id x.node.id (seeSet (S.elems set) z) ((S.elems set).map (seeNode z)) := by
      rw [setOf, foldl_append, foldl_cons, foldl_nil]
      exact hostile_join hids' hfalls hout
    refine ⟨S, ?_⟩
    rw [hset]
    refine head_hostileOrder hids rfl ?_ hx
    exact @joined_perm S ([first] ++ between) set z hnew hfalls.perm

end Hostile

/-- The condition is exact: it says what holds of every set that keeps what is documented. -/
theorem firstSeesMost_iff (hids : (ms.map (·.node.id)).Nodup) :
    (∀ (S : LifecycleSet) (top : NodeLifecycle), (setOf S ms).head? = some top →
      ∀ y ∈ setOf S ms, y.seenNums ≤ top.seenNums) ↔ FirstSeesMost ms := by
  refine ⟨fun h => ?_, fun h S top htop => setOf_first hids h htop⟩
  by_contra hnot
  rw [FirstSeesMost, not_or] at hnot
  rcases hnot with ⟨hout, hsome⟩
  simp only [not_forall] at hout hsome
  rcases hout with ⟨front, hfront, hnot⟩
  rcases hsome with ⟨x, hx, y, hy, hne⟩
  have hout : OutOfOrder ms := ⟨front, hfront, hnot⟩
  -- whichever of the two comes first, it is to have seen as many as the other
  have hle : ∀ a ∈ ms, ∀ b ∈ ms, seenAfter ms b ≤ seenAfter ms a := by
    intro a ha b hb
    obtain ⟨S, hhead⟩ := exists_head hids hout ha
    exact h S _ hhead _ ((setOf_perm hids).mem_iff.mpr (mem_map_of_mem hb))
  exact hne (le_antisymm (hle y hy x hx) (hle x hx y hy))

end GraphAutofusion.Autofuse
