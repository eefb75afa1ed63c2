import GraphAutofusion.Lib.ForwardCluster
import Mathlib.Algebra.Order.Group.Int
import Mathlib.Data.Finset.Card

/-!
# Autofuse.OverlapSets — loads that occupy too many queues at once

`FindOverlappingNodeSets` collects lifecycles that overlap into sets and returns those that use more
queues than there are. The sets are ordered by a comparator that reads a counter, and the
counters grow while the elements are in the set. Where this order is none, a `std::set` promises
nothing about the place of an element. So the set is a parameter with what it documents.
-/

namespace GraphAutofusion.Autofuse

open Lib.ForwardCluster List

/-- What is read of a node: the id of its op desc, and the queue of its first output. -/
structure QueNode where
  id : ℤ
  queId : ℤ
deriving DecidableEq, Repr

/-- `finish` is the member `end`. -/
structure NodeLifecycle where
  node : QueNode
  start : ℤ
  finish : ℤ
  seenNums : ℕ
deriving DecidableEq, Repr

/-- `LifecycleComparator`. -/
def lifecycleLess (lhs rhs : NodeLifecycle) : Bool :=
  rhs.seenNums < lhs.seenNums || rhs.finish - rhs.start < lhs.finish - lhs.start ||
    lhs.node.id < rhs.node.id

def overlaps (lhs rhs : NodeLifecycle) : Bool := !(lhs.finish < rhs.start || rhs.finish < lhs.start)

/-- On the elements of the list the comparator is a strict weak order. -/
structure StrictWeakOn (l : List NodeLifecycle) : Prop where
  irrefl : ∀ a ∈ l, lifecycleLess a a = false
  trans : ∀ a ∈ l, ∀ b ∈ l, ∀ c ∈ l, lifecycleLess a b = true → lifecycleLess b c = true →
    lifecycleLess a c = true
  cotrans : ∀ a ∈ l, ∀ b ∈ l, ∀ c ∈ l, lifecycleLess a c = true →
    lifecycleLess a b = true ∨ lifecycleLess b c = true

/-- No element of the list is equivalent to `x`. -/
def Distinguished (x : NodeLifecycle) (l : List NodeLifecycle) : Prop :=
  ∀ y ∈ l, lifecycleLess x y = true ∨ lifecycleLess y x = true

/-- `std::set<NodeLifecycle, LifecycleComparator>`. An element is inserted unless an equivalent one is
there; in its place, as far as the comparator orders the elements and they are in order.
`update` assigns to mutable members of the elements, which moves none of them. -/
structure LifecycleSet where
  Carrier : Type
  elems : Carrier → List NodeLifecycle
  single : NodeLifecycle → Carrier
  update : (NodeLifecycle → NodeLifecycle) → Carrier → Carrier
  emplace : NodeLifecycle → Carrier → Carrier
  elems_single : ∀ x, elems (single x) = [x]
  elems_update : ∀ f s, elems (update f s) = (elems s).map f
  update_of_id : ∀ f s, (∀ x ∈ elems s, f x = x) → update f s = s
  emplace_perm : ∀ x s, Distinguished x (elems s) → (elems (emplace x s)).Perm (x :: elems s)
  emplace_sorted : ∀ x s, Distinguished x (elems s) → StrictWeakOn (x :: elems s) →
    (elems s).Pairwise (lifecycleLess · · = true) →
    (elems (emplace x s)).Pairwise (lifecycleLess · · = true)

variable (S : LifecycleSet)

/-- An element of the set that the node overlaps has seen one more. -/
def seeNode (node it : NodeLifecycle) : NodeLifecycle :=
  if overlaps node it then { it with seenNums := it.seenNums + 1 } else it

/-- The node with the overlaps it has seen in a set. -/
def seeSet (set : List NodeLifecycle) (node : NodeLifecycle) : NodeLifecycle :=
  { node with seenNums := node.seenNums + set.countP (overlaps node) }

/-- The flag, the node and the set after the loop. -/
def getOverlapWithSetFlag (node : NodeLifecycle) (set : S.Carrier) :
    Bool × NodeLifecycle × S.Carrier :=
  ((S.elems set).any (overlaps node), seeSet (S.elems set) node, S.update (seeNode node) set)

/-- The loop over `j`: the set, and the lifecycles that stay unused. -/
def growSet (curSet : S.Carrier) : List NodeLifecycle → S.Carrier × List NodeLifecycle
  | [] => (curSet, [])
  | cur :: rest =>
    match getOverlapWithSetFlag S cur curSet with
    | (true, seen, curSet) => growSet (S.emplace seen curSet) rest
    | (false, _, curSet) => ((growSet curSet rest).1, cur :: (growSet curSet rest).2)

/-- `used_que_ids.size()`. -/
def queNum (set : List NodeLifecycle) : ℕ := (set.map (·.node.queId)).toFinset.card

theorem growSet_length (curSet : S.Carrier) (rest : List NodeLifecycle) :
    (growSet S curSet rest).2.length ≤ rest.length := by
  induction rest generalizing curSet with
  | nil => exact le_refl _
  | cons cur rest ih =>
    unfold growSet
    split
    · exact Nat.le_succ_of_le (ih _)
    · exact Nat.succ_le_succ (ih _)

/-- `FindOverlappingNodeSets`, on the lifecycles that are not used yet. -/
def findOverlappingNodeSets (maxQueNum : ℕ) : List NodeLifecycle → List (List NodeLifecycle)
  | [] => []
  | first :: rest =>
    let grown := growSet S (S.single first) rest
    let sets := findOverlappingNodeSets maxQueNum grown.2
    if maxQueNum < queNum (S.elems grown.1) then S.elems grown.1 :: sets else sets
termination_by lifecycles => lifecycles.length
decreasing_by
  have hle := growSet_length S (S.single first) rest
  simp only [length_cons]
  omega

/-! ## What a set holds -/

/-- The overlaps that a lifecycle has seen when the set has the members `ms`. -/
def seenAfter (ms : List NodeLifecycle) (x : NodeLifecycle) : ℕ :=
  x.seenNums + ms.countP fun y => y.node.id ≠ x.node.id && overlaps x y

def withSeen (ms : List NodeLifecycle) (x : NodeLifecycle) : NodeLifecycle :=
  { x with seenNums := seenAfter ms x }

/-- One lifecycle joins the set. -/
def join (set : S.Carrier) (cur : NodeLifecycle) : S.Carrier :=
  S.emplace (seeSet (S.elems set) cur) (S.update (seeNode cur) set)

variable {S} {ms : List NodeLifecycle} {set : S.Carrier} {cur : NodeLifecycle}

theorem overlaps_comm (a b : NodeLifecycle) : overlaps a b = overlaps b a := by
  unfold overlaps
  rw [Bool.or_comm]

theorem distinguished_of_ids {x : NodeLifecycle} {l : List NodeLifecycle}
    (h : ∀ y ∈ l, y.node.id ≠ x.node.id) : Distinguished x l := by
  intro y hy
  rcases lt_or_gt_of_ne (h y hy) with hlt | hlt
  · right
    simp [lifecycleLess, hlt]
  · left
    simp [lifecycleLess, hlt]

theorem seeNode_withSeen {x : NodeLifecycle} (hne : cur.node.id ≠ x.node.id) :
    seeNode cur (withSeen ms x) = withSeen (ms ++ [cur]) x := by
  have hcount : seenAfter (ms ++ [cur]) x = seenAfter ms x + if overlaps cur x then 1 else 0 := by
    rw [seenAfter, seenAfter, countP_append, countP_singleton, overlaps_comm x cur]
    simp [hne]
    omega
  have hsame : overlaps cur (withSeen ms x) = overlaps cur x := rfl
  unfold seeNode
  rw [hsame]
  split
  · next h =>
    rw [if_pos h] at hcount
    simp [withSeen, hcount]
  · next h =>
    rw [if_neg h] at hcount
    simp [withSeen, hcount]

section

variable (hnew : ∀ y ∈ ms, y.node.id ≠ cur.node.id)
include hnew

theorem seeSet_withSeen (hperm : (S.elems set).Perm (ms.map (withSeen ms))) :
    seeSet (S.elems set) cur = withSeen (ms ++ [cur]) cur := by
  have hcount : (S.elems set).countP (overlaps cur) = ms.countP (overlaps cur) := by
    rw [hperm.countP_eq, countP_map]
    rfl
  have hother : ms.countP (fun y => y.node.id ≠ cur.node.id && overlaps cur y) =
      ms.countP (overlaps cur) := by
    refine countP_congr fun y hy => ?_
    simp [hnew y hy]
  rw [seeSet, withSeen, seenAfter, countP_append, hother, hcount]
  simp

/-- What is in the set and what is put into it, with the counters of all members. -/
theorem joined_perm (hperm : (S.elems set).Perm (ms.map (withSeen ms))) :
    (seeSet (S.elems set) cur :: S.elems (S.update (seeNode cur) set)).Perm
      ((ms ++ [cur]).map (withSeen (ms ++ [cur]))) := by
  have hupdate : (S.elems (S.update (seeNode cur) set)).Perm (ms.map (withSeen (ms ++ [cur]))) := by
    rw [S.elems_update]
    refine (hperm.map _).trans ?_
    rw [map_map]
    refine Perm.of_eq (map_congr_left fun x hx => ?_)
    exact seeNode_withSeen fun heq => hnew x hx heq.symm
  rw [seeSet_withSeen hnew hperm, map_append, map_singleton]
  exact (hupdate.cons _).trans (perm_append_singleton _ _).symm

theorem join_distinguished (hperm : (S.elems set).Perm (ms.map (withSeen ms))) :
    Distinguished (seeSet (S.elems set) cur) (S.elems (S.update (seeNode cur) set)) := by
  refine distinguished_of_ids fun y hy => ?_
  rw [S.elems_update] at hy
  obtain ⟨z, hz, rfl⟩ := mem_map.mp hy
  obtain ⟨x, hx, rfl⟩ := mem_map.mp (hperm.mem_iff.mp hz)
  have hid : (seeNode cur (withSeen ms x)).node.id = x.node.id := by
    unfold seeNode
    split
    · rfl
    · rfl
  rw [hid]
  exact hnew x hx

/-- After a join the set holds one lifecycle more, and all counters are those of its members. -/
theorem elems_join (hperm : (S.elems set).Perm (ms.map (withSeen ms))) :
    (S.elems (join S set cur)).Perm ((ms ++ [cur]).map (withSeen (ms ++ [cur]))) :=
  (S.emplace_perm _ _ (join_distinguished hnew hperm)).trans (joined_perm hnew hperm)

end

/-- The set of a cluster: its first lifecycle, joined by the others. -/
def setOf (S : LifecycleSet) : List NodeLifecycle → List NodeLifecycle
  | [] => []
  | first :: others => S.elems (others.foldl (join S) (S.single first))

theorem foldl_join {others : List NodeLifecycle} (hids : ((ms ++ others).map (·.node.id)).Nodup)
    (hperm : (S.elems set).Perm (ms.map (withSeen ms))) :
    (S.elems (others.foldl (join S) set)).Perm ((ms ++ others).map (withSeen (ms ++ others))) := by
  induction others generalizing ms set with
  | nil =>
    rw [append_nil]
    exact hperm
  | cons cur others ih =>
    have hsplit : ms ++ cur :: others = ms ++ [cur] ++ others := by simp
    have hnew : ∀ y ∈ ms, y.node.id ≠ cur.node.id := by
      intro y hy heq
      rw [map_append] at hids
      exact (nodup_append.mp hids).2.2 _ (mem_map_of_mem hy) _ mem_cons_self heq
    rw [hsplit] at hids ⊢
    exact ih hids (elems_join hnew hperm)

theorem withSeen_singleton (first : NodeLifecycle) : withSeen [first] first = first := by
  simp [withSeen, seenAfter]

theorem elems_single_perm (first : NodeLifecycle) :
    (S.elems (S.single first)).Perm ([first].map (withSeen [first])) := by
  rw [S.elems_single, map_singleton, withSeen_singleton]

theorem setOf_perm (hids : (ms.map (·.node.id)).Nodup) : (setOf S ms).Perm (ms.map (withSeen ms)) := by
  cases ms with
  | nil => exact Perm.refl _
  | cons first others => exact @foldl_join S [first] _ others hids (elems_single_perm first)

/-- The pass of the source takes the lifecycles that the forward pass takes. -/
theorem growSet_eq {rest : List NodeLifecycle} (hids : ((ms ++ rest).map (·.node.id)).Nodup)
    (hperm : (S.elems set).Perm (ms.map (withSeen ms))) :
    ∃ joined, (grow overlaps ms rest).1 = ms ++ joined ∧
      growSet S set rest = (joined.foldl (join S) set, (grow overlaps ms rest).2) := by
  induction rest generalizing ms set with
  | nil => exact ⟨[], (append_nil ms).symm, rfl⟩
  | cons cur rest ih =>
    have hsplit : ms ++ cur :: rest = ms ++ [cur] ++ rest := by simp
    have hnew : ∀ y ∈ ms, y.node.id ≠ cur.node.id := by
      intro y hy heq
      rw [map_append] at hids
      exact (nodup_append.mp hids).2.2 _ (mem_map_of_mem hy) _ mem_cons_self heq
    have hflag : (S.elems set).any (overlaps cur) = ms.any (overlaps · cur) := by
      rw [hperm.any_eq, any_map]
      refine congrArg ms.any (funext fun x => ?_)
      exact overlaps_comm cur x
    unfold growSet grow getOverlapWithSetFlag
    rw [hflag]
    cases hany : ms.any (overlaps · cur) with
    | true =>
      rw [hsplit] at hids
      obtain ⟨joined, hgrow, hset⟩ := ih hids (elems_join hnew hperm)
      refine ⟨cur :: joined, ?_, ?_⟩
      · rw [if_pos rfl, hgrow, append_assoc]
        rfl
      · rw [if_pos rfl]
        exact hset
    | false =>
      -- nothing overlaps, so no counter changes
      have hsame : S.update (seeNode cur) set = set := by
        refine S.update_of_id _ _ fun x hx => ?_
        rw [← hflag] at hany
        have hx := any_eq_false.mp hany x hx
        rw [seeNode, if_neg hx]
      have hids' : ((ms ++ rest).map (·.node.id)).Nodup := by
        refine hids.sublist (Sublist.map _ ?_)
        exact (Sublist.refl ms).append (sublist_cons_self cur rest)
      obtain ⟨joined, hgrow, hset⟩ := ih hids' hperm
      refine ⟨joined, ?_, ?_⟩
      · rw [if_neg Bool.false_ne_true]
        exact hgrow
      · rw [if_neg Bool.false_ne_true]
        dsimp only
        rw [hsame, hset]

/-- The sets are those of the clusters with too many queues. -/
theorem findOverlappingNodeSets_eq (maxQueNum : ℕ) {l : List NodeLifecycle}
    (hids : (l.map (·.node.id)).Nodup) :
    findOverlappingNodeSets S maxQueNum l =
      ((clusters overlaps l).map (setOf S)).filter (maxQueNum < queNum ·) := by
  induction l using clusters.induct overlaps with
  | case1 => rw [findOverlappingNodeSets, clusters]; rfl
  | case2 first rest ih =>
    obtain ⟨joined, hgrow, hset⟩ := @growSet_eq S [first] _ rest hids (elems_single_perm first)
    obtain ⟨_, -, -, hleft, -⟩ := grow_sublist overlaps [first] rest
    have hids' : ((grow overlaps [first] rest).2.map (·.node.id)).Nodup :=
      hids.sublist ((hleft.cons first).map _)
    rw [findOverlappingNodeSets, clusters, hset, map_cons, filter_cons, ih hids', hgrow]
    simp only [decide_eq_true_eq]
    rfl

end GraphAutofusion.Autofuse
