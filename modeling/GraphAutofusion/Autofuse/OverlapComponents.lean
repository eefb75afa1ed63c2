import GraphAutofusion.Autofuse.OverlapFirst
import Mathlib.Data.List.Flatten
import Mathlib.Data.List.Pairwise

/-!
# Autofuse.OverlapComponents — the sets against the components of the overlap graph

The sets are meant to be the components that use too many queues. The single forward pass misses a
lifecycle that overlaps only later members. And where the comparator is no order, the first
element of a set may be any.
-/

namespace GraphAutofusion.Autofuse

open Lib.ForwardCluster List

variable {S : LifecycleSet} {maxQueNum : ℕ} {l ms : List NodeLifecycle} {x : NodeLifecycle}

/-- The members of a component, each with the overlaps it has seen. -/
noncomputable def seenComponent (l : List NodeLifecycle) (x : NodeLifecycle) : List NodeLifecycle :=
  (component overlaps l x).map (withSeen (component overlaps l x))

/-- What the search for overlapping loads is meant to return. -/
structure OverlapSets (S : LifecycleSet) (maxQueNum : ℕ) (l : List NodeLifecycle) : Prop where
  sound : ∀ set ∈ findOverlappingNodeSets S maxQueNum l,
    ∃ x ∈ l, maxQueNum < queNum (component overlaps l x) ∧ set.Perm (seenComponent l x)
  complete : ∀ x ∈ l, maxQueNum < queNum (component overlaps l x) →
    ∃ set ∈ findOverlappingNodeSets S maxQueNum l, set.Perm (seenComponent l x)
  once : ((findOverlappingNodeSets S maxQueNum l).flatten.map (·.node.id)).Nodup
  first : ∀ set ∈ findOverlappingNodeSets S maxQueNum l, ∀ top, set.head? = some top →
    ∀ y ∈ set, y.seenNums ≤ top.seenNums

theorem queNum_perm {set set' : List NodeLifecycle} (h : set.Perm set') : queNum set = queNum set' := by
  unfold queNum
  rw [toFinset_eq_of_perm _ _ (h.map _)]

theorem queNum_setOf (hids : (ms.map (·.node.id)).Nodup) : queNum (setOf S ms) = queNum ms := by
  rw [queNum_perm (setOf_perm hids)]
  unfold queNum
  rw [map_map]
  rfl

theorem queNum_le {set set' : List NodeLifecycle} (h : ∀ x ∈ set, x ∈ set') :
    queNum set ≤ queNum set' := by
  refine Finset.card_le_card fun q hq => ?_
  rw [mem_toFinset] at hq ⊢
  obtain ⟨x, hx, rfl⟩ := mem_map.mp hq
  exact mem_map_of_mem (h x hx)

section

variable (hids : (l.map (·.node.id)).Nodup)
include hids

theorem mem_findOverlappingNodeSets {set : List NodeLifecycle} :
    set ∈ findOverlappingNodeSets S maxQueNum l ↔
      ∃ ms ∈ clusters overlaps l, setOf S ms = set ∧ maxQueNum < queNum ms := by
  rw [findOverlappingNodeSets_eq maxQueNum hids, mem_filter, mem_map]
  constructor
  · intro h
    rcases h with ⟨⟨ms, hms, rfl⟩, hnum⟩
    have hnum := of_decide_eq_true hnum
    rw [queNum_setOf (hids.sublist ((clusters_sublist hms).map _))] at hnum
    exact ⟨ms, hms, rfl, hnum⟩
  · intro h
    rcases h with ⟨ms, hms, rfl, hnum⟩
    rw [queNum_setOf (hids.sublist ((clusters_sublist hms).map _))]
    exact ⟨⟨ms, hms, rfl⟩, decide_eq_true hnum⟩

/-- No lifecycle is in two sets. -/
theorem findOverlappingNodeSets_once :
    ((findOverlappingNodeSets S maxQueNum l).flatten.map (·.node.id)).Nodup := by
  have hall : ((((clusters overlaps l).map (setOf S)).flatten).map (·.node.id)).Nodup := by
    have hperm : ∀ cs : List (List NodeLifecycle), (∀ ms ∈ cs, ms ∈ clusters overlaps l) →
        ((cs.map (setOf S)).flatten.map (·.node.id)).Perm (cs.flatten.map (·.node.id)) := by
      intro cs
      induction cs with
      | nil => exact fun _ => Perm.refl _
      | cons ms cs ih =>
        intro hcs
        have hms := clusters_sublist (hcs ms mem_cons_self)
        have hset := (@setOf_perm S ms (hids.sublist (hms.map _))).map (·.node.id)
        rw [map_map] at hset
        rw [map_cons, flatten_cons, flatten_cons, map_append, map_append]
        exact hset.append (ih fun m hm => hcs m (mem_cons_of_mem _ hm))
    exact (hperm _ fun _ h => h).nodup_iff.mpr (((clusters_perm l).map _).nodup_iff.mpr hids)
  rw [findOverlappingNodeSets_eq maxQueNum hids]
  exact hall.sublist (Sublist.map _ filter_sublist.flatten)

/-- A cluster with too many queues is a component, if the components with too many are chained. -/
theorem cluster_component
    (h : ∀ x ∈ l, maxQueNum < queNum (component overlaps l x) → Chained overlaps (component overlaps l x))
    (hms : ms ∈ clusters overlaps l) (hnum : maxQueNum < queNum ms) :
    ∃ x ∈ l, maxQueNum < queNum (component overlaps l x) ∧ ms = component overlaps l x := by
  obtain ⟨hchained, hne⟩ := clusters_chained hms
  have hsub := clusters_sublist hms
  cases ms with
  | nil => exact absurd rfl hne
  | cons x others =>
    have hx : x ∈ l := hsub.subset mem_cons_self
    have hin : ∀ y ∈ x :: others, y ∈ component overlaps l x := fun y hy =>
      mem_component.mpr ⟨hsub.subset hy, hchained.connected
        (fun z hz => hsub.subset (mem_cons_of_mem _ hz)) y hy⟩
    have hnum' := lt_of_lt_of_le hnum (queNum_le hin)
    have hcomp := (component_mem_clusters_iff overlaps_comm hx).mpr (h x hx hnum')
    -- two clusters with a common member
    have hflat : (clusters overlaps l).flatten.Nodup :=
      (clusters_perm l).nodup_iff.mpr (Nodup.of_map _ hids)
    refine ⟨x, hx, hnum', ?_⟩
    by_contra hdiff
    have hdisj := (nodup_flatten.mp hflat).2
    have hsymm : Std.Symm (@List.Disjoint NodeLifecycle) := ⟨fun _ _ h => h.symm⟩
    have hboth := hdisj.forall hms hcomp hdiff
    exact hboth mem_cons_self (hin x mem_cons_self)

omit hids in
theorem seenComponent_nodes (l : List NodeLifecycle) (x : NodeLifecycle) :
    (seenComponent l x).map (·.node.id) = (component overlaps l x).map (·.node.id) := by
  rw [seenComponent, map_map]
  rfl

/-- The set of a cluster that is returned for a component belongs to the component itself. -/
theorem eq_component_of_perm (hms : ms ∈ clusters overlaps l)
    (h : (setOf S ms).Perm (seenComponent l x)) : ms = component overlaps l x := by
  have hsub := clusters_sublist hms
  have hcomp : (component overlaps l x).Sublist l := filter_sublist
  have hnodes : (ms.map (·.node.id)).Perm ((component overlaps l x).map (·.node.id)) := by
    have hset := (@setOf_perm S ms (hids.sublist (hsub.map _))).map (·.node.id)
    rw [map_map] at hset
    exact (hset.symm.trans (h.map _)).trans (Perm.of_eq (seenComponent_nodes l x))
  refine cluster_eq_component (Nodup.of_map _ hids) hms fun y => ?_
  constructor
  · intro hy
    obtain ⟨z, hz, hid⟩ := mem_map.mp (hnodes.mem_iff.mp (mem_map_of_mem hy))
    rw [← inj_on_of_nodup_map hids (hcomp.subset hz) (hsub.subset hy) hid]
    exact hz
  · intro hy
    obtain ⟨z, hz, hid⟩ := mem_map.mp (hnodes.mem_iff.mpr (mem_map_of_mem hy))
    rw [← inj_on_of_nodup_map hids (hsub.subset hz) (hcomp.subset hy) hid]
    exact hz

end

/-- The search is right for every set that keeps what is documented, iff every component with too
many queues is chained and its counters keep the order of its ids. -/
theorem overlapSets_iff (maxQueNum : ℕ) (l : List NodeLifecycle) (hids : (l.map (·.node.id)).Nodup) :
    (∀ S, OverlapSets S maxQueNum l) ↔
      ∀ x ∈ l, maxQueNum < queNum (component overlaps l x) →
        Chained overlaps (component overlaps l x) ∧ FirstSeesMost (component overlaps l x) := by
  have hcompids : ∀ x, ((component overlaps l x).map (·.node.id)).Nodup := fun x =>
    hids.sublist (filter_sublist.map _)
  constructor
  · intro h x hx hnum
    -- whatever the set, the component is one of the clusters
    have hcluster : ∀ S : LifecycleSet, component overlaps l x ∈ clusters overlaps l ∧
        setOf S (component overlaps l x) ∈ findOverlappingNodeSets S maxQueNum l := by
      intro S
      obtain ⟨set, hset, hperm⟩ := (h S).complete x hx hnum
      obtain ⟨ms, hms, rfl, -⟩ := (mem_findOverlappingNodeSets hids).mp hset
      have heq := eq_component_of_perm hids hms hperm
      rw [← heq]
      exact ⟨hms, hset⟩
    constructor
    · exact (clusters_chained (hcluster (hostileSet 0 0)).1).1
    · refine (firstSeesMost_iff (hcompids x)).mp fun S top htop => ?_
      exact (h S).first _ (hcluster S).2 top htop
  · intro h S
    refine ⟨?_, ?_, findOverlappingNodeSets_once hids, ?_⟩
    · intro set hset
      obtain ⟨ms, hms, rfl, hnum⟩ := (mem_findOverlappingNodeSets hids).mp hset
      obtain ⟨x, hx, hnum', rfl⟩ :=
        cluster_component hids (fun x hx hnum => (h x hx hnum).1) hms hnum
      exact ⟨x, hx, hnum', setOf_perm (hcompids x)⟩
    · intro x hx hnum
      refine ⟨setOf S (component overlaps l x), ?_, setOf_perm (hcompids x)⟩
      refine (mem_findOverlappingNodeSets hids).mpr ⟨_, ?_, rfl, hnum⟩
      exact (component_mem_clusters_iff overlaps_comm hx).mpr (h x hx hnum).1
    · intro set hset top htop
      obtain ⟨ms, hms, rfl, hnum⟩ := (mem_findOverlappingNodeSets hids).mp hset
      obtain ⟨x, hx, hnum', rfl⟩ :=
        cluster_component hids (fun x hx hnum => (h x hx hnum).1) hms hnum
      exact setOf_first (hcompids x) (h x hx hnum').2 htop

/-- A load whose lifecycle has its own queue. -/
def loadAt (id start finish : ℤ) : NodeLifecycle := ⟨⟨id, id⟩, start, finish, 1⟩

theorem overlapSets_iff_nested :
    (∀ S, OverlapSets S 1 [loadAt 0 0 3, loadAt 1 1 2]) ↔
      ∀ x ∈ [loadAt 0 0 3, loadAt 1 1 2],
        1 < queNum (component overlaps [loadAt 0 0 3, loadAt 1 1 2] x) →
          Chained overlaps (component overlaps [loadAt 0 0 3, loadAt 1 1 2] x) ∧
            FirstSeesMost (component overlaps [loadAt 0 0 3, loadAt 1 1 2] x) :=
  overlapSets_iff 1 [loadAt 0 0 3, loadAt 1 1 2] (by decide)

/-- The second load meets only the third, which comes after it: three loads that overlap in a chain
use three queues, and no set is returned. -/
theorem overlapSets_late : ¬ ∃ S, OverlapSets S 2 [loadAt 0 0 1, loadAt 1 4 5, loadAt 2 1 4] := by
  intro hex
  rcases hex with ⟨S, h⟩
  have hids : ([loadAt 0 0 1, loadAt 1 4 5, loadAt 2 1 4].map (·.node.id)).Nodup := by decide
  have hclusters : clusters overlaps [loadAt 0 0 1, loadAt 1 4 5, loadAt 2 1 4] =
      [[loadAt 0 0 1, loadAt 2 1 4], [loadAt 1 4 5]] := by
    simp [clusters, grow, overlaps, loadAt]
  have hnone : findOverlappingNodeSets S 2 [loadAt 0 0 1, loadAt 1 4 5, loadAt 2 1 4] = [] := by
    refine eq_nil_iff_forall_not_mem.mpr fun set hset => ?_
    obtain ⟨ms, hms, -, hnum⟩ := (mem_findOverlappingNodeSets hids).mp hset
    rw [hclusters] at hms
    rcases mem_cons.mp hms with rfl | hms
    · exact absurd hnum (by decide)
    · rw [mem_singleton.mp hms] at hnum
      exact absurd hnum (by decide)
  have hcomp : component overlaps [loadAt 0 0 1, loadAt 1 4 5, loadAt 2 1 4] (loadAt 2 1 4) =
      [loadAt 0 0 1, loadAt 1 4 5, loadAt 2 1 4] := by
    refine filter_eq_self.mpr fun y hy => ?_
    have hstep : overlaps (loadAt 2 1 4) y = true := by
      revert y
      decide
    exact (mem_filter.mp (mem_component.mpr ⟨hy, .single ⟨hy, hstep⟩⟩)).2
  obtain ⟨set, hset, -⟩ := h.complete (loadAt 2 1 4) (by decide) (by rw [hcomp]; decide)
  rw [hnone] at hset
  exact absurd hset not_mem_nil

end GraphAutofusion.Autofuse
