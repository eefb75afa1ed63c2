import GraphAutofusion.Autofuse.GroupReductionPlan
import GraphAutofusion.Lib.KeepPositions
import Mathlib.Data.List.Flatten

/-!
# Autofuse.GroupReductionResult — what the reduction returns

The clusters of the forest are the blocks, so each merge group lies in one class and every merge
saves one group. The groups that are not merged come first, in their order, then the merged ones:

* `resolveMergePlan_spec` — the merge groups of the plan;
* `reduceGraphCount_spec` — the list that is returned.
-/

namespace GraphAutofusion.Autofuse.GroupReduction

open Lib Symbolizer List Option

/-! ## Clusters -/

section Clusters

variable {count : ℕ → ℕ} {classes : List (List ℕ)} {block : ℕ → List ℕ} {s : PlanState} {n : ℕ}

theorem collectClusters_spec {parent f : ℕ → ℕ} {fuel : ℕ} (hfuel : n < fuel) (keys : List ℕ)
    (h : ∀ m ∈ keys, Within parent n m (f m)) :
    ∃ clusters, collectClusters fuel parent keys = some clusters ∧ Grouped f keys clusters := by
  have hloop : ∀ (rest xs : List ℕ) (parent : ℕ → ℕ) (buckets : List (ℕ × List ℕ)),
      (∀ m ∈ rest, Within parent n m (f m)) → Grouped f xs buckets →
        ∃ s, rest.foldlM (fun (s : (ℕ → ℕ) × List (ℕ × List ℕ)) idx =>
            (findRoot fuel s.1 idx).map fun x : ℕ × (ℕ → ℕ) => (x.2, putInBucket x.1 idx s.2))
            (parent, buckets) = some s ∧ Grouped f (xs ++ rest) s.2 := by
    intro rest
    induction rest with
    | nil =>
      intro xs parent buckets _ hgrouped
      exact ⟨(parent, buckets), rfl, by rwa [append_nil]⟩
    | cons m rest ih =>
      intro xs parent buckets hwithin hgrouped
      rcases (hwithin m mem_cons_self).findHalving hfuel with ⟨parent', hrun, hkeep⟩
      rcases ih (xs ++ [m]) parent' (putInBucket (f m) m buckets)
        (fun x hx => hkeep x _ n (hwithin x (mem_cons_of_mem m hx))) (hgrouped.put m)
        with ⟨s, hs, hgrouped'⟩
      refine ⟨s, ?_, by rwa [append_assoc] at hgrouped'⟩
      rw [foldlM_cons, findRoot, hrun]
      exact hs
  rcases hloop keys [] parent [] h (Grouped.nil f) with ⟨s, hs, hgrouped⟩
  refine ⟨s.2, ?_, hgrouped⟩
  show Option.map _ _ = _
  rw [hs]
  rfl

section

variable (h : PlanOk count classes block s)
include h

/-- The root of every group of a block, with a bound for the search. -/
theorem PlanOk.root_of_block (hclasses : classes.flatten.Nodup)
    (hlt : ∀ m ∈ classes.flatten, m < n) {g : ℕ} {keys : List ℕ} {heap : MinHeap} {e : Element} {m : ℕ}
    (hkeys : classes[g]? = some keys) (hheap : s.heaps[g]? = some heap) (he : e ∈ heap)
    (hm : m ∈ block e.2) : Within s.idxToParent n m e.2 := by
  have hok := h.heaps g keys heap hkeys hheap
  have hmem := mem_of_getElem? hkeys
  have hnodup : (block e.2).Nodup :=
    (nodup_flatMap.mp (hok.perm.nodup_iff.mpr ((nodup_flatten.mp hclasses).1 keys hmem))).1 e he
  have hsubset : block e.2 ⊆ range n := fun x hx =>
    mem_range.mpr (hlt x (mem_flatten.mpr ⟨keys, hmem, hok.block_subset he hx⟩))
  have hlength := (subperm_of_subset hnodup hsubset).length_le
  rw [length_range] at hlength
  exact (hok.within e he m hm).mono (by omega)

/-- Every group is in a block. -/
theorem PlanOk.exists_block {g m : ℕ} {keys : List ℕ} (hkeys : classes[g]? = some keys)
    (hm : m ∈ keys) : ∃ heap, s.heaps[g]? = some heap ∧ ∃ e ∈ heap, m ∈ block e.2 := by
  have hlt : g < s.heaps.length := by
    rw [h.length]
    exact (List.getElem?_eq_some_iff.mp hkeys).1
  refine ⟨s.heaps[g], getElem?_eq_getElem hlt, ?_⟩
  have hok := h.heaps g keys _ hkeys (getElem?_eq_getElem hlt)
  exact mem_flatMap.mp (hok.perm.mem_iff.mpr hm)

theorem PlanOk.nodup_roots (hclasses : classes.flatten.Nodup) :
    (s.heaps.flatten.map Prod.snd).Nodup := by
  rw [map_flatten]
  refine nodup_flatten.mpr ⟨fun l hl => ?_, ?_⟩
  · rcases List.mem_map.mp hl with ⟨heap, hheap, rfl⟩
    rcases mem_iff_getElem?.mp hheap with ⟨g, hg⟩
    rcases h.class_of_heap hg with ⟨keys, hkeys, hmem⟩
    exact (h.heaps g keys heap hkeys hg).nodup_indices ((nodup_flatten.mp hclasses).1 keys hmem)
  · rw [pairwise_map]
    refine pairwise_iff_getElem.mpr fun i j hi hj hij x hx hx' => ?_
    rcases List.mem_map.mp hx with ⟨e, he, rfl⟩
    rcases List.mem_map.mp hx' with ⟨e', he', heq⟩
    have hgi := getElem?_eq_getElem hi
    have hgj := getElem?_eq_getElem hj
    rcases h.class_of_heap hgi with ⟨keys, hkeys, _⟩
    rcases h.class_of_heap hgj with ⟨keys', hkeys', _⟩
    have hmem := (h.heaps i keys _ hkeys hgi).index_mem he
    have hmem' := (h.heaps j keys' _ hkeys' hgj).index_mem he'
    rw [heq] at hmem'
    exact ne_of_lt hij (class_unique hclasses hkeys hkeys' hmem hmem')

end

/-- The clusters of more than one group hold as many groups as there are of them and joined blocks. -/
theorem length_filter_clusters {clusters : List (ℕ × List ℕ)} (h : ∀ c ∈ clusters, c.2 ≠ []) :
    ((clusters.filter fun c => decide (1 < c.2.length)).flatMap Prod.snd).length + clusters.length =
      (clusters.flatMap Prod.snd).length + (clusters.filter fun c => decide (1 < c.2.length)).length := by
  induction clusters with
  | nil => rfl
  | cons c clusters ih =>
    have hih := ih fun c' hc' => h c' (mem_cons_of_mem c hc')
    have hpos := length_pos_iff.mpr (h c mem_cons_self)
    by_cases hc : 1 < c.2.length
    · rw [filter_cons_of_pos (by simpa using hc)]
      simp only [flatMap_cons, length_append, length_cons]
      omega
    · rw [filter_cons_of_neg (by simpa using hc)]
      simp only [flatMap_cons, length_append, length_cons]
      omega

/-- What the merge groups are. -/
structure PlanSpec (classes : List (List ℕ)) (reductions : ℕ) (plan : List (List ℕ)) : Prop where
  nodup : plan.flatten.Nodup
  size : ∀ group ∈ plan, 1 < group.length
  oneClass : ∀ group ∈ plan, ∃ keys ∈ classes, ∀ m ∈ group, m ∈ keys
  saved : plan.flatten.length =
    plan.length + min reductions (classes.map fun keys => keys.length - 1).sum

variable (order : HashOrder)

theorem PlanOk.clusters_spec (h : PlanOk count classes block s) (hclasses : classes.flatten.Nodup)
    (hlt : ∀ m ∈ classes.flatten, m < n) {fuel : ℕ} (hfuel : n < fuel) :
    ∃ clusters, collectClusters fuel s.idxToParent (order.keys classes.flatten) = some clusters ∧
      clusters.length = s.entries ∧ (clusters.flatMap Prod.snd).Perm classes.flatten ∧
      (∀ c ∈ clusters, c.2 ≠ []) ∧ ∀ c ∈ clusters, ∃ keys ∈ classes, ∀ m ∈ c.2, m ∈ keys := by
  let f : ℕ → ℕ := fun m => s.idxToParent^[n] m
  -- the block of a group and its root
  have hroot : ∀ m ∈ classes.flatten, ∃ (g : ℕ) (keys : List ℕ) (heap : MinHeap) (e : Element), classes[g]? = some keys ∧
      s.heaps[g]? = some heap ∧ e ∈ heap ∧ m ∈ block e.2 ∧ f m = e.2 ∧ Within s.idxToParent n m (f m) := by
    intro m hm
    rcases mem_flatten.mp hm with ⟨keys, hmem, hm⟩
    rcases mem_iff_getElem?.mp hmem with ⟨g, hkeys⟩
    rcases h.exists_block hkeys hm with ⟨heap, hheap, e, he, hblock⟩
    have hwithin := h.root_of_block hclasses hlt hkeys hheap he hblock
    have hf : f m = e.2 := hwithin.2
    exact ⟨g, keys, heap, e, hkeys, hheap, he, hblock, hf, hf ▸ hwithin⟩
  have hkeysmem : ∀ m, m ∈ order.keys classes.flatten ↔ m ∈ classes.flatten := fun m =>
    (order.keys_perm _).mem_iff
  rcases collectClusters_spec (f := f) hfuel (order.keys classes.flatten) (fun m hm => by
    rcases hroot m ((hkeysmem m).mp hm) with ⟨_, _, _, _, _, _, _, _, _, hwithin⟩
    exact hwithin) with ⟨clusters, hrun, hgrouped⟩
  have hmember : ∀ c ∈ clusters, ∀ m, m ∈ c.2 ↔ m ∈ classes.flatten ∧ f m = c.1 := by
    intro c hc m
    rw [hgrouped.members c hc, mem_filter, hkeysmem]
    exact and_congr_right fun _ => decide_eq_true_iff
  have hperm : (clusters.map Prod.fst).Perm (s.heaps.flatten.map Prod.snd) := by
    refine (perm_ext_iff_of_nodup hgrouped.nodup (h.nodup_roots hclasses)).mpr fun r => ?_
    constructor
    · intro hr
      rcases List.mem_map.mp hr with ⟨c, hc, rfl⟩
      rcases exists_mem_of_ne_nil _ (hgrouped.nonempty c hc) with ⟨m, hm⟩
      rcases (hmember c hc m).mp hm with ⟨hm, hfm⟩
      rcases hroot m hm with ⟨g, keys, heap, e, _, hheap, he, _, hf, _⟩
      rw [← hfm, hf]
      exact List.mem_map_of_mem (mem_flatten.mpr ⟨heap, mem_of_getElem? hheap, he⟩)
    · intro hr
      rcases List.mem_map.mp hr with ⟨e, he, rfl⟩
      rcases mem_flatten.mp he with ⟨heap, hheap, he⟩
      rcases mem_iff_getElem?.mp hheap with ⟨g, hg⟩
      rcases h.class_of_heap hg with ⟨keys, hkeys, hmem⟩
      have hok := h.heaps g keys heap hkeys hg
      have hin : e.2 ∈ classes.flatten := mem_flatten.mpr ⟨keys, hmem, hok.index_mem he⟩
      have hf : f e.2 = e.2 := (h.root_of_block hclasses hlt hkeys hg he (hok.self e he)).2
      rcases mem_flatMap.mp (hgrouped.perm.mem_iff.mpr ((hkeysmem _).mpr hin)) with ⟨c, hc, hm⟩
      rw [← hf, ((hmember c hc e.2).mp hm).2]
      exact List.mem_map_of_mem hc
  refine ⟨clusters, hrun, ?_, hgrouped.perm.trans (order.keys_perm _), hgrouped.nonempty, ?_⟩
  · have hlength := hperm.length_eq
    rw [length_map, length_map, length_flatten] at hlength
    exact hlength
  · intro c hc
    rcases exists_mem_of_ne_nil _ (hgrouped.nonempty c hc) with ⟨m₀, hm₀⟩
    rcases (hmember c hc m₀).mp hm₀ with ⟨hm₀, hf₀⟩
    rcases hroot m₀ hm₀ with ⟨g₀, keys₀, heap₀, e₀, hkeys₀, hheap₀, he₀, _, hfe₀, _⟩
    refine ⟨keys₀, mem_of_getElem? hkeys₀, fun m hm => ?_⟩
    rcases (hmember c hc m).mp hm with ⟨hm, hf⟩
    rcases hroot m hm with ⟨g, keys, heap, e, hkeys, hheap, he, hblock, hfe, _⟩
    have hok := h.heaps g keys heap hkeys hheap
    have hok₀ := h.heaps g₀ keys₀ heap₀ hkeys₀ hheap₀
    -- both roots are the key of the cluster
    have hsame : e.2 = e₀.2 := by rw [← hfe, hf, ← hf₀, hfe₀]
    have hg : g = g₀ := by
      refine class_unique hclasses hkeys hkeys₀ (hok.index_mem he) ?_
      rw [hsame]
      exact hok₀.index_mem he₀
    rw [hg, hkeys₀, some.injEq] at hkeys
    rw [hkeys]
    exact hok.block_subset he hblock

end Clusters

/-! ## The plan -/

section Plan

variable {E : Type} {staticCheckEq : E → E → TriBool} {groups : List (Group E)}
  {mergeable : List MergeableGraphs}

theorem sum_length_eq {classes : List (List ℕ)} (hne : ∀ keys ∈ classes, keys ≠ []) :
    classes.flatten.length = classes.length + (classes.map fun keys => keys.length - 1).sum := by
  induction classes with
  | nil => rfl
  | cons keys classes ih =>
    have hih := ih fun k hk => hne k (mem_cons_of_mem keys hk)
    have hpos := length_pos_iff.mpr (hne keys mem_cons_self)
    simp only [flatten_cons, length_append, length_cons, map_cons, sum_cons]
    omega

/-- The cluster lists that become merge groups. -/
theorem planSpec_of_clusters {classes : List (List ℕ)} {clusters : List (ℕ × List ℕ)} {reductions : ℕ}
    (hclasses : classes.flatten.Nodup) (hperm : (clusters.flatMap Prod.snd).Perm classes.flatten)
    (hne : ∀ c ∈ clusters, c.2 ≠ []) (hone : ∀ c ∈ clusters, ∃ keys ∈ classes, ∀ m ∈ c.2, m ∈ keys)
    (hlength : classes.flatten.length =
      clusters.length + min reductions (classes.map fun keys => keys.length - 1).sum) :
    PlanSpec classes reductions ((clusters.filter fun cluster => decide (1 < cluster.2.length)).map
      fun cluster => cluster.2.insertionSort (· ≤ ·)) := by
  have hsort : ∀ c : ℕ × List ℕ, (c.2.insertionSort (· ≤ ·)).Perm c.2 := fun c =>
    perm_insertionSort (· ≤ ·) c.2
  have hflat : ((clusters.filter fun cluster => decide (1 < cluster.2.length)).map
      fun cluster => cluster.2.insertionSort (· ≤ ·)).flatten.Perm
      ((clusters.filter fun cluster => decide (1 < cluster.2.length)).flatMap Prod.snd) := by
    rw [← flatMap_def]
    exact Perm.flatMap_left _ fun c _ => hsort c
  have hsublist : ((clusters.filter fun cluster => decide (1 < cluster.2.length)).flatMap
      Prod.snd).Sublist (clusters.flatMap Prod.snd) := filter_sublist.flatMap Prod.snd
  constructor
  · exact hflat.nodup_iff.mpr ((hperm.nodup_iff.mpr hclasses).sublist hsublist)
  · intro group hgroup
    rcases List.mem_map.mp hgroup with ⟨c, hc, rfl⟩
    rw [(hsort c).length_eq]
    exact of_decide_eq_true (mem_filter.mp hc).2
  · intro group hgroup
    rcases List.mem_map.mp hgroup with ⟨c, hc, rfl⟩
    rcases hone c (mem_filter.mp hc).1 with ⟨keys, hkeys, hall⟩
    exact ⟨keys, hkeys, fun m hm => hall m ((hsort c).mem_iff.mp hm)⟩
  · have hcount := length_filter_clusters hne
    have htotal := hperm.length_eq
    rw [hflat.length_eq, length_map]
    omega

variable (order : HashOrder)

section

variable (hc : Classes staticCheckEq groups mergeable)
include hc

theorem Classes.flatten : (mergeable.map MergeableGraphs.graphIndices).flatten.Nodup := by
  rw [← flatMap_def]
  exact hc.nodup

theorem Classes.ne_nil : ∀ keys ∈ mergeable.map MergeableGraphs.graphIndices, keys ≠ [] := by
  intro keys hkeys hnil
  rcases List.mem_map.mp hkeys with ⟨c, hcmem, rfl⟩
  have hsize := hc.size c hcmem
  rw [hnil] at hsize
  exact absurd hsize (by decide)

theorem Classes.flatten_lt :
    ∀ m ∈ (mergeable.map MergeableGraphs.graphIndices).flatten, m < groups.length := by
  intro m hm
  rcases mem_flatten.mp hm with ⟨keys, hkeys, hm⟩
  rcases List.mem_map.mp hkeys with ⟨c, hcmem, rfl⟩
  exact hc.lt c hcmem m hm

/-- The plan is made without a search that runs out or a heap with too few entries. -/
theorem resolveMergePlan_spec (reductions : ℕ) :
    ∃ plan, resolveMergePlan (groups.length + 1) order mergeable reductions = some plan ∧
      PlanSpec (mergeable.map MergeableGraphs.graphIndices) reductions plan := by
  rcases planStart_ok hc with ⟨start, hstart, hok, hentries⟩
  rcases hok.run hc.flatten hc.ne_nil groups.length reductions with
    ⟨s, block, hrun, hok', hcount⟩
  rcases hok'.clusters_spec order hc.flatten hc.flatten_lt (Nat.lt_succ_self groups.length) with
    ⟨clusters, hclusters, hlength, hperm, hne, hone⟩
  have hperm' := order.clusters_perm clusters
  refine ⟨((order.clusters clusters).filter fun cluster => decide (1 < cluster.2.length)).map
    fun cluster => cluster.2.insertionSort (· ≤ ·), ?_, ?_⟩
  · rw [resolveMergePlan, hstart, bind_some, hrun, bind_some, flatMap_def, hclusters]
    rfl
  · refine planSpec_of_clusters hc.flatten ((hperm'.flatMap_right Prod.snd).trans hperm) ?_ ?_ ?_
    · exact fun c hcmem => hne c (hperm'.mem_iff.mp hcmem)
    · exact fun c hcmem => hone c (hperm'.mem_iff.mp hcmem)
    · have hsum := sum_length_eq hc.ne_nil
      have hstartsum : (mergeable.map fun c => c.graphIndices.length).sum =
          (mergeable.map MergeableGraphs.graphIndices).flatten.length := by
        rw [length_flatten, List.map_map]
        rfl
      rw [hperm'.length_eq, hlength, hcount, hentries, hstartsum]
      omega

end

end Plan

/-! ## The merged graphs -/

/-- Groups that are pieces of one acyclic graph; within a group no two nodes have one name. -/
structure WellFormed {E : Type} (groups : List (Group E)) : Prop where
  ids : ((groups.flatMap Group.nodes).map Node.id).Nodup
  names : ∀ group ∈ groups, (group.nodes.map Node.name).Nodup
  ends : ∀ group ∈ groups, ∀ edge ∈ group.edges,
    (∃ node ∈ group.nodes, node.id = edge.src) ∧ ∃ node ∈ group.nodes, node.id = edge.dst
  acyclic : ∃ rank : ℕ → ℕ, ∀ group ∈ groups, ∀ edge ∈ group.edges, rank edge.src < rank edge.dst

/-- What is relied on of the sort: it reorders the nodes and fails on cycles only. -/
structure SortOk (topologicalSorting : List Node → List Edge → Option (List Node)) : Prop where
  perm : ∀ nodes edges sorted, topologicalSorting nodes edges = some sorted → sorted.Perm nodes
  total : ∀ nodes edges, (∃ rank : ℕ → ℕ, ∀ edge ∈ edges, rank edge.src < rank edge.dst) →
    (topologicalSorting nodes edges).isSome

section Merge

variable {E : Type} {groups : List (Group E)} {group : Group E} {indices : List ℕ}
  {topologicalSorting : List Node → List Edge → Option (List Node)}

def nodesAt (groups : List (Group E)) (i : ℕ) : List Node := groups[i]?.elim [] Group.nodes

def edgesAt (groups : List (Group E)) (i : ℕ) : List Edge := groups[i]?.elim [] Group.edges

theorem lookup_allNewNodes {nodes : List Node} (hnames : (nodes.map Node.name).Nodup) {node : Node}
    (hnode : node ∈ nodes) :
    (nodes.map fun node => (node.name, node.id)).lookup node.name = some node.id := by
  induction nodes with
  | nil => cases hnode
  | cons head nodes ih =>
    rw [map_cons, nodup_cons] at hnames
    rw [map_cons, lookup_cons]
    rcases mem_cons.mp hnode with rfl | hnode
    · rw [beq_self_eq_true]
    · have hne : (node.name == head.name) = false := beq_false_of_ne fun heq =>
        hnames.1 (heq ▸ List.mem_map_of_mem hnode)
      rw [hne]
      exact ih hnames.2 hnode

section

variable (h : WellFormed groups)
include h

theorem WellFormed.group_ids (hgroup : group ∈ groups) : (group.nodes.map Node.id).Nodup := by
  have hids := h.ids
  rw [map_flatMap, nodup_flatMap] at hids
  exact hids.1 group hgroup

/-- A copied edge is the edge itself. -/
theorem WellFormed.relinkGraphEdges (hgroup : group ∈ groups) {node : Node}
    (hnode : node ∈ group.nodes) :
    GroupReduction.relinkGraphEdges group node = group.edges.filter fun edge => edge.src = node.id := by
  have hnames := h.names group hgroup
  rw [GroupReduction.relinkGraphEdges]
  have hfilter : (group.edges.filter fun edge => edge.src == node.id) =
      group.edges.filter fun edge => edge.src = node.id := rfl
  rw [hfilter]
  refine (filterMap_congr fun edge hedge => ?_).trans filterMap_some
  rw [mem_filter, decide_eq_true_iff] at hedge
  rcases (h.ends group hgroup edge hedge.1).2 with ⟨peer, hpeer, hid⟩
  have hfind : ∃ found, group.nodes.find? (fun peer => peer.id == edge.dst) = some found := by
    rw [← isSome_iff_exists, find?_isSome]
    exact ⟨peer, hpeer, beq_iff_eq.mpr hid⟩
  rcases hfind with ⟨found, hfound⟩
  have hfoundid : found.id = edge.dst := by
    have hp := find?_some hfound
    exact beq_iff_eq.mp hp
  rw [allNewNodes, lookup_allNewNodes hnames hnode, bind_some, hfound, bind_some,
    lookup_allNewNodes hnames (mem_of_find?_eq_some hfound), hfoundid, ← hedge.2]
  rfl

theorem WellFormed.relink_perm (hgroup : group ∈ groups) :
    (group.nodes.flatMap (GroupReduction.relinkGraphEdges group)).Perm group.edges := by
  have hflat : group.nodes.flatMap (GroupReduction.relinkGraphEdges group) =
      (group.nodes.map Node.id).flatMap fun id => group.edges.filter fun edge => edge.src = id := by
    rw [flatMap_map, flatMap_def, flatMap_def]
    congr 1
    exact map_congr_left fun node hnode => h.relinkGraphEdges hgroup hnode
  rw [hflat]
  refine flatMap_filter_perm (h.group_ids hgroup) fun edge hedge => ?_
  rcases (h.ends group hgroup edge hedge).1 with ⟨node, hnode, hid⟩
  rw [← hid]
  exact List.mem_map_of_mem hnode

/-- The sources are copied one behind the other. -/
theorem WellFormed.copy (dst : Group E) (hlt : ∀ i ∈ indices, i < groups.length) :
    ∃ copied, indices.foldlM (fun dst idx => groups[idx]?.map (addCopy dst)) dst = some copied ∧
      copied.axes = dst.axes ∧ copied.nodes = dst.nodes ++ indices.flatMap (nodesAt groups) ∧
      copied.edges.Perm (dst.edges ++ indices.flatMap (edgesAt groups)) := by
  induction indices generalizing dst with
  | nil => exact ⟨dst, rfl, rfl, (append_nil _).symm, by rw [flatMap_nil, append_nil]⟩
  | cons i indices ih =>
    have hi := hlt i mem_cons_self
    have hget := getElem?_eq_getElem hi
    have hmem := getElem_mem hi
    rcases ih (addCopy dst groups[i]) fun j hj => hlt j (mem_cons_of_mem i hj) with
      ⟨copied, hrun, haxes, hnodes, hedges⟩
    refine ⟨copied, ?_, haxes, ?_, ?_⟩
    · rw [foldlM_cons, hget]
      exact hrun
    · rw [hnodes, flatMap_cons, nodesAt, hget, ← append_assoc]
      rfl
    · refine hedges.trans ?_
      rw [flatMap_cons, edgesAt, hget, ← append_assoc]
      exact ((h.relink_perm hmem).append_left dst.edges).append_right _

end

/-- The graph that replaces a merge group. -/
structure MergedFrom (groups : List (Group E)) (indices : List ℕ) (new : Group E) : Prop where
  axes : ∃ first ∈ indices, new.axes = axesAt groups first
  nodes : new.nodes.Perm (indices.flatMap (nodesAt groups))
  edges : new.edges.Perm (indices.flatMap (edgesAt groups))

theorem WellFormed.newGraph (h : WellFormed groups) (hsort : SortOk topologicalSorting)
    (hne : indices ≠ []) (hlt : ∀ i ∈ indices, i < groups.length) :
    ∃ new, newGraph topologicalSorting groups indices = some new ∧ MergedFrom groups indices new := by
  cases indices with
  | nil => exact absurd rfl hne
  | cons first rest =>
    have hfirst := hlt first mem_cons_self
    have hget := getElem?_eq_getElem hfirst
    rcases h.copy ⟨"merged_" ++ toString first, groups[first].axes, [], []⟩ hlt with
      ⟨copied, hrun, haxes, hnodes, hedges⟩
    rw [nil_append] at hnodes hedges
    have hrank : ∃ rank : ℕ → ℕ, ∀ edge ∈ copied.edges, rank edge.src < rank edge.dst := by
      rcases h.acyclic with ⟨rank, hrank⟩
      refine ⟨rank, fun edge hedge => ?_⟩
      rcases mem_flatMap.mp (hedges.mem_iff.mp hedge) with ⟨i, hi, hmem⟩
      rw [edgesAt, getElem?_eq_getElem (hlt i hi)] at hmem
      exact hrank _ (getElem_mem (hlt i hi)) edge hmem
    rcases isSome_iff_exists.mp (hsort.total copied.nodes copied.edges hrank) with
      ⟨sorted, hsorted⟩
    refine ⟨{ copied with nodes := sorted }, ?_, ?_⟩
    · rw [GroupReduction.newGraph, head?_cons, bind_some, hget, bind_some, mergeGraphs,
        hrun, bind_some, hsorted]
      rfl
    · refine ⟨⟨first, mem_cons_self, ?_⟩, ?_, hedges⟩
      · rw [axesAt, hget]
        exact haxes
      · rw [← hnodes]
        exact hsort.perm _ _ _ hsorted

theorem WellFormed.newGraphs (h : WellFormed groups) (hsort : SortOk topologicalSorting)
    {plan : List (List ℕ)} (hne : ∀ indices ∈ plan, indices ≠ [])
    (hlt : ∀ indices ∈ plan, ∀ i ∈ indices, i < groups.length) :
    ∃ news, plan.mapM (GroupReduction.newGraph topologicalSorting groups) = some news ∧
      Forall₂ (MergedFrom groups) plan news := by
  induction plan with
  | nil => exact ⟨[], rfl, .nil⟩
  | cons indices plan ih =>
    rcases h.newGraph hsort (hne indices mem_cons_self) (hlt indices mem_cons_self) with
      ⟨new, hnew, hmerged⟩
    rcases ih (fun l hl => hne l (mem_cons_of_mem _ hl)) (fun l hl => hlt l (mem_cons_of_mem _ hl))
      with ⟨news, hnews, hall⟩
    refine ⟨new :: news, ?_, .cons hmerged hall⟩
    rw [mapM_cons, hnew, hnews]
    rfl

end Merge

/-! ## Erasing the sources -/

section Erase

variable {E : Type} {groups news : List (Group E)} {plan : List (List ℕ)}

theorem foldl_setInsert {l s : List ℕ} (hsorted : s.Pairwise (· ≤ ·)) (hnodup : (l ++ s).Nodup) :
    (l.foldl (setInsert (· ≤ ·)) s).Pairwise (· ≤ ·) ∧ (l.foldl (setInsert (· ≤ ·)) s).Perm (l ++ s) := by
  induction l generalizing s with
  | nil => exact ⟨hsorted, Perm.refl _⟩
  | cons x l ih =>
    have hx : x ∉ s := by
      rw [cons_append, nodup_cons, mem_append, not_or] at hnodup
      exact hnodup.1.2
    have hset : setInsert (· ≤ ·) s x = s.orderedInsert (· ≤ ·) x :=
      if_neg fun h => hx (contains_iff_mem.mp h)
    have hperm : (l ++ setInsert (· ≤ ·) s x).Perm (x :: l ++ s) := by
      rw [hset]
      exact ((perm_orderedInsert (· ≤ ·) x s).append_left l).trans perm_middle
    rcases ih (pairwise_setInsert hsorted x) (hperm.nodup_iff.mpr hnodup) with ⟨hsorted', hperm'⟩
    exact ⟨hsorted', hperm'.trans hperm⟩

theorem toErase_spec (hnodup : plan.flatten.Nodup) :
    (toErase plan).Pairwise (· < ·) ∧ (toErase plan).Perm plan.flatten := by
  rcases foldl_setInsert (l := plan.flatten) (s := []) List.Pairwise.nil (by rwa [append_nil])
    with ⟨hsorted, hperm⟩
  rw [append_nil] at hperm
  have hdistinct : (toErase plan).Nodup := hperm.nodup_iff.mpr hnodup
  refine ⟨?_, hperm⟩
  exact (hsorted.and hdistinct).imp fun h => Nat.lt_of_le_of_ne h.1 h.2

end Erase

/-! ## The list that is returned -/

/-- A group writes a workspace. -/
def Group.Stores {E : Type} (group : Group E) (workspace : String) : Prop :=
  ∃ node ∈ group.nodes, node.isWorkspace = true ∧ node.name = workspace ∧
    ∃ edge ∈ group.edges, edge.dst = node.id

/-- A group reads a workspace. -/
def Group.Loads {E : Type} (group : Group E) (workspace : String) : Prop :=
  ∃ node ∈ group.nodes, node.isWorkspace = true ∧ node.name = workspace ∧
    ∃ edge ∈ group.edges, edge.src = node.id

/-- A group that stores a workspace for a later one is not merged with it and still precedes it. -/
def KeepsWorkspaceOrder {E : Type} (groups result : List (Group E)) (storing : ℕ → Prop) : Prop :=
  ∀ (i j : ℕ) (g g' : Group E) (workspace : String), i < j → groups[i]? = some g → groups[j]? = some g' →
    g.Stores workspace → g'.Loads workspace → storing i →
      ∃ (p q : ℕ) (r r' : Group E), p < q ∧ result[p]? = some r ∧ result[q]? = some r' ∧
        (∀ node ∈ g.nodes, node ∈ r.nodes) ∧ ∀ node ∈ g'.nodes, node ∈ r'.nodes

/-- The number of merges the classes allow. -/
def saving (classes : List MergeableGraphs) : ℕ :=
  (classes.map fun c => c.graphIndices.length - 1).sum

/-- In every round the two cheapest blocks of all classes are joined; costs are node counts. -/
def CheapestFirst {E : Type} (staticCheckEq : E → E → TriBool) (groups : List (Group E)) : Prop :=
  ∀ (start s : PlanState) (k c g : ℕ) (rest : List Element),
    planStart (findMergeableGraphs staticCheckEq groups) = some start →
    mergeLoop (groups.length + 1) k start = some s → s.globalHeap = (c, g) :: rest →
      (∃ s' e1 e2 heap, mergeRound (groups.length + 1) s g rest = some s' ∧
        s.heaps[g]? = some (e1 :: e2 :: heap) ∧ c = e1.1 + e2.1 ∧
          s'.idxToParent = Function.update s.idxToParent e1.2 e2.2) ∧
      (∀ (g' i j : ℕ) (heap : MinHeap) (a b : Element), s.heaps[g']? = some heap → i < j →
        heap[i]? = some a → heap[j]? = some b → c ≤ a.1 + b.1) ∧
      ∀ (g' : ℕ) (heap : MinHeap) (e : Element), s.heaps[g']? = some heap → e ∈ heap →
        ∃ members : List ℕ, e.1 = (members.map (countAt groups)).sum ∧ members.Nodup ∧
          ∀ m, m ∈ members ↔
            (∃ cls, (findMergeableGraphs staticCheckEq groups)[g']? = some cls ∧ m ∈ cls.graphIndices) ∧
              Within s.idxToParent groups.length m e.2

structure Reduced {E V : Type} (eval : V → E → ℤ) (staticCheckEq : E → E → TriBool)
    (groups : List (Group E)) (target : ℕ) (result : List (Group E)) : Prop where
  length : result.length = if groups.length ≤ target then groups.length
    else max target (groups.length - saving (findMergeableGraphs staticCheckEq groups))
  nodes : (result.flatMap Group.nodes).Perm (groups.flatMap Group.nodes)
  edges : (result.flatMap Group.edges).Perm (groups.flatMap Group.edges)
  /-- Simple groups with the same axes are merged; the others stay in their order. -/
  merged : ∃ (plan : List (List ℕ)) (news : List (Group E)), plan.flatten.Nodup ∧
    (∀ indices ∈ plan, 1 < indices.length ∧ ∀ i ∈ indices, simpleAt groups i = true ∧
      ∀ j ∈ indices, SameAxes eval (axesAt groups i) (axesAt groups j)) ∧
    Forall₂ (MergedFrom groups) plan news ∧
    result = keepPositions (toErase plan) 0 groups ++ news
  order : KeepsWorkspaceOrder groups result fun i =>
    ∀ cls ∈ findMergeableGraphs staticCheckEq groups, i ∉ cls.graphIndices

section Reduce

variable {E V : Type} {eval : V → E → ℤ} {staticCheckEq : E → E → TriBool}
  {groups result news : List (Group E)} {plan : List (List ℕ)} {target : ℕ}

theorem cheapestFirst (staticCheckEq : E → E → TriBool) (groups : List (Group E)) :
    CheapestFirst staticCheckEq groups := by
  intro start s k c g rest hstart hloop hglobal
  have hc := findMergeableGraphs_classes staticCheckEq groups
  rcases planStart_ok hc with ⟨start', hstart', hok, _⟩
  rw [hstart, some.injEq] at hstart'
  subst hstart'
  rcases hok.run hc.flatten hc.ne_nil groups.length k with ⟨s', block, hrun, hok', _⟩
  rw [hloop, some.injEq] at hrun
  subst hrun
  refine ⟨?_, ?_, ?_⟩
  · rcases hok'.round hc.flatten hglobal groups.length with
      ⟨s', _, hround, _, _, e1, e2, heap, hheap, hcost, hparent⟩
    exact ⟨s', e1, e2, heap, hround, hheap, hcost, hparent⟩
  · intro g' i j heap a b hheap hij ha hb
    exact hok'.cheapest hglobal hheap hij ha hb
  · intro g' heap e hheap he
    rcases hok'.class_of_heap hheap with ⟨keys, hkeys, hmem⟩
    have hheapok := hok'.heaps g' keys heap hkeys hheap
    rw [getElem?_map] at hkeys
    rcases map_eq_some_iff.mp hkeys with ⟨cls, hcls, rfl⟩
    have hkeys' : ((findMergeableGraphs staticCheckEq groups).map MergeableGraphs.graphIndices)[g']? =
        some cls.graphIndices := by rw [getElem?_map, hcls]; rfl
    have hblocks := hheapok.perm.nodup_iff.mpr ((nodup_flatten.mp hc.flatten).1 _ hmem)
    refine ⟨block e.2, hheapok.cost e he, (nodup_flatMap.mp hblocks).1 e he, fun m => ?_⟩
    constructor
    · intro hm
      exact ⟨⟨cls, hcls, hheapok.block_subset he hm⟩,
        hok'.root_of_block hc.flatten hc.flatten_lt hkeys' hheap he hm⟩
    · rintro ⟨⟨cls', hcls', hm⟩, hwithin⟩
      rw [hcls, some.injEq] at hcls'
      subst hcls'
      rcases hok'.exists_block hkeys' hm with ⟨heap', hheap', e', he', hblock⟩
      rw [hheap, some.injEq] at hheap'
      subst hheap'
      have hwithin' := hok'.root_of_block hc.flatten hc.flatten_lt hkeys' hheap he' hblock
      rwa [hwithin.unique hwithin']

theorem Classes.sameAxes {mergeable : List MergeableGraphs} (hsound : Sound staticCheckEq eval)
    (hc : Classes staticCheckEq groups mergeable) {cls : MergeableGraphs} (hcls : cls ∈ mergeable)
    {i j : ℕ} (hi : i ∈ cls.graphIndices) (hj : j ∈ cls.graphIndices) :
    SameAxes eval (axesAt groups i) (axesAt groups j) := by
  rcases hc.axes cls hcls with ⟨lead, _, hall⟩
  have hlead : ∀ i ∈ cls.graphIndices, SameAxes eval (axesAt groups lead) (axesAt groups i) := by
    intro i hi
    rcases hall i hi with rfl | haxes
    · exact SameAxes.refl eval _
    · exact sameAxes_of_isAxisVecEqual hsound haxes
  exact (hlead i hi).symm.trans (hlead j hj)

/-- What a member of a merge group becomes. -/
theorem exists_merged (hnews : Forall₂ (MergedFrom groups) plan news) {j : ℕ} {g : Group E}
    (hj : j ∈ plan.flatten) (hg : groups[j]? = some g) :
    ∃ (q : ℕ) (r : Group E), news[q]? = some r ∧ ∀ node ∈ g.nodes, node ∈ r.nodes := by
  induction hnews with
  | nil => cases hj
  | @cons indices new plan news hmerged _ ih =>
    rw [flatten_cons, mem_append] at hj
    rcases hj with hj | hj
    · refine ⟨0, new, rfl, fun node hnode => ?_⟩
      refine hmerged.nodes.mem_iff.mpr (mem_flatMap.mpr ⟨j, hj, ?_⟩)
      rw [nodesAt, hg]
      exact hnode
    · rcases ih hj with ⟨q, r, hr, hnodes⟩
      exact ⟨q + 1, r, hr, hnodes⟩

theorem flatMap_merged {β : Type} {field : Group E → List β}
    (hnews : Forall₂ (fun indices new =>
      (field new).Perm (indices.flatMap fun i => groups[i]?.elim [] field)) plan news) :
    (news.flatMap field).Perm (plan.flatten.flatMap fun i => groups[i]?.elim [] field) := by
  induction hnews with
  | nil => exact Perm.refl _
  | cons hmerged _ ih =>
    rw [flatMap_cons, flatten_cons, flatMap_append]
    exact hmerged.append ih

theorem flatMap_filterMap_elim {α β γ : Type} (l : List α) (f : α → Option β) (field : β → List γ) :
    (l.filterMap f).flatMap field = l.flatMap fun a => (f a).elim [] field := by
  induction l with
  | nil => rfl
  | cons a l ih =>
    rw [filterMap_cons, flatMap_cons]
    cases f a with
    | none => exact ih
    | some b => rw [flatMap_cons, ih]; rfl

theorem flatMap_keep {β : Type} {field : Group E → List β} (hnodup : plan.flatten.Nodup)
    (hlt : ∀ i ∈ plan.flatten, i < groups.length)
    (hnews : Forall₂ (fun indices new =>
      (field new).Perm (indices.flatMap fun i => groups[i]?.elim [] field)) plan news) :
    ((keepPositions (toErase plan) 0 groups ++ news).flatMap field).Perm (groups.flatMap field) := by
  rcases toErase_spec hnodup with ⟨hsorted, hperm⟩
  have hkeep : (keepPositions (toErase plan) 0 groups ++
      (toErase plan).filterMap fun i : ℕ => groups[i - 0]?).Perm groups :=
    keepPositions_perm hsorted fun i hi => ⟨Nat.zero_le i, by
      rw [Nat.zero_add]
      exact hlt i (hperm.mem_iff.mp hi)⟩
  have herased : ((toErase plan).filterMap fun i : ℕ => groups[i - 0]?).flatMap field =
      (toErase plan).flatMap fun i => groups[i]?.elim [] field :=
    flatMap_filterMap_elim (toErase plan) (fun i : ℕ => groups[i - 0]?) field
  refine Perm.trans ?_ (hkeep.flatMap_right field)
  rw [flatMap_append, flatMap_append, herased]
  exact ((flatMap_merged hnews).trans (hperm.symm.flatMap_right _)).append_left _

/-- The merged list, from what the plan and the merged graphs are. -/
theorem reduced_of_plan (hsound : Sound staticCheckEq eval) (hnodup : plan.flatten.Nodup)
    (hsize : ∀ indices ∈ plan, 1 < indices.length)
    (hone : ∀ indices ∈ plan, ∃ cls ∈ findMergeableGraphs staticCheckEq groups,
      ∀ m ∈ indices, m ∈ cls.graphIndices)
    (hnews : Forall₂ (MergedFrom groups) plan news)
    (hlength : groups.length + plan.length = plan.flatten.length +
      if groups.length ≤ target then groups.length
      else max target (groups.length - saving (findMergeableGraphs staticCheckEq groups))) :
    Reduced eval staticCheckEq groups target (keepPositions (toErase plan) 0 groups ++ news) := by
  have hc := findMergeableGraphs_classes staticCheckEq groups
  have hclass : ∀ i ∈ plan.flatten, ∃ cls ∈ findMergeableGraphs staticCheckEq groups,
      i ∈ cls.graphIndices := by
    intro i hi
    rcases mem_flatten.mp hi with ⟨indices, hindices, hi⟩
    rcases hone indices hindices with ⟨cls, hcls, hall⟩
    exact ⟨cls, hcls, hall i hi⟩
  have hlt : ∀ i ∈ plan.flatten, i < groups.length := by
    intro i hi
    rcases hclass i hi with ⟨cls, hcls, hmem⟩
    exact hc.lt cls hcls i hmem
  rcases toErase_spec hnodup with ⟨hsorted, hperm⟩
  constructor
  · have hkeep := (keepPositions_perm (l := groups) (k := 0) hsorted fun i hi => ⟨Nat.zero_le i, by
      rw [Nat.zero_add]
      exact hlt i (hperm.mem_iff.mp hi)⟩).length_eq
    have herased : ((toErase plan).filterMap fun i : ℕ => groups[i - 0]?).length =
        plan.flatten.length := by
      rw [← hperm.length_eq]
      refine filterMap_length_eq_length.mpr fun i hi => ?_
      have hi := hlt i (hperm.mem_iff.mp hi)
      show groups[i]?.isSome = true
      rw [getElem?_eq_getElem hi]
      rfl
    rw [length_append, herased] at hkeep
    have hnewslength := hnews.length_eq
    rw [length_append]
    omega
  · exact flatMap_keep hnodup hlt (hnews.imp fun _ _ h => h.nodes)
  · exact flatMap_keep hnodup hlt (hnews.imp fun _ _ h => h.edges)
  · refine ⟨plan, news, hnodup, fun indices hindices => ⟨hsize indices hindices, fun i hi => ?_⟩, hnews,
      rfl⟩
    rcases hone indices hindices with ⟨cls, hcls, hall⟩
    exact ⟨hc.simple cls hcls i (hall i hi), fun j hj => hc.sameAxes hsound hcls (hall i hi) (hall j hj)⟩
  · intro i j g g' workspace hij hg hg' _ _ hstays
    have hi : 0 + i ∉ toErase plan := by
      rw [Nat.zero_add]
      intro hmem
      rcases hclass i (hperm.mem_iff.mp hmem) with ⟨cls, hcls, hin⟩
      exact hstays cls hcls hin
    by_cases hj : j ∈ toErase plan
    · -- the later group is behind all that are kept
      rcases exists_keepPositions hg hi with ⟨p, hp⟩
      rcases exists_merged hnews (hperm.mem_iff.mp hj) hg' with ⟨q, r, hr, hnodes⟩
      have hlt := (List.getElem?_eq_some_iff.mp hp).1
      refine ⟨p, (keepPositions (toErase plan) 0 groups).length + q, g, r, by omega, ?_, ?_,
        fun _ h => h, hnodes⟩
      · rw [getElem?_append_left hlt, hp]
      · rw [getElem?_append_right (Nat.le_add_right _ _), Nat.add_sub_cancel_left, hr]
    · rcases keepPositions_order hij hg hg' hi (by rwa [Nat.zero_add]) with ⟨p, q, hpq, hp, hq⟩
      refine ⟨p, q, g, g', hpq, ?_, ?_, fun _ h => h, fun _ h => h⟩
      · rw [getElem?_append_left (List.getElem?_eq_some_iff.mp hp).1, hp]
      · rw [getElem?_append_left (List.getElem?_eq_some_iff.mp hq).1, hq]

theorem reduced_unchanged (hsound : Sound staticCheckEq eval)
    (hlength : groups.length = if groups.length ≤ target then groups.length
      else max target (groups.length - saving (findMergeableGraphs staticCheckEq groups))) :
    Reduced eval staticCheckEq groups target groups := by
  have h : Reduced eval staticCheckEq groups target (keepPositions (toErase []) 0 groups ++ []) :=
    reduced_of_plan hsound nodup_nil (fun _ h => nomatch h) (fun _ h => nomatch h) .nil (by
      rw [← hlength]
      exact (zero_add _).symm)
  have hkeep : keepPositions (toErase []) 0 groups = groups := keepPositions_nil 0 groups
  rwa [append_nil, hkeep] at h

variable (order : HashOrder) {topologicalSorting : List Node → List Edge → Option (List Node)}

theorem reduceGraphCount_reduced (hsound : Sound staticCheckEq eval) (hsort : SortOk topologicalSorting)
    (hgroups : WellFormed groups) (target : ℕ) :
    ∃ result, reduceGraphCount staticCheckEq order topologicalSorting groups target = some result ∧
      Reduced eval staticCheckEq groups target result := by
  have hc := findMergeableGraphs_classes staticCheckEq groups
  rw [reduceGraphCount]
  by_cases hfew : groups.length ≤ target
  · exact ⟨groups, if_pos hfew, reduced_unchanged hsound (if_pos hfew).symm⟩
  rw [if_neg hfew]
  dsimp only
  by_cases hempty : (findMergeableGraphs staticCheckEq groups).isEmpty
  · refine ⟨groups, if_pos hempty, reduced_unchanged hsound ?_⟩
    rw [if_neg hfew, List.isEmpty_iff.mp hempty]
    show groups.length = max target (groups.length - 0)
    omega
  rw [if_neg hempty]
  rcases resolveMergePlan_spec order hc (groups.length - target) with ⟨plan, hplan, hspec⟩
  rw [hplan, bind_some]
  have hsaving : ((findMergeableGraphs staticCheckEq groups).map MergeableGraphs.graphIndices).map
      (fun keys => keys.length - 1) =
        (findMergeableGraphs staticCheckEq groups).map fun c => c.graphIndices.length - 1 := by
    rw [List.map_map]
    rfl
  have hsaved := hspec.saved
  rw [hsaving] at hsaved
  change plan.flatten.length = plan.length + min (groups.length - target)
    (saving (findMergeableGraphs staticCheckEq groups)) at hsaved
  have hone : ∀ indices ∈ plan, ∃ cls ∈ findMergeableGraphs staticCheckEq groups,
      ∀ m ∈ indices, m ∈ cls.graphIndices := by
    intro indices hindices
    rcases hspec.oneClass indices hindices with ⟨keys, hkeys, hall⟩
    rcases List.mem_map.mp hkeys with ⟨cls, hcls, rfl⟩
    exact ⟨cls, hcls, hall⟩
  have hlt : ∀ indices ∈ plan, ∀ i ∈ indices, i < groups.length := by
    intro indices hindices i hi
    rcases hone indices hindices with ⟨cls, hcls, hall⟩
    exact hc.lt cls hcls i (hall i hi)
  -- no more groups are saved than there are
  have hflat : plan.flatten.length ≤ groups.length := by
    have hsubset : plan.flatten ⊆ range groups.length := by
      intro i hi
      rcases mem_flatten.mp hi with ⟨indices, hindices, hi⟩
      exact mem_range.mpr (hlt indices hindices i hi)
    have hle := (subperm_of_subset hspec.nodup hsubset).length_le
    rwa [length_range] at hle
  have hlength : groups.length + plan.length = plan.flatten.length +
      if groups.length ≤ target then groups.length
      else max target (groups.length - saving (findMergeableGraphs staticCheckEq groups)) := by
    rw [if_neg hfew]
    omega
  by_cases hnone : plan.isEmpty
  · refine ⟨groups, if_pos hnone, reduced_unchanged hsound ?_⟩
    rw [List.isEmpty_iff.mp hnone] at hlength
    simpa using hlength
  rw [if_neg hnone]
  have hne : ∀ indices ∈ plan, indices ≠ [] := by
    rintro indices hindices rfl
    exact absurd (hspec.size [] hindices) (by decide)
  rcases hgroups.newGraphs hsort hne hlt with ⟨news, hnews, hmerged⟩
  rw [hnews, map_some]
  refine ⟨_, rfl, ?_⟩
  rcases toErase_spec hspec.nodup with ⟨hsorted, hperm⟩
  have herase : (toErase plan).reverse.foldl eraseIdx (groups ++ news) =
      keepPositions (toErase plan) 0 groups ++ news := by
    have hbelow : ∀ p : ℕ, p ∈ toErase plan → p < 0 + groups.length := by
      intro p hp
      rcases mem_flatten.mp (hperm.mem_iff.mp hp) with ⟨indices, hindices, hp⟩
      rw [zero_add]
      exact hlt indices hindices p hp
    rw [foldl_eraseIdx_reverse hsorted, keepPositions_append, keepPositions_of_lt hbelow]
  rw [herase]
  exact reduced_of_plan hsound hspec.nodup hspec.size hone hmerged hlength

/-- The reduction merges as many groups of one class as needed, the cheapest first; the groups that
are in no class stay in front. -/
theorem reduceGraphCount_spec (hsound : Sound staticCheckEq eval) (hsort : SortOk topologicalSorting)
    (hgroups : WellFormed groups) (target : ℕ) :
    (∃ result, reduceGraphCount staticCheckEq order topologicalSorting groups target = some result ∧
      Reduced eval staticCheckEq groups target result) ∧
    CheapestFirst staticCheckEq groups ∧
    ((Equivalence fun a b : List (Axis E) => isAxisVecEqual staticCheckEq a b = true) →
      ∀ i j, Comparable staticCheckEq groups i j →
        ∃ cls ∈ findMergeableGraphs staticCheckEq groups,
          i ∈ cls.graphIndices ∧ j ∈ cls.graphIndices) :=
  ⟨reduceGraphCount_reduced order hsound hsort hgroups target, cheapestFirst staticCheckEq groups,
    fun hequiv _ _ hij => findMergeableGraphs_complete hequiv hij⟩

end Reduce

/-! ### A workspace between groups

The first of three groups stores a workspace that the second loads. The third has the axes of the
first. -/

def constantCheckEq (a b : ℕ) : TriBool := if a = b then .true else .false

def listOrder : HashOrder where
  keys l := l
  keys_perm _ := Perm.refl _
  clusters l := l
  clusters_perm _ := Perm.refl _

def storingGroup : Group ℕ where
  name := "g0"
  axes := [⟨0, "z0", 128⟩]
  nodes := [{ id := 0, name := "store", computeType := .store },
    { id := 1, name := "ws", apiType := .buffer, isWorkspace := true }]
  edges := [⟨0, 0, 1, 0⟩]

def loadingGroup : Group ℕ where
  name := "g1"
  axes := [⟨0, "z0", 64⟩]
  nodes := [{ id := 2, name := "ws", apiType := .buffer, isWorkspace := true },
    { id := 3, name := "load", computeType := .load }]
  edges := [⟨2, 0, 3, 0⟩]

def otherGroup : Group ℕ where
  name := "g2"
  axes := [⟨0, "z0", 128⟩]
  nodes := [{ id := 4, name := "abs" }]
  edges := []

def workspaceGroups : List (Group ℕ) := [storingGroup, loadingGroup, otherGroup]

/-- A stand-in for the sort, for graphs whose nodes are already in order. -/
def keepNodes (nodes : List Node) (_ : List Edge) : Option (List Node) := some nodes

theorem sortOk_keepNodes : SortOk keepNodes where
  perm nodes _ sorted h := by
    rw [keepNodes, some.injEq] at h
    rw [h]
  total _ _ _ := rfl

theorem wellFormed_workspaceGroups : WellFormed workspaceGroups where
  ids := by decide
  names := by decide
  ends := by decide
  acyclic := ⟨id, by decide⟩

theorem sound_constantCheckEq : Sound constantCheckEq fun (_ : Unit) (n : ℕ) => (n : ℤ) := by
  intro a b h _
  rw [constantCheckEq] at h
  split at h
  case isTrue heq => rw [heq]
  case isFalse => cases h

/-- The storing group is merged with the third one and comes behind the loading one. -/
theorem not_reduceGraphCount_keepsWorkspaceOrder :
    ∃ result, reduceGraphCount constantCheckEq listOrder keepNodes workspaceGroups 2 = some result ∧
      ¬ KeepsWorkspaceOrder workspaceGroups result fun _ => True := by
  refine ⟨[loadingGroup, ⟨"merged_0", [⟨0, "z0", 128⟩], storingGroup.nodes ++ otherGroup.nodes,
    [⟨0, 0, 1, 0⟩]⟩], rfl, fun h => ?_⟩
  have hstores : storingGroup.Stores "ws" :=
    ⟨{ id := 1, name := "ws", apiType := .buffer, isWorkspace := true }, by decide, rfl, rfl,
      ⟨0, 0, 1, 0⟩, by decide, rfl⟩
  have hloads : loadingGroup.Loads "ws" :=
    ⟨{ id := 2, name := "ws", apiType := .buffer, isWorkspace := true }, by decide, rfl, rfl,
      ⟨2, 0, 3, 0⟩, by decide, rfl⟩
  rcases h 0 1 storingGroup loadingGroup "ws" Nat.zero_lt_one rfl rfl hstores hloads trivial with
    ⟨p, q, r, r', hpq, hp, hq, hr, _⟩
  -- the first of the two that are left would have to contain the store
  have hq2 := (List.getElem?_eq_some_iff.mp hq).1
  have hp0 : p = 0 := by
    simp only [length_cons, length_nil] at hq2
    omega
  subst hp0
  rw [getElem?_cons_zero, Option.some.injEq] at hp
  subst hp
  exact absurd (hr { id := 0, name := "store", computeType := .store } (by decide)) (by decide)

theorem reduceGraphCount_spec_workspaceGroups :
    (∃ result, reduceGraphCount constantCheckEq listOrder keepNodes workspaceGroups 2 = some result ∧
      Reduced (fun (_ : Unit) (n : ℕ) => (n : ℤ)) constantCheckEq workspaceGroups 2 result) ∧
    CheapestFirst constantCheckEq workspaceGroups ∧
    ((Equivalence fun a b : List (Axis ℕ) => isAxisVecEqual constantCheckEq a b = true) →
      ∀ i j, Comparable constantCheckEq workspaceGroups i j →
        ∃ cls ∈ findMergeableGraphs constantCheckEq workspaceGroups,
          i ∈ cls.graphIndices ∧ j ∈ cls.graphIndices) :=
  reduceGraphCount_spec listOrder sound_constantCheckEq sortOk_keepNodes wellFormed_workspaceGroups 2

end GraphAutofusion.Autofuse.GroupReduction
