import GraphAutofusion.SuperKernel.QueueRun

/-!
# SuperKernel.QueueOrder — the queues of a build respect all dependencies

Grouping extracts the dependencies group by group and drops those between two groups. The edges
of all groups together are still a matching that points forward, and a dependency between
two groups crosses an all-core sync. So the two queues of every build are scheduled, and
what one task depends on has been executed when a queue comes to it.
-/

namespace GraphAutofusion.SuperKernel

open Lib Relation PairState List

/-! ## Dependencies of a stretch of the list -/

/-- Consecutive elements of an ascending list. -/
theorem mem_zip_tail_iff {l : List ℕ} (hl : l.Pairwise (· < ·)) {a b : ℕ} :
    (a, b) ∈ l.zip l.tail ↔ a ∈ l ∧ b ∈ l ∧ a < b ∧ ∀ c ∈ l, ¬ (a < c ∧ c < b) := by
  induction l with
  | nil => simp
  | cons x l ih =>
    have hx : ∀ c ∈ l, x < c := (pairwise_cons.mp hl).1
    have ih := ih (pairwise_cons.mp hl).2
    cases l with
    | nil =>
      simp only [tail_cons, zip_nil_right, not_mem_nil, mem_singleton, false_iff]
      rintro ⟨rfl, rfl, hlt, _⟩
      exact lt_irrefl _ hlt
    | cons y l =>
      have hy : ∀ c ∈ l, y < c := (pairwise_cons.mp (pairwise_cons.mp hl).2).1
      rw [tail_cons, zip_cons_cons, mem_cons, Prod.mk.injEq]
      rw [tail_cons] at ih
      rw [ih]
      constructor
      · rintro (⟨rfl, rfl⟩ | ⟨ha, hb, hab, hbetween⟩)
        · refine ⟨mem_cons_self, mem_cons_of_mem _ mem_cons_self,
            hx b mem_cons_self, fun c hc hlt => ?_⟩
          rcases mem_cons.mp hc with rfl | hc
          · exact lt_irrefl _ hlt.1
          rcases mem_cons.mp hc with rfl | hc
          · exact lt_irrefl _ hlt.2
          · exact absurd (hy c hc) (not_lt.mpr hlt.2.le)
        · refine ⟨mem_cons_of_mem _ ha, mem_cons_of_mem _ hb, hab, fun c hc hlt => ?_⟩
          rcases mem_cons.mp hc with rfl | hc
          · exact absurd (hx a ha) (not_lt.mpr hlt.1.le)
          · exact hbetween c hc hlt
      · rintro ⟨ha, hb, hab, hbetween⟩
        have hb' : b ∈ y :: l := by
          rcases mem_cons.mp hb with rfl | hb
          · rcases mem_cons.mp ha with rfl | ha
            · exact absurd hab (lt_irrefl _)
            · exact absurd (hx a ha) (not_lt.mpr hab.le)
          · exact hb
        rcases mem_cons.mp ha with rfl | ha
        · refine .inl ⟨rfl, ?_⟩
          rcases mem_cons.mp hb' with rfl | hbl
          · rfl
          · exact absurd ⟨hx y mem_cons_self, hy b hbl⟩
              (hbetween y (mem_cons_of_mem _ mem_cons_self))
        · exact .inr ⟨ha, hb', hab, fun c hc => hbetween c (mem_cons_of_mem _ hc)⟩

section Stretch

variable {tasks before group behind : List SuperKernelBaseNode} {i j k : ℕ}

theorem mem_intraStreamDeps {e : ℕ × ℕ} : e ∈ intraStreamDeps tasks ↔ e.1 < e.2 ∧
    ∃ streamIdx, e.1 ∈ streamOps tasks streamIdx ∧ e.2 ∈ streamOps tasks streamIdx ∧
      ∀ c ∈ streamOps tasks streamIdx, ¬ (e.1 < c ∧ c < e.2) := by
  simp only [intraStreamDeps, mem_flatMap, mem_zip_tail_iff (streamOps_pairwise _)]
  constructor
  · rintro ⟨streamIdx, _, hfirst, hsecond, hlt, hbetween⟩
    exact ⟨hlt, streamIdx, hfirst, hsecond, hbetween⟩
  · rintro ⟨hlt, streamIdx, hfirst, hsecond, hbetween⟩
    refine ⟨streamIdx, ?_, hfirst, hsecond, hlt, hbetween⟩
    rcases mem_streamOps.mp hfirst with ⟨t, ht, hstream⟩
    rw [(perm_insertionSort _ _).mem_iff, mem_dedup, mem_map]
    exact ⟨t, mem_of_getElem? ht, hstream⟩

/-- With distinct ids, an id leads to the task that has it. -/
theorem nodeIdToIndex_eq_some (hnodup : (tasks.map (·.nodeId)).Nodup) {nodeId : NodeId} :
    nodeIdToIndex tasks nodeId = some i ↔ ∃ t, tasks[i]? = some t ∧ t.nodeId = nodeId := by
  have hfound : ∀ {i}, nodeIdToIndex tasks nodeId = some i →
      ∃ t, tasks[i]? = some t ∧ t.nodeId = nodeId := by
    intro i h
    simpa [Option.any_eq_true] using find?_some h
  refine ⟨hfound, ?_⟩
  rintro ⟨t, ht, hid⟩
  have hi := (List.getElem?_eq_some_iff.mp ht).1
  have hsome : (nodeIdToIndex tasks nodeId).isSome = true := by
    unfold nodeIdToIndex
    rw [find?_isSome]
    exact ⟨i, by simpa using hi, by simp [ht, hid]⟩
  rcases Option.isSome_iff_exists.mp hsome with ⟨j, hj⟩
  rcases hfound hj with ⟨t', ht', hid'⟩
  have hsame : i = j := by
    have hlen : i < (tasks.map (·.nodeId)).length := by simpa using hi
    refine (getElem?_inj hlen hnodup).mp ?_
    rw [getElem?_map, getElem?_map, ht, ht', Option.map_some, Option.map_some, hid, hid']
  rw [hsame, hj]

theorem getElem?_stretch (hj : j < group.length) :
    (before ++ (group ++ behind))[before.length + j]? = group[j]? := by
  rw [getElem?_append_right (Nat.le_add_right _ _), Nat.add_sub_cancel_left,
    getElem?_append_left hj]

theorem mem_streamOps_stretch (hj : j < group.length) {streamIdx : StreamIdx} :
    before.length + j ∈ streamOps (before ++ (group ++ behind)) streamIdx ↔
      j ∈ streamOps group streamIdx := by
  rw [mem_streamOps, mem_streamOps, getElem?_stretch hj]

/-- Extracting the dependencies of a stretch loses none between its tasks, and adds none. -/
theorem mem_taskDeps_stretch (hnodup : ((before ++ (group ++ behind)).map (·.nodeId)).Nodup)
    (hj : j < group.length) (hk : k < group.length) :
    (before.length + j, before.length + k) ∈ taskDeps (before ++ (group ++ behind)) ↔
      (j, k) ∈ taskDeps group := by
  have hsub : group.Sublist (before ++ (group ++ behind)) :=
    (sublist_append_left _ _).trans (sublist_append_right _ _)
  have hnodup' : (group.map (·.nodeId)).Nodup := (hsub.map _).nodup hnodup
  have hindex : ∀ {j}, j < group.length → ∀ nodeId,
      nodeIdToIndex (before ++ (group ++ behind)) nodeId = some (before.length + j) ↔
        nodeIdToIndex group nodeId = some j := by
    intro j hj nodeId
    rw [nodeIdToIndex_eq_some hnodup, nodeIdToIndex_eq_some hnodup', getElem?_stretch hj]
  unfold taskDeps
  rw [mem_append, mem_append]
  refine or_congr ?_ ?_
  · rw [mem_intraStreamDeps, mem_intraStreamDeps]
    refine and_congr (by simp) (exists_congr fun streamIdx => ?_)
    rw [mem_streamOps_stretch hj, mem_streamOps_stretch hk]
    refine and_congr_right fun _ => and_congr_right fun _ => ⟨fun hnone c hc hlt => ?_,
      fun hnone c hc hlt => ?_⟩
    · have hlen : c < group.length := hlt.2.trans hk
      have hlt₁ : before.length + j < before.length + c := Nat.add_lt_add_left hlt.1 _
      have hlt₂ : before.length + c < before.length + k := Nat.add_lt_add_left hlt.2 _
      exact hnone _ ((mem_streamOps_stretch hlen).mpr hc) ⟨hlt₁, hlt₂⟩
    · -- a task between the two lies in the stretch
      simp only at hlt
      have hpos : before.length + (c - before.length) = c := by omega
      have hlen : c - before.length < group.length := by omega
      rw [← hpos, mem_streamOps_stretch hlen] at hc
      exact hnone _ hc (by simp only; omega)
  · rw [mem_interStreamDeps, mem_interStreamDeps]
    constructor
    · rintro ⟨t, _, hkernel, nextId, hnext, hpre, hsucc⟩
      simp only at hpre hsucc
      rw [hindex hj] at hpre
      rw [hindex hk] at hsucc
      rcases (nodeIdToIndex_eq_some hnodup').mp hpre with ⟨t', ht', hid⟩
      have hmem : t' ∈ before ++ (group ++ behind) := hsub.subset (mem_of_getElem? ht')
      have hsame : t' = t := inj_on_of_nodup_map hnodup hmem (by assumption) hid
      subst hsame
      exact ⟨t', mem_of_getElem? ht', hkernel, nextId, hnext, hpre, hsucc⟩
    · rintro ⟨t, ht, hkernel, nextId, hnext, hpre, hsucc⟩
      simp only at hpre hsucc
      exact ⟨t, hsub.subset ht, hkernel, nextId, hnext, (hindex hj _).mpr hpre,
        (hindex hk _).mpr hsucc⟩

end Stretch

/-! ## The edges of all groups -/

section Groups

variable {opts : TaskOptions} {g : SuperKernelGraph} {tasks customTasks group group' : List SuperKernelBaseNode}
  {infos : TaskSyncInfos} {pre post pre' post' : List (List SuperKernelBaseNode)} {j k : ℕ} {b q : Bool}

/-- Two groups of a list are the same, or one stands before the other. -/
theorem group_cases (h : pre ++ group :: post = pre' ++ group' :: post') :
    (pre = pre' ∧ group = group' ∧ post = post') ∨
      (post ≠ [] ∧ pre.flatten.length + group.length ≤ pre'.flatten.length) ∨
      (post' ≠ [] ∧ pre'.flatten.length + group'.length ≤ pre.flatten.length) := by
  have hafter : ∀ {p p' : List (List SuperKernelBaseNode)} {a a' s s'} {c}, p' = p ++ c →
      a :: s = c ++ a' :: s' → (p = p' ∧ a = a' ∧ s = s') ∨
        (s ≠ [] ∧ p.flatten.length + a.length ≤ p'.flatten.length) := by
    intro p p' a a' s s' c hp hs
    cases c with
    | nil =>
      rw [append_nil] at hp
      exact .inl ⟨hp.symm, by simpa using hs⟩
    | cons x c =>
      have hcons := cons_eq_cons.mp hs
      rcases hcons with ⟨rfl, rfl⟩
      refine .inr ⟨by simp, ?_⟩
      rw [hp, flatten_append, flatten_cons, length_append, length_append]
      omega
  rcases append_eq_append_iff.mp h with ⟨c, hp, hs⟩ | ⟨c, hp, hs⟩
  · rcases hafter hp hs with hsame | hlt
    · exact .inl hsame
    · exact .inr (.inl hlt)
  · rcases hafter hp hs with ⟨h₁, h₂, h₃⟩ | hlt
    · exact .inl ⟨h₁.symm, h₂.symm, h₃.symm⟩
    · exact .inr (.inr hlt)

/-- The kept edges of all groups, by global index. -/
def planEdges (opts : TaskOptions) (g : SuperKernelGraph) (tasks : List SuperKernelBaseNode)
    (b : Bool) : Set (ℕ × ℕ) :=
  {e | ¬ isDebugSync opts ∧ ∃ pre group post, syncGroups opts tasks = pre ++ group :: post ∧
    ∃ s r, (s, r) ∈ groupEdges (queueTypeAt g tasks) group pre.flatten.length b ∧
      e = (pre.flatten.length + s, pre.flatten.length + r)}

section

variable (hgroups : syncGroups opts tasks = pre ++ group :: post)
include hgroups

theorem tasks_eq : tasks = pre.flatten ++ (group ++ post.flatten) := by
  have hflat := flatten_syncGroups opts tasks
  rw [hgroups, flatten_append, flatten_cons] at hflat
  exact hflat.symm

omit hgroups in
/-- The dependencies of a group are those of the list between its tasks. -/
theorem mem_taskDeps_group (hnodup : (tasks.map (·.nodeId)).Nodup)
    (hgroups : syncGroups opts tasks = pre ++ group :: post) (hj : j < group.length)
    (hk : k < group.length) :
    (pre.flatten.length + j, pre.flatten.length + k) ∈ taskDeps tasks ↔ (j, k) ∈ taskDeps group := by
  have htasks := tasks_eq hgroups
  have hnodup' := hnodup
  rw [htasks] at hnodup'
  have hdeps := mem_taskDeps_stretch hnodup' hj hk
  rwa [← htasks] at hdeps

omit hgroups in
/-- In a topological order, edges point forward. -/
theorem lt_of_groupEdge (htopo : ∀ e ∈ taskDeps tasks, e.1 < e.2)
    (hnodup : (tasks.map (·.nodeId)).Nodup) (hgroups : syncGroups opts tasks = pre ++ group :: post)
    (he : (j, k) ∈ groupEdges (queueTypeAt g tasks) group pre.flatten.length b) : j < k := by
  have hbound := bounded_groupEdges pre.flatten.length b _ he
  have hdep := (pruned_subset he).1
  have hlt := htopo _ ((mem_taskDeps_group hnodup hgroups hbound.1 hbound.2).mpr hdep)
  simp only at hlt
  omega

/-- An edge of the list lies in one group. -/
theorem mem_planEdges_left
    (hj : j < group.length) {r : ℕ} : (pre.flatten.length + j, r) ∈ planEdges opts g tasks b ↔
      ¬ isDebugSync opts ∧ ∃ r', r = pre.flatten.length + r' ∧
        (j, r') ∈ groupEdges (queueTypeAt g tasks) group pre.flatten.length b := by
  refine and_congr_right fun _ => ⟨?_, ?_⟩
  · rintro ⟨pre', group', post', hgroups', s, r', he, heq⟩
    have hbound := bounded_groupEdges pre'.flatten.length b _ he
    simp only [Prod.mk.injEq] at heq hbound
    rcases group_cases (hgroups.symm.trans hgroups') with ⟨rfl, rfl, rfl⟩ | hlt | hlt
    · have hs : j = s := by omega
      subst hs
      exact ⟨r', heq.2, he⟩
    · omega
    · omega
  · rintro ⟨r', rfl, he⟩
    exact ⟨pre, group, post, hgroups, j, r', he, rfl⟩

theorem mem_planEdges_right
    (hk : k < group.length) {s : ℕ} : (s, pre.flatten.length + k) ∈ planEdges opts g tasks b ↔
      ¬ isDebugSync opts ∧ ∃ s', s = pre.flatten.length + s' ∧
        (s', k) ∈ groupEdges (queueTypeAt g tasks) group pre.flatten.length b := by
  refine and_congr_right fun _ => ⟨?_, ?_⟩
  · rintro ⟨pre', group', post', hgroups', s', r, he, heq⟩
    have hbound := bounded_groupEdges pre'.flatten.length b _ he
    simp only [Prod.mk.injEq] at heq hbound
    rcases group_cases (hgroups.symm.trans hgroups') with ⟨rfl, rfl, rfl⟩ | hlt | hlt
    · have hr : k = r := by omega
      subst hr
      exact ⟨s', heq.1, he⟩
    · omega
    · omega
  · rintro ⟨s', rfl, he⟩
    exact ⟨pre, group, post, hgroups, s', k, he, rfl⟩

end

/-- The edges of all groups together are a matching. -/
theorem matching_planEdges (b : Bool) : Matching (planEdges opts g tasks b) := by
  have hmatch : ∀ (group : List SuperKernelBaseNode) off,
      Matching (groupEdges (queueTypeAt g tasks) group off b) := fun group off => pruned_matching _
  refine ⟨?_, ?_, ?_⟩
  · rintro e ⟨_, pre, group, post, hgroups, s, r, he, rfl⟩ ⟨x, y⟩ he' rfl
    have hbound := bounded_groupEdges pre.flatten.length b _ he
    rcases ((mem_planEdges_left hgroups hbound.1).mp he').2 with ⟨r', rfl, hlocal⟩
    have hr := congrArg Prod.snd ((hmatch _ _).source _ he _ hlocal rfl)
    simp only at hr
    rw [hr]
  · rintro e ⟨_, pre, group, post, hgroups, s, r, he, rfl⟩ ⟨x, y⟩ he' rfl
    have hbound := bounded_groupEdges pre.flatten.length b _ he
    rcases ((mem_planEdges_right hgroups hbound.2).mp he').2 with ⟨s', rfl, hlocal⟩
    have hs := congrArg Prod.fst ((hmatch _ _).target _ he _ hlocal rfl)
    simp only at hs
    rw [hs]
  · rintro e ⟨_, pre, group, post, hgroups, s, r, he, rfl⟩ e'
      ⟨_, pre', group', post', hgroups', s', r', he', rfl⟩ hlt
    have hbound := bounded_groupEdges pre.flatten.length b _ he
    have hbound' := bounded_groupEdges pre'.flatten.length b _ he'
    simp only at hlt hbound hbound' ⊢
    rcases group_cases (hgroups.symm.trans hgroups') with ⟨rfl, rfl, rfl⟩ | hle | hle
    · have hr := (hmatch _ _).increasing _ he _ he' (by simp only; omega)
      simp only at hr
      omega
    · omega
    · omega

/-- The metadata of a build is a plan. -/
theorem syncPlan_of_buildSyncInfos (htopo : ∀ e ∈ taskDeps tasks, e.1 < e.2)
    (hnodup : (tasks.map (·.nodeId)).Nodup) (hearly : opts.earlyStart ≠ 1)
    (h : buildSyncInfos opts g tasks customTasks = some infos) :
    SyncPlan opts tasks.length infos (planEdges opts g tasks) := by
  have hvalues := syncValues_of_buildSyncInfos hearly h
  have hforward : ∀ b, ∀ e ∈ planEdges opts g tasks b, e.1 < e.2 ∧ e.2 < tasks.length := by
    rintro b e ⟨_, pre, group, post, hgroups, s, r, he, rfl⟩
    have hlt := lt_of_groupEdge htopo hnodup hgroups he
    have hr := lt_of_group hgroups (bounded_groupEdges pre.flatten.length b _ he).2
    exact ⟨Nat.add_lt_add_left hlt _, hr⟩
  by_cases hdebug : isDebugSync opts
  · have hnone : ∀ b, planEdges opts g tasks b = ∅ := fun b =>
      Set.eq_empty_of_forall_notMem fun e he => he.1 hdebug
    refine ⟨hvalues, fun i hi key hd => ?_, fun s hs b r => ?_, fun r hr b s => ?_, hforward,
      matching_planEdges, fun _ => ⟨hnone, fun i hi key d hd => ?_⟩⟩
    · rcases buildSyncInfos_debug hdebug h hi with ⟨t, ht⟩
      rw [ht, (debugSyncInfo_spec t (b := true)).2.2] at hd
      exact hd.1
    · rcases buildSyncInfos_debug hdebug h hs with ⟨t, ht⟩
      rw [ht, (debugSyncInfo_spec t (d := .none)).1, hnone]
      exact iff_of_false (by simp) (Set.notMem_empty _)
    · rcases buildSyncInfos_debug hdebug h hr with ⟨t, ht⟩
      rw [ht, (debugSyncInfo_spec t (d := .none)).2.1, hnone]
      exact iff_of_false (by simp) (Set.notMem_empty _)
    · rcases buildSyncInfos_debug hdebug h hi with ⟨t, ht⟩
      rw [ht, (debugSyncInfo_spec t (b := true)).2.2] at hd
      exact hd.2
  · refine ⟨hvalues, fun i hi key hd => ?_, fun s hs b r => ?_, fun r hr b s => ?_, hforward,
      matching_planEdges, fun h => absurd h hdebug⟩
    · rcases exists_syncGroup opts hi with ⟨pre, group, post, j, hgroups, hj, rfl⟩
      have hsync := groupSync_of_buildSyncInfos hearly hdebug h hgroups
      rcases (hsync.cross j hj key .allSync).mp hd with ⟨_, hkey, _⟩ | ⟨_, q, _, hself, _⟩
      · exact hkey
      · exact absurd hself.symm selfSyncDir_ne_allSync
    · rcases exists_syncGroup opts hs with ⟨pre, group, post, j, hgroups, hj, rfl⟩
      have hsync := groupSync_of_buildSyncInfos hearly hdebug h hgroups
      rw [hsync.send j hj, mem_planEdges_left hgroups hj]
      constructor
      · rintro ⟨_, _, r', hr, he⟩
        exact ⟨hdebug, r', hr, he⟩
      · rintro ⟨_, r', hr, he⟩
        -- the last task of a group has no later one to send to
        refine ⟨rfl, fun hlast => ?_, r', hr, he⟩
        have hlt := lt_of_groupEdge htopo hnodup hgroups he
        have hbound := (bounded_groupEdges pre.flatten.length b _ he).2
        simp only at hbound
        omega
    · rcases exists_syncGroup opts hr with ⟨pre, group, post, j, hgroups, hj, rfl⟩
      have hsync := groupSync_of_buildSyncInfos hearly hdebug h hgroups
      rw [hsync.recv j hj, mem_planEdges_right hgroups hj]
      exact ⟨fun he => ⟨hdebug, he.2⟩, fun he => ⟨rfl, he.2⟩⟩

/-- Between parts on different queues, every dependency of the whole list has an edge or
crosses an all-core sync. -/
theorem dep_covered (htopo : ∀ e ∈ taskDeps tasks, e.1 < e.2)
    (hnodup : (tasks.map (·.nodeId)).Nodup) (hearly : opts.earlyStart ≠ 1)
    (h : buildSyncInfos opts g tasks customTasks = some infos) {e : ℕ × ℕ} (he : e ∈ taskDeps tasks)
    (hpre : hasPart (infos e.1).queueType b = true)
    (hcurr : hasPart (infos e.2).queueType (!b) = true) :
    (∃ s r, (s, r) ∈ planEdges opts g tasks b ∧ e.1 ≤ s ∧ r ≤ e.2) ∨
      ∃ i, e.1 ≤ i ∧ i < e.2 ∧ (infos i).crossSyncInfo (crossSyncKey true) = some .allSync := by
  have hlt := htopo e he
  have hlen := taskDeps_lt he
  by_cases hdebug : isDebugSync opts
  · rcases buildSyncInfos_debug hdebug h hlen.1 with ⟨t, ht⟩
    refine .inr ⟨e.1, le_refl _, hlt, ?_⟩
    rw [ht, (debugSyncInfo_spec t (b := true)).2.2]
    exact ⟨rfl, rfl⟩
  rw [queueType_buildSyncInfos hearly h hlen.1] at hpre
  rw [queueType_buildSyncInfos hearly h hlen.2] at hcurr
  rcases e with ⟨x, y⟩
  simp only at hlt hlen hpre hcurr ⊢
  rcases exists_syncGroup opts hlen.1 with ⟨pre, group, post, j, hgroups, hj, rfl⟩
  rcases exists_syncGroup opts hlen.2 with ⟨pre', group', post', k, hgroups', hk, rfl⟩
  rcases group_cases (hgroups.symm.trans hgroups') with ⟨rfl, rfl, rfl⟩ | ⟨hpost, hle⟩ | ⟨_, hle⟩
  · -- inside a group the pruned edges cover the dependency
    have hdep := (mem_taskDeps_group hnodup hgroups hj hk).mp he
    have hedge : (j, k) ∈ depEdges (fun j => queueTypeAt g tasks (pre.flatten.length + j))
        (taskDeps group) b := ⟨hdep, needsEdge_of_hasPart hpre hcurr⟩
    have hfin : (depEdges (fun j => queueTypeAt g tasks (pre.flatten.length + j))
        (taskDeps group) b).Finite :=
      (finite_toSet (taskDeps group)).subset fun e he => he.1
    rcases pruned_coversAll hfin _ hedge with ⟨⟨s, r⟩, hsr, hcov⟩
    refine .inl ⟨_, _, ⟨hdebug, pre, group, post, hgroups, s, r, hsr, rfl⟩, ?_, ?_⟩
    · exact Nat.add_le_add_left hcov.1 _
    · exact Nat.add_le_add_left hcov.2 _
  · -- the group of the first task ends in an all-core sync
    have hsync := groupSync_of_buildSyncInfos hearly hdebug h hgroups
    refine .inr ⟨pre.flatten.length + (group.length - 1), by omega, by omega, ?_⟩
    exact (hsync.cross _ (by omega) _ _).mpr (.inl ⟨.inl ⟨hpost, by omega⟩, rfl, rfl⟩)
  · omega

end Groups

/-! ## The queues of a build -/

section Build

variable {opts : TaskOptions} {g : SuperKernelGraph} {tasks customTasks : List SuperKernelBaseNode}
  {infos : TaskSyncInfos} {events : List (SuperKernelBaseNode × SkTaskType × SkQueueType)}
  {skTasks : SkTasks} {i : ℕ} {q : Bool} {x : TaskInfo}

/-- The record that calls a task is emitted with the task. -/
theorem exists_body (hearly : opts.earlyStart ≠ 1) (hx : x ∈ queueItems opts tasks infos events q)
    (hbody : IsBody x i) : ∃ node, tasks[i]? = some node ∧ x ∈ bodyItems opts infos i node q := by
  unfold queueItems at hx
  rw [mem_append, mem_append] at hx
  rcases hx with hx | hx | hx
  · exact absurd (preloadItems_type hx) hbody.type.2
  · rcases mem_flatMap.mp hx with ⟨⟨node, j⟩, htask, hx⟩
    have hget := mem_zipIdx_iff_getElem?.mp htask
    have hj := (List.getElem?_eq_some_iff.mp hget).1
    have hsync : ∀ {t isSend bound info}, t ∈ syncItems opts j bound info isSend q →
        t.type = .typeSync := by
      intro t isSend bound info ht
      rcases mem_syncItems.mp ht with ⟨_, _, _, _, _, _, _, rfl⟩
      rfl
    have hearlyItems : ∀ isSend, earlyStartItems opts j (infos j).earlyStartInfo isSend q = [] :=
      fun isSend => by simp [earlyStartItems, hearly]
    unfold taskItems recvItems sendItems at hx
    simp only [hearlyItems, nil_append, mem_append] at hx
    rcases hx with (hx | hx) | hx | hx | hx | (hx | hx)
    · exact absurd (hsync hx) hbody.type.1
    · exact absurd (hsync hx) hbody.type.1
    · have hindex := (isBody_of_mem_bodyItems hx).1.index
      rw [hbody.index] at hindex
      have hij := Option.some.inj hindex
      subst hij
      exact ⟨node, hget, hx⟩
    · exact absurd (preloadItems_type hx) hbody.type.2
    · exact absurd (hsync hx) hbody.type.1
    · exact absurd (hsync hx) hbody.type.1
    · exact absurd (hsync hx) hbody.type.1
  · simp only [customItems, mem_flatMap] at hx
    rcases hx with ⟨event, _, hx⟩
    unfold eventItems at hx
    split at hx
    · have hx := mem_singleton.mp hx
      subst hx
      exact absurd hbody.index (by simp [eventTaskInfo])
    · exact absurd hx not_mem_nil

/-- A task that has a record on a queue has a part on it. -/
theorem hasPart_of_body (htypes : QueueTypesOk tasks infos)
    (hbuilt : ∀ task ∈ tasks.zipIdx, TaskBuilt opts infos task) {node : SuperKernelBaseNode}
    (hget : tasks[i]? = some node) (hx : x ∈ bodyItems opts infos i node q) :
    hasPart (infos i).queueType q = true := by
  have hspec := isBody_of_mem_bodyItems hx
  by_cases hkernel : node.nodeType = .nodeKernel
  · exact hspec.2.1 hkernel
  have hone := hbuilt (node, i) (mem_zipIdx_iff_getElem?.mpr hget)
  unfold TaskBuilt at hone
  simp only [hkernel, if_false] at hone
  rcases hone with ⟨taskType', htype⟩
  have hdefault : taskType tasks i ≠ .nodeDefault := by
    rw [taskType_of_getElem? hget]
    rcases eventTaskType_eq_some htype with ⟨h, _⟩ | ⟨h, _⟩ | ⟨h, _⟩ <;> simp [h]
  rcases htypes i (List.getElem?_eq_some_iff.mp hget).1 hdefault
    (by rw [taskType_of_getElem? hget]; exact hkernel) with ⟨q', hq'⟩
  have hq := hspec.2.2 hkernel
  rw [hq'] at hq ⊢
  cases q' <;> simp_all [eventQueue, hasPart]

end Build

/-- Two streams: an AIC kernel feeds an AIV kernel and, over an event pair, a mixed kernel that is
split and so forms a group of its own. -/
def mixedTasks : List SuperKernelBaseNode :=
  let node := fun (nodeId : NodeId) (streamIdx : StreamIdx) (preNodeId nextNodeId : Option NodeId)
      (kernelType : SkKernelType) (needSplit : Bool) (send receive : List NodeId) =>
    ({ nodeId := nodeId, streamIdxInGraph := streamIdx, nodeIdxInStream := nodeId,
       preNodeId := preNodeId, nextNodeId := nextNodeId, nodeType := .nodeKernel,
       sendToNodeId := send, receiveNodeId := receive,
       kernelInfos :=
        { kernelType := kernelType, numBlocks := 8, needMixKernelSplit := needSplit,
          resolvedFuncs := [⟨1, 1, 0, 0⟩] } } : SuperKernelBaseNode)
  [node 0 0 none (some 1) .aicOnly false [2] [], node 1 0 (some 0) none .aivOnly false [] [],
    node 2 1 none none .mixAic11 true [] [0]]

def mixedGraph : SuperKernelGraph :=
  { nodes := mixedTasks, eventToNodes := [], headNodes := [0, 2], streamNum := 2 }

end GraphAutofusion.SuperKernel
