import GraphAutofusion.SuperKernel.ScopeSync

/-!
# SuperKernel.PostProcessSync — the scopes of the post processor synchronise correctly

The streams of a scope that `PostProcess` has planned and `Update` has rewritten run the
protocol of `SyncProgram`, so its results hold for them.
-/

namespace GraphAutofusion.SuperKernel

open Lib FlagState SuperKernelGraph List Option

variable {g : SuperKernelGraph} {scope : SuperKernelScopeInfo} {info : ScopeStreamInfo}
  {infos : List ScopeStreamInfo} {plans : List StreamPostPlan} {alloc : ℕ → Option Addr}
  {sel : MainSelection} {ext : ScopeExtInfo} {subs rest : List SubSync} {s : SubSync} {i k n : ℕ}
  {updates : List (NodeId × NodeAction)} {eventOps : List StreamOp}

/-- The nodes of a scope stream before its head. -/
def preIds (g : SuperKernelGraph) (infos : List ScopeStreamInfo) (i : ℕ) : List NodeId :=
  match infos[i]? with
  | none => []
  | some info => (preNodes g info).map (·.nodeId)

/-- The nodes of a scope stream behind its tail. -/
def postIds (g : SuperKernelGraph) (infos : List ScopeStreamInfo) (i : ℕ) : List NodeId :=
  match infos[i]? with
  | none => []
  | some info => (postNodes g info).map (·.nodeId)

/-! ## The pieces of the protocol -/

/-- What a successful `PostProcess` has computed. -/
theorem postProcess_ok (h : postProcess g alloc scope = .ok (sel, ext)) :
    ∃ plans, collectStreamBoundaryPlans g scope.scopeStreamInfos = some plans ∧
      getMainAndSubStreamOrder g scope.scopeStreamInfos plans = .ok sel ∧
      processSubStreamSyncEvents alloc scope.scopeStreamInfos plans sel = some ext := by
  unfold postProcess at h
  split at h
  · cases h
  split at h
  · cases h
  split at h
  · cases h
  split at h
  · cases h
  next plans hplans =>
  split at h
  · cases h
  next sel' hsel =>
  split at h
  · cases h
  next ext' hext =>
  cases h
  exact ⟨plans, hplans, hsel, hext⟩

theorem subTasks_of_suffix (hnodup : (subs.map (·.stream)).Nodup) (h : s :: rest <:+ subs) :
    subTasks subs s.stream = s.tasks rest := by
  rcases h with ⟨A, rfl⟩
  induction A with
  | nil => simp [subTasks]
  | cons t A ih =>
    rw [cons_append, map_cons, nodup_cons] at hnodup
    have hne : s.stream ≠ t.stream := by
      intro heq
      apply hnodup.1
      rw [← heq]
      simp
    rw [cons_append, subTasks, if_neg hne]
    exact ih hnodup.2

/-- The cells of an order are consecutive allocations. -/
theorem subsOf_cells (cell : ℕ → Addr) (plans : List StreamPostPlan) (n : ℕ) (order : List ℕ) :
    (subsOf cell plans n order).flatMap (·.cells)
      = (range' n ((subsOf cell plans n order).flatMap (·.cells)).length).map cell := by
  induction order generalizing n with
  | nil => rfl
  | cons i rest ih =>
    have hone : ∀ s, s = subOf cell (plans.getD i {}) n i →
        s.cells = (range' n s.cells.length).map cell := by
      rintro s rfl
      unfold SubSync.cells
      rw [subOf_front, subOf_back]
      cases hasFront plans i <;> cases hasBack plans i <;> rfl
    rw [subsOf]
    rw [flatMap_cons, length_append, ← range'_append_1, map_append, ← hone _ rfl,
      ← ih]

/-- A successful processor has allocated distinct cells. -/
theorem subsOf_cells_nodup (hinj : ∀ j k a, alloc j = some a → alloc k = some a → j = k) {order : List ℕ}
    (halloc : AllocatedFrom alloc 0 ((subsOf (cellOf alloc) plans 0 order).flatMap (·.cells)).length) :
    ((subsOf (cellOf alloc) plans 0 order).flatMap (·.cells)).Nodup := by
  rw [subsOf_cells]
  refine Nodup.map_on ?_ (nodup_range' ..)
  intro j hj k hk heq
  rw [mem_range'_1] at hj hk
  have hj' := halloc j (Nat.zero_le _) (by omega)
  have hk' := halloc k (Nat.zero_le _) (by omega)
  rw [← heq] at hk'
  exact hinj j k _ hj' hk'

/-- A stream of the order has the cells its plan asks for. -/
theorem mem_subsOf {cell : ℕ → Addr} {order : List ℕ} (hs : s ∈ subsOf cell plans n order) :
    s.stream ∈ order ∧ ∃ k, s = subOf cell (plans.getD s.stream {}) k s.stream := by
  induction order generalizing n with
  | nil => cases hs
  | cons i rest ih =>
    rw [subsOf] at hs
    rcases mem_cons.mp hs with rfl | hs
    · exact ⟨mem_cons_self .., n, rfl⟩
    · rcases ih hs with ⟨hmem, hsub⟩
      exact ⟨mem_cons_of_mem _ hmem, hsub⟩

/-- The plan of a stream says whether tasks stand before and behind the scope. -/
theorem collectStreamBoundaryPlans_getD (h : collectStreamBoundaryPlans g infos = some plans)
    (hinfo : infos[i]? = some info) : streamBoundaryPlan g info = some (plans.getD i {}) := by
  induction infos generalizing plans i with
  | nil => cases hinfo
  | cons head infos ih =>
    rw [collectStreamBoundaryPlans] at h
    split at h
    · next plan plans' hplan hrest =>
      cases h
      cases i with
      | zero =>
        cases hinfo
        exact hplan
      | succ i =>
        have htail := ih hrest hinfo
        exact htail
    · cases h

theorem preNodes_eq_nil_of_plan (hg : g.WellFormed) (hok : ScopeOk g scope)
    (hplans : collectStreamBoundaryPlans g scope.scopeStreamInfos = some plans)
    (hinfo : scope.scopeStreamInfos[i]? = some info) (hfront : hasFront plans i = false) :
    preNodes g info = [] := by
  have hplan := collectStreamBoundaryPlans_getD hplans hinfo
  unfold streamBoundaryPlan at hplan
  split at hplan
  · next a z ha hz =>
    have hnone : a.preNodeId = none := by
      have hneed := congrArg StreamPostPlan.needFrontWait (some.inj hplan)
      have hneed' : a.preNodeId.isSome = hasFront plans i := hneed
      rw [hfront] at hneed'
      simpa using hneed'
    exact hok.preNodes_eq_nil hg (mem_of_getElem? hinfo) ha hnone
  · cases hplan

theorem postNodes_eq_nil_of_plan (hg : g.WellFormed) (hok : ScopeOk g scope)
    (hplans : collectStreamBoundaryPlans g scope.scopeStreamInfos = some plans)
    (hinfo : scope.scopeStreamInfos[i]? = some info) (hback : hasBack plans i = false) :
    postNodes g info = [] := by
  have hplan := collectStreamBoundaryPlans_getD hplans hinfo
  unfold streamBoundaryPlan at hplan
  split at hplan
  · next a z ha hz =>
    have hnone : z.nextNodeId = none := by
      have hneed := congrArg StreamPostPlan.needBackBlock (some.inj hplan)
      have hneed' : z.nextNodeId.isSome = hasBack plans i := hneed
      rw [hback] at hneed'
      simpa using hneed'
    exact hok.postNodes_eq_nil hg (mem_of_getElem? hinfo) hz hnone
  · cases hplan

/-! ## The programs of a planned scope -/

section Planned

variable (hg : g.WellFormed) (hok : ScopeOk g scope) (hnodup : scope.nodeIds.Nodup)
include hg hok hnodup

omit hnodup in
/-- The updates of a scope leave the nodes before and behind it alone. -/
theorem actionOf_scopeUpdates_of_not_mem {skMainNodeId : NodeId} {m : SuperKernelBaseNode}
    (hm : m ∈ streamNodes g info.streamIdx) (hnot : m ∉ scope.nodesOn info.streamIdx) :
    actionOf (scopeUpdates scope skMainNodeId ext 0 scope.scopeStreamInfos) m.nodeId = none := by
  apply actionOf_of_not_mem
  rw [scopeUpdates_fst, mem_flatMap]
  rintro ⟨info', hinfo', hmem⟩
  rcases mem_map.mp hmem with ⟨m', hm', hid⟩
  have hmg := ((mem_streamNodes hg).mp hm).1
  have heq : m' = m := hg.eq_of_nodeId (hok.nodesOn_mem m' hm') hmg hid
  subst heq
  have hstream : m'.streamIdxInGraph = info.streamIdx := ((mem_streamNodes hg).mp hm).2
  have hscope := mem_of_mem_filter hm'
  exact hnot (mem_filter.mpr ⟨hscope, by simpa using hstream⟩)

/-- The program of a stream of a planned scope. -/
theorem scopeProgram_eq {skMainNodeId : NodeId} (hinfo : scope.scopeStreamInfos[i]? = some info)
    (hlength : (ext.customParamsList i).length ≤ (scope.nodesOn info.streamIdx).length) :
    scopeProgram g scope.scopeStreamInfos
        (scopeUpdates scope skMainNodeId ext 0 scope.scopeStreamInfos) eventOps i
      = nodeActs (preIds g scope.scopeStreamInfos i)
        ++ (taskOps (ext.customParamsList i) ++ if skMainNodeId
            ∈ ((scope.nodesOn info.streamIdx).drop (ext.customParamsList i).length).map (·.nodeId)
          then .act .skStart :: .act .skFinish :: eventOps else [])
        ++ nodeActs (postIds g scope.scopeStreamInfos i) := by
  have hmem := mem_of_getElem? hinfo
  have hsplit := hok.streamNodes_split hg hmem
  have hsorted := streamNodes_sorted hg info.streamIdx
  rw [hsplit] at hsorted
  have hdisj := pairwise_append.mp hsorted
  have hleft := pairwise_append.mp hdisj.1
  -- outside the scope every node is left alone
  have houter : ∀ l : List SuperKernelBaseNode, (∀ m ∈ l, m ∈ streamNodes g info.streamIdx ∧
      m ∉ scope.nodesOn info.streamIdx) → l.flatMap (nodeOps
        (scopeUpdates scope skMainNodeId ext 0 scope.scopeStreamInfos) eventOps)
      = nodeActs (l.map (·.nodeId)) := by
    intro l hl
    induction l with
    | nil => rfl
    | cons m l ih =>
      rcases hl m (mem_cons_self ..) with ⟨hm, hnot⟩
      rw [flatMap_cons, ih fun m' hm' => hl m' (mem_cons_of_mem _ hm'), nodeOps,
        actionOf_scopeUpdates_of_not_mem hg hok hm hnot]
      rfl
  -- inside it executes the planned action
  have hinner : (scope.nodesOn info.streamIdx).flatMap (nodeOps
        (scopeUpdates scope skMainNodeId ext 0 scope.scopeStreamInfos) eventOps)
      = ((scope.nodesOn info.streamIdx).mapIdx fun p m => actionOps eventOps m.nodeId
          (plannedAction skMainNodeId (ext.customParamsList i) p m)).flatten := by
    rw [flatMap_def]
    congr 1
    apply ext_getElem?
    intro p
    rw [getElem?_map, getElem?_mapIdx]
    cases hp : (scope.nodesOn info.streamIdx)[p]? with
    | none => rfl
    | some m =>
      have hupdate : (m.nodeId, plannedAction skMainNodeId (ext.customParamsList i) p m)
          ∈ scopeUpdates scope skMainNodeId ext 0 scope.scopeStreamInfos := mem_scopeUpdates hinfo hp
      have haction := actionOf_of_mem (scopeUpdates_nodup hok hnodup) hupdate
      rw [map_some, map_some, nodeOps, haction]
  have hpre : preIds g scope.scopeStreamInfos i = (preNodes g info).map (·.nodeId) := by
    rw [preIds, hinfo]
  have hpost : postIds g scope.scopeStreamInfos i = (postNodes g info).map (·.nodeId) := by
    rw [postIds, hinfo]
  rw [scopeProgram, hinfo]
  dsimp only
  rw [hsplit, flatMap_append, flatMap_append, hinner,
    flatten_plannedAction (ScopeOk.nodesOn_nodup hnodup _) hlength, hpre, hpost]
  congr 1
  · congr 1
    apply houter
    intro m hm
    refine ⟨hsplit ▸ mem_append_left _ (mem_append_left _ hm), fun hin => ?_⟩
    exact lt_irrefl _ (hleft.2.2 m hm m hin)
  · apply houter
    intro m hm
    refine ⟨hsplit ▸ mem_append_right _ hm, fun hin => ?_⟩
    exact lt_irrefl _ (hdisj.2.2 m (mem_append_right _ hin) m hm)

omit hnodup in
/-- The nodes before and behind a scope are different. -/
theorem postIds_disjoint (i : ℕ) : ∀ x ∈ postIds g scope.scopeStreamInfos i,
    x ∉ preIds g scope.scopeStreamInfos i := by
  intro x hpost hpre
  unfold postIds at hpost
  unfold preIds at hpre
  cases hinfo : scope.scopeStreamInfos[i]? with
  | none =>
    rw [hinfo] at hpost
    cases hpost
  | some info =>
    rw [hinfo] at hpost hpre
    rcases mem_map.mp hpost with ⟨b, hb, rfl⟩
    rcases mem_map.mp hpre with ⟨a, ha, hid⟩
    have hsplit := hok.streamNodes_split hg (mem_of_getElem? hinfo)
    have hsorted := streamNodes_sorted hg info.streamIdx
    rw [hsplit, append_assoc] at hsorted
    have hlt := (pairwise_append.mp hsorted).2.2 a ha b (mem_append_right _ hb)
    have hmem : ∀ m ∈ preNodes g info ++ scope.nodesOn info.streamIdx ++ postNodes g info,
        m ∈ g.nodes := by
      intro m hm
      rw [← hsplit] at hm
      exact ((mem_streamNodes hg).mp hm).1
    have heq : a = b := hg.eq_of_nodeId (hmem a (by simp [ha])) (hmem b (by simp [hb])) hid
    rw [heq] at hlt
    exact lt_irrefl _ hlt

/-- The streams of a planned scope run the protocol. -/
theorem syncProgram_of_fit {mainStreamIdx : ℕ} {order : List ℕ} {skMainNodeId : NodeId}
    (hplans : collectStreamBoundaryPlans g scope.scopeStreamInfos = some plans)
    (hfit : SlotFit scope plans mainStreamIdx k order) (cell : ℕ → Addr)
    (hinfo : scope.scopeStreamInfos[mainStreamIdx]? = some info)
    (hnode : ((scope.nodesOn info.streamIdx)[k]?).map (·.nodeId) = some skMainNodeId)
    (hext : ext.customParamsList = syncTasks mainStreamIdx (subsOf cell plans 0 order))
    (hevents : eventOps.Perm (((subsOf cell plans 0 order).flatMap (·.eventNodes)).map (·.op)))
    (hcells : ((subsOf cell plans 0 order).flatMap (·.cells)).Nodup) :
    SyncProgram (scopeProgram g scope.scopeStreamInfos
        (scopeUpdates scope skMainNodeId ext 0 scope.scopeStreamInfos) eventOps)
      mainStreamIdx (subsOf cell plans 0 order) (preIds g scope.scopeStreamInfos)
      (postIds g scope.scopeStreamInfos) eventOps := by
  have hlength : ∀ {i info}, scope.scopeStreamInfos[i]? = some info →
      (ext.customParamsList i).length ≤ (scope.nodesOn info.streamIdx).length := by
    intro i info hinfo
    rw [hext, hok.nodesOn_length (mem_of_getElem? hinfo)]
    exact hfit.length_le hok cell hinfo
  have hentry : ∀ s ∈ subsOf cell plans 0 order, ∃ info,
      scope.scopeStreamInfos[s.stream]? = some info := by
    intro s hs
    have hmem := hfit.streams.mem_iff.mp (mem_cons_of_mem _ (mem_subsOf hs).1)
    exact ⟨_, getElem?_eq_getElem (mem_range.mp hmem)⟩
  rcases map_eq_some_iff.mp hnode with ⟨node, hk, hid⟩
  refine ⟨?_, ?_, ?_, hevents, postIds_disjoint hg hok, ?_, ?_, ?_, hcells⟩
  · -- the launch node stands behind the wait of the main stream
    have htasks : ext.customParamsList mainStreamIdx = nextWait (subsOf cell plans 0 order) := by
      rw [hext, syncTasks, if_pos rfl]
    have hlaunch : skMainNodeId ∈ ((scope.nodesOn info.streamIdx).drop
        (ext.customParamsList mainStreamIdx).length).map (·.nodeId) := by
      have hle : (ext.customParamsList mainStreamIdx).length ≤ k := hext ▸ hfit.main_length_le cell
      refine mem_map.mpr ⟨node, mem_iff_getElem?.mpr
        ⟨k - (ext.customParamsList mainStreamIdx).length, ?_⟩, hid⟩
      rw [getElem?_drop, Nat.add_sub_cancel' hle]
      exact hk
    rw [scopeProgram_eq hg hok hnodup hinfo (hlength hinfo), if_pos hlaunch, htasks]
  · -- the launch node stands on another stream
    intro s rest hsuffix
    have hs : s ∈ subsOf cell plans 0 order := hsuffix.subset (mem_cons_self ..)
    rcases hentry s hs with ⟨info', hinfo'⟩
    have hne : s.stream ≠ mainStreamIdx := by
      intro heq
      apply (nodup_cons.mp hfit.nodup).1
      rw [← heq]
      exact (mem_subsOf hs).1
    have htasks : ext.customParamsList s.stream = s.tasks rest := by
      rw [hext, syncTasks, if_neg hne]
      apply subTasks_of_suffix _ hsuffix
      rw [subsOf_stream]
      exact (nodup_cons.mp hfit.nodup).2
    have hlaunch : skMainNodeId ∉ ((scope.nodesOn info'.streamIdx).drop
        (ext.customParamsList s.stream).length).map (·.nodeId) := by
      intro hmem
      rcases mem_map.mp hmem with ⟨node', hnode', hid'⟩
      have hon' := mem_of_mem_drop hnode'
      have hon := mem_of_getElem? hk
      have heq : node' = node := inj_on_of_nodup_map hnodup (mem_of_mem_filter hon')
        (mem_of_mem_filter hon) (hid'.trans hid.symm)
      have hstream : info'.streamIdx = info.streamIdx := by
        have hstream' : node'.streamIdxInGraph = info'.streamIdx := by
          simpa using (mem_filter.mp hon').2
        have hstream : node.streamIdxInGraph = info.streamIdx := by
          simpa using (mem_filter.mp hon).2
        rw [← hstream', heq, hstream]
      apply hne
      have hlt := (List.getElem?_eq_some_iff.mp hinfo').1
      have hget : (scope.scopeStreamInfos.map (·.streamIdx))[s.stream]?
          = (scope.scopeStreamInfos.map (·.streamIdx))[mainStreamIdx]? := by
        rw [getElem?_map, getElem?_map, hinfo', hinfo, map_some, map_some,
          hstream]
      exact (getElem?_inj (by simpa using hlt) hok.infosOf.nodup).mp hget
    rw [scopeProgram_eq hg hok hnodup hinfo' (hlength hinfo'), if_neg hlaunch, append_nil, htasks]
  · intro i hi
    rw [subsOf_stream, hfit.streams.mem_iff, mem_range, not_lt] at hi
    rw [scopeProgram, getElem?_eq_none hi]
  · intro s hs hfront
    rcases hentry s hs with ⟨info', hinfo'⟩
    rcases (mem_subsOf hs).2 with ⟨k, hk⟩
    have hplan : hasFront plans s.stream = false := by
      rw [hk, subOf_front] at hfront
      simpa using hfront
    rw [preIds, hinfo']
    dsimp only
    rw [preNodes_eq_nil_of_plan hg hok hplans hinfo' hplan, map_nil]
  · intro s hs hback
    rcases hentry s hs with ⟨info', hinfo'⟩
    rcases (mem_subsOf hs).2 with ⟨k, hk⟩
    have hplan : hasBack plans s.stream = false := by
      rw [hk, subOf_back] at hback
      simpa using hback
    rw [postIds, hinfo']
    dsimp only
    rw [postNodes_eq_nil_of_plan hg hok hplans hinfo' hplan, map_nil]
  · rw [subsOf_stream]
    exact hfit.nodup

end Planned

/-! ## The scopes of the post processor -/

/-- What the synchronisation of a rewritten scope guarantees. The scope streams are numbered
as in `scopeStreamInfos`, and `prog` gives the program of each of them. -/
structure ScopeSynchronised (g : SuperKernelGraph) (scope : SuperKernelScopeInfo)
    (alloc : ℕ → Option Addr) (sel : MainSelection) (ext : ScopeExtInfo)
    (prog : ℕ → List StreamOp) : Prop where
  startAfterPre : ∀ st, Reachable prog st → FlagOp.act .skStart ∈ st.done sel.mainStreamIdx →
    ∀ i < scope.scopeStreamInfos.length, nodeActs (preIds g scope.scopeStreamInfos i) <+: st.done i
  postAfterFinish : ∀ st, Reachable prog st →
    ∀ i < scope.scopeStreamInfos.length, i ≠ sel.mainStreamIdx →
      ∀ x ∈ postIds g scope.scopeStreamInfos i, FlagOp.act (.node x) ∈ st.done i →
        FlagOp.act .skFinish ∈ st.done sel.mainStreamIdx
  eventuallyPassed : ∀ σ, Behaviour prog σ → Fair prog IsSynthesised σ →
    (∃ n, ∀ i < scope.scopeStreamInfos.length,
      nodeActs (preIds g scope.scopeStreamInfos i) <+: (σ n).done i) →
    ∃ m, AllPassed prog (postIds g scope.scopeStreamInfos)
      (range scope.scopeStreamInfos.length) (σ m)
  cellsCleared : ∀ st, Reachable prog st →
    AllPassed prog (postIds g scope.scopeStreamInfos) (range scope.scopeStreamInfos.length) st →
    ∀ k < ext.allocated, ∀ a ∈ alloc k, st.cells a = 0

/-- The protocol gives the guarantees. -/
theorem SyncProgram.synchronised {prog : ℕ → List StreamOp}
    (hp : SyncProgram prog sel.mainStreamIdx subs (preIds g scope.scopeStreamInfos)
      (postIds g scope.scopeStreamInfos) eventOps)
    (hstreams : (sel.mainStreamIdx :: subs.map (·.stream)).Perm
      (range scope.scopeStreamInfos.length))
    (hcells : ∀ k < ext.allocated, ∀ a ∈ alloc k, ∃ s ∈ subs, a ∈ s.cells) :
    ScopeSynchronised g scope alloc sel ext prog := by
  have hmem : ∀ {i}, i < scope.scopeStreamInfos.length →
      i ∈ sel.mainStreamIdx :: subs.map (·.stream) := by
    intro i hi
    exact hstreams.mem_iff.mpr (mem_range.mpr hi)
  have hlt : ∀ {i}, i ∈ sel.mainStreamIdx :: subs.map (·.stream) →
      i < scope.scopeStreamInfos.length := by
    intro i hi
    exact mem_range.mp (hstreams.mem_iff.mp hi)
  refine ⟨?_, ?_, ?_, ?_⟩
  · intro st hreach hstart i hi
    exact hp.start_after_pre hreach hstart (hmem hi)
  · intro st hreach i hi hne x hx hdone
    rcases mem_map.mp ((mem_cons.mp (hmem hi)).resolve_left hne) with ⟨s, hs, rfl⟩
    exact hp.post_after_finish hreach hs hx hdone
  · rintro σ hσ hfair ⟨n, hpre⟩
    rcases hp.eventually_passed hσ hfair (fun i hi => hpre i (hlt hi)) with ⟨m, _, hpassed⟩
    exact ⟨m, fun i hi => hpassed i (hmem (mem_range.mp hi))⟩
  · intro st hreach hpassed k hk a ha
    rcases hcells k hk a ha with ⟨s, hs, hcell⟩
    refine hp.cells_cleared hreach (fun i hi => ?_) hs hcell
    exact hpassed i (mem_range.mpr (hlt hi))

/-- A scope that `PostProcess` accepts is rewritten by `Update` so that its synthesised
synchronisation is correct, in whichever order the super kernel executes its event nodes. -/
theorem scopeSync_correct (hg : g.WellFormed) (hok : ScopeOk g scope) (hnodup : scope.nodeIds.Nodup)
    (hdefault : ∀ n ∈ scope.nodes, n.nodeType ≠ .nodeDefault)
    (hinj : ∀ j k a, alloc j = some a → alloc k = some a → j = k)
    (hpost : postProcess g alloc scope = .ok (sel, ext)) :
    ∃ updates, update g sel.skMainNodeId ext scope = some updates ∧
      ∀ eventOps : List StreamOp, eventOps.Perm (ext.eventNodes.map (·.op)) →
        ScopeSynchronised g scope alloc sel ext
          (scopeProgram g scope.scopeStreamInfos updates eventOps) := by
  rcases postProcess_ok hpost with ⟨plans, hplans, hsel, hprocess⟩
  rcases getMainAndSubStreamOrder_fits hg hok hnodup hplans hsel with ⟨k, hfit, info, hinfo, hnode⟩
  rcases processSubStreamSyncEvents_eq hfit.nodup hprocess with ⟨hext, hevents, hcount, halloc⟩
  rw [hcount] at halloc
  refine ⟨_, update_eq hg hok hnodup hdefault hfit (cellOf alloc) hinfo hnode hext, ?_⟩
  intro eventOps hperm
  rw [hevents] at hperm
  have hp := syncProgram_of_fit hg hok hnodup hplans hfit (cellOf alloc) hinfo hnode hext hperm
    (subsOf_cells_nodup hinj halloc)
  apply hp.synchronised
  · rw [subsOf_stream]
    exact hfit.streams
  · -- the cells of the sub streams are the allocated ones
    intro j hj a ha
    have hmem : cellOf alloc j
        ∈ (subsOf (cellOf alloc) plans 0 sel.subStreamOrder).flatMap (·.cells) := by
      rw [subsOf_cells]
      refine mem_map.mpr ⟨j, mem_range'_1.mpr ⟨Nat.zero_le _, ?_⟩, rfl⟩
      omega
    have hcell : cellOf alloc j = a := by
      have ha' : alloc j = some a := ha
      rw [cellOf, ha', Option.getD_some]
    rw [hcell] at hmem
    exact mem_flatMap.mp hmem

theorem scopeSync_sample : ∃ sel ext updates, postProcess planGraph some planScope = .ok (sel, ext) ∧
    update planGraph sel.skMainNodeId ext planScope = some updates ∧
      ∀ eventOps : List StreamOp, eventOps.Perm (ext.eventNodes.map (·.op)) →
        ScopeSynchronised planGraph planScope some sel ext
          (scopeProgram planGraph planScope.scopeStreamInfos updates eventOps) := by
  have hisOk : (postProcess planGraph some planScope).isOk = true := by decide
  cases hpost : postProcess planGraph some planScope with
  | error status =>
    rw [hpost] at hisOk
    cases hisOk
  | ok result =>
    rcases result with ⟨sel, ext⟩
    rcases scopeSync_correct planGraph_wellFormed planScope_ok (by decide) (by decide)
      (fun j k a hj hk => Option.some.inj (hj.trans hk.symm)) hpost with ⟨updates, hupdate, hsync⟩
    exact ⟨sel, ext, updates, rfl, hupdate, hsync⟩

end GraphAutofusion.SuperKernel
