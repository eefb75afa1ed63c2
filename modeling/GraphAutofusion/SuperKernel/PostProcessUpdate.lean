import GraphAutofusion.SuperKernel.PostProcessSelect

/-!
# SuperKernel.PostProcessUpdate — what `Update` makes of a planned scope

`Update` walks every stream of the scope, gives the custom tasks to the leading nodes in
order, launches the super kernel at the launch node and disables the other nodes. With the
tasks of a selection that fits it reaches the launch node behind the tasks of its stream.
-/

namespace GraphAutofusion.SuperKernel

open List Option

variable {g : SuperKernelGraph} {scope : SuperKernelScopeInfo} {l : List SuperKernelBaseNode}
  {infos : List ScopeStreamInfo} {skMainNodeId : NodeId} {st : UpdateState} {ext : ScopeExtInfo}

/-- What `Update` makes of the node at a position of a stream with the given custom tasks. -/
def plannedAction (skMainNodeId : NodeId) (tasks : List CustomTask) (p : ℕ)
    (node : SuperKernelBaseNode) : NodeAction :=
  match tasks[p]? with
  | some task => .custom task
  | none => if node.nodeId = skMainNodeId then .launch else .disable

/-- The updates of one stream. -/
def streamUpdates (skMainNodeId : NodeId) (tasks : List CustomTask) (l : List SuperKernelBaseNode) :
    List (NodeId × NodeAction) :=
  l.mapIdx fun p node => (node.nodeId, plannedAction skMainNodeId tasks p node)

/-- The updates of the streams from position `i` on. -/
def scopeUpdates (scope : SuperKernelScopeInfo) (skMainNodeId : NodeId) (ext : ScopeExtInfo) (i : ℕ)
    (infos : List ScopeStreamInfo) : List (NodeId × NodeAction) :=
  (infos.zipIdx i).flatMap fun entry =>
    streamUpdates skMainNodeId (ext.customParamsList entry.2) (scope.nodesOn entry.1.streamIdx)

/-! ## One stream -/

theorem plannedAction_succ (tasks : List CustomTask) (p : ℕ) (node : SuperKernelBaseNode) :
    plannedAction skMainNodeId tasks (p + 1) node = plannedAction skMainNodeId tasks.tail p node := by
  rw [plannedAction, plannedAction, getElem?_tail]

theorem streamUpdates_cons (tasks : List CustomTask) (node : SuperKernelBaseNode)
    (l : List SuperKernelBaseNode) :
    streamUpdates skMainNodeId tasks (node :: l)
      = (node.nodeId, plannedAction skMainNodeId tasks 0 node)
        :: streamUpdates skMainNodeId tasks.tail l := by
  simp only [streamUpdates, mapIdx_cons, plannedAction_succ]

theorem streamUpdates_fst (tasks : List CustomTask) (l : List SuperKernelBaseNode) :
    (streamUpdates skMainNodeId tasks l).map (·.1) = l.map (·.nodeId) := by
  induction l generalizing tasks with
  | nil => rfl
  | cons node l ih => rw [streamUpdates_cons, map_cons, map_cons, ih]

/-- Only the launch node launches. -/
theorem streamUpdates_launch {tasks : List CustomTask} {x : NodeId}
    (h : (x, NodeAction.launch) ∈ streamUpdates skMainNodeId tasks l) : x = skMainNodeId := by
  rcases mem_mapIdx.mp h with ⟨p, hp, heq⟩
  rw [Prod.mk.injEq] at heq
  rcases heq with ⟨rfl, haction⟩
  unfold plannedAction at haction
  split at haction
  · cases haction
  · split at haction
    · next heq => exact heq
    · cases haction

/-- The nodes of a scope that `Update` can rewrite: no default node, and the launch node is a
kernel. -/
structure Updatable (skMainNodeId : NodeId) (l : List SuperKernelBaseNode) : Prop where
  noDefault : ∀ n ∈ l, n.nodeType ≠ .nodeDefault
  launch : ∀ n ∈ l, n.nodeId = skMainNodeId → n.nodeType = .nodeKernel

variable {n : SuperKernelBaseNode}

theorem nodeUpdate_custom (h : n.nodeType ≠ .nodeDefault) (task : CustomTask) :
    nodeUpdate n (.customParams task) = .custom task := by
  unfold nodeUpdate
  split
  · next hdefault => exact absurd hdefault h
  · rfl
  · rfl

theorem nodeUpdate_empty (h : n.nodeType ≠ .nodeDefault) : nodeUpdate n .empty = .disable := by
  unfold nodeUpdate
  split
  · next hdefault => exact absurd hdefault h
  · rfl
  · rfl

theorem nodeUpdate_launch (h : n.nodeType = .nodeKernel) : nodeUpdate n .launchInfo = .launch := by
  rw [nodeUpdate, h]

/-- The state after some updates, which know whether the launch was among them. -/
def UpdateState.extend (st : UpdateState) (updates : List (NodeId × NodeAction)) : UpdateState where
  updates := st.updates ++ updates
  skMainNodeUpdated := st.skMainNodeUpdated || updates.any (·.2 = .launch)

/-- The launch was done only if the launch node was visited. -/
def UpdateState.FlagOk (skMainNodeId : NodeId) (st : UpdateState) : Prop :=
  st.skMainNodeUpdated = true → skMainNodeId ∈ st.updates.map (·.1)

theorem UpdateState.extend_append (st : UpdateState) (u u' : List (NodeId × NodeAction)) :
    (st.extend u).extend u' = st.extend (u ++ u') := by
  simp [extend, append_assoc, Bool.or_assoc]

theorem UpdateState.FlagOk.extend (h : st.FlagOk skMainNodeId) {u : List (NodeId × NodeAction)}
    (hu : ∀ x, (x, NodeAction.launch) ∈ u → x = skMainNodeId) :
    (st.extend u).FlagOk skMainNodeId := by
  intro hflag
  rw [UpdateState.extend, map_append, mem_append]
  rcases Bool.or_eq_true_iff.mp hflag with hflag | hany
  · exact .inl (h hflag)
  · rcases any_eq_true.mp hany with ⟨⟨x, a⟩, hx, ha⟩
    have ha' : a = .launch := by simpa using ha
    subst ha'
    exact .inr (mem_map.mpr ⟨_, hx, hu x hx⟩)

theorem Updatable.of_cons {a : SuperKernelBaseNode} (h : Updatable skMainNodeId (a :: l)) :
    Updatable skMainNodeId l :=
  ⟨fun n hn => h.noDefault n (mem_cons_of_mem _ hn), fun n hn => h.launch n (mem_cons_of_mem _ hn)⟩

/-- One round of the loop of `Update` along a stream. -/
theorem updateStream_step {a : SuperKernelBaseNode} {tail : NodeId} {fuel : ℕ}
    (hnode : g.getNodeById a.nodeId = some a) (hflag : st.FlagOk skMainNodeId)
    (hnew : a.nodeId ∉ st.updates.map (·.1)) (hupdatable : Updatable skMainNodeId (a :: l))
    (tasks : List CustomTask) :
    updateStream g skMainNodeId tail (fuel + 1) (some a.nodeId) tasks st
      = if a.nodeId = tail then
          some (st.extend [(a.nodeId, plannedAction skMainNodeId tasks 0 a)])
        else updateStream g skMainNodeId tail fuel a.nextNodeId tasks.tail
          (st.extend [(a.nodeId, plannedAction skMainNodeId tasks 0 a)]) := by
  have hdefault := hupdatable.noDefault a (mem_cons_self ..)
  conv_lhs => unfold updateStream
  rw [hnode]
  dsimp only
  rw [if_neg hnew]
  cases tasks with
  | cons task tasks =>
    have haction : plannedAction skMainNodeId (task :: tasks) 0 a = .custom task := rfl
    simp [haction, UpdateState.extend, nodeUpdate_custom hdefault]
  | nil =>
    by_cases hmain : a.nodeId = skMainNodeId
    · -- the launch node has not been visited before
      have hnot : st.skMainNodeUpdated = false := by
        by_contra hupdated
        exact hnew (hmain ▸ hflag (Bool.eq_true_of_not_eq_false hupdated))
      have haction : plannedAction skMainNodeId [] 0 a = .launch := if_pos hmain
      have hkernel := hupdatable.launch a (mem_cons_self ..) hmain
      rw [haction]
      simp [hmain, hnot, UpdateState.extend, nodeUpdate_launch hkernel]
    · have haction : plannedAction skMainNodeId [] 0 a = .disable := if_neg hmain
      simp [haction, hmain, UpdateState.extend, nodeUpdate_empty hdefault]

/-- `Update` along a stream of the scope. -/
theorem updateStream_eq (hg : g.WellFormed) {tail : NodeId} {fuel : ℕ} (hl : ChainTo g tail l)
    (hfuel : l.length ≤ fuel) (hflag : st.FlagOk skMainNodeId)
    (hnew : ∀ n ∈ l, n.nodeId ∉ st.updates.map (·.1)) (hupdatable : Updatable skMainNodeId l)
    (tasks : List CustomTask) :
    updateStream g skMainNodeId tail fuel (l.head?.map (·.nodeId)) tasks st
      = some (st.extend (streamUpdates skMainNodeId tasks l)) := by
  induction l generalizing fuel st tasks with
  | nil => simpa using hl.last
  | cons a rest ih =>
    cases fuel with
    | zero => simp at hfuel
    | succ fuel =>
      have hnode := hg.getNodeById_of_mem (hl.mem a (mem_cons_self ..))
      rw [head?_cons, map_some,
        updateStream_step hnode hflag (hnew a (mem_cons_self ..)) hupdatable tasks]
      cases rest with
      | nil =>
        have htail : a.nodeId = tail := by simpa using hl.last
        rw [if_pos htail, streamUpdates_cons]
        rfl
      | cons b rest =>
        rcases hl.of_cons_cons with ⟨hl', hnext, hne⟩
        have hlaunch : ∀ x, (x, NodeAction.launch)
            ∈ [(a.nodeId, plannedAction skMainNodeId tasks 0 a)] → x = skMainNodeId := by
          intro x hx
          have hx' : (x, NodeAction.launch) ∈ streamUpdates skMainNodeId tasks [a] := hx
          exact streamUpdates_launch hx'
        have hnew' : ∀ n ∈ b :: rest, n.nodeId ∉ (st.extend
            [(a.nodeId, plannedAction skMainNodeId tasks 0 a)]).updates.map (·.1) := by
          intro n hn hmem
          rw [UpdateState.extend, map_append, mem_append] at hmem
          rcases hmem with hmem | hmem
          · exact hnew n (mem_cons_of_mem _ hn) hmem
          · have hid : n.nodeId = a.nodeId := by simpa using hmem
            exact (nodup_cons.mp hl.nodup).1 (mem_map.mpr ⟨n, hn, hid⟩)
        have hrest := ih hl' (Nat.le_of_succ_le_succ hfuel) (hflag.extend hlaunch) hnew'
          hupdatable.of_cons tasks.tail
        rw [head?_cons, map_some] at hrest
        rw [if_neg hne, hnext, hrest, UpdateState.extend_append, streamUpdates_cons (l := b :: rest)]
        rfl

/-! ## The streams of a scope -/

theorem scopeUpdates_cons (i : ℕ) (info : ScopeStreamInfo) (infos : List ScopeStreamInfo) :
    scopeUpdates scope skMainNodeId ext i (info :: infos)
      = streamUpdates skMainNodeId (ext.customParamsList i) (scope.nodesOn info.streamIdx)
        ++ scopeUpdates scope skMainNodeId ext (i + 1) infos := by
  rw [scopeUpdates, zipIdx_cons, flatMap_cons, scopeUpdates]

theorem scopeUpdates_fst (i : ℕ) (infos : List ScopeStreamInfo) :
    (scopeUpdates scope skMainNodeId ext i infos).map (·.1)
      = infos.flatMap fun info => (scope.nodesOn info.streamIdx).map (·.nodeId) := by
  induction infos generalizing i with
  | nil => rfl
  | cons info infos ih =>
    rw [scopeUpdates_cons, map_append, flatMap_cons, streamUpdates_fst, ih]

theorem scopeUpdates_launch {i : ℕ} {x : NodeId}
    (h : (x, NodeAction.launch) ∈ scopeUpdates scope skMainNodeId ext i infos) : x = skMainNodeId := by
  rcases mem_flatMap.mp h with ⟨entry, _, hx⟩
  exact streamUpdates_launch hx

/-- Nodes of a scope on different streams differ. -/
theorem nodesOn_disjoint (hnodup : scope.nodeIds.Nodup) {i j : StreamIdx} (hij : i ≠ j)
    {n m : SuperKernelBaseNode} (hn : n ∈ scope.nodesOn i) (hm : m ∈ scope.nodesOn j) :
    n.nodeId ≠ m.nodeId := by
  intro heq
  rcases mem_filter.mp hn with ⟨hn, hni⟩
  rcases mem_filter.mp hm with ⟨hm, hmj⟩
  have hnm : n = m := inj_on_of_nodup_map hnodup hn hm heq
  subst hnm
  have hi : n.streamIdxInGraph = i := by simpa using hni
  have hj : n.streamIdxInGraph = j := by simpa using hmj
  exact hij (hi.symm.trans hj)

/-- The nodes `Update` walks are different. -/
theorem scopeUpdates_nodup (hok : ScopeOk g scope) (hnodup : scope.nodeIds.Nodup) :
    ((scopeUpdates scope skMainNodeId ext 0 scope.scopeStreamInfos).map (·.1)).Nodup := by
  rw [scopeUpdates_fst, nodup_flatMap]
  refine ⟨fun info _ => ScopeOk.nodesOn_nodup hnodup _, ?_⟩
  have hstreams := pairwise_map.mp hok.infosOf.nodup
  refine hstreams.imp fun {info info'} hne => ?_
  intro x hx hx'
  rcases mem_map.mp hx with ⟨n, hn, rfl⟩
  rcases mem_map.mp hx' with ⟨m, hm, heq⟩
  exact nodesOn_disjoint hnodup hne hn hm heq.symm

theorem updateStreams_eq (hg : g.WellFormed) (hok : ScopeOk g scope) (hnodup : scope.nodeIds.Nodup)
    (hupdatable : Updatable skMainNodeId scope.nodes) {i : ℕ}
    (hinfos : ∀ info ∈ infos, info ∈ scope.scopeStreamInfos)
    (hstreams : (infos.map (·.streamIdx)).Nodup)
    (hsize : ∀ entry ∈ infos.zipIdx i, (ext.customParamsList entry.2).length ≤ entry.1.nodeSize)
    (hflag : st.FlagOk skMainNodeId)
    (hnew : ∀ info ∈ infos, ∀ n ∈ scope.nodesOn info.streamIdx, n.nodeId ∉ st.updates.map (·.1)) :
    updateStreams g skMainNodeId ext i infos st
      = some (st.extend (scopeUpdates scope skMainNodeId ext i infos)) := by
  induction infos generalizing i st with
  | nil =>
    have hnil : scopeUpdates scope skMainNodeId ext i [] = [] := rfl
    rw [hnil]
    simp [updateStreams, UpdateState.extend]
  | cons info infos ih =>
    have hinfo := hinfos info (mem_cons_self ..)
    rcases nodup_cons.mp hstreams with ⟨hstream, hstreams'⟩
    have hsize' := hsize (info, i) (by rw [zipIdx_cons]; exact mem_cons_self ..)
    have hupd : Updatable skMainNodeId (scope.nodesOn info.streamIdx) :=
      ⟨fun n hn => hupdatable.noDefault n (mem_of_mem_filter hn),
        fun n hn => hupdatable.launch n (mem_of_mem_filter hn)⟩
    have hwalk := updateStream_eq hg (hok.chainTo hnodup hinfo) (hok.nodesOn_length_le hnodup _) hflag
      (hnew info (mem_cons_self ..)) hupd (ext.customParamsList i)
    have hhead : (scope.nodesOn info.streamIdx).head?.map (·.nodeId) = some info.headNodeIdx :=
      (hok.infosOf.summary info hinfo).head
    rw [hhead] at hwalk
    rw [updateStreams, if_neg (not_lt.mpr hsize'), hwalk, scopeUpdates_cons]
    dsimp only
    rw [ih (fun info hmem => hinfos info (mem_cons_of_mem _ hmem)) hstreams', UpdateState.extend_append]
    · intro entry hentry
      apply hsize
      rw [zipIdx_cons]
      exact mem_cons_of_mem _ hentry
    · exact hflag.extend fun x hx => streamUpdates_launch hx
    · intro other hother n hn hmem
      rw [UpdateState.extend, map_append, mem_append, streamUpdates_fst] at hmem
      rcases hmem with hmem | hmem
      · exact hnew other (mem_cons_of_mem _ hother) n hn hmem
      · rcases mem_map.mp hmem with ⟨m, hm, heq⟩
        have hne : info.streamIdx ≠ other.streamIdx :=
          fun heq => hstream (mem_map.mpr ⟨other, hother, heq.symm⟩)
        exact nodesOn_disjoint hnodup hne hm hn heq

/-! ## Planning and updating -/

section Planned

variable {plans : List StreamPostPlan} {order : List ℕ} {mainStreamIdx k : ℕ} {info : ScopeStreamInfo}

/-- In every stream of a fitting choice there is room for the custom tasks. -/
theorem SlotFit.length_le (hok : ScopeOk g scope) (hfit : SlotFit scope plans mainStreamIdx k order)
    (cell : ℕ → Addr) {i : ℕ} (hinfo : scope.scopeStreamInfos[i]? = some info) :
    (syncTasks mainStreamIdx (subsOf cell plans 0 order) i).length ≤ info.nodeSize := by
  have hi : i ∈ mainStreamIdx :: order :=
    hfit.streams.mem_iff.mpr (mem_range.mpr (List.getElem?_eq_some_iff.mp hinfo).1)
  rw [syncTasks_length_cell cell id hfit.nodup hi, ← hok.nodesOn_length (mem_of_getElem? hinfo)]
  rcases mem_cons.mp hi with rfl | hi
  · rcases hfit.kernel with ⟨info', hinfo', node, hnode, _⟩
    have heq : info' = info := some.inj (hinfo'.symm.trans hinfo)
    subst heq
    exact hfit.mainTasks.trans (List.getElem?_eq_some_iff.mp hnode).1.le
  · exact hfit.subTasks i hi info hinfo

/-- The tasks of the main stream come before the launch node. -/
theorem SlotFit.main_length_le (hfit : SlotFit scope plans mainStreamIdx k order) (cell : ℕ → Addr) :
    (syncTasks mainStreamIdx (subsOf cell plans 0 order) mainStreamIdx).length ≤ k := by
  rw [syncTasks_length_cell cell id hfit.nodup (mem_cons_self ..)]
  exact hfit.mainTasks

variable {node : SuperKernelBaseNode}

theorem mem_scopeUpdates {i p : ℕ} (hinfo : scope.scopeStreamInfos[i]? = some info)
    (hnode : (scope.nodesOn info.streamIdx)[p]? = some node) :
    (node.nodeId, plannedAction skMainNodeId (ext.customParamsList i) p node)
      ∈ scopeUpdates scope skMainNodeId ext 0 scope.scopeStreamInfos := by
  have hentry : (info, i) ∈ scope.scopeStreamInfos.zipIdx := by
    rw [mem_iff_getElem?]
    exact ⟨i, by rw [getElem?_zipIdx, hinfo, map_some, zero_add]⟩
  refine mem_flatMap.mpr ⟨(info, i), hentry, ?_⟩
  rcases List.getElem?_eq_some_iff.mp hnode with ⟨hp, rfl⟩
  exact mem_mapIdx.mpr ⟨p, hp, rfl⟩

/-- The launch node is launched when it lies behind the tasks of its stream. -/
theorem launch_mem_scopeUpdates {i : ℕ} (hinfo : scope.scopeStreamInfos[i]? = some info)
    (hnode : ((scope.nodesOn info.streamIdx)[k]?).map (·.nodeId) = some skMainNodeId)
    (hlength : (ext.customParamsList i).length ≤ k) :
    (skMainNodeId, NodeAction.launch) ∈ scopeUpdates scope skMainNodeId ext 0 scope.scopeStreamInfos := by
  rcases map_eq_some_iff.mp hnode with ⟨node, hk, rfl⟩
  have hnone : (ext.customParamsList i)[k]? = none := getElem?_eq_none hlength
  have haction : plannedAction node.nodeId (ext.customParamsList i) k node = .launch := by
    rw [plannedAction, hnone]
    exact if_pos rfl
  rw [← haction]
  exact mem_scopeUpdates hinfo hk

/-- The launch happens once. -/
theorem scopeUpdates_filter_launch (hok : ScopeOk g scope) (hnodup : scope.nodeIds.Nodup)
    (hmem : (skMainNodeId, NodeAction.launch)
      ∈ scopeUpdates scope skMainNodeId ext 0 scope.scopeStreamInfos) :
    (scopeUpdates scope skMainNodeId ext 0 scope.scopeStreamInfos).filter (·.2 = .launch)
      = [(skMainNodeId, .launch)] := by
  have hupdates : ((scopeUpdates scope skMainNodeId ext 0 scope.scopeStreamInfos).map (·.1)).Nodup :=
    scopeUpdates_nodup hok hnodup
  apply perm_singleton.mp
  rw [perm_ext_iff_of_nodup (hupdates.of_map.filter _) (nodup_singleton _)]
  rintro ⟨x, a⟩
  rw [mem_filter, mem_singleton, decide_eq_true_eq]
  constructor
  · rintro ⟨hx, rfl⟩
    rw [scopeUpdates_launch hx]
  · rintro ⟨⟩
    exact ⟨hmem, rfl⟩

/-- `Update` succeeds on the custom tasks of a fitting choice. -/
theorem update_eq (hg : g.WellFormed) (hok : ScopeOk g scope) (hnodup : scope.nodeIds.Nodup)
    (hdefault : ∀ n ∈ scope.nodes, n.nodeType ≠ .nodeDefault)
    (hfit : SlotFit scope plans mainStreamIdx k order) (cell : ℕ → Addr)
    (hinfo : scope.scopeStreamInfos[mainStreamIdx]? = some info)
    (hnode : ((scope.nodesOn info.streamIdx)[k]?).map (·.nodeId) = some skMainNodeId)
    (hext : ext.customParamsList = syncTasks mainStreamIdx (subsOf cell plans 0 order)) :
    update g skMainNodeId ext scope
      = some (scopeUpdates scope skMainNodeId ext 0 scope.scopeStreamInfos) := by
  have hlaunch : (skMainNodeId, NodeAction.launch)
      ∈ scopeUpdates scope skMainNodeId ext 0 scope.scopeStreamInfos :=
    launch_mem_scopeUpdates hinfo hnode (hext ▸ hfit.main_length_le cell)
  have hupdatable : Updatable skMainNodeId scope.nodes := by
    refine ⟨hdefault, fun n hn hid => ?_⟩
    rcases hfit.kernel with ⟨info', hinfo', node, hk, hkernel⟩
    have heq : info' = info := some.inj (hinfo'.symm.trans hinfo)
    subst heq
    have hk' : (scope.nodesOn info'.streamIdx)[k]? = some node := hk
    rw [hk', map_some, some.injEq] at hnode
    have hmem : node ∈ scope.nodes := mem_of_mem_filter (mem_of_getElem? hk')
    have hnode' : n = node := inj_on_of_nodup_map hnodup hn hmem (hid.trans hnode.symm)
    rw [hnode']
    exact hkernel
  have hwalk : updateStreams g skMainNodeId ext 0 scope.scopeStreamInfos {}
      = some (UpdateState.extend {} (scopeUpdates scope skMainNodeId ext 0 scope.scopeStreamInfos)) := by
    apply updateStreams_eq hg hok hnodup hupdatable (fun _ h => h) hok.infosOf.nodup
    · rintro ⟨info, i⟩ hentry
      have hi := (mem_zipIdx' hentry)
      rw [hext]
      exact hfit.length_le hok cell (List.getElem?_eq_some_iff.mpr ⟨hi.1, hi.2.symm⟩)
    · intro hflag
      cases hflag
    · intro _ _ _ _ hmem
      cases hmem
  have hflag : (scopeUpdates scope skMainNodeId ext 0 scope.scopeStreamInfos).any (·.2 = .launch)
      = true :=
    any_eq_true.mpr ⟨_, hlaunch, by simp⟩
  rw [update, hwalk]
  simp [UpdateState.extend, hflag]

end Planned

/-- Every stream of a valid scope has a plan. -/
theorem collectStreamBoundaryPlans_isSome (hg : g.WellFormed) (hok : ScopeOk g scope)
    (hinfos : ∀ info ∈ infos, info ∈ scope.scopeStreamInfos) :
    ∃ plans, collectStreamBoundaryPlans g infos = some plans := by
  induction infos with
  | nil => exact ⟨[], rfl⟩
  | cons info infos ih =>
    rcases ih fun info h => hinfos info (mem_cons_of_mem _ h) with ⟨plans, hplans⟩
    have hsum := hok.infosOf.summary info (hinfos info (mem_cons_self ..))
    rcases map_eq_some_iff.mp hsum.head with ⟨a, ha, hheadId⟩
    rcases map_eq_some_iff.mp hsum.tail with ⟨b, hb, htailId⟩
    have hhead := hg.getNodeById_of_mem (hok.nodesOn_mem a (mem_of_head? ha))
    have htail := hg.getNodeById_of_mem (hok.nodesOn_mem b (mem_of_getLast? hb))
    rw [hheadId] at hhead
    rw [htailId] at htail
    exact ⟨_, by rw [collectStreamBoundaryPlans, streamBoundaryPlan, hhead, htail, hplans]⟩

/-- The scope is rewritten as planned: every custom task of a stream replaces the node at its
position, and the launch node comes behind the tasks of its stream and is the only launch. -/
structure UpdatedAsPlanned (scope : SuperKernelScopeInfo) (sel : MainSelection) (ext : ScopeExtInfo)
    (updates : List (NodeId × NodeAction)) : Prop where
  distinct : (updates.map (·.1)).Nodup
  tasks : ∀ i p : ℕ, ∀ info ∈ scope.scopeStreamInfos[i]?, ∀ task ∈ (ext.customParamsList i)[p]?,
    ∃ node : SuperKernelBaseNode, (scope.nodesOn info.streamIdx)[p]? = some node ∧
      (node.nodeId, NodeAction.custom task) ∈ updates
  launchPos : ∃ info ∈ scope.scopeStreamInfos[sel.mainStreamIdx]?, ∃ k,
    ((scope.nodesOn info.streamIdx)[k]?).map (·.nodeId) = some sel.skMainNodeId ∧
      (ext.customParamsList sel.mainStreamIdx).length ≤ k
  launchOnce : updates.filter (·.2 = .launch) = [(sel.skMainNodeId, .launch)]

/-- The slot planning of `PostProcess` agrees with `Update`: for a selection the custom tasks
can be built and the scope is rewritten as planned, and when there is no selection then no
choice of main stream, launch node and order fits. -/
theorem slotPlanning_sound_complete (hg : g.WellFormed) (hok : ScopeOk g scope)
    (hnodup : scope.nodeIds.Nodup) (hdefault : ∀ n ∈ scope.nodes, n.nodeType ≠ .nodeDefault) :
    ∃ plans, collectStreamBoundaryPlans g scope.scopeStreamInfos = some plans ∧
      (∀ sel alloc, getMainAndSubStreamOrder g scope.scopeStreamInfos plans = .ok sel →
        (∀ k, (alloc k).isSome) →
        ∃ ext updates,
          processSubStreamSyncEvents alloc scope.scopeStreamInfos plans sel = some ext ∧
          update g sel.skMainNodeId ext scope = some updates ∧
          UpdatedAsPlanned scope sel ext updates) ∧
      (∀ status, getMainAndSubStreamOrder g scope.scopeStreamInfos plans = .error status →
        ∀ mainStreamIdx k order, ¬ SlotFit scope plans mainStreamIdx k order) := by
  rcases collectStreamBoundaryPlans_isSome hg hok (fun _ h => h) with ⟨plans, hplans⟩
  refine ⟨plans, hplans, ?_, ?_⟩
  · intro sel alloc hsel halloc
    rcases getMainAndSubStreamOrder_fits hg hok hnodup hplans hsel with
      ⟨k, hfit, info, hinfo, hnode⟩
    have hcap : ∀ i ∈ sel.mainStreamIdx :: sel.subStreamOrder, ∃ info,
        scope.scopeStreamInfos[i]? = some info ∧ (syncTasks sel.mainStreamIdx
          (subsOf (cellOf alloc) plans 0 sel.subStreamOrder) i).length ≤ info.nodeSize := by
      intro i hi
      have hlt := mem_range.mp (hfit.streams.mem_iff.mp hi)
      exact ⟨_, getElem?_eq_getElem hlt,
        hfit.length_le hok _ (getElem?_eq_getElem hlt)⟩
    rcases processSubStreamSyncEvents_some halloc hfit.nodup hcap with ⟨ext, hprocess⟩
    have hext := (processSubStreamSyncEvents_eq hfit.nodup hprocess).1
    refine ⟨ext, _, hprocess, update_eq hg hok hnodup hdefault hfit (cellOf alloc) hinfo hnode hext, ?_⟩
    have hmain : (ext.customParamsList sel.mainStreamIdx).length ≤ k :=
      hext ▸ hfit.main_length_le _
    refine ⟨scopeUpdates_nodup hok hnodup, ?_, ⟨info, hinfo, k, hnode, hmain⟩,
      scopeUpdates_filter_launch hok hnodup (launch_mem_scopeUpdates hinfo hnode hmain)⟩
    intro i p info hinfo task htask
    have htask' : (ext.customParamsList i)[p]? = some task := htask
    have hp : p < (scope.nodesOn info.streamIdx).length := by
      have hlt := (List.getElem?_eq_some_iff.mp htask').1
      rw [hok.nodesOn_length (mem_of_getElem? hinfo)]
      exact hlt.trans_le (hext ▸ hfit.length_le hok (cellOf alloc) hinfo)
    refine ⟨_, getElem?_eq_getElem hp, ?_⟩
    have haction : plannedAction sel.skMainNodeId (ext.customParamsList i) p
        (scope.nodesOn info.streamIdx)[p] = .custom task := by rw [plannedAction, htask']
    rw [← haction]
    exact mem_scopeUpdates hinfo (getElem?_eq_getElem hp)
  · intro status herror mainStreamIdx k order hfit
    rcases getMainAndSubStreamOrder_complete hg hok hnodup hplans hfit with ⟨sel, hsel⟩
    rw [herror] at hsel
    cases hsel

/-- A kernel of the sample graph. -/
def planKernel (nodeId streamIdx idx : ℕ) (pre next : Option NodeId) : SuperKernelBaseNode :=
  { nodeId, streamIdxInGraph := streamIdx, nodeIdxInStream := idx, preNodeId := pre,
    nextNodeId := next, nodeType := .nodeKernel, isFusible := true }

/-- Two streams of kernels. The scope is the middle of both. -/
def planGraph : SuperKernelGraph where
  nodes :=
    [planKernel 0 0 0 none (some 1), planKernel 1 0 1 (some 0) (some 2),
     planKernel 2 0 2 (some 1) (some 3), planKernel 3 0 3 (some 2) none,
     planKernel 4 1 0 none (some 5), planKernel 5 1 1 (some 4) (some 6),
     planKernel 6 1 2 (some 5) (some 7), planKernel 7 1 3 (some 6) (some 8),
     planKernel 8 1 4 (some 7) none]
  eventToNodes := []
  headNodes := [0, 4]
  streamNum := 2

theorem planGraph_wellFormed : planGraph.WellFormed := by
  constructor <;> decide

def planScope : SuperKernelScopeInfo :=
  rebuildStreamInfos
    { nodes := planGraph.nodes.filter fun n => n.preNodeId.isSome && n.nextNodeId.isSome }

theorem planScope_mem : ∀ n ∈ planScope.nodes, n ∈ planGraph.nodes := by
  intro n hn
  have hn' : n ∈ planGraph.nodes.filter fun n => n.preNodeId.isSome && n.nextNodeId.isSome := hn
  exact mem_of_mem_filter hn'

theorem planScope_ok : ScopeOk planGraph planScope := by
  refine ⟨planScope_mem, by decide, rfl, fun i => ?_⟩
  rcases i with _ | _ | i
  · decide
  · decide
  · have hnone : planScope.nodesOn (i + 2) = [] := by
      refine filter_eq_nil_iff.mpr fun n hn => ?_
      have hlt : n.streamIdxInGraph < 2 :=
        planGraph_wellFormed.stream_lt n (planScope_mem n hn)
      intro heq
      have heq' : n.streamIdxInGraph = i + 2 := by simpa using heq
      rw [heq'] at hlt
      exact absurd hlt (by simp)
    rw [hnone]
    exact isChain_nil

theorem slotPlanning_sample : ∃ plans sel ext updates,
    collectStreamBoundaryPlans planGraph planScope.scopeStreamInfos = some plans ∧
      getMainAndSubStreamOrder planGraph planScope.scopeStreamInfos plans = .ok sel ∧
      processSubStreamSyncEvents some planScope.scopeStreamInfos plans sel = some ext ∧
      update planGraph sel.skMainNodeId ext planScope = some updates ∧
      UpdatedAsPlanned planScope sel ext updates := by
  rcases slotPlanning_sound_complete planGraph_wellFormed planScope_ok (by decide) (by decide) with
    ⟨plans, hplans, hsound, _⟩
  have hsel : (collectStreamBoundaryPlans planGraph planScope.scopeStreamInfos).map
      (fun plans => getMainAndSubStreamOrder planGraph planScope.scopeStreamInfos plans)
        = some (.ok ⟨2, 0, [1]⟩) := by decide
  rw [hplans, Option.map_some, Option.some.injEq] at hsel
  rcases hsound _ some hsel (fun _ => rfl) with ⟨ext, updates, hprocess, hupdate, hplanned⟩
  exact ⟨plans, _, ext, updates, hplans, hsel, hprocess, hupdate, hplanned⟩

end GraphAutofusion.SuperKernel
