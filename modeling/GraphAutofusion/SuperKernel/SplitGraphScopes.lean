import GraphAutofusion.SuperKernel.InitialSplitRun
import GraphAutofusion.SuperKernel.ScopeStreams
import GraphAutofusion.SuperKernel.SplitGraph

/-!
# SuperKernel.SplitGraphScopes — every pass keeps the scopes valid

The scope list is valid when every scope is and no node lies in two of them. The
initial split establishes this, and every later pass only cuts scopes into pieces,
drops the WAIT at a cut, removes whole streams or clears the list, so it still holds when
`SplitGraph` returns.
-/

namespace GraphAutofusion.SuperKernel

open Lib SuperKernelGraph List

variable {g : SuperKernelGraph} {scope : SuperKernelScopeInfo}
  {scopes out : List SuperKernelScopeInfo}

/-! ## Marking nodes keeps the graph well formed -/

section Marks

def setFusibleIn (ids : List NodeId) (fusible : Bool) (n : SuperKernelBaseNode) :
    SuperKernelBaseNode :=
  if n.nodeId ∈ ids then { n with isFusible := fusible } else n

variable (ids : List NodeId) (fusible : Bool) (n : SuperKernelBaseNode)

@[simp] theorem setFusibleIn_nodeId : (setFusibleIn ids fusible n).nodeId = n.nodeId := by
  unfold setFusibleIn
  split <;> rfl

@[simp] theorem setFusibleIn_stream :
    (setFusibleIn ids fusible n).streamIdxInGraph = n.streamIdxInGraph := by
  unfold setFusibleIn
  split <;> rfl

@[simp] theorem setFusibleIn_idx :
    (setFusibleIn ids fusible n).nodeIdxInStream = n.nodeIdxInStream := by
  unfold setFusibleIn
  split <;> rfl

@[simp] theorem setFusibleIn_pre : (setFusibleIn ids fusible n).preNodeId = n.preNodeId := by
  unfold setFusibleIn
  split <;> rfl

@[simp] theorem setFusibleIn_next : (setFusibleIn ids fusible n).nextNodeId = n.nextNodeId := by
  unfold setFusibleIn
  split <;> rfl

@[simp] theorem setFusibleIn_type : (setFusibleIn ids fusible n).nodeType = n.nodeType := by
  unfold setFusibleIn
  split <;> rfl

@[simp] theorem setFusibleIn_sync : (setFusibleIn ids fusible n).syncInfos = n.syncInfos := by
  unfold setFusibleIn
  split <;> rfl

@[simp] theorem setIsFusible_streamNum : (g.setIsFusible ids fusible).streamNum = g.streamNum := rfl

@[simp] theorem setIsFusible_headNodes : (g.setIsFusible ids fusible).headNodes = g.headNodes := rfl

@[simp] theorem getEventInfo_setIsFusible (e : EventId) :
    (g.setIsFusible ids fusible).getEventInfo e = g.getEventInfo e := rfl

theorem getNodeById_setIsFusible (i : NodeId) : (g.setIsFusible ids fusible).getNodeById i
    = (g.getNodeById i).map (setFusibleIn ids fusible) := by
  have heq : (fun x : SuperKernelBaseNode => x.nodeId == i) ∘ setFusibleIn ids fusible
      = fun x => x.nodeId == i := by
    funext x
    simp
  show (g.nodes.map (setFusibleIn ids fusible)).find? _ = _
  rw [find?_map, heq]
  rfl

theorem mem_setIsFusible {x : SuperKernelBaseNode} : x ∈ (g.setIsFusible ids fusible).nodes ↔
    ∃ y ∈ g.nodes, setFusibleIn ids fusible y = x :=
  mem_map

/-- A statement about the nodes that only reads what marks leave alone carries over. -/
theorem forall_setIsFusible {P : SuperKernelBaseNode → Prop}
    (h : ∀ x ∈ g.nodes, P (setFusibleIn ids fusible x)) :
    ∀ x ∈ (g.setIsFusible ids fusible).nodes, P x := by
  intro x hx
  rcases (mem_setIsFusible ids fusible).mp hx with ⟨y, hy, rfl⟩
  exact h y hy

theorem exists_setIsFusible {P : SuperKernelBaseNode → Prop}
    (h : ∃ x ∈ g.nodes, P (setFusibleIn ids fusible x)) :
    ∃ x ∈ (g.setIsFusible ids fusible).nodes, P x := by
  rcases h with ⟨x, hx, hP⟩
  exact ⟨_, (mem_setIsFusible ids fusible).mpr ⟨x, hx, rfl⟩, hP⟩

theorem SuperKernelGraph.WellFormed.setIsFusible (hg : g.WellFormed) :
    (g.setIsFusible ids fusible).WellFormed where
  nodup := by
    have heq : (g.setIsFusible ids fusible).nodes.map (·.nodeId) = g.nodes.map (·.nodeId) := by
      show (g.nodes.map (setFusibleIn ids fusible)).map (·.nodeId) = _
      rw [map_map]
      exact map_congr_left fun x _ => setFusibleIn_nodeId ids fusible x
    exact heq ▸ hg.nodup
  stream_lt := forall_setIsFusible _ _ fun x hx => by
    simpa using hg.stream_lt x hx
  next := forall_setIsFusible _ _ fun x hx y hy =>
    exists_setIsFusible _ _ (by simpa using hg.next x hx y (by simpa using hy))
  pre := forall_setIsFusible _ _ fun x hx y hy =>
    exists_setIsFusible _ _ (by simpa using hg.pre x hx y (by simpa using hy))
  pre_none := forall_setIsFusible _ _ fun x hx hpre => by
    simpa using hg.pre_none x hx (by simpa using hpre)
  heads := fun h hh => exists_setIsFusible _ _ (by simpa using hg.heads h hh)
  heads_sorted := by
    have heq : g.headNodes.filterMap (g.setIsFusible ids fusible).getNodeById
        = (g.headNodes.filterMap g.getNodeById).map (setFusibleIn ids fusible) := by
      rw [map_filterMap]
      exact filterMap_congr fun i _ => getNodeById_setIsFusible ids fusible i
    show (g.headNodes.filterMap (g.setIsFusible ids fusible).getNodeById).Pairwise _
    rw [heq, pairwise_map]
    simpa using hg.heads_sorted
  no_memory := forall_setIsFusible _ _ fun x hx => by
    simpa using hg.no_memory x hx
  notify_info := forall_setIsFusible _ _ fun x hx htype => by
    simpa using hg.notify_info x hx (by simpa using htype)
  wait_info := forall_setIsFusible _ _ fun x hx htype => by
    simpa using hg.wait_info x hx (by simpa using htype)
  reset_info := forall_setIsFusible _ _ fun x hx htype => by
    simpa using hg.reset_info x hx (by simpa using htype)
  event_notify := fun e he n hn =>
    exists_setIsFusible _ _ (by simpa using hg.event_notify e he n hn)
  event_wait := fun e he w hw => exists_setIsFusible _ _ (by simpa using hg.event_wait e he w hw)
  event_wait_nodup := hg.event_wait_nodup

end Marks

/-! ## Cutting a scope -/

/-- Valid scopes that hold the given ids, in this order, or some of them. -/
structure PiecesOf (g : SuperKernelGraph) (ids : List NodeId) (out : List SuperKernelScopeInfo) :
    Prop where
  valid : ∀ scope ∈ out, ScopeOk g scope
  sublist : (out.flatMap (·.nodeIds)).Sublist ids

/-- The invariant of the scope list. -/
structure ScopesOk (g : SuperKernelGraph) (scopes : List SuperKernelScopeInfo) : Prop where
  valid : ∀ scope ∈ scopes, ScopeOk g scope
  nodup : (scopes.flatMap (·.nodeIds)).Nodup

namespace PiecesOf

variable {ids ids' : List NodeId} {out' : List SuperKernelScopeInfo}

theorem nil : PiecesOf g ids [] := ⟨by simp, by simp⟩

theorem single (hok : ScopeOk g scope) : PiecesOf g scope.nodeIds [scope] := by
  constructor
  · intro s hs
    have heq : s = scope := by simpa using hs
    exact heq ▸ hok
  · simp

theorem append (h : PiecesOf g ids out) (h' : PiecesOf g ids' out') :
    PiecesOf g (ids ++ ids') (out ++ out') := by
  constructor
  · intro s hs
    rcases mem_append.mp hs with hs | hs
    · exact h.valid s hs
    · exact h'.valid s hs
  · rw [flatMap_append]
    exact h.sublist.append h'.sublist

theorem mono (h : PiecesOf g ids out) (hsub : ids.Sublist ids') : PiecesOf g ids' out :=
  ⟨h.valid, h.sublist.trans hsub⟩

/-- A scope is left out when it is empty. -/
theorem single_if (hok : ScopeOk g scope) (b : Bool) :
    PiecesOf g scope.nodeIds (if b then [] else [scope]) := by
  cases b
  · exact single hok
  · exact nil

end PiecesOf

theorem PiecesOf.scopesOk {ids : List NodeId} (h : PiecesOf g ids out) (hnodup : ids.Nodup) :
    ScopesOk g out :=
  ⟨h.valid, hnodup.sublist h.sublist⟩

variable {l : List SuperKernelBaseNode}

/-- A contiguous part of a valid scope is a valid scope. -/
theorem ScopeOk.of_isInfix (hok : ScopeOk g scope)
    (hl : l <:+: scope.nodes) (flags : ScopeBitFlags) :
    ScopeOk g (rebuildStreamInfos { nodes := l, scopeBitFlags := flags }) where
  mem := fun n hn => hok.mem n (hl.sublist.subset hn)
  fusible := fun n hn => hok.fusible n (hl.sublist.subset hn)
  infos := rfl
  chain := fun i => List.IsChain.infix (hok.chain i) (hl.filter _)

variable {fuel : ℕ}

theorem splitScopeAtNode_spec (hok : ScopeOk g scope) (splitNode : SuperKernelBaseNode) :
    ScopeOk g (splitScopeAtNode scope splitNode).1 ∧ ScopeOk g (splitScopeAtNode scope splitNode).2 ∧
      (splitScopeAtNode scope splitNode).1.nodeIds ++ (splitScopeAtNode scope splitNode).2.nodeIds
        = scope.nodeIds := by
  refine ⟨hok.of_isInfix (List.takeWhile_prefix _).isInfix _,
    hok.of_isInfix (dropWhile_suffix _).isInfix _, ?_⟩
  show (scope.nodes.takeWhile _).map _ ++ (scope.nodes.dropWhile _).map _ = scope.nodes.map _
  rw [← map_append, takeWhile_append_dropWhile]

theorem scheModeSplitScope_spec (hok : ScopeOk g scope)
    (hrun : scheModeSplitScope fuel scope = some out) : PiecesOf g scope.nodeIds out := by
  induction fuel generalizing scope out with
  | zero => simp [scheModeSplitScope] at hrun
  | succ fuel ih =>
    unfold scheModeSplitScope at hrun
    split at hrun
    · exact Option.some.inj hrun ▸ PiecesOf.nil
    · split at hrun
      · exact Option.some.inj hrun ▸ PiecesOf.single hok
      · next node _ =>
        rcases splitScopeAtNode_spec hok node with ⟨hbefore, hafter, hids⟩
        have hout := PiecesOf.single_if hbefore (splitScopeAtNode scope node).1.nodes.isEmpty
        dsimp only at hrun
        split at hrun
        · refine Option.some.inj hrun ▸ hout.mono ?_
          exact hids ▸ sublist_append_left ..
        · rcases Option.map_eq_some_iff.mp hrun with ⟨rest, hrest, rfl⟩
          exact hids ▸ hout.append (ih hafter hrest)

theorem scheModeKernelSplitPass_spec (hok : ∀ scope ∈ scopes, ScopeOk g scope)
    (hrun : scheModeKernelSplitPass fuel scopes = some out) :
    PiecesOf g (scopes.flatMap (·.nodeIds)) out := by
  induction scopes generalizing out with
  | nil => exact Option.some.inj hrun ▸ PiecesOf.nil
  | cons scope rest ih =>
    unfold scheModeKernelSplitPass at hrun
    split at hrun
    · next out₁ out₂ hfirst hrest =>
      have hscope := scheModeSplitScope_spec (hok scope (mem_cons_self ..)) hfirst
      have hpieces := ih (fun s hs => hok s (mem_cons_of_mem _ hs)) hrest
      rw [flatMap_cons]
      exact Option.some.inj hrun ▸ hscope.append hpieces
    · cases hrun

/-! ## Deadlock refinement -/

/-- Behind the first node with an id, the id does not occur again. -/
theorem filter_dropWhile {i : NodeId} (hnodup : (l.map (·.nodeId)).Nodup) :
    (l.dropWhile (·.nodeId ≠ i)).filter (·.nodeId ≠ i) = (l.dropWhile (·.nodeId ≠ i)).tail := by
  cases hdrop : l.dropWhile (·.nodeId ≠ i) with
  | nil => rfl
  | cons a rest =>
    have hsuffix : a :: rest <:+ l := hdrop ▸ dropWhile_suffix _
    have hnodup' : ((a :: rest).map (·.nodeId)).Nodup := hnodup.sublist (hsuffix.sublist.map _)
    have ha : a.nodeId = i := by
      have hhead := head?_dropWhile_not (·.nodeId ≠ i) l
      rw [hdrop] at hhead
      simpa using hhead
    have hrest : ∀ b ∈ rest, b.nodeId ≠ i := by
      intro b hb heq
      have hnot := (nodup_cons.mp hnodup').1
      exact hnot (mem_map.mpr ⟨b, hb, heq.trans ha.symm⟩)
    rw [filter_cons_of_neg (by simpa using ha), tail_cons]
    exact filter_eq_self.mpr fun b hb => by simpa using hrest b hb

theorem splitScopeAtWaitNode_spec (hok : ScopeOk g scope) (hnodup : scope.nodeIds.Nodup)
    (waitNode : SuperKernelBaseNode) :
    ScopeOk g (splitScopeAtWaitNode scope waitNode).1 ∧
    ScopeOk g (splitScopeAtWaitNode scope waitNode).2 ∧
      ((splitScopeAtWaitNode scope waitNode).1.nodeIds ++
        (splitScopeAtWaitNode scope waitNode).2.nodeIds).Sublist scope.nodeIds := by
  have htail : (scope.nodes.dropWhile (·.nodeId ≠ waitNode.nodeId)).filter
      (·.nodeId ≠ waitNode.nodeId) <:+ scope.nodes := by
    rw [filter_dropWhile hnodup]
    exact (tail_suffix _).trans (dropWhile_suffix _)
  refine ⟨hok.of_isInfix (List.takeWhile_prefix _).isInfix _, hok.of_isInfix htail.isInfix _, ?_⟩
  show ((scope.nodes.takeWhile _).map _ ++ ((scope.nodes.dropWhile _).filter _).map _).Sublist
    (scope.nodes.map _)
  rw [← map_append]
  apply Sublist.map
  calc (scope.nodes.takeWhile (·.nodeId ≠ waitNode.nodeId) ++
        (scope.nodes.dropWhile (·.nodeId ≠ waitNode.nodeId)).filter (·.nodeId ≠ waitNode.nodeId))
      |>.Sublist (scope.nodes.takeWhile (·.nodeId ≠ waitNode.nodeId) ++
        scope.nodes.dropWhile (·.nodeId ≠ waitNode.nodeId)) :=
        (Sublist.refl _).append filter_sublist
    _ = scope.nodes := takeWhile_append_dropWhile

variable {opts : SplitOptions} {ls ls' : LockState} {k : ℕ}

theorem deadlockRefineScope_spec (hok : ScopeOk g scope) (hnodup : scope.nodeIds.Nodup)
    (hrun : deadlockRefineScope g opts fuel k scope ls = some (out, ls')) :
    PiecesOf g scope.nodeIds out := by
  induction k generalizing scope ls out ls' with
  | zero => simp [deadlockRefineScope] at hrun
  | succ k ih =>
    unfold deadlockRefineScope at hrun
    split at hrun
    · cases hrun
      exact PiecesOf.nil
    · split at hrun
      · cases hrun
      · cases hrun
        exact PiecesOf.single hok
      · cases hrun
      · next waitNode ls₁ _ =>
        rcases splitScopeAtWaitNode_spec hok hnodup waitNode with ⟨hbefore, hafter, hsub⟩
        have hout := PiecesOf.single_if hbefore (splitScopeAtWaitNode scope waitNode).1.nodes.isEmpty
        have hnodup' := (nodup_append.mp (hnodup.sublist hsub)).2.1
        dsimp only at hrun
        split at hrun
        · cases hrun
          exact hout.mono ((sublist_append_left ..).trans hsub)
        · rcases Option.map_eq_some_iff.mp hrun with ⟨⟨rest, ls₂⟩, hrest, heq⟩
          cases heq
          exact (hout.append (ih hafter hnodup' hrest)).mono hsub

theorem deadlockRefineScopes_spec (hok : ScopesOk g scopes)
    (hrun : deadlockRefineScopes g opts fuel scopes ls = some (out, ls')) :
    PiecesOf g (scopes.flatMap (·.nodeIds)) out := by
  induction scopes generalizing ls out ls' with
  | nil =>
    cases hrun
    exact PiecesOf.nil
  | cons scope rest ih =>
    have hnodup := hok.nodup
    rw [flatMap_cons] at hnodup
    rcases nodup_append.mp hnodup with ⟨hnodup₁, hnodup₂, _⟩
    unfold deadlockRefineScopes at hrun
    split at hrun
    · cases hrun
    · next out₁ ls₁ hfirst =>
      rcases Option.map_eq_some_iff.mp hrun with ⟨⟨out₂, ls₂⟩, hrest, heq⟩
      cases heq
      have hscope := deadlockRefineScope_spec (hok.valid scope (mem_cons_self ..)) hnodup₁ hfirst
      have hrest' : ScopesOk g rest := ⟨fun s hs => hok.valid s (mem_cons_of_mem _ hs), hnodup₂⟩
      rw [flatMap_cons]
      exact hscope.append (ih hrest' hrest)

theorem deadlockRefinePass_spec (hok : ScopesOk g scopes)
    (hrun : deadlockRefinePass g opts fuel scopes ls = some (out, ls')) :
    PiecesOf g (scopes.flatMap (·.nodeIds)) out := by
  rcases Option.map_eq_some_iff.mp hrun with ⟨⟨out₁, ls₁⟩, hscopes, heq⟩
  cases heq
  exact deadlockRefineScopes_spec hok hscopes

/-! ## Removing default nodes -/

/-- When no default node is to be marked, a stream is kept whole or removed whole. -/
theorem nodesOn_removeDefaults (hmark : scope.defaultsToMark = []) (i : StreamIdx) :
    scope.removeDefaultsAndStreams.nodesOn i
      = if scope.isStreamToRemove i then [] else scope.nodesOn i := by
  have hnodes : scope.removeDefaultsAndStreams.nodesOn i
      = ((scope.nodesOn i).filter (·.nodeType ≠ .nodeDefault)).filter
          fun n => !scope.isStreamToRemove n.streamIdxInGraph := by
    show ((scope.nodes.filter _).filter _).filter _ = ((scope.nodes.filter _).filter _).filter _
    rw [filter_comm]
    exact congrArg (filter _) (filter_comm ..)
  have hstream : ∀ n ∈ scope.nodesOn i, n.streamIdxInGraph = i := by
    intro n hn
    simpa using (mem_filter.mp hn).2
  rw [hnodes]
  split
  · next hremove =>
    refine filter_eq_nil_iff.mpr fun n hn => ?_
    simp [hstream n (mem_of_mem_filter hn), hremove]
  · next hkeep =>
    have hdefault : ∀ n ∈ scope.nodesOn i, n.nodeType ≠ .nodeDefault := by
      intro n hn htype
      -- a kept stream with a default node holds a kernel, so the node would be marked
      have hkernel : scope.hasKernelOn i = true := by
        have hhas : scope.hasDefaultOn i = true := any_eq_true.mpr ⟨n, hn, by simpa using htype⟩
        simpa [SuperKernelScopeInfo.isStreamToRemove, hhas] using hkeep
      have hmem : n.nodeId ∈ scope.defaultsToMark := by
        refine mem_map.mpr ⟨n, mem_filter.mpr ⟨mem_of_mem_filter hn, ?_⟩, rfl⟩
        simp [htype, hstream n hn, hkernel]
      simp [hmark] at hmem
    have hself : (scope.nodesOn i).filter (·.nodeType ≠ .nodeDefault) = scope.nodesOn i :=
      filter_eq_self.mpr fun n hn => by simpa using hdefault n hn
    rw [hself]
    refine filter_eq_self.mpr fun n hn => ?_
    simpa [hstream n hn] using hkeep

theorem ScopeOk.processDefaults (hok : ScopeOk g scope) : ScopeOk g scope.processDefaults.2 ∧
    scope.processDefaults.2.nodeIds.Sublist scope.nodeIds := by
  unfold SuperKernelScopeInfo.processDefaults
  split
  · exact ⟨hok, Sublist.refl _⟩
  · split
    · exact ⟨hok, Sublist.refl _⟩
    · next hmark =>
      have hsub : scope.removeDefaultsAndStreams.nodes.Sublist scope.nodes :=
        filter_sublist.trans filter_sublist
      refine ⟨⟨fun n hn => hok.mem n (hsub.subset hn), fun n hn => hok.fusible n (hsub.subset hn),
        rfl, fun i => ?_⟩, hsub.map _⟩
      rw [nodesOn_removeDefaults (by simpa using hmark)]
      split
      · exact isChain_nil
      · exact hok.chain i

theorem processDefaults_spec (hok : ∀ scope ∈ scopes, ScopeOk g scope) :
    PiecesOf g (scopes.flatMap (·.nodeIds))
      ((scopes.map fun scope => scope.processDefaults.2).filter (!·.nodes.isEmpty)) := by
  induction scopes with
  | nil => exact PiecesOf.nil
  | cons scope rest ih =>
    have hrest := ih fun s hs => hok s (mem_cons_of_mem _ hs)
    rcases (hok scope (mem_cons_self ..)).processDefaults with ⟨hscope, hsub⟩
    have hone := (PiecesOf.single_if hscope scope.processDefaults.2.nodes.isEmpty).mono hsub
    rw [flatMap_cons, map_cons]
    by_cases hempty : scope.processDefaults.2.nodes.isEmpty
    · rw [filter_cons_of_neg (by simp [hempty])]
      exact hrest.mono (sublist_append_right ..)
    · rw [filter_cons_of_pos (by simp [hempty])]
      rw [if_neg hempty] at hone
      exact hone.append hrest

/-! ## One scope for each kernel -/

/-- The walk from a node meets its stream's nodes in order. -/
theorem walkStream_spec (hg : g.WellFormed) {i : NodeId} {x : SuperKernelBaseNode}
    (hx : g.getNodeById i = some x) (hrun : walkStream g fuel (some i) = some l) :
    (∀ n ∈ l, n ∈ g.nodes ∧ n.streamIdxInGraph = x.streamIdxInGraph ∧
      x.nodeIdxInStream ≤ n.nodeIdxInStream) ∧
    l.Pairwise fun a b => a.nodeId ≠ b.nodeId := by
  induction fuel generalizing i x l with
  | zero => simp [walkStream] at hrun
  | succ fuel ih =>
    simp only [walkStream, hx] at hrun
    rcases Option.map_eq_some_iff.mp hrun with ⟨rest, hrest, rfl⟩
    have hxmem := (getNodeById_some hx).1
    cases hnext : x.nextNodeId with
    | none =>
      have hnil : rest = [] := by
        rw [hnext] at hrest
        cases fuel <;> simpa [walkStream] using hrest.symm
      subst hnil
      simp [hxmem]
    | some j =>
      rw [hnext] at hrest
      rcases hg.next_node hxmem hnext with ⟨y, hy, hstream, hidx⟩
      rcases ih hy hrest with ⟨hmem, hpair⟩
      constructor
      · intro n hn
        rcases mem_cons.mp hn with rfl | hn
        · exact ⟨hxmem, rfl, le_refl _⟩
        · rcases hmem n hn with ⟨hnmem, hns, hnidx⟩
          exact ⟨hnmem, hns.trans hstream, by omega⟩
      · refine pairwise_cons.mpr ⟨?_, hpair⟩
        intro n hn heq
        rcases hmem n hn with ⟨hnmem, _, hnidx⟩
        have hsame := hg.eq_of_nodeId hxmem hnmem heq
        subst hsame
        omega

/-- Walking all streams meets distinct nodes. -/
theorem walkStreams_spec (hg : g.WellFormed) {heads : List NodeId}
    (hsorted : (heads.filterMap g.getNodeById).Pairwise
      fun a b => a.streamIdxInGraph < b.streamIdxInGraph)
    (hrun : walkStreams g fuel heads = some l) :
    (∀ n ∈ l, n ∈ g.nodes ∧ ∃ h ∈ heads.filterMap g.getNodeById,
      n.streamIdxInGraph = h.streamIdxInGraph) ∧
    l.Pairwise fun a b => a.nodeId ≠ b.nodeId := by
  induction heads generalizing l with
  | nil =>
    cases hrun
    simp
  | cons i rest ih =>
    unfold walkStreams at hrun
    split at hrun
    swap
    · cases hrun
    next l₁ l₂ hfirst hrest =>
    cases hrun
    cases hi : g.getNodeById i with
    | none =>
      have hnil : l₁ = [] := by
        cases fuel <;> simp [walkStream, hi] at hfirst
        exact hfirst
      rw [filterMap_cons_none hi] at hsorted ⊢
      rw [hnil, nil_append]
      exact ih hsorted hrest
    | some x =>
      rw [filterMap_cons_some hi] at hsorted ⊢
      rcases pairwise_cons.mp hsorted with ⟨hlt, hsorted'⟩
      rcases walkStream_spec hg hi hfirst with ⟨hmem₁, hpair₁⟩
      rcases ih hsorted' hrest with ⟨hmem₂, hpair₂⟩
      constructor
      · intro n hn
        rcases mem_append.mp hn with hn | hn
        · rcases hmem₁ n hn with ⟨hng, hns, _⟩
          exact ⟨hng, x, mem_cons_self .., hns⟩
        · rcases hmem₂ n hn with ⟨hng, h, hh, hns⟩
          exact ⟨hng, h, mem_cons_of_mem _ hh, hns⟩
      · refine pairwise_append.mpr ⟨hpair₁, hpair₂, ?_⟩
        intro a ha b hb heq
        rcases hmem₁ a ha with ⟨hag, has, _⟩
        rcases hmem₂ b hb with ⟨hbg, h, hh, hbs⟩
        have hsame := hg.eq_of_nodeId hag hbg heq
        subst hsame
        exact absurd (has.symm.trans hbs) (ne_of_lt (hlt h hh))

theorem scopeOk_single {n : SuperKernelBaseNode} (hn : n ∈ g.nodes) (hf : n.isFusible = true) :
    ScopeOk g (rebuildStreamInfos { nodes := [n] }) where
  mem := fun m hm => by
    have heq : m = n := by simpa [rebuildStreamInfos] using hm
    exact heq ▸ hn
  fusible := fun m hm => by
    have heq : m = n := by simpa [rebuildStreamInfos] using hm
    exact heq ▸ hf
  infos := rfl
  chain := fun i => by
    show ([n].filter (·.streamIdxInGraph = i)).IsChain _
    by_cases hi : n.streamIdxInGraph = i <;> simp [hi]

theorem perOpMaxCoreSplitPass_spec (hg : g.WellFormed)
    (hrun : perOpMaxCoreSplitPass g fuel = some out) : ScopesOk g out := by
  rcases Option.map_eq_some_iff.mp hrun with ⟨l, hwalk, rfl⟩
  rcases walkStreams_spec hg hg.heads_sorted hwalk with ⟨hmem, hpair⟩
  constructor
  · intro s hs
    rcases mem_map.mp hs with ⟨n, hn, rfl⟩
    rcases mem_filter.mp hn with ⟨hnl, htest⟩
    have hf : n.isFusible = true := by
      simp only [Bool.and_eq_true] at htest
      exact htest.2
    exact scopeOk_single (hmem n hnl).1 hf
  · rw [flatMap_map]
    have hids : ∀ k : List SuperKernelBaseNode,
        k.flatMap (fun n => (rebuildStreamInfos { nodes := [n] }).nodeIds) = k.map (·.nodeId) := by
      intro k
      exact (map_eq_flatMap ..).symm
    rw [hids, Nodup, pairwise_map]
    exact hpair.filter _

end GraphAutofusion.SuperKernel
