import GraphAutofusion.Lib.FlagSync
import GraphAutofusion.SuperKernel.PostProcessUpdate

/-!
# SuperKernel.ScopeProgram — the streams of a rewritten scope as programs

After `Update` every stream of a scope executes its nodes in order, with the nodes of the
scope replaced: a custom task waits for a cell or writes it, the launch node runs the super
kernel, and a disabled node does nothing. The super kernel executes the tasks of the scope
(between `skStart` and `skFinish`) and then, behind a barrier of all its cores, the
synthesised event nodes. The event nodes may sit in different queues, so they are executed
in any order.
-/

namespace GraphAutofusion.SuperKernel

open Lib SuperKernelGraph List Option

/-- What a stream does apart from its waits and writes. -/
inductive StreamAct where
  | node (nodeId : NodeId)
  | skStart
  | skFinish
deriving DecidableEq, Repr

abbrev StreamOp := FlagOp StreamAct Addr

def CustomTask.op : CustomTask → StreamOp
  | .valueWrite addr value => .write addr value
  | .valueWait addr value => .wait addr value

/-- A NOTIFY sets its cell and a RESET clears it. -/
def SyncEventNode.op (event : SyncEventNode) : StreamOp :=
  .write event.addr
    (if event.nodeType = .nodeNotify then SK_DEFAULT_NOTIFY_VALUE else SK_DEFAULT_RESET_VALUE)

/-- What was made of a node. -/
def actionOf (updates : List (NodeId × NodeAction)) (nodeId : NodeId) : Option NodeAction :=
  (updates.find? (·.1 = nodeId)).map (·.2)

/-- What a rewritten node executes. -/
def actionOps (eventOps : List StreamOp) (nodeId : NodeId) : NodeAction → List StreamOp
  | .custom task => [task.op]
  | .launch => .act .skStart :: .act .skFinish :: eventOps
  | .disable => []
  | .keep => [.act (.node nodeId)]

/-- What a node of the stream executes after the updates. -/
def nodeOps (updates : List (NodeId × NodeAction)) (eventOps : List StreamOp)
    (node : SuperKernelBaseNode) : List StreamOp :=
  match actionOf updates node.nodeId with
  | none => [.act (.node node.nodeId)]
  | some action => actionOps eventOps node.nodeId action

section Streams

variable (g : SuperKernelGraph)

/-- The node at a position of a stream. -/
def nodeAt (i : StreamIdx) (p : ℕ) : Option SuperKernelBaseNode :=
  g.nodes.find? fun n => n.streamIdxInGraph = i && n.nodeIdxInStream = p

/-- The nodes of a stream in order. -/
def streamNodes (i : StreamIdx) : List SuperKernelBaseNode :=
  (range g.nodes.length).filterMap (nodeAt g i)

/-- The nodes of a scope stream before its head and behind its tail. -/
def preNodes (info : ScopeStreamInfo) : List SuperKernelBaseNode :=
  (streamNodes g info.streamIdx).takeWhile (·.nodeId ≠ info.headNodeIdx)

def postNodes (info : ScopeStreamInfo) : List SuperKernelBaseNode :=
  ((streamNodes g info.streamIdx).dropWhile (·.nodeId ≠ info.tailNodeIdx)).tail

/-- The programs of the streams of a rewritten scope. -/
def scopeProgram (infos : List ScopeStreamInfo) (updates : List (NodeId × NodeAction))
    (eventOps : List StreamOp) (i : ℕ) : List StreamOp :=
  match infos[i]? with
  | none => []
  | some info => (streamNodes g info.streamIdx).flatMap (nodeOps updates eventOps)

end Streams

variable {g : SuperKernelGraph} {scope : SuperKernelScopeInfo} {l : List SuperKernelBaseNode}
  {info : ScopeStreamInfo} {i : StreamIdx} {p : ℕ} {n : SuperKernelBaseNode}

/-! ## The nodes of a stream -/

section

variable (hg : g.WellFormed)
include hg

theorem nodeAt_eq_some :
    nodeAt g i p = some n ↔ n ∈ g.nodes ∧ n.streamIdxInGraph = i ∧ n.nodeIdxInStream = p := by
  have htest : ∀ {m}, nodeAt g i p = some m → m.streamIdxInGraph = i ∧ m.nodeIdxInStream = p := by
    intro m hm
    have hp := find?_some hm
    simpa using hp
  constructor
  · intro h
    exact ⟨mem_of_find?_eq_some h, htest h⟩
  · rintro ⟨hn, hi, hp⟩
    cases hfind : nodeAt g i p with
    | none =>
      have hnone := find?_eq_none.mp hfind n hn
      simp [hi, hp] at hnone
    | some m =>
      rcases htest hfind with ⟨hmi, hmp⟩
      have heq : m = n := hg.eq_of_idx (mem_of_find?_eq_some hfind) hn (hmi.trans hi.symm)
        (hmp.trans hp.symm)
      rw [heq]

/-- The positions of a stream are numbered without gaps, so they stay below the node count. -/
theorem nodeIdxInStream_lt (hn : n ∈ g.nodes) : n.nodeIdxInStream < g.nodes.length := by
  have hsub : range (n.nodeIdxInStream + 1) ⊆ g.nodes.map (·.nodeIdxInStream) := by
    intro k hk
    rcases hg.exists_at_idx hn (Nat.le_of_lt_succ (mem_range.mp hk)) with ⟨m, hm, _, hmk⟩
    exact mem_map.mpr ⟨m, hm, hmk⟩
  have hle := (subperm_of_subset nodup_range hsub).length_le
  rw [length_range, length_map] at hle
  exact hle

theorem mem_streamNodes : n ∈ streamNodes g i ↔ n ∈ g.nodes ∧ n.streamIdxInGraph = i := by
  rw [streamNodes, mem_filterMap]
  constructor
  · rintro ⟨p, _, hp⟩
    rcases (nodeAt_eq_some hg).mp hp with ⟨hn, hi, _⟩
    exact ⟨hn, hi⟩
  · rintro ⟨hn, hi⟩
    exact ⟨n.nodeIdxInStream, mem_range.mpr (nodeIdxInStream_lt hg hn),
      (nodeAt_eq_some hg).mpr ⟨hn, hi, rfl⟩⟩

theorem streamNodes_sorted (i : StreamIdx) :
    (streamNodes g i).Pairwise fun a b => a.nodeIdxInStream < b.nodeIdxInStream := by
  refine List.Pairwise.filterMap _ (fun p q hpq a ha b hb => ?_) pairwise_lt_range
  have ha' := ((nodeAt_eq_some hg).mp ha).2.2
  have hb' := ((nodeAt_eq_some hg).mp hb).2.2
  rw [ha', hb']
  exact hpq

/-- A chain of linked nodes occupies consecutive positions of its stream. -/
theorem filterMap_nodeAt_chain (hmem : ∀ n ∈ l, n ∈ g.nodes)
    (hstream : ∀ n ∈ l, n.streamIdxInGraph = i)
    (hchain : l.IsChain fun a b => a.nextNodeId = some b.nodeId)
    (hhead : ∀ a ∈ l.head?, a.nodeIdxInStream = p) :
    (range' p l.length).filterMap (nodeAt g i) = l := by
  induction l generalizing p with
  | nil => rfl
  | cons a rest ih =>
    have hap := hhead a rfl
    have ha : nodeAt g i p = some a :=
      (nodeAt_eq_some hg).mpr ⟨hmem a (mem_cons_self ..), hstream a (mem_cons_self ..), hap⟩
    rw [length_cons, range'_succ, filterMap_cons_some ha]
    have hrest : ∀ b ∈ rest.head?, b.nodeIdxInStream = p + 1 := by
      intro b hb
      cases rest with
      | nil => cases hb
      | cons b' rest =>
        have hbb : b' = b := some.inj hb
        subst hbb
        have hnext := (isChain_cons_cons.mp hchain).1
        rcases hg.next_node (hmem a (mem_cons_self ..)) hnext with ⟨m, hm, _, hidx⟩
        have hbm := hg.getNodeById_of_mem (hmem b' (mem_cons_of_mem _ (mem_cons_self ..)))
        have heq : m = b' := some.inj (hm.symm.trans hbm)
        rw [← heq, hidx, hap]
    rw [ih (fun n hn => hmem n (mem_cons_of_mem _ hn))
      (fun n hn => hstream n (mem_cons_of_mem _ hn)) hchain.tail hrest]

omit hg in
/-- Cutting a list before and behind one of its elements. -/
theorem takeWhile_dropWhile_nodeId {A B : List SuperKernelBaseNode} {x : SuperKernelBaseNode}
    (hA : ∀ y ∈ A, y.nodeId ≠ x.nodeId) :
    (A ++ x :: B).takeWhile (·.nodeId ≠ x.nodeId) = A ∧
      (A ++ x :: B).dropWhile (·.nodeId ≠ x.nodeId) = x :: B := by
  have hall : ∀ y ∈ A, decide (y.nodeId ≠ x.nodeId) = true := by
    intro y hy
    simpa using hA y hy
  constructor
  · rw [takeWhile_append_of_pos hall, takeWhile_cons_of_neg (by simp), append_nil]
  · rw [dropWhile_append_of_pos hall, dropWhile_cons_of_neg (by simp)]

/-- The nodes of a scope stream stand together in the stream. -/
theorem ScopeOk.streamNodes_append (hok : ScopeOk g scope) (hinfo : info ∈ scope.scopeStreamInfos) :
    ∃ A B, streamNodes g info.streamIdx = A ++ scope.nodesOn info.streamIdx ++ B := by
  rcases map_eq_some_iff.mp (hok.infosOf.summary info hinfo).head with ⟨a, ha, _⟩
  rw [← nodesOn_eq] at ha
  have hstream : ∀ n ∈ scope.nodesOn info.streamIdx, n.streamIdxInGraph = info.streamIdx := by
    intro n hn
    simpa using (mem_filter.mp hn).2
  have hhead : ∀ b ∈ (scope.nodesOn info.streamIdx).head?, b.nodeIdxInStream = a.nodeIdxInStream := by
    intro b hb
    rw [ha] at hb
    rw [some.inj hb]
  have hmid := filterMap_nodeAt_chain hg hok.nodesOn_mem hstream (hok.chain info.streamIdx) hhead
  generalize hsize : (scope.nodesOn info.streamIdx).length = size at hmid
  -- the position of the last node bounds the range
  have hbound : a.nodeIdxInStream + size ≤ g.nodes.length := by
    cases size with
    | zero => simp [length_eq_zero_iff.mp hsize] at ha
    | succ k =>
      have hall : ∀ p ∈ range' a.nodeIdxInStream (k + 1),
          (nodeAt g info.streamIdx p).isSome := by
        rw [← filterMap_length_eq_length, hmid, hsize, length_range']
      rcases isSome_iff_exists.mp (hall (a.nodeIdxInStream + k)
        (mem_range'_1.mpr ⟨by omega, by omega⟩)) with ⟨w, hw⟩
      rcases (nodeAt_eq_some hg).mp hw with ⟨hwg, _, hwp⟩
      have hlt := nodeIdxInStream_lt hg hwg
      omega
  refine ⟨(range a.nodeIdxInStream).filterMap (nodeAt g info.streamIdx),
    (range' (a.nodeIdxInStream + size)
      (g.nodes.length - (a.nodeIdxInStream + size))).filterMap (nodeAt g info.streamIdx), ?_⟩
  have hrange : range g.nodes.length = range a.nodeIdxInStream
      ++ range' a.nodeIdxInStream size
      ++ range' (a.nodeIdxInStream + size) (g.nodes.length - (a.nodeIdxInStream + size)) := by
    rw [range_eq_range', range_eq_range', append_assoc, range'_append_1]
    have happend := range'_append_1 (s := 0) (m := a.nodeIdxInStream)
      (n := size + (g.nodes.length - (a.nodeIdxInStream + size)))
    rw [zero_add] at happend
    rw [happend]
    congr 1
    omega
  rw [streamNodes, hrange, filterMap_append, filterMap_append, hmid]

/-- A scope stream: the nodes before the scope, those of the scope, and those behind it. -/
theorem ScopeOk.streamNodes_split (hok : ScopeOk g scope)
    (hinfo : info ∈ scope.scopeStreamInfos) : streamNodes g info.streamIdx
      = preNodes g info ++ scope.nodesOn info.streamIdx ++ postNodes g info := by
  have hsum := hok.infosOf.summary info hinfo
  rcases map_eq_some_iff.mp hsum.head with ⟨a, ha, haid⟩
  rcases map_eq_some_iff.mp hsum.tail with ⟨z, hz, hzid⟩
  rw [← nodesOn_eq] at ha hz
  rcases hok.streamNodes_append hg hinfo with ⟨A, B, hsplit⟩
  have hsorted := streamNodes_sorted hg info.streamIdx
  have hne : ∀ {P : List SuperKernelBaseNode} {x Q}, streamNodes g info.streamIdx = P ++ x :: Q →
      ∀ y ∈ P, y.nodeId ≠ x.nodeId := by
    intro P x Q heq y hy hid
    rw [heq] at hsorted
    have hmem : ∀ w ∈ P ++ x :: Q, w ∈ g.nodes := by
      intro w hw
      rw [← heq] at hw
      exact ((mem_streamNodes hg).mp hw).1
    have hyx := hg.eq_of_nodeId (hmem y (mem_append_left _ hy))
      (hmem x (mem_append_right _ (mem_cons_self ..))) hid
    have hlt := (pairwise_append.mp hsorted).2.2 y hy x (mem_cons_self ..)
    rw [hyx] at hlt
    exact lt_irrefl _ hlt
  rcases head?_eq_some_iff.mp ha with ⟨rest, hrest⟩
  have hfront : streamNodes g info.streamIdx = A ++ a :: (rest ++ B) := by
    rw [hsplit, hrest, append_assoc, cons_append]
  rcases getLast?_eq_some_iff.mp hz with ⟨front, hlast⟩
  have hback : streamNodes g info.streamIdx = (A ++ front) ++ z :: B := by
    rw [hsplit, hlast]
    simp
  have hpre : preNodes g info = A := by
    rw [preNodes, ← haid, hfront]
    exact (takeWhile_dropWhile_nodeId (hne hfront)).1
  have hpost : postNodes g info = B := by
    rw [postNodes, ← hzid, hback, (takeWhile_dropWhile_nodeId (hne hback)).2, tail_cons]
  rw [hpre, hpost]
  exact hsplit

/-- Nothing stands before the scope when its head has no predecessor. -/
theorem ScopeOk.preNodes_eq_nil (hok : ScopeOk g scope) (hinfo : info ∈ scope.scopeStreamInfos)
    {a : SuperKernelBaseNode} (ha : g.getNodeById info.headNodeIdx = some a)
    (hpre : a.preNodeId = none) : preNodes g info = [] := by
  have hhead := hok.head hg hinfo
  rw [ha] at hhead
  rcases head?_eq_some_iff.mp hhead.symm with ⟨rest, hrest⟩
  have hsorted := streamNodes_sorted hg info.streamIdx
  rw [hok.streamNodes_split hg hinfo, hrest, append_assoc, pairwise_append] at hsorted
  have hidx := (hg.pre_none a (getNodeById_some ha).1 hpre).1
  refine eq_nil_iff_forall_not_mem.mpr fun n hn => ?_
  have hlt := hsorted.2.2 n hn a (mem_cons_self ..)
  omega

/-- Nothing stands behind the scope when its tail has no successor. -/
theorem ScopeOk.postNodes_eq_nil (hok : ScopeOk g scope) (hinfo : info ∈ scope.scopeStreamInfos)
    {z : SuperKernelBaseNode} (hz : g.getNodeById info.tailNodeIdx = some z)
    (hnext : z.nextNodeId = none) : postNodes g info = [] := by
  rcases map_eq_some_iff.mp (hok.infosOf.summary info hinfo).tail with ⟨z', hz', hzid⟩
  rw [← nodesOn_eq] at hz'
  have hmem : z' ∈ scope.nodesOn info.streamIdx := mem_of_getLast? hz'
  have heq : z' = z := by
    have hget := hg.getNodeById_of_mem (hok.nodesOn_mem z' hmem)
    rw [hzid, hz] at hget
    exact (some.inj hget).symm
  subst heq
  have hstream : z'.streamIdxInGraph = info.streamIdx := by simpa using (mem_filter.mp hmem).2
  have hsplit := hok.streamNodes_split hg hinfo
  have hsorted := streamNodes_sorted hg info.streamIdx
  rw [hsplit, pairwise_append] at hsorted
  refine eq_nil_iff_forall_not_mem.mpr fun n hn => ?_
  have hlt := hsorted.2.2 z' (mem_append_right _ hmem) n hn
  have hnmem : n ∈ streamNodes g info.streamIdx := hsplit ▸ mem_append_right _ hn
  rcases (mem_streamNodes hg).mp hnmem with ⟨hng, hns⟩
  have hle := hg.le_of_next_none (hok.nodesOn_mem z' hmem) hng (hns.trans hstream.symm) hnext
  omega

end

/-! ## The operations of a stream -/

section Ops

variable {updates : List (NodeId × NodeAction)} {eventOps : List StreamOp} {skMainNodeId : NodeId}
  {tasks : List CustomTask} {ext : ScopeExtInfo}

theorem actionOf_of_mem (hnodup : (updates.map (·.1)).Nodup) {x : NodeId} {action : NodeAction}
    (h : (x, action) ∈ updates) : actionOf updates x = some action := by
  have hfind : updates.find? (·.1 = x) = some (x, action) := by
    cases hf : updates.find? (·.1 = x) with
    | none =>
      have hnone := find?_eq_none.mp hf _ h
      simp at hnone
    | some y =>
      have hy : y.1 = x := by simpa using find?_some hf
      rw [inj_on_of_nodup_map hnodup (mem_of_find?_eq_some hf) h hy]
  rw [actionOf, hfind, map_some]

theorem actionOf_of_not_mem {x : NodeId} (h : x ∉ updates.map (·.1)) : actionOf updates x = none := by
  have hfind : updates.find? (·.1 = x) = none := by
    refine find?_eq_none.mpr fun y hy => ?_
    intro heq
    have heq' : y.1 = x := by simpa using heq
    exact h (mem_map.mpr ⟨y, hy, heq'⟩)
  rw [actionOf, hfind, map_none]

/-- The operations of a planned stream: its custom tasks, then the launch if it is there. -/
theorem flatten_plannedAction (hnodup : (l.map (·.nodeId)).Nodup) (hlength : tasks.length ≤ l.length) :
    (l.mapIdx fun p n => actionOps eventOps n.nodeId (plannedAction skMainNodeId tasks p n)).flatten
      = tasks.map (·.op) ++ if skMainNodeId ∈ (l.drop tasks.length).map (·.nodeId) then
          .act .skStart :: .act .skFinish :: eventOps else [] := by
  induction l generalizing tasks with
  | nil =>
    have hnil : tasks = [] := by simpa using hlength
    simp [hnil]
  | cons n rest ih =>
    rcases nodup_cons.mp hnodup with ⟨hn, hnodup'⟩
    rw [mapIdx_cons, flatten_cons]
    simp only [plannedAction_succ]
    cases tasks with
    | cons task tasks =>
      have haction : plannedAction skMainNodeId (task :: tasks) 0 n = .custom task := rfl
      rw [tail_cons, ih hnodup' (Nat.le_of_succ_le_succ hlength), haction]
      rfl
    | nil =>
      rw [tail_nil, ih hnodup' (Nat.zero_le _)]
      by_cases hmain : n.nodeId = skMainNodeId
      · have haction : plannedAction skMainNodeId [] 0 n = .launch := if_pos hmain
        have hnot : skMainNodeId ∉ rest.map (·.nodeId) := hmain ▸ hn
        rw [haction]
        simp only [map_nil, length_nil, drop_zero, nil_append, if_neg hnot,
          append_nil, map_cons, mem_cons, hmain, true_or, if_true]
        rfl
      · have haction : plannedAction skMainNodeId [] 0 n = .disable := if_neg hmain
        rw [haction]
        simp only [map_nil, length_nil, drop_zero, nil_append, map_cons,
          mem_cons, Ne.symm hmain, false_or]
        rfl

end Ops

end GraphAutofusion.SuperKernel
