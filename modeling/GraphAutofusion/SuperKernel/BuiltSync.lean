import GraphAutofusion.SuperKernel.SyncPrune
import GraphAutofusion.SuperKernel.TaskBuilder
import Mathlib.Data.List.SplitBy

/-!
# SuperKernel.BuiltSync — what the sync metadata of a built list holds

Each group of the task list keeps the pruned edges of its own dependencies, and a default
hint is missing exactly where a WAIT follows a kernel that sets no flag. `GroupSync` states this
for the metadata `Build` emits, without early start and debug mode.
-/

namespace GraphAutofusion.SuperKernel

open Lib List Option

variable {types : ℕ → SkQueueType} {infos infos' : TaskSyncInfos} {n m k i j : ℕ} {b q : Bool}
  {E : Bool → Set (ℕ × ℕ)} {tasks group : List SuperKernelBaseNode}

/-! ## Values of the maps -/

/-- The maps stand for the edge sets, and hold no other values. -/
structure Synced (types : ℕ → SkQueueType) (infos : TaskSyncInfos) (E : Bool → Set (ℕ × ℕ)) :
    Prop where
  rep : Represents types infos E
  send_value : ∀ b s r d, (infos s).sendInfo b r = some d → d = syncDirection b

variable {d : SyncDirection}

theorem Synced.send_iff (h : Synced types infos E) {s r : ℕ} :
    (infos s).sendInfo b r = some d ↔ d = syncDirection b ∧ (s, r) ∈ E b := by
  constructor
  · intro hd
    have hvalue := h.send_value b s r d hd
    exact ⟨hvalue, (h.rep.send b s r).mp (hvalue ▸ hd)⟩
  · rintro ⟨rfl, he⟩
    exact (h.rep.send b s r).mpr he

theorem Synced.recv_iff (h : Synced types infos E) {s r : ℕ} :
    (infos r).recvInfo b s = some d ↔ d = syncDirection b ∧ (s, r) ∈ E b := by
  constructor
  · intro hd
    have hvalue := h.rep.recv_value b s r d hd
    exact ⟨hvalue, (h.rep.recv b s r).mp (hvalue ▸ hd)⟩
  · rintro ⟨rfl, he⟩
    exact (h.rep.recv b s r).mpr he

/-- What removals keep, the pruning passes keep. -/
theorem pruneSync_induction {P : TaskSyncInfos → Prop}
    (hremove : ∀ infos s r isRemoveRecv dir, P infos →
      P (removeSyncInfo infos s r isRemoveRecv dir)) (h : P infos) : P (pruneSync n infos) := by
  have hloop : ∀ {α : Type} {f : TaskSyncInfos → α → TaskSyncInfos} {l : List α} {infos},
      (∀ infos a, P infos → P (f infos a)) → P infos → P (l.foldl f infos) := by
    intro α f l infos hf h
    exact foldlRecOn l f h fun infos h a _ => hf infos a h
  have hedge : ∀ infos b s r, P infos → P (removeEdge b infos s r) :=
    fun infos b s r h => hremove _ _ _ _ _ (hremove _ _ _ _ _ h)
  have hcrossed : ∀ {infos} b, P infos → P (removeCrossedLines n b infos) := fun b h =>
    hloop (fun _ i h => hloop (fun _ r h => hedge _ b i r h) h) h
  have hsends : ∀ {infos} b, P infos → P (removeMultiSends n b infos) := fun b h =>
    hloop (fun _ i h => hloop (fun _ r h => hedge _ b i r h) h) h
  have hrecvs : ∀ {infos} b, P infos → P (removeMultiRecvs n b infos) := fun b h =>
    hloop (fun _ i h => hloop (fun _ s h => hremove _ _ _ _ _ (hremove _ _ _ _ _ h)) h) h
  exact hrecvs false (hrecvs true (hsends true (hsends false (hcrossed false (hcrossed true h)))))

theorem crossSyncInfo_removeSyncInfo (infos : TaskSyncInfos) (s r : ℕ) (isRemoveRecv : Bool)
    (dir : SyncDirection) (i : ℕ) :
    (removeSyncInfo infos s r isRemoveRecv dir i).crossSyncInfo = (infos i).crossSyncInfo := by
  by_cases hi : i = s
  · cases isRemoveRecv <;> simp [removeSyncInfo, updateTask, hi]
  · simp [removeSyncInfo, updateTask, hi]

theorem crossSyncInfo_insertSyncEvent (infos : TaskSyncInfos) (p c i : ℕ) :
    (insertSyncEvent infos p c i).crossSyncInfo = (infos i).crossSyncInfo := by
  have hset : ∀ (infos : TaskSyncInfos) (j i : ℕ) (f : TaskSyncInfo → TaskSyncInfo),
      (∀ t, (f t).crossSyncInfo = t.crossSyncInfo) →
        (updateTask infos j f i).crossSyncInfo = (infos i).crossSyncInfo := by
    intro infos j i f hf
    by_cases hi : i = j <;> simp [updateTask, hi, hf]
  have hsend : ∀ b key (t : TaskSyncInfo), (t.setSend b key).crossSyncInfo = t.crossSyncInfo := by
    intro b key t
    cases b <;> rfl
  have hrecv : ∀ b key (t : TaskSyncInfo), (t.setRecv b key).crossSyncInfo = t.crossSyncInfo := by
    intro b key t
    cases b <;> rfl
  unfold insertSyncEvent
  split_ifs <;> simp only [hset, hsend, hrecv, implies_true]

/-- Removing or clearing entries of the send maps adds no value. -/
theorem sendInfo_of_removeSyncInfo {infos : TaskSyncInfos} {s r : ℕ} {isRemoveRecv : Bool}
    {dir d : SyncDirection}
    (h : (removeSyncInfo infos s r isRemoveRecv dir i).sendInfo b k = some d) :
    (infos i).sendInfo b k = some d := by
  by_cases hi : i = s
  · cases isRemoveRecv <;> cases b <;>
      simp_all [removeSyncInfo, updateTask, TaskSyncInfo.sendInfo, removeDirection]
  · simpa [removeSyncInfo, updateTask, hi] using h

theorem Synced.pruneSync (h : Synced types infos E) (hbound : Bounded n E) :
    Synced types (SuperKernel.pruneSync n infos) fun b => pruned (E b) where
  rep := h.rep.pruneSync hbound
  send_value := pruneSync_induction
    (P := fun infos => ∀ b s r d, (infos s).sendInfo b r = some d → d = syncDirection b)
    (fun _ _ _ _ _ hvalues b s r d hd => hvalues b s r d (sendInfo_of_removeSyncInfo hd)) h.send_value

theorem crossSyncInfo_pruneSync (i : ℕ) :
    (pruneSync n infos i).crossSyncInfo = (infos i).crossSyncInfo := by
  refine pruneSync_induction (P := fun infos' => (infos' i).crossSyncInfo = (infos i).crossSyncInfo)
    (fun infos' s r isRemoveRecv dir hsame => ?_) rfl
  rw [crossSyncInfo_removeSyncInfo, hsame]

/-- The extraction records exactly the edges the dependencies need. -/
theorem synced_extractSync (tasks : List SuperKernelBaseNode) (h : Synced types infos fun _ => ∅) :
    Synced types (extractSync tasks infos) (depEdges types (taskDeps tasks)) where
  rep := h.rep.insertAll (taskDeps tasks)
  send_value := by
    refine foldlRecOn (taskDeps tasks) _
      (motive := fun infos : TaskSyncInfos => ∀ b s r d, (infos s).sendInfo b r = some d →
        d = syncDirection b) h.send_value fun infos hvalues dep _ b s r d hd => ?_
    rw [(syncInfo_insertSyncEvent ..).1] at hd
    split at hd
    · exact (some.inj hd).symm
    · exact hvalues b s r d hd

theorem crossSyncInfo_extractSync (i : ℕ) :
    (extractSync tasks infos i).crossSyncInfo = (infos i).crossSyncInfo := by
  refine foldlRecOn (taskDeps tasks) _
    (motive := fun infos' : TaskSyncInfos => (infos' i).crossSyncInfo = (infos i).crossSyncInfo) rfl
    fun infos' hsame dep _ => ?_
  rw [crossSyncInfo_insertSyncEvent, hsame]

/-! ## Redundant hints -/

/-- The queue type of an event task on a queue. -/
def eventQueue (q : Bool) : SkQueueType := if q then .aic else .aiv

/-- Task `k` is the last kernel of the queue before position `m`. -/
structure LastKernel (tasks : List SuperKernelBaseNode) (types : ℕ → SkQueueType) (q : Bool)
    (m k : ℕ) : Prop where
  lt : k < m
  kernel : taskType tasks k = .nodeKernel
  part : hasPart (types k) q = true
  last : ∀ j, k < j → j < m → taskType tasks j = .nodeKernel → hasPart (types j) q = false

/-- `RemoveRedundantCrossSync` dropped the hint of task `k` for the queue before it came to
position `m`. -/
def HintErased (tasks : List SuperKernelBaseNode) (types : ℕ → SkQueueType)
    (E : Bool → Set (ℕ × ℕ)) (q : Bool) (m k : ℕ) : Prop :=
  (∀ r, (k, r) ∉ E q) ∧ ∃ w < m, taskType tasks w = .nodeWait ∧ types w = eventQueue q ∧
    LastKernel tasks types q w k

theorem LastKernel.unique {k' : ℕ} (h : LastKernel tasks types q m k)
    (h' : LastKernel tasks types q m k') : k = k' := by
  rcases Nat.lt_trichotomy k k' with hlt | heq | hlt
  · exact absurd (h.last k' hlt h'.lt h'.kernel) (by simp [h'.part])
  · exact heq
  · exact absurd (h'.last k hlt h.lt h.kernel) (by simp [h.part])

/-- The loop of `RemoveRedundantCrossSync` before position `m`. -/
structure RedundantInv (tasks : List SuperKernelBaseNode) (types : ℕ → SkQueueType)
    (E : Bool → Set (ℕ × ℕ)) (infos : TaskSyncInfos) (m : ℕ) (state : CrossSyncState) : Prop where
  synced : Synced types state.1 E
  lastKernel : ∀ q k, state.2 q = some k ↔ LastKernel tasks types q m k
  cross : ∀ i key d, (state.1 i).crossSyncInfo key = some d ↔
    (infos i).crossSyncInfo key = some d ∧
      ∀ q, key = crossSyncKey q → ¬ HintErased tasks types E q m i

theorem SyncMap.mem_values {info : SyncMap} {bound : ℕ} :
    d ∈ info.values bound ↔ ∃ key < bound, info key = some d := by
  simp [SyncMap.values]

theorem Synced.send_isEmpty (h : Synced types infos E) (hbound : Bounded n E) :
    SyncMap.isEmpty ((infos k).sendInfo q) n = true ↔ ∀ r, (k, r) ∉ E q := by
  rw [SyncMap.isEmpty, List.isEmpty_iff, eq_nil_iff_forall_not_mem]
  constructor
  · intro hnone r he
    refine hnone (syncDirection q) (SyncMap.mem_values.mpr ⟨r, (hbound q (k, r) he).2, ?_⟩)
    exact h.send_iff.mpr ⟨rfl, he⟩
  · intro hnone d hd
    rcases SyncMap.mem_values.mp hd with ⟨r, _, hr⟩
    exact hnone r (h.send_iff.mp hr).2

theorem pickCandidateKernelIdx_eq_some {last : Bool → Option ℕ} {queueType : SkQueueType} :
    pickCandidateKernelIdx last queueType = some (q, k) ↔
      queueType = eventQueue q ∧ last q = some k := by
  cases queueType <;> cases q <;> simp [pickCandidateKernelIdx, eventQueue]

theorem lastKernel_succ (hm : taskType tasks m = .nodeKernel → hasPart (types m) q = false) :
    LastKernel tasks types q (m + 1) k ↔ LastKernel tasks types q m k := by
  constructor
  · intro h
    have hne : k ≠ m := by
      rintro rfl
      exact absurd h.part (by simp [hm h.kernel])
    have hlt := h.lt
    exact ⟨by omega, h.kernel, h.part, fun j hkj hj => h.last j hkj (by omega)⟩
  · intro h
    refine ⟨Nat.lt_succ_of_lt h.lt, h.kernel, h.part, fun j hkj hj hkernel => ?_⟩
    rcases Nat.lt_succ_iff_lt_or_eq.mp hj with hj | rfl
    · exact h.last j hkj hj hkernel
    · exact hm hkernel

theorem lastKernel_succ_self (hkernel : taskType tasks m = .nodeKernel)
    (hpart : hasPart (types m) q = true) : LastKernel tasks types q (m + 1) k ↔ k = m := by
  have hself : LastKernel tasks types q (m + 1) m :=
    ⟨Nat.lt_succ_self m, hkernel, hpart, fun j hmj hj => by omega⟩
  constructor
  · exact fun h => h.unique hself
  · rintro rfl
    exact hself

theorem hintErased_succ :
    HintErased tasks types E q (m + 1) k ↔ HintErased tasks types E q m k ∨
      (∀ r, (k, r) ∉ E q) ∧ taskType tasks m = .nodeWait ∧ types m = eventQueue q ∧
        LastKernel tasks types q m k := by
  constructor
  · rintro ⟨hnone, w, hw, hwait⟩
    rcases Nat.lt_succ_iff_lt_or_eq.mp hw with hw | rfl
    · exact .inl ⟨hnone, w, hw, hwait⟩
    · exact .inr ⟨hnone, hwait⟩
  · rintro (⟨hnone, w, hw, hwait⟩ | ⟨hnone, hwait⟩)
    · exact ⟨hnone, w, Nat.lt_succ_of_lt hw, hwait⟩
    · exact ⟨hnone, m, Nat.lt_succ_self m, hwait⟩

/-- Erasing a hint leaves the edges alone. -/
theorem Synced.eraseCross (h : Synced types infos E) (k key : ℕ) :
    Synced types (updateTask infos k (·.eraseCross key)) E := by
  have hsame : ∀ i, (updateTask infos k (·.eraseCross key) i).queueType = (infos i).queueType ∧
      (∀ b, (updateTask infos k (·.eraseCross key) i).sendInfo b = (infos i).sendInfo b) ∧
        ∀ b, (updateTask infos k (·.eraseCross key) i).recvInfo b = (infos i).recvInfo b := by
    intro i
    by_cases hi : i = k
    · simp [updateTask, hi, TaskSyncInfo.eraseCross, TaskSyncInfo.sendInfo, TaskSyncInfo.recvInfo]
    · simp [updateTask, hi]
  refine ⟨⟨fun i => (hsame i).1.trans (h.rep.types i), fun b s r => ?_, fun b s r => ?_,
    fun b s r d => ?_⟩, fun b s r d => ?_⟩
  · rw [(hsame s).2.1]
    exact h.rep.send b s r
  · rw [(hsame r).2.2]
    exact h.rep.recv b s r
  · rw [(hsame r).2.2]
    exact h.rep.recv_value b s r d
  · rw [(hsame s).2.1]
    exact h.send_value b s r d

/-- One iteration of `RemoveRedundantCrossSync`. -/
theorem RedundantInv.step {state : CrossSyncState} (hbound : Bounded tasks.length E)
    (h : RedundantInv tasks types E infos m state) :
    RedundantInv tasks types E infos (m + 1) (removeRedundantStep tasks state m) := by
  rcases state with ⟨cur, last⟩
  unfold removeRedundantStep
  by_cases hkernel : taskType tasks m = .nodeKernel
  · simp only [hkernel, if_true]
    refine ⟨h.synced, fun q k => ?_, fun i key d => ?_⟩
    · have htype : (cur m).queueType = types m := h.synced.rep.types m
      simp only [htype]
      by_cases hpart : hasPart (types m) q = true
      · rw [if_pos hpart, lastKernel_succ_self hkernel hpart]
        simp [eq_comm]
      · rw [if_neg hpart, lastKernel_succ fun _ => by simpa using hpart]
        exact h.lastKernel q k
    · rw [h.cross i key d]
      simp only [hintErased_succ, hkernel, reduceCtorEq, false_and, and_false, or_false]
  have hlast : ∀ q k, last q = some k ↔ LastKernel tasks types q (m + 1) k := fun q k =>
    (h.lastKernel q k).trans (lastKernel_succ fun hk => absurd hk hkernel).symm
  simp only [hkernel, if_false]
  by_cases hwait : taskType tasks m = .nodeWait
  · simp only [hwait, ne_eq, not_true_eq_false, if_false]
    have hnew : ∀ q i, HintErased tasks types E q (m + 1) i ↔ HintErased tasks types E q m i ∨
        (∀ r, (i, r) ∉ E q) ∧ types m = eventQueue q ∧ last q = some i := by
      intro q i
      rw [hintErased_succ, ← h.lastKernel q i]
      simp only [hwait, true_and]
    cases hpick : pickCandidateKernelIdx last (cur m).queueType with
    | none =>
      have hnopick : ∀ q k, ¬ (types m = eventQueue q ∧ last q = some k) := by
        intro q k hqk
        have hsome := pickCandidateKernelIdx_eq_some.mpr hqk
        rw [← h.synced.rep.types m, hpick] at hsome
        exact absurd hsome (by simp)
      refine ⟨h.synced, hlast, fun i key d => ?_⟩
      rw [h.cross i key d]
      simp only [hnew, hnopick, and_false, or_false]
    | some candidate =>
      rcases candidate with ⟨q, k⟩
      have hqk := pickCandidateKernelIdx_eq_some.mp hpick
      rw [h.synced.rep.types m] at hqk
      have hunique : ∀ q' k', types m = eventQueue q' ∧ last q' = some k' ↔ q' = q ∧ k' = k := by
        intro q' k'
        constructor
        · rintro ⟨htype, hk'⟩
          have hq : q' = q := by
            have heq := htype.symm.trans hqk.1
            cases q <;> cases q' <;> simp_all [eventQueue]
          subst hq
          exact ⟨rfl, some.inj (hk'.symm.trans hqk.2)⟩
        · rintro ⟨rfl, rfl⟩
          exact hqk
      simp only [hunique] at hnew
      by_cases hempty : SyncMap.isEmpty ((cur k).sendInfo q) tasks.length = true
      · have hnone := (h.synced.send_isEmpty hbound).mp hempty
        simp only [hempty, if_true]
        refine ⟨h.synced.eraseCross k _, hlast, fun i key d => ?_⟩
        simp only [hnew]
        by_cases hi : i = k
        · subst hi
          by_cases hkey : key = crossSyncKey q
          · subst hkey
            refine iff_of_false ?_ fun hd => hd.2 q rfl (.inr ⟨hnone, rfl, rfl⟩)
            simp [updateTask, TaskSyncInfo.eraseCross]
          have hother : ∀ q', key = crossSyncKey q' → q' ≠ q := by
            rintro q' rfl rfl
            exact hkey rfl
          have hsame : (updateTask cur i (·.eraseCross (crossSyncKey q)) i).crossSyncInfo key =
              (cur i).crossSyncInfo key := by
            simp [updateTask, TaskSyncInfo.eraseCross, hkey]
          rw [hsame, h.cross i key d]
          refine and_congr_right fun _ => forall_congr' fun q' => ?_
          refine imp_congr_right fun hq' => not_congr ?_
          simp [hother q' hq']
        · simp only [updateTask, hi, if_false, and_false, or_false]
          exact h.cross i key d
      · have hsends : ¬ ∀ r, (k, r) ∉ E q := fun hnone =>
          hempty ((h.synced.send_isEmpty hbound).mpr hnone)
        simp only [hempty, Bool.false_eq_true, if_false]
        refine ⟨h.synced, hlast, fun i key d => ?_⟩
        rw [h.cross i key d]
        refine and_congr_right fun _ => forall_congr' fun q' => ?_
        refine imp_congr_right fun _ => not_congr ?_
        rw [hnew]
        refine (or_iff_left ?_).symm
        rintro ⟨hnone, rfl, rfl⟩
        exact hsends hnone
  · simp only [hwait, ne_eq, not_false_eq_true, if_true]
    refine ⟨h.synced, hlast, fun i key d => ?_⟩
    rw [h.cross i key d]
    simp only [hintErased_succ, hwait, false_and, and_false, or_false]

/-- The whole loop: hints go where `HintErased` says, and nothing else changes. -/
theorem redundantInv_removeRedundantCrossSync (hbound : Bounded tasks.length E)
    (h : Synced types infos E) :
    Synced types (removeRedundantCrossSync tasks infos) E ∧
      ∀ i key d, (removeRedundantCrossSync tasks infos i).crossSyncInfo key = some d ↔
        (infos i).crossSyncInfo key = some d ∧
          ∀ q, key = crossSyncKey q → ¬ HintErased tasks types E q tasks.length i := by
  have hloop : ∀ m, RedundantInv tasks types E infos m
      ((range m).foldl (removeRedundantStep tasks) (infos, fun _ => none)) := by
    intro m
    induction m with
    | zero =>
      refine ⟨h, fun q k => ?_, fun i key d => ?_⟩
      · exact iff_of_false (by simp) fun hk => absurd hk.lt (Nat.not_lt_zero k)
      · refine (and_iff_left fun q _ herased => ?_).symm
        rcases herased.2 with ⟨w, hw, _⟩
        exact Nat.not_lt_zero w hw
    | succ m ih =>
      rw [range_succ, foldl_append]
      exact ih.step hbound
  exact ⟨(hloop tasks.length).synced, (hloop tasks.length).cross⟩

/-! ## Dependencies of a list -/

theorem lt_of_nodeIdToIndex {nodeId : NodeId} (h : nodeIdToIndex tasks nodeId = some i) :
    i < tasks.length := by
  have hmem := mem_of_find?_eq_some h
  simpa using hmem

theorem mem_streamOps {streamIdx : StreamIdx} :
    i ∈ streamOps tasks streamIdx ↔ ∃ t, tasks[i]? = some t ∧ t.streamIdxInGraph = streamIdx := by
  simp only [streamOps, mem_filter, mem_range, Option.any_eq_true, decide_eq_true_eq]
  constructor
  · exact fun h => h.2
  · rintro ⟨t, ht, hstream⟩
    exact ⟨(List.getElem?_eq_some_iff.mp ht).1, t, ht, hstream⟩

theorem streamOps_pairwise (streamIdx : StreamIdx) :
    (streamOps tasks streamIdx).Pairwise (· < ·) := pairwise_lt_range.filter _

variable {e : ℕ × ℕ}

/-- Consecutive elements of an ascending list. -/
theorem lt_of_mem_zip_tail {l : List ℕ} (hl : l.Pairwise (· < ·))
    (he : e ∈ l.zip l.tail) : e.1 < e.2 ∧ e.1 ∈ l ∧ e.2 ∈ l := by
  rcases mem_iff_getElem.mp he with ⟨i, hi, rfl⟩
  have hlen : i + 1 < l.length := by
    simp only [length_zip, length_tail] at hi
    omega
  simp only [getElem_zip, getElem_tail]
  refine ⟨pairwise_iff_getElem.mp hl i (i + 1) _ hlen (Nat.lt_succ_self i), ?_, ?_⟩
  · exact getElem_mem _
  · exact getElem_mem _

/-- Stream order only points forward. -/
theorem intraStreamDeps_lt (he : e ∈ intraStreamDeps tasks) : e.1 < e.2 ∧ e.2 < tasks.length := by
  simp only [intraStreamDeps, mem_flatMap] at he
  rcases he with ⟨streamIdx, _, he⟩
  have hlt := lt_of_mem_zip_tail (streamOps_pairwise streamIdx) he
  rcases mem_streamOps.mp hlt.2.2 with ⟨t, ht, _⟩
  exact ⟨hlt.1, (List.getElem?_eq_some_iff.mp ht).1⟩

theorem mem_interStreamDeps :
    e ∈ interStreamDeps tasks ↔ ∃ t ∈ tasks, t.nodeType = .nodeKernel ∧
      ∃ nextId ∈ t.sendToNodeId, nodeIdToIndex tasks t.nodeId = some e.1 ∧
        nodeIdToIndex tasks nextId = some e.2 := by
  simp only [interStreamDeps, mem_flatMap, kernelDeps]
  refine exists_congr fun t => and_congr_right fun _ => ?_
  by_cases hkernel : t.nodeType = .nodeKernel
  · simp only [hkernel, if_true, true_and, mem_filterMap]
    refine exists_congr fun nextId => and_congr_right fun _ => ?_
    simp only [bind_eq_bind, bind_eq_some_iff, some.injEq]
    constructor
    · rintro ⟨a, ha, c, hc, rfl⟩
      exact ⟨ha, hc⟩
    · rintro ⟨ha, hc⟩
      exact ⟨e.1, ha, e.2, hc, rfl⟩
  · simp [hkernel]

theorem taskDeps_lt (he : e ∈ taskDeps tasks) : e.1 < tasks.length ∧ e.2 < tasks.length := by
  rcases mem_append.mp he with he | he
  · have hlt := intraStreamDeps_lt he
    exact ⟨hlt.1.trans hlt.2, hlt.2⟩
  · rcases mem_interStreamDeps.mp he with ⟨t, _, _, nextId, _, hpre, hnext⟩
    exact ⟨lt_of_nodeIdToIndex hpre, lt_of_nodeIdToIndex hnext⟩

theorem bounded_depEdges : Bounded tasks.length (depEdges types (taskDeps tasks)) :=
  fun _ _ he => taskDeps_lt he.1

/-! ## One group -/

/-- The edges a group keeps, by local index. -/
def groupEdges (types : ℕ → SkQueueType) (group : List SuperKernelBaseNode) (off : ℕ) (b : Bool) :
    Set (ℕ × ℕ) :=
  pruned (depEdges (fun j => types (off + j)) (taskDeps group) b)

theorem bounded_groupEdges (off : ℕ) : Bounded group.length (groupEdges types group off) :=
  bounded_depEdges.mono fun _ => pruned_subset

/-- Extracting and optimizing the dependencies of a group. -/
theorem optimizeSyncRelations_extractSync (tasks : List SuperKernelBaseNode)
    (h : Synced types infos fun _ => ∅) :
    Synced types (optimizeSyncRelations tasks (extractSync tasks infos))
        (fun b => pruned (depEdges types (taskDeps tasks) b)) ∧
      ∀ i key d, (optimizeSyncRelations tasks (extractSync tasks infos) i).crossSyncInfo key = some d ↔
        (infos i).crossSyncInfo key = some d ∧ ∀ q, key = crossSyncKey q →
          ¬ HintErased tasks types (fun b => pruned (depEdges types (taskDeps tasks) b)) q
            tasks.length i := by
  have hpruned := (synced_extractSync tasks h).pruneSync bounded_depEdges
  have hbound : Bounded tasks.length fun b => pruned (depEdges types (taskDeps tasks) b) :=
    bounded_depEdges.mono fun _ => pruned_subset
  have hloop := redundantInv_removeRedundantCrossSync hbound hpruned
  refine ⟨hloop.1, fun i key d => ?_⟩
  unfold optimizeSyncRelations
  rw [hloop.2 i key d, crossSyncInfo_pruneSync, crossSyncInfo_extractSync]

/-! ## All groups -/

/-- The groups `Build` processes one by one. -/
def syncGroups (opts : TaskOptions) (tasks : List SuperKernelBaseNode) :
    List (List SuperKernelBaseNode) :=
  if opts.enableMixKernelSplit = 1 then splitTasksByMixGroups tasks else [tasks]

theorem flatten_syncGroups (opts : TaskOptions) (tasks : List SuperKernelBaseNode) :
    (syncGroups opts tasks).flatten = tasks := by
  unfold syncGroups splitTasksByMixGroups
  split
  · exact flatten_splitBy _ tasks
  · simp

/-- The queue types `InitTaskSyncInfos` assigns. -/
def queueTypeAt (g : SuperKernelGraph) (tasks : List SuperKernelBaseNode) (i : ℕ) : SkQueueType :=
  ((initQueueTypes g (queueTypeContext tasks) tasks none fun _ => none).getD []).getD i .unknown

variable {g : SuperKernelGraph} {origin : TaskSyncInfos}

theorem initTaskSyncInfos_eq_some (h : initTaskSyncInfos g tasks = some origin) :
    origin = fun i =>
      { queueType := queueTypeAt g tasks i
        crossSyncInfo := defaultCrossSync (taskType tasks i) (queueTypeAt g tasks i)
          (tasks.length ≤ i + 1) } := by
  unfold initTaskSyncInfos at h
  split at h
  · exact absurd h (by simp)
  · rcases map_eq_some_iff.mp h with ⟨queueTypes, htypes, rfl⟩
    unfold queueTypeAt
    rw [htypes]
    rfl

theorem toEventQueueType_eq (queueType : SkQueueType) (aicAvailable aivAvailable : Bool) :
    ∃ q, toEventQueueType queueType aicAvailable aivAvailable = eventQueue q := by
  simp only [Bool.exists_bool, eventQueue, Bool.false_eq_true, if_false, if_true]
  unfold toEventQueueType
  cases queueType <;> cases aicAvailable <;> cases aivAvailable <;> simp

/-- Kernels go to the queues of their type; an event task goes to one queue. -/
theorem initQueueTypes_spec {ctx : QueueTypeContext}
    (hctx : ctx.firstKernelEventQueueType = .unknown ∨
      ∃ q, ctx.firstKernelEventQueueType = eventQueue q) {queueTypes : List SkQueueType}
    {prevKernelTask : Option SuperKernelBaseNode} {cache : KernelNodeCache}
    (h : initQueueTypes g ctx tasks prevKernelTask cache = some queueTypes) :
    ∀ i, taskType tasks i ≠ .nodeDefault → (∃ q, hasPart (queueTypes.getD i .unknown) q = true) ∧
      (taskType tasks i ≠ .nodeKernel → ∃ q, queueTypes.getD i .unknown = eventQueue q) := by
  have hevent : ∀ {toType : SuperKernelBaseNode → SkQueueType} {node : SuperKernelBaseNode}
      {found : Option SuperKernelBaseNode × KernelNodeCache} {queueType : SkQueueType}
      {cache : KernelNodeCache}, eventQueueType ctx toType node found = some (queueType, cache) →
        ∃ q, queueType = eventQueue q := by
    intro toType node found queueType cache heq
    unfold eventQueueType at heq
    split at heq
    · split at heq
      · exact absurd heq (by simp)
      · next hknown =>
        have hfirst : ctx.firstKernelEventQueueType = queueType := by
          simpa using congrArg (Option.map Prod.fst) heq
        exact hfirst ▸ hctx.resolve_left hknown
    · next kernel _ =>
      have htype : toEventQueueType (toType kernel) ctx.aicAvailable ctx.aivAvailable = queueType := by
        simpa using congrArg (Option.map Prod.fst) heq
      exact htype ▸ toEventQueueType_eq _ _ _
  have hpart : ∀ q, hasPart (eventQueue q) q = true := by
    intro q
    cases q <;> rfl
  induction tasks generalizing queueTypes prevKernelTask cache with
  | nil => exact fun i hi => absurd rfl hi
  | cons node rest ih =>
    simp only [initQueueTypes, bind_eq_bind, bind_eq_some_iff, some.injEq] at h
    rcases h with ⟨⟨queueType, cache'⟩, hnode, restTypes, hrest, rfl⟩
    intro i hi
    cases i with
    | zero =>
      have hnodeType : taskType (node :: rest) 0 = node.nodeType := rfl
      rw [hnodeType] at hi ⊢
      simp only [getD_cons_zero]
      have hone : node.nodeType ≠ .nodeKernel → ∃ q, queueType = eventQueue q := by
        intro hkernel
        unfold taskQueueType at hnode
        split at hnode
        · next hk => exact absurd hk hkernel
        · exact hevent hnode
        · exact hevent hnode
        · exact hevent hnode
        · exact absurd hnode (by simp)
      refine ⟨?_, hone⟩
      by_cases hkernel : node.nodeType = .nodeKernel
      · have htype : queueType = toQueueType node.kernelInfos.kernelType := by
          have heq : taskQueueType g ctx prevKernelTask cache node =
              some (toQueueType node.kernelInfos.kernelType, cache) := by
            simp [taskQueueType, hkernel]
          rw [heq] at hnode
          exact (congrArg Prod.fst (some.inj hnode)).symm
        rw [htype]
        cases node.kernelInfos.kernelType <;> decide
      · rcases hone hkernel with ⟨q, rfl⟩
        exact ⟨q, hpart q⟩
    | succ i => exact ih hrest i hi

theorem queueTypeAt_spec
    (h : initTaskSyncInfos g tasks = some origin) (hi : taskType tasks i ≠ .nodeDefault) :
    (∃ q, hasPart (queueTypeAt g tasks i) q = true) ∧
      (taskType tasks i ≠ .nodeKernel → ∃ q, queueTypeAt g tasks i = eventQueue q) := by
  unfold initTaskSyncInfos at h
  split at h
  · exact absurd h (by simp)
  · rcases map_eq_some_iff.mp h with ⟨queueTypes, htypes, _⟩
    have hctx : (queueTypeContext tasks).firstKernelEventQueueType = .unknown ∨
        ∃ q, (queueTypeContext tasks).firstKernelEventQueueType = eventQueue q := by
      unfold queueTypeContext inferFirstKernelEventQueueType
      split
      · exact .inr (toEventQueueType_eq _ _ _)
      · exact .inl rfl
    unfold queueTypeAt
    rw [htypes]
    exact initQueueTypes_spec hctx htypes i hi

theorem defaultCrossSync_eq_some {nodeType : SkNodeType} {queueType : SkQueueType} {isLast : Bool}
    {key : ℕ} :
    defaultCrossSync nodeType queueType isLast key = some d ↔
      nodeType ≠ .nodeNotify ∧ nodeType ≠ .nodeReset ∧ isLast = false ∧
        ∃ q, key = crossSyncKey q ∧ d = selfSyncDir q ∧ hasPart queueType q = true := by
  simp only [Bool.exists_bool, crossSyncKey, selfSyncDir, Bool.false_eq_true, if_false, if_true]
  unfold defaultCrossSync
  by_cases hwrite : nodeType = .nodeNotify ∨ nodeType = .nodeReset ∨ isLast = true
  · rw [if_pos hwrite]
    refine iff_of_false (by simp) fun h => ?_
    rcases hwrite with hwrite | hwrite | hwrite
    · exact h.1 hwrite
    · exact h.2.1 hwrite
    · exact absurd (h.2.2.1.symm.trans hwrite) (by simp)
  have hplain : nodeType ≠ .nodeNotify ∧ nodeType ≠ .nodeReset ∧ isLast = false := by
    simpa [not_or] using hwrite
  rw [if_neg hwrite]
  simp only [hplain.1, hplain.2.1, hplain.2.2, ne_eq, not_false_eq_true, true_and]
  by_cases hcub : key = 0 ∧ hasPart queueType true = true
  · rw [if_pos hcub, some.injEq]
    simp [hcub, eq_comm (a := d)]
  rw [if_neg hcub]
  by_cases hvec : key = 1 ∧ hasPart queueType false = true
  · rw [if_pos hvec, some.injEq]
    simp [hvec, eq_comm (a := d)]
  · rw [if_neg hvec]
    refine iff_of_false (by simp) ?_
    rintro (⟨hkey, _, hpart⟩ | ⟨hkey, _, hpart⟩)
    · exact hvec ⟨hkey, hpart⟩
    · exact hcub ⟨hkey, hpart⟩

theorem mergeSplitGroups_apply (origin : TaskSyncInfos) (pre post : List (List SuperKernelBaseNode))
    (hj : j < group.length) (off : ℕ) :
    mergeSplitGroups origin (pre ++ group :: post) off (off + pre.flatten.length + j) =
      rebaseTaskSyncInfo (off + pre.flatten.length)
        (processSyncRelationSplitGroup group (off + pre.flatten.length) (!post.isEmpty) origin j) := by
  induction pre generalizing off with
  | nil =>
    have hin : off + j < off + group.length := by omega
    simp [mergeSplitGroups, hin]
  | cons first pre ih =>
    have hshift : off + (first :: pre).flatten.length = off + first.length + pre.flatten.length := by
      simp [add_assoc]
    have hout : ¬ off + first.length + pre.flatten.length + j < off + first.length := by omega
    rw [hshift]
    simp only [cons_append, mergeSplitGroups, hout, if_false]
    exact ih (off + first.length)

@[simp] theorem rebaseSyncInfo_zero (info : SyncMap) : rebaseSyncInfo 0 info = info := by
  funext key
  simp [rebaseSyncInfo]

@[simp] theorem rebaseTaskSyncInfo_zero (t : TaskSyncInfo) : rebaseTaskSyncInfo 0 t = t := by
  simp [rebaseTaskSyncInfo]

variable {opts : TaskOptions}

/-- Both ways to compute the metadata process the groups one by one. -/
theorem precompute_eq_some {infos : TaskSyncInfos}
    (h : precomputeSyncRelations opts g tasks = some infos) :
    ∃ origin, initTaskSyncInfos g tasks = some origin ∧
      ∀ i < tasks.length, infos i = mergeSplitGroups origin (syncGroups opts tasks) 0 i := by
  unfold syncGroups
  unfold precomputeSyncRelations at h
  split at h
  · next hmix =>
    rcases map_eq_some_iff.mp h with ⟨origin, horigin, rfl⟩
    rw [if_pos hmix]
    exact ⟨origin, horigin, fun i _ => rfl⟩
  · next hmix =>
    rcases map_eq_some_iff.mp h with ⟨origin, horigin, rfl⟩
    rw [if_neg hmix]
    refine ⟨origin, horigin, fun i hi => ?_⟩
    simp [mergeSplitGroups, hi, processSyncRelationSplitGroup]

/-! ## The metadata of one group in the built list -/

section Groups

variable (types : ℕ → SkQueueType) (n : ℕ) (hasCustom : Bool)
  (pre : List (List SuperKernelBaseNode)) (group : List SuperKernelBaseNode)
  (post : List (List SuperKernelBaseNode))

/-- An all-core sync follows the `j`-th task of the group: at the end of a group that is not
the last one, and before custom tasks. -/
def AllSyncAfter (j : ℕ) : Prop :=
  post ≠ [] ∧ j + 1 = group.length ∨ hasCustom = true ∧ pre.flatten.length + j + 1 = n

/-- The `j`-th task of the group keeps its default hint for a queue. -/
structure HintKept (q : Bool) (j : ℕ) : Prop where
  notNotify : taskType group j ≠ .nodeNotify
  notReset : taskType group j ≠ .nodeReset
  notLast : pre.flatten.length + j + 1 < n
  part : hasPart (types (pre.flatten.length + j)) q = true
  notErased : ¬ HintErased group (fun j => types (pre.flatten.length + j))
    (groupEdges types group pre.flatten.length) q group.length j

/-- The metadata of one group. -/
structure GroupSync (infos : TaskSyncInfos) : Prop where
  queueType : ∀ j < group.length,
    (infos (pre.flatten.length + j)).queueType = types (pre.flatten.length + j)
  send : ∀ j < group.length, ∀ b r d, (infos (pre.flatten.length + j)).sendInfo b r = some d ↔
    d = syncDirection b ∧ ¬ (post ≠ [] ∧ j + 1 = group.length) ∧
      ∃ r', r = pre.flatten.length + r' ∧ (j, r') ∈ groupEdges types group pre.flatten.length b
  recv : ∀ j < group.length, ∀ b s d, (infos (pre.flatten.length + j)).recvInfo b s = some d ↔
    d = syncDirection b ∧
      ∃ s', s = pre.flatten.length + s' ∧ (s', j) ∈ groupEdges types group pre.flatten.length b
  cross : ∀ j < group.length, ∀ key d,
    (infos (pre.flatten.length + j)).crossSyncInfo key = some d ↔
      AllSyncAfter n hasCustom pre group post j ∧ key = crossSyncKey true ∧ d = .allSync ∨
      ¬ AllSyncAfter n hasCustom pre group post j ∧ ∃ q, key = crossSyncKey q ∧ d = selfSyncDir q ∧
        HintKept types n pre group q j

end Groups

theorem taskType_flatten {pre post : List (List SuperKernelBaseNode)} (hj : j < group.length) :
    taskType (pre ++ group :: post).flatten (pre.flatten.length + j) = taskType group j := by
  have hget : (pre ++ group :: post).flatten[pre.flatten.length + j]? = group[j]? := by
    rw [flatten_append, flatten_cons, getElem?_append_right (Nat.le_add_right _ _),
      Nat.add_sub_cancel_left, getElem?_append_left hj]
  unfold taskType
  rw [hget]

theorem synced_initTaskSyncInfos (h : initTaskSyncInfos g tasks = some origin) (off : ℕ) :
    Synced (fun j => queueTypeAt g tasks (off + j)) (fun j => origin (off + j)) fun _ => ∅ := by
  have horigin := initTaskSyncInfos_eq_some h
  subst horigin
  refine ⟨⟨fun _ => rfl, ?_, ?_, ?_⟩, ?_⟩ <;> intro b <;> cases b <;>
    simp [TaskSyncInfo.sendInfo, TaskSyncInfo.recvInfo]

theorem sendInfo_rebaseTaskSyncInfo (off : ℕ) (t : TaskSyncInfo) {r : ℕ} :
    (rebaseTaskSyncInfo off t).sendInfo b r = some d ↔
      ∃ r', r = off + r' ∧ t.sendInfo b r' = some d := by
  have hkey : ∀ info : SyncMap, rebaseSyncInfo off info r = some d ↔
      ∃ r', r = off + r' ∧ info r' = some d := by
    intro info
    unfold rebaseSyncInfo
    constructor
    · intro h
      split at h
      · next hle => exact ⟨r - off, (Nat.add_sub_cancel' hle).symm, h⟩
      · exact absurd h (by simp)
    · rintro ⟨r', rfl, h⟩
      simpa using h
  cases b
  · exact hkey t.vecSendInfo
  · exact hkey t.cubSendInfo

theorem recvInfo_rebaseTaskSyncInfo (off : ℕ) (t : TaskSyncInfo) {s : ℕ} :
    (rebaseTaskSyncInfo off t).recvInfo b s = some d ↔
      ∃ s', s = off + s' ∧ t.recvInfo b s' = some d := by
  -- the receive maps of `t` are the send maps of its mirror image
  have hmirror := sendInfo_rebaseTaskSyncInfo (b := b) (r := s) (d := d) off
    { t with cubSendInfo := t.vecRecvInfo, vecSendInfo := t.cubRecvInfo }
  cases b <;> exact hmirror

variable {customTasks : List SuperKernelBaseNode}

/-- Without early start the metadata comes from the groups. -/
theorem buildSyncInfos_eq_some (hearly : opts.earlyStart ≠ 1)
    (h : buildSyncInfos opts g tasks customTasks = some infos) :
    ∃ base origin, infos = applyDebugSync opts tasks (attachCustomSync tasks customTasks base) ∧
      initTaskSyncInfos g tasks = some origin ∧
      ∀ i < tasks.length, base i = mergeSplitGroups origin (syncGroups opts tasks) 0 i := by
  rcases bind_eq_some_iff.mp h with ⟨base, hbase, hphase⟩
  rcases map_eq_some_iff.mp hphase with ⟨base', hsame, rfl⟩
  rw [earlyStartPhase, if_neg hearly] at hsame
  have hsame := some.inj hsame
  subst hsame
  rcases precompute_eq_some hbase with ⟨origin, horigin, hmerge⟩
  exact ⟨base, origin, rfl, horigin, hmerge⟩

/-- The metadata of a group before `AddBoundaryAllSync`. -/
theorem processSyncRelationSplitGroup_spec
    (horigin : initTaskSyncInfos g tasks = some origin) (off : ℕ) (hasNextGroup : Bool) (j : ℕ) :
    let t := processSyncRelationSplitGroup group off hasNextGroup origin j
    let boundary := hasNextGroup = true ∧ j = group.length - 1
    t.queueType = queueTypeAt g tasks (off + j) ∧
      (∀ b r d, t.sendInfo b r = some d ↔
        d = syncDirection b ∧ ¬ boundary ∧ (j, r) ∈ groupEdges (queueTypeAt g tasks) group off b) ∧
      (∀ b s d, t.recvInfo b s = some d ↔
        d = syncDirection b ∧ (s, j) ∈ groupEdges (queueTypeAt g tasks) group off b) ∧
      ∀ key d, t.crossSyncInfo key = some d ↔
        boundary ∧ key = crossSyncKey true ∧ d = .allSync ∨
        ¬ boundary ∧ (origin (off + j)).crossSyncInfo key = some d ∧
          ∀ q, key = crossSyncKey q → ¬ HintErased group (fun j => queueTypeAt g tasks (off + j))
            (groupEdges (queueTypeAt g tasks) group off) q group.length j := by
  intro t boundary
  have hoptimized := optimizeSyncRelations_extractSync group
    (synced_initTaskSyncInfos horigin off)
  set infos := optimizeSyncRelations group (extractSync group fun j => origin (off + j)) with hinfos
  by_cases hboundary : boundary
  · have ht : t = addBoundaryAllSync (infos j) := by
      simp only [t, processSyncRelationSplitGroup, hboundary.1, if_true, ← hinfos, updateTask,
        hboundary.2]
    rw [ht]
    refine ⟨hoptimized.1.rep.types j, fun b r d => ?_, fun b s d => ?_, fun key d => ?_⟩
    · refine iff_of_false ?_ fun h => h.2.1 hboundary
      cases b <;> simp [addBoundaryAllSync, TaskSyncInfo.sendInfo]
    · have hrecv : (addBoundaryAllSync (infos j)).recvInfo b = (infos j).recvInfo b := by
        cases b <;> rfl
      rw [hrecv]
      exact hoptimized.1.recv_iff
    · simp only [addBoundaryAllSync, Function.update_apply, hboundary, true_and, not_true_eq_false,
        false_and, or_false]
      by_cases hkey : key = crossSyncKey true <;> simp [hkey, eq_comm (a := d)]
  · have ht : t = infos j := by
      simp only [t, processSyncRelationSplitGroup, ← hinfos]
      split
      · next hnext =>
        have hne : j ≠ group.length - 1 := fun hj => hboundary ⟨hnext, hj⟩
        simp [updateTask, hne]
      · rfl
    rw [ht]
    refine ⟨hoptimized.1.rep.types j, fun b r d => ?_, fun b s d => ?_, fun key d => ?_⟩
    · simp only [hboundary, not_false_eq_true, true_and]
      exact hoptimized.1.send_iff
    · exact hoptimized.1.recv_iff
    · simp only [hboundary, not_false_eq_true, true_and, false_and, false_or]
      exact hoptimized.2 j key d

/-- The all-core sync before custom tasks replaces the hints of the last task. -/
theorem attachCustomSync_spec (i : ℕ) :
    let t := attachCustomSync tasks customTasks infos i
    let custom := customTasks.isEmpty = false ∧ i = tasks.length - 1
    t.queueType = (infos i).queueType ∧ (∀ b, t.sendInfo b = (infos i).sendInfo b) ∧
      (∀ b, t.recvInfo b = (infos i).recvInfo b) ∧
      ∀ key d, t.crossSyncInfo key = some d ↔
        custom ∧ key = crossSyncKey true ∧ d = .allSync ∨
        ¬ (custom ∧ key = crossSyncKey true) ∧ (infos i).crossSyncInfo key = some d := by
  intro t custom
  by_cases hcustom : custom
  · have ht : t = (infos i).setCross (crossSyncKey true) .allSync := by
      simp only [t, attachCustomSync, hcustom.1, Bool.false_eq_true, if_false, updateTask, hcustom.2,
        if_true]
    rw [ht]
    refine ⟨rfl, fun b => by cases b <;> rfl, fun b => by cases b <;> rfl, fun key d => ?_⟩
    simp only [TaskSyncInfo.setCross, Function.update_apply, hcustom, true_and]
    by_cases hkey : key = crossSyncKey true <;> simp [hkey, eq_comm (a := d)]
  · have ht : t = infos i := by
      simp only [t, attachCustomSync]
      split
      · rfl
      · next hempty =>
        have hne : i ≠ tasks.length - 1 := fun hi => hcustom ⟨by simpa using hempty, hi⟩
        simp [updateTask, hne]
    rw [ht]
    simp [hcustom]

/-- Without early start and debug mode, the metadata of every group is as `GroupSync` says. -/
theorem groupSync_of_buildSyncInfos (hearly : opts.earlyStart ≠ 1) (hdebug : ¬ isDebugSync opts)
    (h : buildSyncInfos opts g tasks customTasks = some infos)
    {pre post : List (List SuperKernelBaseNode)}
    (hgroups : syncGroups opts tasks = pre ++ group :: post) :
    GroupSync (queueTypeAt g tasks) tasks.length (!customTasks.isEmpty) pre group post infos := by
  rcases buildSyncInfos_eq_some hearly h with ⟨base, origin, hinfos, horigin, hmerge⟩
  rw [applyDebugSync, if_neg hdebug] at hinfos
  subst hinfos
  have hflat : (pre ++ group :: post).flatten = tasks := by
    rw [← hgroups, flatten_syncGroups]
  have hlen : pre.flatten.length + group.length ≤ tasks.length := by
    rw [← hflat, flatten_append, flatten_cons, length_append, length_append]
    omega
  have hbase : ∀ j < group.length, base (pre.flatten.length + j) =
      rebaseTaskSyncInfo pre.flatten.length
        (processSyncRelationSplitGroup group pre.flatten.length (!post.isEmpty) origin j) := by
    intro j hj
    rw [hmerge _ (by omega), hgroups]
    simpa using mergeSplitGroups_apply origin pre post hj 0
  have hboundary : ∀ j < group.length, ((!post.isEmpty) = true ∧ j = group.length - 1 ↔
      post ≠ [] ∧ j + 1 = group.length) := by
    intro j hj
    rw [Bool.not_eq_true', isEmpty_eq_false_iff]
    exact and_congr_right fun _ => by omega
  refine ⟨fun j hj => ?_, fun j hj b r d => ?_, fun j hj b s d => ?_, fun j hj key d => ?_⟩
  · rw [(attachCustomSync_spec _).1, hbase j hj]
    exact (processSyncRelationSplitGroup_spec horigin _ _ j).1
  · rw [(attachCustomSync_spec _).2.1 b, hbase j hj, sendInfo_rebaseTaskSyncInfo]
    simp only [(processSyncRelationSplitGroup_spec horigin _ _ j).2.1, hboundary j hj]
    constructor
    · rintro ⟨r', hr, hd, hlast, he⟩
      exact ⟨hd, hlast, r', hr, he⟩
    · rintro ⟨hd, hlast, r', hr, he⟩
      exact ⟨r', hr, hd, hlast, he⟩
  · rw [(attachCustomSync_spec _).2.2.1 b, hbase j hj, recvInfo_rebaseTaskSyncInfo]
    simp only [(processSyncRelationSplitGroup_spec horigin _ _ j).2.2.1]
    constructor
    · rintro ⟨s', hs, hd, he⟩
      exact ⟨hd, s', hs, he⟩
    · rintro ⟨hd, s', hs, he⟩
      exact ⟨s', hs, hd, he⟩
  · have hcustom : (customTasks.isEmpty = false ∧ pre.flatten.length + j = tasks.length - 1) ↔
        ((!customTasks.isEmpty) = true ∧ pre.flatten.length + j + 1 = tasks.length) := by
      rw [Bool.not_eq_true']
      exact and_congr_right fun _ => by omega
    have hdefault : (origin (pre.flatten.length + j)).crossSyncInfo key = some d ↔
        taskType group j ≠ .nodeNotify ∧ taskType group j ≠ .nodeReset ∧
          pre.flatten.length + j + 1 < tasks.length ∧ ∃ q, key = crossSyncKey q ∧
            d = selfSyncDir q ∧ hasPart (queueTypeAt g tasks (pre.flatten.length + j)) q = true := by
      rw [initTaskSyncInfos_eq_some horigin, defaultCrossSync_eq_some, decide_eq_false_iff_not,
        not_le, ← taskType_flatten hj, hflat]
    rw [(attachCustomSync_spec _).2.2.2 key d, hbase j hj, hcustom]
    have hcross : (rebaseTaskSyncInfo pre.flatten.length (processSyncRelationSplitGroup group
        pre.flatten.length (!post.isEmpty) origin j)).crossSyncInfo =
          (processSyncRelationSplitGroup group pre.flatten.length (!post.isEmpty) origin
            j).crossSyncInfo := rfl
    rw [hcross, (processSyncRelationSplitGroup_spec horigin _ _ j).2.2.2 key d, hboundary j hj,
      hdefault]
    unfold AllSyncAfter
    by_cases hlast : post ≠ [] ∧ j + 1 = group.length
    · simp only [eq_true hlast, true_and, not_true_eq_false, false_and, or_false, true_or]
      constructor
      · rintro (⟨_, hsync⟩ | ⟨_, hsync⟩) <;> exact hsync
      · intro hsync
        by_cases hend : (!customTasks.isEmpty) = true ∧ pre.flatten.length + j + 1 = tasks.length
        · exact .inl ⟨hend, hsync⟩
        · exact .inr ⟨fun h => hend h.1, hsync⟩
    by_cases hend : (!customTasks.isEmpty) = true ∧ pre.flatten.length + j + 1 = tasks.length
    · -- the last task has no default hint to replace
      have hnone : ¬ pre.flatten.length + j + 1 < tasks.length := by omega
      simp only [eq_false hlast, eq_true hend, eq_false hnone, true_and, not_true_eq_false,
        false_and, and_false, or_false, or_true]
    simp only [eq_false hlast, eq_false hend, false_and, false_or, not_false_eq_true, true_and,
      or_false]
    constructor
    · rintro ⟨⟨hnotify, hreset, hnot, q, hkey, hd, hpart⟩, herased⟩
      exact ⟨q, hkey, hd, hnotify, hreset, hnot, hpart, herased q hkey⟩
    · rintro ⟨q, hkey, hd, hkept⟩
      refine ⟨⟨hkept.notNotify, hkept.notReset, hkept.notLast, q, hkey, hd, hkept.part⟩, ?_⟩
      intro q' hkey'
      have hq : q' = q := by
        have heq := hkey.symm.trans hkey'
        cases q <;> cases q' <;> simp_all [crossSyncKey]
      subst hq
      exact hkept.notErased

/-- Every position lies in a group. -/
theorem exists_group {groups : List (List SuperKernelBaseNode)} (hi : i < groups.flatten.length) :
    ∃ pre group post j, groups = pre ++ group :: post ∧ j < group.length ∧
      i = pre.flatten.length + j := by
  induction groups generalizing i with
  | nil => exact absurd hi (Nat.not_lt_zero i)
  | cons group rest ih =>
    by_cases hin : i < group.length
    · exact ⟨[], group, rest, i, rfl, hin, by simp⟩
    · rw [flatten_cons, length_append] at hi
      rcases ih (i := i - group.length) (by omega) with ⟨pre, group', post, j, rfl, hj, heq⟩
      refine ⟨group :: pre, group', post, j, rfl, hj, ?_⟩
      rw [flatten_cons, length_append]
      omega

theorem exists_syncGroup (opts : TaskOptions) (hi : i < tasks.length) : ∃ pre group post j,
    syncGroups opts tasks = pre ++ group :: post ∧ j < group.length ∧ i = pre.flatten.length + j := by
  rw [← flatten_syncGroups opts tasks] at hi
  exact exists_group hi

/-- Every mode keeps the queue types. -/
theorem queueType_buildSyncInfos (hearly : opts.earlyStart ≠ 1)
    (h : buildSyncInfos opts g tasks customTasks = some infos) (hi : i < tasks.length) :
    (infos i).queueType = queueTypeAt g tasks i := by
  rcases buildSyncInfos_eq_some hearly h with ⟨base, origin, rfl, horigin, hmerge⟩
  have hdebug : (applyDebugSync opts tasks (attachCustomSync tasks customTasks base) i).queueType =
      (attachCustomSync tasks customTasks base i).queueType := by
    unfold applyDebugSync
    split
    · simp [hi, debugSyncInfo]
    · rfl
  rw [hdebug, (attachCustomSync_spec i).1, hmerge i hi]
  rcases exists_syncGroup opts hi with ⟨pre, group, post, j, hgroups, hj, rfl⟩
  rw [hgroups]
  have happly := mergeSplitGroups_apply origin pre post hj 0
  rw [zero_add] at happly
  rw [happly]
  exact (processSyncRelationSplitGroup_spec horigin _ _ j).1

/-- The debug mode leaves one all-core sync after each task. -/
theorem buildSyncInfos_debug (hdebug : isDebugSync opts)
    (h : buildSyncInfos opts g tasks customTasks = some infos) (hi : i < tasks.length) :
    ∃ t, infos i = debugSyncInfo t := by
  rcases bind_eq_some_iff.mp h with ⟨base, _, hphase⟩
  rcases map_eq_some_iff.mp hphase with ⟨base', _, rfl⟩
  rw [applyDebugSync, if_pos hdebug]
  exact ⟨_, if_pos hi⟩

end GraphAutofusion.SuperKernel
