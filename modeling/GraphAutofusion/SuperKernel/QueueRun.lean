import GraphAutofusion.Lib.QueuePair
import GraphAutofusion.SuperKernel.CrossSync

/-!
# SuperKernel.QueueRun — executing the two device queues

The entry kernel runs the AIC and the AIV queue concurrently, each one in order. A SET and a
WAIT count an anonymous flag for each direction and an all-core sync is a rendezvous, so the
queues rely on the order in which `Build` emitted them. With the position in the task list
as time they are scheduled, and so they never block on each other.
-/

namespace GraphAutofusion.SuperKernel

open Lib Relation PairState List

/-! ## What the entry kernel does -/

/-- `(SkCoreSyncType)task->args`. -/
def SkCoreSyncType.ofCode : ℕ → Option SkCoreSyncType
  | 0 => some .allSync
  | 1 => some .crossSyncAicToAic
  | 2 => some .crossSyncAivToAiv
  | 3 => some .interSyncSetAicToAiv
  | 4 => some .interSyncSetAivToAic
  | 5 => some .interSyncWaitAicToAiv
  | 6 => some .interSyncWaitAivToAic
  | 7 => some .syncNone
  | _ => none

@[simp] theorem SkCoreSyncType.ofCode_code (t : SkCoreSyncType) : ofCode t.code = some t := by
  cases t <;> rfl

/-- `AutoCoreSyncImpl`, seen from both queues: syncs between the cores of one queue are steps
of that queue alone. -/
def autoCoreSyncImpl (isCub : Bool) : SkCoreSyncType → QueueOp
  | .crossSyncAicToAic | .crossSyncAivToAiv => .act
  | .interSyncSetAicToAiv => if isCub then .set else .act
  | .interSyncSetAivToAic => if isCub then .act else .set
  | .interSyncWaitAicToAiv => if isCub then .act else .wait
  | .interSyncWaitAivToAic => if isCub then .wait else .act
  | .allSync => .barrier
  | .syncNone => .trap

/-- One iteration of `spk_entry_impl`, for records without an early-start word. -/
def spkEntryOp (enableDebug isCub : Bool) (task : TaskInfo) : QueueOp :=
  match task.type with
  | .typeSync =>
    if enableDebug = true ∧ task.debugOptions &&& kDebugOptionDebugSyncAll ≠ 0 then .barrier
    else
      match SkCoreSyncType.ofCode task.args with
      | some syncType => autoCoreSyncImpl isCub syncType
      | none => .trap
  | .typeEventWait => .external
  | _ => .act

/-- The record calls task `i` or accesses its event. -/
structure IsBody (info : TaskInfo) (i : ℕ) : Prop where
  index : info.index = some i
  type : info.type ≠ .typeSync ∧ info.type ≠ .typePreload

/-- The all-core syncs of a queue, by task. -/
def allSyncTasks (enableDebug q : Bool) (infos : List TaskInfo) : List (Option ℕ) :=
  (infos.filter fun info => spkEntryOp enableDebug q info = .barrier).map (·.index)

/-- The records of both queues. -/
abbrev records (skTasks : SkTasks) : Bool → List TaskInfo := fun q => (skTasks q).taskInfos

/-- The queues run to their end, in dependency order. -/
structure QueuesRun (enableDebug : Bool) (tasks : List SuperKernelBaseNode) (skTasks : SkTasks) :
    Prop where
  /-- The pair only stops at the end or at an event WAIT. -/
  progress : ∀ s, Reachable (spkEntryOp enableDebug) (records skTasks) s →
    Finished (records skTasks) s ∨
      (∃ q, AtOp (spkEntryOp enableDebug) (records skTasks) q .external s) ∨
      ∃ s', Step (spkEntryOp enableDebug) (records skTasks) s s'
  /-- Every step uses up a record, so every run is finite. -/
  finite : ∀ s s', AnyStep (spkEntryOp enableDebug) (records skTasks) s s' →
    remaining (records skTasks) s' < remaining (records skTasks) s
  /-- When the event WAITs pass, every run can be completed. -/
  ends : ∀ s, Reachable (spkEntryOp enableDebug) (records skTasks) s →
    ∃ s', ReflTransGen (AnyStep (spkEntryOp enableDebug) (records skTasks)) s s' ∧
      Finished (records skTasks) s'
  /-- At the end all counters are zero. -/
  flags : ∀ s, Reachable (spkEntryOp enableDebug) (records skTasks) s →
    Finished (records skTasks) s → ∀ q, s.flags q = 0
  /-- The queues hold the same all-core syncs. -/
  allSync : allSyncTasks enableDebug true (records skTasks true) =
    allSyncTasks enableDebug false (records skTasks false)
  /-- They have executed equally many of them at any time. -/
  meets : ∀ s, Reachable (spkEntryOp enableDebug) (records skTasks) s →
    executed (spkEntryOp enableDebug) (records skTasks) .barrier true s =
      executed (spkEntryOp enableDebug) (records skTasks) .barrier false s
  /-- When a queue has come to a task, every queue has executed what the task depends on. -/
  respected : ∀ e ∈ taskDeps tasks, ∀ q q' k l x y,
    (records skTasks q)[k]? = some x → IsBody x e.1 →
      (records skTasks q')[l]? = some y → IsBody y e.2 →
        ∀ s, Reachable (spkEntryOp enableDebug) (records skTasks) s → l ≤ s.pos q' → k < s.pos q

/-! ## Times -/

/-- The WAIT a queue executes for the other one. -/
def interWaitType (q : Bool) : SkCoreSyncType :=
  if q then .interSyncWaitAivToAic else .interSyncWaitAicToAiv

/-- When a record is executed: task `i` of a list takes the times from `5 * i` on, for its
WAITs, its call, the preload of the next kernel, its barriers and its SETs. Custom tasks come last. -/
def recordTime (n : ℕ) (info : TaskInfo) : ℕ :=
  match info.index with
  | none => 5 * n
  | some i =>
    match info.type with
    | .typePreload => 5 * i - 3
    | .typeSync =>
      match SkCoreSyncType.ofCode info.args with
      | some .interSyncWaitAicToAiv | some .interSyncWaitAivToAic => 5 * i
      | some .interSyncSetAicToAiv | some .interSyncSetAivToAic => 5 * i + 4
      | _ => 5 * i + 3
    | _ => 5 * i + 1

section Items

variable {opts : TaskOptions} {tasks : List SuperKernelBaseNode} {infos : TaskSyncInfos}
  {node : SuperKernelBaseNode} {i n bound : ℕ} {q b enableDebug : Bool} {d : SyncDirection}
  {info : SyncMap} {syncType : SkCoreSyncType}

theorem recordTime_syncTaskInfo : recordTime n (syncTaskInfo opts i syncType 0 0 .default) =
    match syncType with
    | .interSyncWaitAicToAiv | .interSyncWaitAivToAic => 5 * i
    | .interSyncSetAicToAiv | .interSyncSetAivToAic => 5 * i + 4
    | _ => 5 * i + 3 := by
  simp only [recordTime, syncTaskInfo, SkCoreSyncType.ofCode_code]
  cases syncType <;> rfl

/-- Sync records do what their type says; in debug mode all of them are all-core syncs. -/
theorem spkEntryOp_syncTaskInfo (h : isDebugSync opts → syncType = .allSync) :
    spkEntryOp enableDebug q (syncTaskInfo opts i syncType 0 0 .default) =
      autoCoreSyncImpl q syncType := by
  by_cases hdebug : opts.enableDebug = true ∧ opts.debugSyncAll = 1
  · have hall := h ⟨hdebug.1, by omega⟩
    subst hall
    simp [spkEntryOp, syncTaskInfo, autoCoreSyncImpl]
  · simp [spkEntryOp, syncTaskInfo, hdebug]

theorem recordTime_body {t : TaskInfo} (h : IsBody t i) : recordTime n t = 5 * i + 1 := by
  unfold recordTime
  rw [h.index]
  have htype := h.type
  cases ht : t.type <;> simp_all

theorem spkEntryOp_of_type {t : TaskInfo} (h : t.type ≠ .typeSync) :
    spkEntryOp enableDebug q t = .act ∨ spkEntryOp enableDebug q t = .external := by
  unfold spkEntryOp
  cases ht : t.type <;> simp_all

/-! ## One map -/

/-- A map with one entry at most lists its value once. -/
theorem SyncMap.values_eq (hvalue : ∀ key d', info key = some d' → d' = d)
    (hunique : ∀ key key', info key = some d → info key' = some d → key = key') :
    info.values bound = if SyncMap.isEmpty info bound then [] else [d] := by
  have hone : ∀ m, info.values m = [] ∨ info.values m = [d] ∧ ∃ key < m, info key = some d := by
    intro m
    induction m with
    | zero => exact .inl rfl
    | succ m ih =>
      have hsucc : info.values (m + 1) = info.values m ++ (info m).toList := by
        simp only [SyncMap.values, range_succ, filterMap_append]
        cases hm : info m <;> simp [hm]
      cases hm : info m with
      | none =>
        rw [hsucc, hm, Option.toList_none, append_nil]
        rcases ih with ih | ⟨ih, key, hkey, hd⟩
        · exact .inl ih
        · exact .inr ⟨ih, key, Nat.lt_succ_of_lt hkey, hd⟩
      | some d' =>
        have hd := hvalue m d' hm
        subst hd
        rw [hsucc, hm, Option.toList_some]
        rcases ih with ih | ⟨_, key, hkey, hd⟩
        · rw [ih]
          exact .inr ⟨rfl, m, Nat.lt_succ_self m, hm⟩
        · exact absurd (hunique key m hd hm) (Nat.ne_of_lt hkey)
  unfold SyncMap.isEmpty
  rcases hone bound with h | ⟨h, _⟩ <;> simp [h]

/-- The SETs or WAITs of one map of a direction. -/
theorem syncItems_eq (isSend : Bool) (hvalue : ∀ key d', info key = some d' → d' = syncDirection b)
    (hunique : ∀ key key', info key = some (syncDirection b) → info key' = some (syncDirection b) →
      key = key') :
    syncItems opts i bound info isSend q =
      if SyncMap.isEmpty info bound = true ∨ (q = b) ≠ (isSend = true) then []
      else [syncTaskInfo opts i (if isSend then interSetType q else interWaitType q) 0 0 .default] := by
  unfold syncItems
  rw [SyncMap.values_eq hvalue hunique]
  by_cases hempty : SyncMap.isEmpty info bound = true
  · simp [hempty]
  · cases isSend <;> cases q <;> cases b <;>
      simp [hempty, syncDirection, getSyncTypesForDirection, syncTargets, interSetType, interWaitType]

/-! ## The records of one task -/

/-- What the sync metadata must satisfy for the queues to be scheduled. -/
structure SyncPlan (opts : TaskOptions) (n : ℕ) (infos : TaskSyncInfos) (E : Bool → Set (ℕ × ℕ)) :
    Prop where
  values : SyncValues n infos
  /-- All-core syncs are stored under one key. -/
  allSync : ∀ i < n, ∀ key, (infos i).crossSyncInfo key = some .allSync → key = crossSyncKey true
  send : ∀ s < n, ∀ b r, (infos s).sendInfo b r = some (syncDirection b) ↔ (s, r) ∈ E b
  recv : ∀ r < n, ∀ b s, (infos r).recvInfo b s = some (syncDirection b) ↔ (s, r) ∈ E b
  forward : ∀ b, ∀ e ∈ E b, e.1 < e.2 ∧ e.2 < n
  matching : ∀ b, Matching (E b)
  /-- The debug mode keeps nothing but all-core syncs. -/
  debug : isDebugSync opts → (∀ b, E b = ∅) ∧
    ∀ i < n, ∀ key d, (infos i).crossSyncInfo key = some d → d = .allSync

variable {E : Bool → Set (ℕ × ℕ)}

theorem times_eq_nil {τ : Type*} {time : TaskInfo → τ} {k : QueueOp} {l : List TaskInfo}
    (h : ∀ t ∈ l, spkEntryOp enableDebug q t ≠ k) :
    times (spkEntryOp enableDebug) time k q l = [] := by
  unfold times
  rw [filter_eq_nil_iff.mpr fun t ht => by simpa using h t ht, map_nil]

/-- A stretch of records that only use their own queue, all at one time. -/
structure Plain (enableDebug q : Bool) (n t : ℕ) (l : List TaskInfo) : Prop where
  op : ∀ a ∈ l, spkEntryOp enableDebug q a = .act ∨ spkEntryOp enableDebug q a = .external
  time : ∀ a ∈ l, recordTime n a = t

theorem Plain.times_eq {τ : Type*} {time : TaskInfo → τ} {t : ℕ} {l : List TaskInfo}
    (h : Plain enableDebug q n t l) {k : QueueOp} (hk : k = .set ∨ k = .wait ∨ k = .barrier) :
    times (spkEntryOp enableDebug) time k q l = [] := by
  refine times_eq_nil fun a ha => ?_
  rcases h.op a ha with hop | hop <;> rw [hop] <;> rcases hk with rfl | rfl | rfl <;> decide

/-- The call of a kernel, or the access of an event task. -/
theorem isBody_of_mem_bodyItems {t : TaskInfo} (ht : t ∈ bodyItems opts infos i node q) :
    IsBody t i ∧ (node.nodeType = .nodeKernel → hasPart (infos i).queueType q = true) ∧
      (node.nodeType ≠ .nodeKernel → q = decide ((infos i).queueType = .aic)) := by
  unfold bodyItems at ht
  split at ht
  · next hkernel =>
    unfold funcItems at ht
    split at ht
    · next hpart =>
      have hspec := funcTaskInfo_spec (Option.mem_toList.mp ht)
      exact ⟨⟨hspec.2.1, by simp [hspec.1]⟩, fun _ => hpart, fun h => absurd hkernel h⟩
    · exact absurd ht not_mem_nil
  · next hkernel =>
    split at ht
    · exact absurd ht not_mem_nil
    · next taskType htype =>
      unfold eventItems at ht
      split at ht
      · next hq =>
        have ht := mem_singleton.mp ht
        subst ht
        refine ⟨⟨rfl, ?_⟩, fun h => absurd h hkernel, fun _ => hq⟩
        rcases eventTaskType_eq_some htype with ⟨_, rfl⟩ | ⟨_, rfl⟩ | ⟨_, rfl⟩ <;>
          simp [eventTaskInfo]
      · exact absurd ht not_mem_nil

theorem plain_bodyItems : Plain enableDebug q n (5 * i + 1) (bodyItems opts infos i node q) where
  op _ ha := spkEntryOp_of_type (isBody_of_mem_bodyItems ha).1.type.1
  time _ ha := recordTime_body (isBody_of_mem_bodyItems ha).1

theorem plain_preloadItems : Plain enableDebug q n (5 * i - 3)
    (preloadItems opts tasks infos i q) where
  op a ha := spkEntryOp_of_type (by rw [preloadItems_type ha]; decide)
  time a ha := by
    have htype := preloadItems_type ha
    have hindex : a.index = some i := by
      unfold preloadItems funcItems at ha
      split at ha
      · exact absurd ha not_mem_nil
      · split at ha
        · split at ha
          · exact (funcTaskInfo_spec (Option.mem_toList.mp ha)).2.1
          · exact absurd ha not_mem_nil
        · exact absurd ha not_mem_nil
    simp [recordTime, hindex, htype]

theorem plain_customItems {events : List (SuperKernelBaseNode × SkTaskType × SkQueueType)}
    (hevents : ∀ event ∈ events, ∃ nodeType, eventTaskType nodeType = some event.2.1) :
    Plain enableDebug q n (5 * n) (customItems events q) := by
  have hmem : ∀ a ∈ customItems events q, a.index = none ∧ a.type ≠ .typeSync := by
    intro a ha
    simp only [customItems, mem_flatMap] at ha
    rcases ha with ⟨event, hevent, ha⟩
    unfold eventItems at ha
    split at ha
    · have ha := mem_singleton.mp ha
      subst ha
      refine ⟨rfl, ?_⟩
      rcases hevents event hevent with ⟨nodeType, hnode⟩
      rcases eventTaskType_eq_some hnode with ⟨_, heq⟩ | ⟨_, heq⟩ | ⟨_, heq⟩ <;>
        simp [eventTaskInfo, heq]
    · exact absurd ha not_mem_nil
  exact ⟨fun a ha => spkEntryOp_of_type (hmem a ha).2, fun a ha => by simp [recordTime, (hmem a ha).1]⟩

section Plan

variable (hplan : SyncPlan opts tasks.length infos E) (hi : i < tasks.length)
include hplan hi

theorem SyncPlan.recvItems_eq : recvItems opts tasks infos i q =
    if SyncMap.isEmpty ((infos i).recvInfo (!q)) tasks.length then []
    else [syncTaskInfo opts i (interWaitType q) 0 0 .default] := by
  have hmap : ∀ b, syncItems opts i tasks.length ((infos i).recvInfo b) false q =
      if SyncMap.isEmpty ((infos i).recvInfo b) tasks.length = true ∨ (q = b) ≠ (false = true) then []
      else [syncTaskInfo opts i (interWaitType q) 0 0 .default] := by
    intro b
    refine syncItems_eq false (hplan.values.recv i hi b) fun s s' hs hs' => ?_
    rw [hplan.recv i hi] at hs hs'
    exact congrArg Prod.fst ((hplan.matching b).target _ hs _ hs' rfl)
  have hvec : (infos i).vecRecvInfo = (infos i).recvInfo true := rfl
  have hcub : (infos i).cubRecvInfo = (infos i).recvInfo false := rfl
  unfold recvItems
  rw [hvec, hcub, hmap, hmap]
  cases q <;> simp

theorem SyncPlan.sendItems_eq : sendItems opts tasks infos i q =
    if SyncMap.isEmpty ((infos i).sendInfo q) tasks.length then []
    else [syncTaskInfo opts i (interSetType q) 0 0 .default] := by
  have hmap : ∀ b, syncItems opts i tasks.length ((infos i).sendInfo b) true q =
      if SyncMap.isEmpty ((infos i).sendInfo b) tasks.length = true ∨ (q = b) ≠ (true = true) then []
      else [syncTaskInfo opts i (interSetType q) 0 0 .default] := by
    intro b
    refine syncItems_eq true (hplan.values.send i hi b) fun r r' hr hr' => ?_
    rw [hplan.send i hi] at hr hr'
    exact congrArg Prod.snd ((hplan.matching b).source _ hr _ hr' rfl)
  have hvec : (infos i).vecSendInfo = (infos i).sendInfo false := rfl
  have hcub : (infos i).cubSendInfo = (infos i).sendInfo true := rfl
  unfold sendItems
  rw [hvec, hcub, hmap, hmap]
  cases q <;> simp

theorem SyncPlan.spkEntryOp_send (he : SyncMap.isEmpty ((infos i).sendInfo q) tasks.length ≠ true) :
    spkEntryOp enableDebug q (syncTaskInfo opts i (interSetType q) 0 0 .default) = .set := by
  rw [spkEntryOp_syncTaskInfo]
  · cases q <;> rfl
  · intro hdebug
    refine absurd ?_ he
    rw [SyncMap.isEmpty, List.isEmpty_iff, eq_nil_iff_forall_not_mem]
    intro d hd
    rcases SyncMap.mem_values.mp hd with ⟨r, _, hr⟩
    have hdir := hplan.values.send i hi q r d hr
    rw [hdir, hplan.send i hi, (hplan.debug hdebug).1 q] at hr
    exact hr

theorem SyncPlan.spkEntryOp_recv
    (he : SyncMap.isEmpty ((infos i).recvInfo (!q)) tasks.length ≠ true) :
    spkEntryOp enableDebug q (syncTaskInfo opts i (interWaitType q) 0 0 .default) = .wait := by
  rw [spkEntryOp_syncTaskInfo]
  · cases q <;> rfl
  · intro hdebug
    refine absurd ?_ he
    rw [SyncMap.isEmpty, List.isEmpty_iff, eq_nil_iff_forall_not_mem]
    intro d hd
    rcases SyncMap.mem_values.mp hd with ⟨r, _, hr⟩
    have hdir := hplan.values.recv i hi (!q) r d hr
    rw [hdir, hplan.recv i hi, (hplan.debug hdebug).1 (!q)] at hr
    exact hr

/-- Both keys of the hints. -/
theorem SyncPlan.cross_cases :
    ((infos i).crossSyncInfo 0 = none ∨ (infos i).crossSyncInfo 0 = some .cubToCub ∨
      (infos i).crossSyncInfo 0 = some .allSync) ∧
    ((infos i).crossSyncInfo 1 = none ∨ (infos i).crossSyncInfo 1 = some .vecToVec) := by
  constructor
  · cases hd : (infos i).crossSyncInfo 0 with
    | none => exact .inl rfl
    | some d =>
      rcases (hplan.values.cross i hi 0 d hd).2 with ⟨q, hq, rfl⟩ | rfl
      · cases q
        · exact absurd hq (by decide)
        · exact .inr (.inl rfl)
      · exact .inr (.inr rfl)
  · cases hd : (infos i).crossSyncInfo 1 with
    | none => exact .inl rfl
    | some d =>
      rcases (hplan.values.cross i hi 1 d hd).2 with ⟨q, hq, rfl⟩ | rfl
      · cases q
        · exact .inr rfl
        · exact absurd hq (by decide)
      · exact absurd (hplan.allSync i hi 1 hd) (by decide)

/-- The barriers of a task. -/
theorem SyncPlan.crossItems_spec (enableDebug q : Bool) :
    (∀ a ∈ syncItems opts i 2 (infos i).crossSyncInfo true q, recordTime tasks.length a = 5 * i + 3 ∧
      (spkEntryOp enableDebug q a = .act ∨ spkEntryOp enableDebug q a = .barrier)) ∧
    ((syncItems opts i 2 (infos i).crossSyncInfo true q).filter fun a =>
        spkEntryOp enableDebug q a = .barrier) =
      if (infos i).crossSyncInfo (crossSyncKey true) = some .allSync then
        [syncTaskInfo opts i .allSync 0 0 .default]
      else [] := by
  have hvalues : (infos i).crossSyncInfo.values 2 =
      ((infos i).crossSyncInfo 0).toList ++ ((infos i).crossSyncInfo 1).toList := by
    rw [SyncMap.values]
    cases h₀ : (infos i).crossSyncInfo 0 <;> cases h₁ : (infos i).crossSyncInfo 1 <;>
      simp [range_succ, h₀, h₁]
  have hall : spkEntryOp enableDebug q (syncTaskInfo opts i .allSync 0 0 .default) = .barrier :=
    spkEntryOp_syncTaskInfo fun _ => rfl
  -- a sync between the cores of one queue is left only outside the debug mode
  have hself : ∀ q', (infos i).crossSyncInfo (crossSyncKey q') = some (selfSyncDir q') →
      spkEntryOp enableDebug q (syncTaskInfo opts i (selfSyncType q') 0 0 .default) = .act := by
    intro q' hd
    rw [spkEntryOp_syncTaskInfo fun hdebug =>
      absurd ((hplan.debug hdebug).2 i hi _ _ hd) selfSyncDir_ne_allSync]
    cases q' <;> rfl
  have hcub := hself true
  have hvec := hself false
  simp only [crossSyncKey, selfSyncDir, selfSyncType, if_true, Bool.false_eq_true, if_false]
    at hcub hvec
  have hkey : crossSyncKey true = 0 := rfl
  unfold syncItems
  rw [hvalues, hkey]
  rcases hplan.cross_cases hi with ⟨h₀ | h₀ | h₀, h₁ | h₁⟩ <;> rw [h₀, h₁] <;> cases q <;>
    simp_all [getSyncTypesForDirection, syncTargets, recordTime_syncTaskInfo]

omit hi in
/-- The tasks of a list that set the flag of a direction. -/
theorem SyncPlan.mem_senders (b : Bool) (s : ℕ) :
    (s ∈ (range tasks.length).filter fun i =>
      decide (SyncMap.isEmpty ((infos i).sendInfo b) tasks.length = false)) ↔ ∃ r, (s, r) ∈ E b := by
  rw [mem_filter, mem_range, decide_eq_true_eq, SyncMap.isEmpty, isEmpty_eq_false_iff]
  constructor
  · rintro ⟨hs, hne⟩
    rcases exists_mem_of_ne_nil _ hne with ⟨d, hd⟩
    rcases SyncMap.mem_values.mp hd with ⟨r, _, hr⟩
    have hdir := hplan.values.send s hs b r d hr
    subst hdir
    exact ⟨r, (hplan.send s hs b r).mp hr⟩
  · rintro ⟨r, he⟩
    have hlt := hplan.forward b _ he
    have hs := hlt.1.trans hlt.2
    exact ⟨hs, ne_nil_of_mem (SyncMap.mem_values.mpr
      ⟨r, hlt.2, (hplan.send s hs b r).mpr he⟩)⟩

omit hi in
/-- The tasks of a list that wait for the flag of a direction. -/
theorem SyncPlan.mem_receivers (b : Bool) (r : ℕ) :
    (r ∈ (range tasks.length).filter fun i =>
      decide (SyncMap.isEmpty ((infos i).recvInfo b) tasks.length = false)) ↔ ∃ s, (s, r) ∈ E b := by
  rw [mem_filter, mem_range, decide_eq_true_eq, SyncMap.isEmpty, isEmpty_eq_false_iff]
  constructor
  · rintro ⟨hr, hne⟩
    rcases exists_mem_of_ne_nil _ hne with ⟨d, hd⟩
    rcases SyncMap.mem_values.mp hd with ⟨s, _, hs⟩
    have hdir := hplan.values.recv r hr b s d hs
    subst hdir
    exact ⟨s, (hplan.recv r hr b s).mp hs⟩
  · rintro ⟨s, he⟩
    have hlt := hplan.forward b _ he
    exact ⟨hlt.2, ne_nil_of_mem (SyncMap.mem_values.mpr
      ⟨s, hlt.1.trans hlt.2, (hplan.recv r hlt.2 b s).mpr he⟩)⟩

/-- What the records of a task do, in order of time. -/
theorem SyncPlan.taskItems_spec (hearly : opts.earlyStart ≠ 1) (node : SuperKernelBaseNode)
    (enableDebug q : Bool) :
    Within (recordTime tasks.length) (5 * i) (5 * i + 4) (taskItems opts tasks infos q (node, i)) ∧
    (∀ a ∈ taskItems opts tasks infos q (node, i), spkEntryOp enableDebug q a ≠ .trap) ∧
    times (spkEntryOp enableDebug) (recordTime tasks.length) .set q
        (taskItems opts tasks infos q (node, i)) =
      (if SyncMap.isEmpty ((infos i).sendInfo q) tasks.length then [] else [5 * i + 4]) ∧
    times (spkEntryOp enableDebug) (recordTime tasks.length) .wait q
        (taskItems opts tasks infos q (node, i)) =
      (if SyncMap.isEmpty ((infos i).recvInfo (!q)) tasks.length then [] else [5 * i]) ∧
    ((taskItems opts tasks infos q (node, i)).filter fun a => spkEntryOp enableDebug q a = .barrier) =
      if (infos i).crossSyncInfo (crossSyncKey true) = some .allSync then
        [syncTaskInfo opts i .allSync 0 0 .default]
      else [] := by
  have hearlyItems : ∀ isSend, earlyStartItems opts i (infos i).earlyStartInfo isSend q = [] :=
    fun isSend => by simp [earlyStartItems, hearly]
  have hbody : Plain enableDebug q tasks.length (5 * i + 1) (bodyItems opts infos i node q) :=
    plain_bodyItems
  have hpreload : Plain enableDebug q tasks.length (5 * (i + 1) - 3)
      (preloadItems opts tasks infos (i + 1) q) := plain_preloadItems
  have hcross := hplan.crossItems_spec hi enableDebug q
  have hrecvTime : ∀ a ∈ recvItems opts tasks infos i q, recordTime tasks.length a = 5 * i ∧
      spkEntryOp enableDebug q a = .wait := by
    intro a ha
    rw [hplan.recvItems_eq hi] at ha
    split at ha
    · exact absurd ha not_mem_nil
    · next he =>
      have ha := mem_singleton.mp ha
      subst ha
      refine ⟨?_, hplan.spkEntryOp_recv hi he⟩
      rw [recordTime_syncTaskInfo]
      cases q <;> rfl
  have hsendTime : ∀ a ∈ sendItems opts tasks infos i q, recordTime tasks.length a = 5 * i + 4 ∧
      spkEntryOp enableDebug q a = .set := by
    intro a ha
    rw [hplan.sendItems_eq hi] at ha
    split at ha
    · exact absurd ha not_mem_nil
    · next he =>
      have ha := mem_singleton.mp ha
      subst ha
      refine ⟨?_, hplan.spkEntryOp_send hi he⟩
      rw [recordTime_syncTaskInfo]
      cases q <;> rfl
  have hcrossSet : times (spkEntryOp enableDebug) (recordTime tasks.length) .set q
      (syncItems opts i 2 (infos i).crossSyncInfo true q) = [] :=
    times_eq_nil fun a ha => by rcases (hcross.1 a ha).2 with hop | hop <;> simp [hop]
  have hcrossWait : times (spkEntryOp enableDebug) (recordTime tasks.length) .wait q
      (syncItems opts i 2 (infos i).crossSyncInfo true q) = [] :=
    times_eq_nil fun a ha => by rcases (hcross.1 a ha).2 with hop | hop <;> simp [hop]
  have hrecvNil : ∀ k, k ≠ .wait → times (spkEntryOp enableDebug) (recordTime tasks.length) k q
      (recvItems opts tasks infos i q) = [] := fun k hk =>
    times_eq_nil fun a ha => by rw [(hrecvTime a ha).2]; exact hk.symm
  have hsendNil : ∀ k, k ≠ .set → times (spkEntryOp enableDebug) (recordTime tasks.length) k q
      (sendItems opts tasks infos i q) = [] := fun k hk =>
    times_eq_nil fun a ha => by rw [(hsendTime a ha).2]; exact hk.symm
  have hrecv : times (spkEntryOp enableDebug) (recordTime tasks.length) .wait q
      (recvItems opts tasks infos i q) =
        if SyncMap.isEmpty ((infos i).recvInfo (!q)) tasks.length then [] else [5 * i] := by
    have hall : (recvItems opts tasks infos i q).filter
        (fun a => spkEntryOp enableDebug q a = .wait) = recvItems opts tasks infos i q :=
      filter_eq_self.mpr fun a ha => by simp [(hrecvTime a ha).2]
    rw [times, hall, map_congr_left fun a ha => (hrecvTime a ha).1, hplan.recvItems_eq hi]
    split <;> rfl
  have hsend : times (spkEntryOp enableDebug) (recordTime tasks.length) .set q
      (sendItems opts tasks infos i q) =
        if SyncMap.isEmpty ((infos i).sendInfo q) tasks.length then [] else [5 * i + 4] := by
    have hall : (sendItems opts tasks infos i q).filter
        (fun a => spkEntryOp enableDebug q a = .set) = sendItems opts tasks infos i q :=
      filter_eq_self.mpr fun a ha => by simp [(hsendTime a ha).2]
    rw [times, hall, map_congr_left fun a ha => (hsendTime a ha).1, hplan.sendItems_eq hi]
    split <;> rfl
  unfold taskItems
  simp only [hearlyItems, nil_append]
  refine ⟨?_, fun a ha => ?_, ?_, ?_, ?_⟩
  · have htail := (Within.const fun a ha => (hcross.1 a ha).1).append
      (Within.const fun a ha => (hsendTime a ha).1) (by omega) (by omega) (by omega)
    have hcall := (Within.const hpreload.time).append htail (by omega) (by omega) (by omega)
    have hrest := (Within.const hbody.time).append hcall (by omega) (by omega) (by omega)
    exact (Within.const fun a ha => (hrecvTime a ha).1).append hrest (by omega) (by omega) (by omega)
  · simp only [mem_append] at ha
    rcases ha with ha | ha | ha | ha | ha
    · simp [(hrecvTime a ha).2]
    · rcases hbody.op a ha with hop | hop <;> simp [hop]
    · rcases hpreload.op a ha with hop | hop <;> simp [hop]
    · rcases (hcross.1 a ha).2 with hop | hop <;> simp [hop]
    · simp [(hsendTime a ha).2]
  · simp [times_append, hrecvNil, hbody.times_eq, hpreload.times_eq, hcrossSet, hsend]
  · simp [times_append, hsendNil, hbody.times_eq, hpreload.times_eq, hcrossWait, hrecv]
  · have hnone : ∀ l : List TaskInfo, (∀ a ∈ l, spkEntryOp enableDebug q a ≠ .barrier) →
        (l.filter fun a => spkEntryOp enableDebug q a = .barrier) = [] := fun l hl =>
      filter_eq_nil_iff.mpr fun a ha => by simpa using hl a ha
    rw [filter_append, filter_append, filter_append, filter_append, hcross.2,
      hnone _ fun a ha => by simp [(hrecvTime a ha).2],
      hnone _ fun a ha => by rcases hbody.op a ha with hop | hop <;> simp [hop],
      hnone _ fun a ha => by rcases hpreload.op a ha with hop | hop <;> simp [hop],
      hnone _ fun a ha => by simp [(hsendTime a ha).2]]
    simp

end Plan

/-! ## A whole queue -/

theorem flatMap_zipIdx {α β : Type*} {l : List α} {f : ℕ → List β} :
    (l.zipIdx.flatMap fun a => f a.2) = (range l.length).flatMap f := by
  have hsnd : l.zipIdx.map Prod.snd = range l.length := by
    rw [zipIdx_map_snd, range_eq_range']
  rw [← hsnd, flatMap_map]

theorem flatMap_ite {β : Type*} {l : List ℕ} {p : ℕ → Prop} [DecidablePred p] {f : ℕ → β} :
    (l.flatMap fun i => if p i then [f i] else []) = (l.filter fun i => p i).map f := by
  induction l with
  | nil => rfl
  | cons a l ih =>
    rw [flatMap_cons, ih, filter_cons]
    by_cases ha : p a <;> simp [ha]

theorem zipIdx_pairwise {α : Type*} {l : List α} :
    l.zipIdx.Pairwise fun a a' => 5 * a.2 + 4 ≤ 5 * a'.2 := by
  have hsnd : (l.zipIdx.map Prod.snd).Pairwise (· < ·) := by
    rw [zipIdx_map_snd, ← range_eq_range']
    exact pairwise_lt_range
  refine (pairwise_map.mp hsnd).imp fun {a a'} h => ?_
  omega

section Queue

variable {events : List (SuperKernelBaseNode × SkTaskType × SkQueueType)}
  (hevents : ∀ event ∈ events, ∃ nodeType, eventTaskType nodeType = some event.2.1)
include hevents

/-- The flag and barrier records of a queue are those of its tasks. -/
theorem times_queueItems {τ : Type*} {time : TaskInfo → τ} {k : QueueOp}
    (hk : k = .set ∨ k = .wait ∨ k = .barrier) {p : ℕ → Prop} [DecidablePred p] {f : ℕ → τ}
    (htask : ∀ task ∈ tasks.zipIdx, times (spkEntryOp enableDebug) time k q
      (taskItems opts tasks infos q task) = if p task.2 then [f task.2] else []) :
    times (spkEntryOp enableDebug) time k q (queueItems opts tasks infos events q) =
      ((range tasks.length).filter fun i => p i).map f := by
  have hpreload : Plain enableDebug q tasks.length (5 * 0 - 3) (preloadItems opts tasks infos 0 q) :=
    plain_preloadItems
  have hcustom : Plain enableDebug q tasks.length (5 * tasks.length) (customItems events q) :=
    plain_customItems hevents
  unfold queueItems
  rw [times_append, times_append, hpreload.times_eq hk, hcustom.times_eq hk, nil_append,
    append_nil, times_flatMap, flatMap_def, map_congr_left htask, ← flatMap_def,
    flatMap_zipIdx (f := fun i => if p i then [f i] else []), flatMap_ite]

variable (hplan : SyncPlan opts tasks.length infos E) (hearly : opts.earlyStart ≠ 1)
include hplan hearly

/-- The barriers of a queue, under any reading of the records. -/
theorem SyncPlan.barrier_queueItems {τ : Type*} (time : TaskInfo → τ) (enableDebug q : Bool) :
    times (spkEntryOp enableDebug) time .barrier q (queueItems opts tasks infos events q) =
      ((range tasks.length).filter fun i =>
        (infos i).crossSyncInfo (crossSyncKey true) = some .allSync).map fun i =>
          time (syncTaskInfo opts i .allSync 0 0 .default) := by
  refine times_queueItems hevents (by decide) fun task htask => ?_
  have hget := mem_zipIdx_iff_getElem?.mp htask
  have hspec := hplan.taskItems_spec (List.getElem?_eq_some_iff.mp hget).1 hearly task.1 enableDebug q
  rw [times, hspec.2.2.2.2]
  split <;> rfl

/-- The SETs of a queue. -/
theorem SyncPlan.set_queueItems (enableDebug q : Bool) :
    times (spkEntryOp enableDebug) (recordTime tasks.length) .set q
      (queueItems opts tasks infos events q) = ((range tasks.length).filter fun i =>
        SyncMap.isEmpty ((infos i).sendInfo q) tasks.length = false).map (5 * · + 4) := by
  refine times_queueItems hevents (by decide) fun task htask => ?_
  have hget := mem_zipIdx_iff_getElem?.mp htask
  have hspec := hplan.taskItems_spec (List.getElem?_eq_some_iff.mp hget).1 hearly task.1 enableDebug q
  rw [hspec.2.2.1]
  by_cases he : SyncMap.isEmpty ((infos task.2).sendInfo q) tasks.length = true <;> simp [he]

/-- The WAITs of a queue. -/
theorem SyncPlan.wait_queueItems (enableDebug q : Bool) :
    times (spkEntryOp enableDebug) (recordTime tasks.length) .wait q
      (queueItems opts tasks infos events q) = ((range tasks.length).filter fun i =>
        SyncMap.isEmpty ((infos i).recvInfo (!q)) tasks.length = false).map (5 * ·) := by
  refine times_queueItems hevents (by decide) fun task htask => ?_
  have hget := mem_zipIdx_iff_getElem?.mp htask
  have hspec := hplan.taskItems_spec (List.getElem?_eq_some_iff.mp hget).1 hearly task.1 enableDebug q
  rw [hspec.2.2.2.1]
  by_cases he : SyncMap.isEmpty ((infos task.2).recvInfo (!q)) tasks.length = true <;> simp [he]

/-- The SETs of a queue and the WAITs of the other one belong to the edges of their direction,
place by place. -/
theorem SyncPlan.flag_pairs (enableDebug q : Bool) :
    Forall₂ (fun u w => ∃ s r, (s, r) ∈ E q ∧ u = 5 * s + 4 ∧ w = 5 * r)
      (times (spkEntryOp enableDebug) (recordTime tasks.length) .set q
        (queueItems opts tasks infos events q))
      (times (spkEntryOp enableDebug) (recordTime tasks.length) .wait (!q)
        (queueItems opts tasks infos events (!q))) := by
  have hmatch := (hplan.matching q).forall₂
    (pairwise_lt_range.filter fun i =>
      SyncMap.isEmpty ((infos i).sendInfo q) tasks.length = false)
    (pairwise_lt_range.filter fun i =>
      SyncMap.isEmpty ((infos i).recvInfo q) tasks.length = false)
    (hplan.mem_senders q) (hplan.mem_receivers q)
  rw [hplan.set_queueItems hevents hearly, hplan.wait_queueItems hevents hearly, Bool.not_not,
    forall₂_map_left_iff, forall₂_map_right_iff]
  exact hmatch.imp fun s r he => ⟨s, r, he, rfl, rfl⟩

/-- The SET and the WAIT of an edge stand at the same place. -/
theorem SyncPlan.exists_flag_index (enableDebug : Bool) {s r : ℕ} (he : (s, r) ∈ E q) :
    ∃ i : ℕ, (times (spkEntryOp enableDebug) (recordTime tasks.length) .set q
        (queueItems opts tasks infos events q))[i]? = some (5 * s + 4) ∧
      (times (spkEntryOp enableDebug) (recordTime tasks.length) .wait (!q)
        (queueItems opts tasks infos events (!q)))[i]? = some (5 * r) := by
  have hpairs := hplan.flag_pairs hevents hearly enableDebug q
  have hmem : 5 * s + 4 ∈ times (spkEntryOp enableDebug) (recordTime tasks.length) .set q
      (queueItems opts tasks infos events q) := by
    rw [hplan.set_queueItems hevents hearly, mem_map]
    exact ⟨s, (hplan.mem_senders q s).mpr ⟨r, he⟩, rfl⟩
  rcases mem_iff_getElem.mp hmem with ⟨i, hi, hget⟩
  have hi' := hi
  rw [hpairs.length_eq] at hi'
  rcases (forall₂_iff_get.mp hpairs).2 i hi hi' with ⟨s', r', he', hs', hr'⟩
  rw [get_eq_getElem] at hs' hr'
  -- the source determines the edge
  have htime : 5 * s + 4 = 5 * s' + 4 := hget.symm.trans hs'
  have hs : s = s' := by omega
  subst hs
  have hr : r = r' := congrArg Prod.snd ((hplan.matching q).source _ he _ he' rfl)
  subst hr
  exact ⟨i, by rw [getElem?_eq_getElem hi, hget], by rw [getElem?_eq_getElem hi', hr']⟩

/-- The queues of a plan are scheduled. -/
theorem SyncPlan.scheduled (enableDebug : Bool) :
    Scheduled (spkEntryOp enableDebug) (recordTime tasks.length)
      (queueItems opts tasks infos events) := by
  have hspec : ∀ task ∈ tasks.zipIdx, ∀ q, _ := fun task htask q =>
    hplan.taskItems_spec (by
      have hget := mem_zipIdx_iff_getElem?.mp htask
      exact (List.getElem?_eq_some_iff.mp hget).1) hearly task.1 enableDebug q
  have hpreload : ∀ q, Plain enableDebug q tasks.length (5 * 0 - 3)
      (preloadItems opts tasks infos 0 q) := fun q => plain_preloadItems
  have hcustom : ∀ q, Plain enableDebug q tasks.length (5 * tasks.length) (customItems events q) :=
    fun q => plain_customItems hevents
  refine ⟨fun q => ?_, fun q a ha => ?_, fun q => ?_, ?_⟩
  · have htasks : Within (recordTime tasks.length) 0 (5 * tasks.length)
        (tasks.zipIdx.flatMap (taskItems opts tasks infos q)) := by
      refine Within.flatMap (fun task htask => (hspec task htask q).1) zipIdx_pairwise
        (fun task _ => Nat.zero_le _) fun task htask => ?_
      have hget := mem_zipIdx_iff_getElem?.mp htask
      have hlt := (List.getElem?_eq_some_iff.mp hget).1
      omega
    have htail := htasks.append (Within.const (hcustom q).time) (le_refl _) (Nat.zero_le _)
      (le_refl _)
    exact ((Within.const (hpreload q).time).append htail (by omega) (by omega) (by omega)).sorted
  · unfold queueItems at ha
    rw [mem_append, mem_append] at ha
    rcases ha with ha | ha | ha
    · rcases (hpreload q).op a ha with hop | hop <;> simp [hop]
    · rcases mem_flatMap.mp ha with ⟨task, htask, ha⟩
      exact (hspec task htask q).2.1 a ha
    · rcases (hcustom q).op a ha with hop | hop <;> simp [hop]
  · refine (hplan.flag_pairs hevents hearly enableDebug q).imp fun u w hpair => ?_
    rcases hpair with ⟨s, r, he, rfl, rfl⟩
    have hlt := (hplan.forward q _ he).1
    simp only at hlt
    omega
  · rw [hplan.barrier_queueItems hevents hearly, hplan.barrier_queueItems hevents hearly]

end Queue

end Items

end GraphAutofusion.SuperKernel
