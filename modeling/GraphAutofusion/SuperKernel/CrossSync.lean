import GraphAutofusion.Lib.Fence
import GraphAutofusion.SuperKernel.BuiltSync

/-!
# SuperKernel.CrossSync — barriers behind the kernels of a queue

A kernel runs on many cores, while an event task is executed by one core alone. So a sync between
the cores of the queue has to stand between a kernel and whatever makes its effects
visible: the next kernel, a NOTIFY or RESET, a SET for the other queue.
-/

namespace GraphAutofusion.SuperKernel

open Lib List Option

/-! ## Records -/

def IsFunc (info : TaskInfo) : Prop := info.type = .typeFunc

/-- The sync between the cores of a queue. -/
def selfSyncType (q : Bool) : SkCoreSyncType := if q then .crossSyncAicToAic else .crossSyncAivToAiv

/-- The SET a queue issues for the other one. -/
def interSetType (q : Bool) : SkCoreSyncType :=
  if q then .interSyncSetAicToAiv else .interSyncSetAivToAic

/-- A sync that waits for all cores of the queue. -/
def IsBarrier (q : Bool) (info : TaskInfo) : Prop :=
  info.type = .typeSync ∧
    (info.args = (selfSyncType q).code ∨ info.args = SkCoreSyncType.allSync.code)

/-- Records that must find the earlier kernels of the queue finished on every core. -/
def NeedsBarrier (q : Bool) (info : TaskInfo) : Prop :=
  info.type = .typeFunc ∨ info.type = .typeEventNotify ∨ info.type = .typeEventReset ∨
    info.type = .typeSync ∧ info.args = (interSetType q).code

/-- Between a kernel and a later kernel, event write or SET of the same queue there is a
barrier. -/
def KernelsFenced (skTasks : SkTasks) : Prop :=
  ∀ q, Fenced IsFunc (IsBarrier q) (NeedsBarrier q) (skTasks q).taskInfos

/-! ## The records of one task -/

section Items

variable {opts : TaskOptions} {tasks : List SuperKernelBaseNode} {infos : TaskSyncInfos}
  {node : SuperKernelBaseNode} {i bound : ℕ} {q : Bool}

theorem mem_syncItems {info : SyncMap} {isSend : Bool} {t : TaskInfo} :
    t ∈ syncItems opts i bound info isSend q ↔ ∃ key < bound, ∃ d, info key = some d ∧
      ∃ targets, syncTargets (getSyncTypesForDirection d isSend) = some targets ∧
        (if q then targets.1 else targets.2) = true ∧
        t = syncTaskInfo opts i (getSyncTypesForDirection d isSend) 0 0 .default := by
  simp only [syncItems, mem_flatMap, SyncMap.mem_values]
  constructor
  · rintro ⟨d, ⟨key, hkey, hd⟩, ht⟩
    cases htargets : syncTargets (getSyncTypesForDirection d isSend) with
    | none => simp [htargets] at ht
    | some targets =>
      simp only [htargets] at ht
      by_cases hq : (if q then targets.1 else targets.2) = true
      · rw [if_pos hq] at ht
        exact ⟨key, hkey, d, hd, targets, htargets, hq, mem_singleton.mp ht⟩
      · rw [if_neg hq] at ht
        exact absurd ht not_mem_nil
  · rintro ⟨key, hkey, d, hd, targets, htargets, hq, rfl⟩
    refine ⟨d, ⟨key, hkey, hd⟩, ?_⟩
    simp only [htargets, hq, if_true]
    exact mem_singleton_self _

/-- The directions the builder stores in each map. -/
structure SyncValues (n : ℕ) (infos : TaskSyncInfos) : Prop where
  send : ∀ i < n, ∀ b r d, (infos i).sendInfo b r = some d → d = syncDirection b
  recv : ∀ i < n, ∀ b s d, (infos i).recvInfo b s = some d → d = syncDirection b
  cross : ∀ i < n, ∀ key d, (infos i).crossSyncInfo key = some d →
    key < 2 ∧ ((∃ q, key = crossSyncKey q ∧ d = selfSyncDir q) ∨ d = .allSync)

/-- A barrier of the queue follows the task. -/
def BarrierOn (infos : TaskSyncInfos) (q : Bool) (i : ℕ) : Prop :=
  ∃ key d, (infos i).crossSyncInfo key = some d ∧ (d = selfSyncDir q ∨ d = .allSync)

/-- A SET of the queue follows the task. -/
def SendsOn (n : ℕ) (infos : TaskSyncInfos) (q : Bool) (i : ℕ) : Prop :=
  ∃ r < n, (infos i).sendInfo q r ≠ none

/-- The task is a kernel with a part on the queue. -/
def FuncOn (tasks : List SuperKernelBaseNode) (infos : TaskSyncInfos) (q : Bool) (i : ℕ) : Prop :=
  taskType tasks i = .nodeKernel ∧ hasPart (infos i).queueType q = true

/-- The task is a kernel or writes an event, on the queue. -/
def NeedsOn (tasks : List SuperKernelBaseNode) (infos : TaskSyncInfos) (q : Bool) (i : ℕ) : Prop :=
  (taskType tasks i = .nodeKernel ∨ taskType tasks i = .nodeNotify ∨
    taskType tasks i = .nodeReset) ∧ hasPart (infos i).queueType q = true

variable {s : SkCoreSyncType}

theorem isBarrier_syncTaskInfo :
    IsBarrier q (syncTaskInfo opts i s 0 0 .default) ↔ s = selfSyncType q ∨ s = .allSync := by
  simp [IsBarrier, syncTaskInfo, SkCoreSyncType.code_injective.eq_iff]

theorem needsBarrier_syncTaskInfo :
    NeedsBarrier q (syncTaskInfo opts i s 0 0 .default) ↔ s = interSetType q := by
  simp [NeedsBarrier, syncTaskInfo, SkCoreSyncType.code_injective.eq_iff]

theorem not_isFunc_syncTaskInfo : ¬ IsFunc (syncTaskInfo opts i s 0 0 .default) := by
  simp [IsFunc, syncTaskInfo]

/-- WAITs play no part in fencing. -/
theorem recvItems_neutral (opts : TaskOptions) (q : Bool) (hvalues : SyncValues tasks.length infos) (hi : i < tasks.length) :
    ∀ t ∈ recvItems opts tasks infos i q, ¬ IsFunc t ∧ ¬ IsBarrier q t ∧ ¬ NeedsBarrier q t := by
  have hmap : ∀ b, ∀ t ∈ syncItems opts i tasks.length ((infos i).recvInfo b) false q,
      ¬ IsFunc t ∧ ¬ IsBarrier q t ∧ ¬ NeedsBarrier q t := by
    intro b t ht
    rcases mem_syncItems.mp ht with ⟨s, _, d, hd, targets, _, _, rfl⟩
    have hdir := hvalues.recv i hi b s d hd
    subst hdir
    rw [isBarrier_syncTaskInfo, needsBarrier_syncTaskInfo]
    refine ⟨not_isFunc_syncTaskInfo, ?_, ?_⟩ <;> cases b <;> cases q <;>
      simp [syncDirection, getSyncTypesForDirection, selfSyncType, interSetType]
  intro t ht
  rcases mem_append.mp ht with ht | ht
  · exact hmap true t ht
  · exact hmap false t ht

theorem funcItems_type {taskType : SkTaskType} {queueType : SkQueueType} {e : EarlyStartInfo}
    {t : TaskInfo} (ht : t ∈ funcItems opts node i taskType queueType e q) : t.type = taskType := by
  unfold funcItems at ht
  split at ht
  · exact (funcTaskInfo_spec (mem_toList.mp ht)).1
  · exact absurd ht not_mem_nil

theorem preloadItems_type {t : TaskInfo} (ht : t ∈ preloadItems opts tasks infos i q) :
    t.type = .typePreload := by
  unfold preloadItems at ht
  split at ht
  · exact absurd ht not_mem_nil
  · split at ht
    · exact funcItems_type ht
    · exact absurd ht not_mem_nil

theorem preloadItems_neutral (opts : TaskOptions) (tasks : List SuperKernelBaseNode)
    (infos : TaskSyncInfos) (i : ℕ) (q : Bool) :
    ∀ t ∈ preloadItems opts tasks infos i q, ¬ IsFunc t ∧ ¬ IsBarrier q t ∧ ¬ NeedsBarrier q t := by
  intro t ht
  have htype := preloadItems_type ht
  simp [IsFunc, IsBarrier, NeedsBarrier, htype]

/-- The cross-core syncs of a task. -/
theorem crossItems_spec (opts : TaskOptions) (q : Bool) (hvalues : SyncValues tasks.length infos) (hi : i < tasks.length) :
    (∀ t ∈ syncItems opts i 2 (infos i).crossSyncInfo true q,
      ¬ IsFunc t ∧ ¬ NeedsBarrier q t) ∧
      (HasFence (IsBarrier q) (syncItems opts i 2 (infos i).crossSyncInfo true q) ↔
        BarrierOn infos q i) := by
  constructor
  · intro t ht
    rcases mem_syncItems.mp ht with ⟨key, _, d, hd, targets, _, _, rfl⟩
    rw [needsBarrier_syncTaskInfo]
    refine ⟨not_isFunc_syncTaskInfo, ?_⟩
    rcases (hvalues.cross i hi key d hd).2 with ⟨q', _, rfl⟩ | rfl
    · cases q <;> cases q' <;> simp [selfSyncDir, getSyncTypesForDirection, interSetType]
    · cases q <;> simp [getSyncTypesForDirection, interSetType]
  · constructor
    · rintro ⟨t, ht, hbarrier⟩
      rcases mem_syncItems.mp ht with ⟨key, _, d, hd, targets, _, _, rfl⟩
      rw [isBarrier_syncTaskInfo] at hbarrier
      refine ⟨key, d, hd, ?_⟩
      cases d <;> cases q <;> simp_all [getSyncTypesForDirection, selfSyncType, selfSyncDir]
    · rintro ⟨key, d, hd, hbarrier⟩
      refine ⟨syncTaskInfo opts i (getSyncTypesForDirection d true) 0 0 .default,
        mem_syncItems.mpr ⟨key, (hvalues.cross i hi key d hd).1, d, hd, ?_⟩, ?_⟩
      · rcases hbarrier with rfl | rfl <;> cases q <;>
          simp [selfSyncDir, getSyncTypesForDirection, syncTargets]
      · rw [isBarrier_syncTaskInfo]
        rcases hbarrier with rfl | rfl <;> cases q <;>
          simp [selfSyncDir, getSyncTypesForDirection, selfSyncType]

/-- The SETs of a task. -/
theorem sendItems_spec (opts : TaskOptions) (q : Bool) (hvalues : SyncValues tasks.length infos) (hi : i < tasks.length) :
    (∀ t ∈ sendItems opts tasks infos i q,
      ¬ IsFunc t ∧ ¬ IsBarrier q t ∧ NeedsBarrier q t) ∧
      (sendItems opts tasks infos i q ≠ [] ↔ SendsOn tasks.length infos q i) := by
  have hmap : ∀ b, ∀ t ∈ syncItems opts i tasks.length ((infos i).sendInfo b) true q, b = q ∧
      t = syncTaskInfo opts i (interSetType q) 0 0 .default := by
    intro b t ht
    rcases mem_syncItems.mp ht with ⟨r, _, d, hd, ⟨toAic, toAiv⟩, htargets, hq, rfl⟩
    have hdir := hvalues.send i hi b r d hd
    subst hdir
    cases b <;> cases q <;>
      simp_all [syncDirection, getSyncTypesForDirection, syncTargets, interSetType]
  constructor
  · intro t ht
    have hset : t = syncTaskInfo opts i (interSetType q) 0 0 .default := by
      rcases mem_append.mp ht with ht | ht
      · exact (hmap false t ht).2
      · exact (hmap true t ht).2
    subst hset
    rw [isBarrier_syncTaskInfo, needsBarrier_syncTaskInfo]
    refine ⟨not_isFunc_syncTaskInfo, ?_, rfl⟩
    cases q <;> simp [interSetType, selfSyncType]
  · constructor
    · intro hne
      rcases exists_mem_of_ne_nil _ hne with ⟨t, ht⟩
      have hone : ∃ b, t ∈ syncItems opts i tasks.length ((infos i).sendInfo b) true q := by
        rcases mem_append.mp ht with ht | ht
        · exact ⟨false, ht⟩
        · exact ⟨true, ht⟩
      rcases hone with ⟨b, ht⟩
      have hb := (hmap b t ht).1
      subst hb
      rcases mem_syncItems.mp ht with ⟨r, hr, d, hd, _⟩
      exact ⟨r, hr, by simp [hd]⟩
    · rintro ⟨r, hr, hsome⟩
      rcases ne_none_iff_exists'.mp hsome with ⟨d, hd⟩
      have hdir := hvalues.send i hi q r d hd
      have hmem : syncTaskInfo opts i (getSyncTypesForDirection d true) 0 0 .default ∈
          syncItems opts i tasks.length ((infos i).sendInfo q) true q := by
        refine mem_syncItems.mpr ⟨r, hr, d, hd, ?_⟩
        subst hdir
        cases q <;> simp [syncDirection, getSyncTypesForDirection, syncTargets]
      intro hnil
      have hall : syncTaskInfo opts i (getSyncTypesForDirection d true) 0 0 .default ∈
          sendItems opts tasks infos i q := by
        unfold sendItems
        cases q
        · exact mem_append_left _ hmem
        · exact mem_append_right _ hmem
      rw [hnil] at hall
      exact absurd hall not_mem_nil

/-- An event task goes to one queue. -/
def QueueTypesOk (tasks : List SuperKernelBaseNode) (infos : TaskSyncInfos) : Prop :=
  ∀ i < tasks.length, taskType tasks i ≠ .nodeDefault → taskType tasks i ≠ .nodeKernel →
    ∃ q, (infos i).queueType = eventQueue q

theorem hasPart_eventQueue {q' : Bool} : hasPart (eventQueue q') q = true ↔ q = q' := by
  cases q <;> cases q' <;> simp [eventQueue, hasPart]

theorem taskType_of_getElem? (h : tasks[i]? = some node) : taskType tasks i = node.nodeType := by
  simp [taskType, h]

theorem eventTaskType_eq_some {nodeType : SkNodeType} {taskType : SkTaskType}
    (h : eventTaskType nodeType = some taskType) :
    nodeType = .nodeNotify ∧ taskType = .typeEventNotify ∨
      nodeType = .nodeWait ∧ taskType = .typeEventWait ∨
      nodeType = .nodeReset ∧ taskType = .typeEventReset := by
  cases nodeType <;> simp_all [eventTaskType]

/-- The call or event access of a task. -/
theorem bodyItems_spec (htypes : QueueTypesOk tasks infos) (hget : tasks[i]? = some node)
    (hbuilt : TaskBuilt opts infos (node, i)) :
    (OpenAfter IsFunc (IsBarrier q) (bodyItems opts infos i node q) ↔ FuncOn tasks infos q i) ∧
      ¬ HasFence (IsBarrier q) (bodyItems opts infos i node q) ∧
      (Exposed (IsBarrier q) (NeedsBarrier q) (bodyItems opts infos i node q) ↔
        NeedsOn tasks infos q i) ∧
      Fenced IsFunc (IsBarrier q) (NeedsBarrier q) (bodyItems opts infos i node q) := by
  have hnodeType := taskType_of_getElem? hget
  unfold TaskBuilt at hbuilt
  unfold FuncOn NeedsOn
  rw [hnodeType]
  by_cases hkernel : node.nodeType = .nodeKernel
  · simp only [hkernel, if_true] at hbuilt
    by_cases hpart : hasPart (infos i).queueType q = true
    · rcases hbuilt q hpart with ⟨info, hbody, htype, _⟩
      rw [hbody]
      simp [openAfter_cons, exposed_cons, fenced_cons, hasFence_cons, IsFunc, IsBarrier,
        NeedsBarrier, htype, hkernel, hpart]
    · have hbody : bodyItems opts infos i node q = [] := by
        simp [bodyItems, funcItems, hkernel, hpart]
      rw [hbody]
      simp [hpart]
  · simp only [hkernel, if_false] at hbuilt
    rcases hbuilt with ⟨taskType', htype⟩
    have hdefault : node.nodeType ≠ .nodeDefault := by
      rcases eventTaskType_eq_some htype with ⟨h, _⟩ | ⟨h, _⟩ | ⟨h, _⟩ <;> simp [h]
    rcases htypes i (List.getElem?_eq_some_iff.mp hget).1 (hnodeType ▸ hdefault)
      (hnodeType ▸ hkernel) with ⟨q', hq'⟩
    have htarget : (q = decide ((infos i).queueType = .aic)) ↔ q = q' := by
      rw [hq']
      cases q <;> cases q' <;> simp [eventQueue]
    have hpart : hasPart (infos i).queueType q = true ↔ q = q' := by
      rw [hq', hasPart_eventQueue]
    have hbody : bodyItems opts infos i node q =
        if q = q' then [eventTaskInfo node (some i) taskType'] else [] := by
      simp only [bodyItems, hkernel, if_false, htype, eventItems, htarget]
    rw [hbody, hpart]
    by_cases hq : q = q'
    · have hevent : (eventTaskInfo node (some i) taskType').type = taskType' := rfl
      rcases eventTaskType_eq_some htype with ⟨hnode, rfl⟩ | ⟨hnode, rfl⟩ | ⟨hnode, rfl⟩ <;>
        simp [openAfter_cons, exposed_cons, fenced_cons, hasFence_cons, IsFunc, IsBarrier,
          NeedsBarrier, hevent, hnode, hq]
    · simp [hq]

/-- What the records of one task open, close and expose. -/
theorem taskItems_spec (hearly : opts.earlyStart ≠ 1) (hvalues : SyncValues tasks.length infos)
    (htypes : QueueTypesOk tasks infos) (hget : tasks[i]? = some node)
    (hbuilt : TaskBuilt opts infos (node, i)) :
    (OpenAfter IsFunc (IsBarrier q) (taskItems opts tasks infos q (node, i)) ↔
        FuncOn tasks infos q i ∧ ¬ BarrierOn infos q i) ∧
      (HasFence (IsBarrier q) (taskItems opts tasks infos q (node, i)) ↔ BarrierOn infos q i) ∧
      (Exposed (IsBarrier q) (NeedsBarrier q) (taskItems opts tasks infos q (node, i)) ↔
        NeedsOn tasks infos q i ∨ ¬ BarrierOn infos q i ∧ SendsOn tasks.length infos q i) ∧
      (Fenced IsFunc (IsBarrier q) (NeedsBarrier q) (taskItems opts tasks infos q (node, i)) ↔
        (FuncOn tasks infos q i → ¬ BarrierOn infos q i → ¬ SendsOn tasks.length infos q i)) := by
  have hi := (List.getElem?_eq_some_iff.mp hget).1
  have hrecv := neutral_of_forall (recvItems_neutral opts q hvalues hi)
  have hpreload := neutral_of_forall
    (preloadItems_neutral opts tasks infos (i + 1) q)
  have hbody := bodyItems_spec (q := q) htypes hget hbuilt
  have hcross := crossItems_spec opts q hvalues hi
  have hsend := sendItems_spec opts q hvalues hi
  have hcrossParts : ¬ OpenAfter IsFunc (IsBarrier q)
        (syncItems opts i 2 (infos i).crossSyncInfo true q) ∧
      ¬ Exposed (IsBarrier q) (NeedsBarrier q) (syncItems opts i 2 (infos i).crossSyncInfo true q) ∧
      Fenced IsFunc (IsBarrier q) (NeedsBarrier q)
        (syncItems opts i 2 (infos i).crossSyncInfo true q) := by
    refine ⟨?_, ?_, ?_⟩
    · rintro ⟨k, x, hx, hfunc, _⟩
      exact (hcross.1 x (mem_of_getElem? hx)).1 hfunc
    · rintro ⟨k, x, hx, hneeds, _⟩
      exact (hcross.1 x (mem_of_getElem? hx)).2 hneeds
    · intro k l x y hx _ _ hfunc
      exact absurd hfunc (hcross.1 x (mem_of_getElem? hx)).1
  have hsendParts : ¬ OpenAfter IsFunc (IsBarrier q) (sendItems opts tasks infos i q) ∧
      ¬ HasFence (IsBarrier q) (sendItems opts tasks infos i q) ∧
      (Exposed (IsBarrier q) (NeedsBarrier q) (sendItems opts tasks infos i q) ↔
        SendsOn tasks.length infos q i) ∧
      Fenced IsFunc (IsBarrier q) (NeedsBarrier q) (sendItems opts tasks infos i q) := by
    refine ⟨?_, ?_, ?_, ?_⟩
    · rintro ⟨k, x, hx, hfunc, _⟩
      exact (hsend.1 x (mem_of_getElem? hx)).1 hfunc
    · rintro ⟨x, hx, hbarrier⟩
      exact (hsend.1 x hx).2.1 hbarrier
    · rw [← hsend.2]
      constructor
      · rintro ⟨k, x, hx, _⟩ hnil
        rw [hnil] at hx
        exact absurd hx (by simp)
      · intro hne
        cases hitems : sendItems opts tasks infos i q with
        | nil => exact absurd hitems hne
        | cons x l =>
          have hx := hsend.1 x (by rw [hitems]; exact mem_cons_self)
          exact exposed_cons.mpr (.inl hx.2.2)
    · intro k l x y hx _ _ hfunc
      exact absurd hfunc (hsend.1 x (mem_of_getElem? hx)).1
  have hearlyItems : ∀ isSend, earlyStartItems opts i (infos i).earlyStartInfo isSend q = [] :=
    fun isSend => by simp [earlyStartItems, hearly]
  unfold taskItems
  simp only [hearlyItems, nil_append, openAfter_append, hasFence_append, exposed_append,
    fenced_append, hrecv, hpreload, hbody, hcrossParts, hcross.2, hsendParts, false_and, false_or,
    or_false, not_false_eq_true, true_and, and_true, not_and, iff_self]

end Items

/-! ## A whole queue -/

section Queue

variable {opts : TaskOptions} {g : SuperKernelGraph} {tasks customTasks : List SuperKernelBaseNode}
  {infos : TaskSyncInfos} {events : List (SuperKernelBaseNode × SkTaskType × SkQueueType)}
  {q : Bool}

/-- `KernelsFenced` for one queue, in terms of the tasks. -/
def FencedTasks (tasks : List SuperKernelBaseNode) (infos : TaskSyncInfos) (q : Bool) : Prop :=
  (∀ i < tasks.length, FuncOn tasks infos q i → ¬ BarrierOn infos q i →
    ¬ SendsOn tasks.length infos q i) ∧
  ∀ i j, i < j → j < tasks.length → FuncOn tasks infos q i → ¬ BarrierOn infos q i →
    (NeedsOn tasks infos q j ∨ ¬ BarrierOn infos q j ∧ SendsOn tasks.length infos q j) →
      ∃ k, i < k ∧ k < j ∧ BarrierOn infos q k

theorem customEvents_spec {cache : KernelNodeCache} {custom : List SuperKernelBaseNode}
    (h : customEvents g tasks custom cache = some events) :
    (custom = [] → events = []) ∧ ∀ event ∈ events, ∃ nodeType,
      eventTaskType nodeType = some event.2.1 := by
  induction custom generalizing cache events with
  | nil =>
    have hnil : events = [] := by simpa [customEvents, eq_comm] using h
    subst hnil
    exact ⟨fun _ => rfl, fun event hevent => absurd hevent not_mem_nil⟩
  | cons node rest ih =>
    simp only [customEvents, bind_eq_bind, bind_eq_some_iff, some.injEq] at h
    rcases h with ⟨found, _, taskType', htype, events', hrest, rfl⟩
    refine ⟨fun hnil => absurd hnil (cons_ne_nil node rest), fun event hevent => ?_⟩
    rcases mem_cons.mp hevent with rfl | hevent
    · exact ⟨node.nodeType, htype⟩
    · exact (ih hrest).2 event hevent

theorem customItems_not_isFunc
    (hevents : ∀ event ∈ events, ∃ nodeType, eventTaskType nodeType = some event.2.1) :
    ∀ t ∈ customItems events q, ¬ IsFunc t := by
  intro t ht hfunc
  simp only [customItems, mem_flatMap] at ht
  rcases ht with ⟨event, hevent, ht⟩
  unfold eventItems at ht
  split at ht
  · have ht := mem_singleton.mp ht
    subst ht
    have htype : event.2.1 = .typeFunc := hfunc
    rcases hevents event hevent with ⟨nodeType, hnode⟩
    rcases eventTaskType_eq_some hnode with ⟨_, heq⟩ | ⟨_, heq⟩ | ⟨_, heq⟩ <;>
      simp [heq] at htype
  · exact absurd ht not_mem_nil

theorem zipIdx_map_getElem? {α β : Type*} {f : α × ℕ → β} {l : List α} {i : ℕ} {x : β} :
    (l.zipIdx.map f)[i]? = some x ↔ ∃ a, l[i]? = some a ∧ x = f (a, i) := by
  simp [getElem?_zipIdx, eq_comm]

/-- A built queue is fenced exactly when its tasks are. -/
theorem fenced_queueItems (hearly : opts.earlyStart ≠ 1) (hvalues : SyncValues tasks.length infos)
    (htypes : QueueTypesOk tasks infos) (hbuilt : ∀ task ∈ tasks.zipIdx, TaskBuilt opts infos task)
    (hevents : customEvents g tasks customTasks (fun _ => none) = some events)
    (hcustom : customTasks ≠ [] → 0 < tasks.length ∧ BarrierOn infos q (tasks.length - 1)) :
    Fenced IsFunc (IsBarrier q) (NeedsBarrier q) (queueItems opts tasks infos events q) ↔
      FencedTasks tasks infos q := by
  have hspec : ∀ {i : ℕ} {node : SuperKernelBaseNode}, tasks[i]? = some node → _ := fun hget =>
    taskItems_spec (q := q) hearly hvalues htypes hget
      (hbuilt _ (mem_zipIdx_iff_getElem?.mpr (by simpa using hget)))
  have hpreload := neutral_of_forall
    (preloadItems_neutral opts tasks infos 0 q)
  have hnofunc := customItems_not_isFunc (q := q) (customEvents_spec hevents).2
  have hcustomFenced : Fenced IsFunc (IsBarrier q) (NeedsBarrier q) (customItems events q) :=
    fun i j x y hx _ _ hfunc => absurd hfunc (hnofunc x (mem_of_getElem? hx))
  -- an all-core sync stands between the tasks and the custom tasks
  have hgap : ¬ (OpenAfter IsFunc (IsBarrier q)
      (tasks.zipIdx.flatMap (taskItems opts tasks infos q)) ∧
        Exposed (IsBarrier q) (NeedsBarrier q) (customItems events q)) := by
    rintro ⟨hopen, hexposed⟩
    by_cases hnil : customTasks = []
    · rw [(customEvents_spec hevents).1 hnil] at hexposed
      exact not_exposed_nil hexposed
    rcases hcustom hnil with ⟨hpos, hbarrier⟩
    rcases eq_nil_or_concat' tasks with hempty | ⟨front, last, hconcat⟩
    · simp [hempty] at hpos
    have hlen : tasks.length - 1 = front.length := by simp [hconcat]
    have hget : tasks[front.length]? = some last := by simp [hconcat]
    rw [hlen] at hbarrier
    have hzip : tasks.zipIdx = front.zipIdx ++ [(last, front.length)] := by
      rw [hconcat, zipIdx_append]
      simp
    rw [hzip, flatMap_append, openAfter_append] at hopen
    simp only [flatMap_cons, flatMap_nil, append_nil, (hspec hget).1,
      (hspec hget).2.1] at hopen
    rcases hopen with hopen | hopen
    · exact hopen.2 hbarrier
    · exact hopen.2 hbarrier
  unfold queueItems
  rw [fenced_append, fenced_append]
  simp only [hpreload, hcustomFenced, hgap, not_false_eq_true, true_and, and_true, false_and]
  rw [flatMap_def, fenced_flatten]
  unfold FencedTasks
  refine and_congr ?_ ?_
  · constructor
    · intro hall i hi
      have hget := getElem?_eq_getElem hi
      refine (hspec hget).2.2.2.mp (hall _ ?_)
      exact mem_of_getElem? (zipIdx_map_getElem?.mpr ⟨_, hget, rfl⟩)
    · intro hall items hitems
      rcases mem_iff_getElem?.mp hitems with ⟨i, hi⟩
      rcases zipIdx_map_getElem?.mp hi with ⟨node, hget, rfl⟩
      exact (hspec hget).2.2.2.mpr (hall i (List.getElem?_eq_some_iff.mp hget).1)
  · constructor
    · intro hfenced i j hij hj hfunc hopen hneeds
      have hgetj := getElem?_eq_getElem hj
      have hgeti := getElem?_eq_getElem (hij.trans hj)
      rcases hfenced i j _ _ (zipIdx_map_getElem?.mpr ⟨_, hgeti, rfl⟩)
        (zipIdx_map_getElem?.mpr ⟨_, hgetj, rfl⟩) hij ((hspec hgeti).1.mpr ⟨hfunc, hopen⟩)
        ((hspec hgetj).2.2.1.mpr hneeds) with ⟨k, items, hik, hkj, hk, hfence⟩
      rcases zipIdx_map_getElem?.mp hk with ⟨node, hget, rfl⟩
      exact ⟨k, hik, hkj, (hspec hget).2.1.mp hfence⟩
    · intro hall i j x y hx hy hij hopen hexposed
      rcases zipIdx_map_getElem?.mp hx with ⟨nodei, hgeti, rfl⟩
      rcases zipIdx_map_getElem?.mp hy with ⟨nodej, hgetj, rfl⟩
      have hj := (List.getElem?_eq_some_iff.mp hgetj).1
      have hopen := (hspec hgeti).1.mp hopen
      rcases hall i j hij hj hopen.1 hopen.2 ((hspec hgetj).2.2.1.mp hexposed) with
        ⟨k, hik, hkj, hbarrier⟩
      have hgetk := getElem?_eq_getElem (hkj.trans hj)
      exact ⟨k, _, hik, hkj, zipIdx_map_getElem?.mpr ⟨_, hgetk, rfl⟩,
        (hspec hgetk).2.1.mpr hbarrier⟩

end Queue

/-! ## When the barriers that remain suffice -/

/-- A kernel `k` loses its hint to the WAIT `w`, although the event write `m` of the same queue
stands between the two. -/
structure DropsNeededHint (types : ℕ → SkQueueType) (off : ℕ) (group : List SuperKernelBaseNode)
    (q : Bool) (k m w : ℕ) : Prop where
  kernel_lt_write : k < m
  write_lt_wait : m < w
  wait_lt : w < group.length
  kernel : taskType group k = .nodeKernel ∧ hasPart (types (off + k)) q = true
  noSet : ∀ r, (k, r) ∉ groupEdges types group off q
  write : (taskType group m = .nodeNotify ∨ taskType group m = .nodeReset) ∧
    hasPart (types (off + m)) q = true
  wait : taskType group w = .nodeWait ∧ hasPart (types (off + w)) q = true
  between : ∀ j, k < j → j < w → hasPart (types (off + j)) q = true →
    taskType group j ≠ .nodeKernel ∧ taskType group j ≠ .nodeWait

/-- No group drops a hint before an event write, and a kernel at the very end that no
all-core sync follows sets no flag. -/
def BarriersKept (opts : TaskOptions) (g : SuperKernelGraph)
    (tasks customTasks : List SuperKernelBaseNode) : Prop :=
  isDebugSync opts ∨ ∀ pre group post, syncGroups opts tasks = pre ++ group :: post → ∀ q,
    (∀ k m w, ¬ DropsNeededHint (queueTypeAt g tasks) pre.flatten.length group q k m w) ∧
    ∀ k < group.length, taskType group k = .nodeKernel →
      pre.flatten.length + k + 1 = tasks.length →
        ¬ AllSyncAfter tasks.length (!customTasks.isEmpty) pre group post k →
          ∀ r, (k, r) ∉ groupEdges (queueTypeAt g tasks) group pre.flatten.length q

/-- What a successful build says about its tasks. -/
structure BuiltTasks (opts : TaskOptions) (g : SuperKernelGraph)
    (tasks customTasks : List SuperKernelBaseNode) (infos : TaskSyncInfos) : Prop where
  sync : ∀ pre group post, syncGroups opts tasks = pre ++ group :: post →
    GroupSync (queueTypeAt g tasks) tasks.length (!customTasks.isEmpty) pre group post infos
  known : ∀ i < tasks.length, taskType tasks i = .nodeKernel ∨ taskType tasks i = .nodeNotify ∨
    taskType tasks i = .nodeReset ∨ taskType tasks i = .nodeWait
  types : ∀ i < tasks.length, queueTypeAt g tasks i ≠ .unknown
  event : ∀ i < tasks.length, taskType tasks i ≠ .nodeKernel →
    ∃ q, queueTypeAt g tasks i = eventQueue q

section Groups

variable {opts : TaskOptions} {g : SuperKernelGraph} {tasks customTasks group : List SuperKernelBaseNode}
  {infos : TaskSyncInfos} {pre post : List (List SuperKernelBaseNode)} {j k : ℕ} {q : Bool}

theorem selfSyncDir_inj {q' : Bool} : selfSyncDir q = selfSyncDir q' ↔ q = q' := by
  cases q <;> cases q' <;> simp [selfSyncDir]

theorem selfSyncDir_ne_allSync : selfSyncDir q ≠ .allSync := by
  cases q <;> simp [selfSyncDir]

/-- The position in the whole list of a position in a group. -/
theorem lt_of_group (hgroups : syncGroups opts tasks = pre ++ group :: post)
    (hj : j < group.length) : pre.flatten.length + j < tasks.length := by
  have hflat : (pre ++ group :: post).flatten = tasks := by
    rw [← hgroups, flatten_syncGroups]
  rw [← hflat, flatten_append, flatten_cons, length_append, length_append]
  omega

theorem taskType_group (hgroups : syncGroups opts tasks = pre ++ group :: post)
    (hj : j < group.length) : taskType tasks (pre.flatten.length + j) = taskType group j := by
  have hflat : (pre ++ group :: post).flatten = tasks := by
    rw [← hgroups, flatten_syncGroups]
  rw [← hflat]
  exact taskType_flatten hj

theorem GroupSync.barrierOn_iff
    (h : GroupSync (queueTypeAt g tasks) tasks.length (!customTasks.isEmpty) pre group post infos)
    (hj : j < group.length) : BarrierOn infos q (pre.flatten.length + j) ↔
      AllSyncAfter tasks.length (!customTasks.isEmpty) pre group post j ∨
        HintKept (queueTypeAt g tasks) tasks.length pre group q j := by
  unfold BarrierOn
  simp only [h.cross j hj]
  constructor
  · rintro ⟨key, d, ⟨hall, _⟩ | ⟨_, q', _, rfl, hkept⟩, hd⟩
    · exact .inl hall
    · rcases hd with hd | hd
      · exact .inr (selfSyncDir_inj.mp hd ▸ hkept)
      · exact absurd hd selfSyncDir_ne_allSync
  · intro hor
    by_cases hall : AllSyncAfter tasks.length (!customTasks.isEmpty) pre group post j
    · exact ⟨_, _, .inl ⟨hall, rfl, rfl⟩, .inr rfl⟩
    · exact ⟨_, _, .inr ⟨hall, q, rfl, rfl, hor.resolve_left hall⟩, .inl rfl⟩

theorem GroupSync.sendsOn_iff
    (h : GroupSync (queueTypeAt g tasks) tasks.length (!customTasks.isEmpty) pre group post infos)
    (hgroups : syncGroups opts tasks = pre ++ group :: post) (hj : j < group.length) :
    SendsOn tasks.length infos q (pre.flatten.length + j) ↔ ¬ (post ≠ [] ∧ j + 1 = group.length) ∧
      ∃ r, (j, r) ∈ groupEdges (queueTypeAt g tasks) group pre.flatten.length q := by
  constructor
  · rintro ⟨r, _, hsome⟩
    rcases ne_none_iff_exists'.mp hsome with ⟨d, hd⟩
    rcases (h.send j hj q r d).mp hd with ⟨_, hlast, r', _, he⟩
    exact ⟨hlast, r', he⟩
  · rintro ⟨hlast, r', he⟩
    refine ⟨pre.flatten.length + r', lt_of_group hgroups (bounded_groupEdges _ q _ he).2, ?_⟩
    rw [(h.send j hj q _ _).mpr ⟨rfl, hlast, r', rfl, he⟩]
    simp

section

variable (h : BuiltTasks opts g tasks customTasks infos)
include h

/-- An edge starts at a task with a part on the sending queue. -/
theorem BuiltTasks.part_of_edge (hgroups : syncGroups opts tasks = pre ++ group :: post) {r : ℕ}
    (he : (j, r) ∈ groupEdges (queueTypeAt g tasks) group pre.flatten.length q) :
    hasPart (queueTypeAt g tasks (pre.flatten.length + j)) q = true := by
  have hbound := bounded_groupEdges pre.flatten.length q _ he
  have hdep := pruned_subset he
  exact (hasPart_of_needsEdge (h.types _ (lt_of_group hgroups hbound.1))
    (h.types _ (lt_of_group hgroups hbound.2)) hdep.2).1

omit h in
/-- Only kernels have edges that may point backward. -/
theorem lt_of_edge_of_not_kernel (hnodup : (group.map (·.nodeId)).Nodup) {types : ℕ → SkQueueType}
    {off r : ℕ} (he : (j, r) ∈ groupEdges types group off q)
    (hkernel : taskType group j ≠ .nodeKernel) : j < r := by
  have hdep := pruned_subset he
  rcases mem_append.mp hdep.1 with hintra | hinter
  · exact (intraStreamDeps_lt hintra).1
  · rcases mem_interStreamDeps.mp hinter with ⟨t, ht, hnode, _, _, hindex, _⟩
    refine absurd ?_ hkernel
    have hfound := find?_some hindex
    rcases (Option.any_eq_true _ _).mp hfound with ⟨t', ht', hid⟩
    have hsame : t' = t := inj_on_of_nodup_map hnodup (mem_of_getElem? ht') ht
      (by simpa using hid)
    rw [taskType_of_getElem? ht', hsame, hnode]

/-- A kernel without a barrier behind it ends the list, or gave its hint up to a WAIT. -/
theorem BuiltTasks.of_not_barrierOn (hgroups : syncGroups opts tasks = pre ++ group :: post)
    (hk : k < group.length) (hkernel : taskType group k = .nodeKernel)
    (hpart : hasPart (queueTypeAt g tasks (pre.flatten.length + k)) q = true)
    (hopen : ¬ BarrierOn infos q (pre.flatten.length + k)) :
    ¬ AllSyncAfter tasks.length (!customTasks.isEmpty) pre group post k ∧
      (pre.flatten.length + k + 1 = tasks.length ∨
        HintErased group (fun j => queueTypeAt g tasks (pre.flatten.length + j))
          (groupEdges (queueTypeAt g tasks) group pre.flatten.length) q group.length k) := by
  rw [(h.sync _ _ _ hgroups).barrierOn_iff hk, not_or] at hopen
  refine ⟨hopen.1, ?_⟩
  by_contra hnone
  rw [not_or] at hnone
  have hlt := lt_of_group hgroups hk
  exact hopen.2 ⟨by simp [hkernel], by simp [hkernel], by omega, hpart, hnone.2⟩

omit h in
/-- The first WAIT behind a kernel that gave its hint up: no kernel and no WAIT of the queue
stands between the two. -/
theorem exists_first_wait {types : ℕ → SkQueueType} {E : Bool → Set (ℕ × ℕ)}
    (h : HintErased group types E q group.length k)
    (hevent : ∀ j < group.length, taskType group j = .nodeWait → ∃ q', types j = eventQueue q') :
    ∃ w, k < w ∧ w < group.length ∧ taskType group w = .nodeWait ∧ hasPart (types w) q = true ∧
      ∀ j, k < j → j < w → hasPart (types j) q = true →
        taskType group j ≠ .nodeKernel ∧ taskType group j ≠ .nodeWait := by
  rcases h.2 with ⟨w, hw, hwait, htype, hlast⟩
  have hex : ∃ w, k < w ∧ taskType group w = .nodeWait ∧ types w = eventQueue q :=
    ⟨w, hlast.lt, hwait, htype⟩
  classical
  rcases Nat.find_spec hex with ⟨hlt, hfirst, hfirstType⟩
  have hle : Nat.find hex ≤ w := Nat.find_le_iff hex w |>.mpr ⟨w, le_refl w, hlast.lt, hwait, htype⟩
  refine ⟨Nat.find hex, hlt, by omega, hfirst, by rw [hfirstType, hasPart_eventQueue], ?_⟩
  intro j hkj hj hpart
  refine ⟨fun hkernel => ?_, fun hjwait => ?_⟩
  · exact absurd hpart (by simp [hlast.last j hkj (by omega) hkernel])
  · rcases hevent j (by omega) hjwait with ⟨q', hq'⟩
    have hq : q = q' := by
      rw [hq'] at hpart
      exact hasPart_eventQueue.mp hpart
    exact Nat.find_min hex hj ⟨hkj, hjwait, hq ▸ hq'⟩

/-- From the conditions on the groups to the barriers of a queue. -/
theorem BuiltTasks.fencedTasks
    (hinfos : ∀ i < tasks.length, (infos i).queueType = queueTypeAt g tasks i)
    (hnodup : (tasks.map (·.nodeId)).Nodup)
    (hkept : ∀ pre group post, syncGroups opts tasks = pre ++ group :: post →
      (∀ k m w, ¬ DropsNeededHint (queueTypeAt g tasks) pre.flatten.length group q k m w) ∧
      ∀ k < group.length, taskType group k = .nodeKernel →
        pre.flatten.length + k + 1 = tasks.length →
          ¬ AllSyncAfter tasks.length (!customTasks.isEmpty) pre group post k →
            ∀ r, (k, r) ∉ groupEdges (queueTypeAt g tasks) group pre.flatten.length q) :
    FencedTasks tasks infos q := by
  -- the tasks of the queue behind a kernel without a barrier, up to its WAIT
  have hquiet : ∀ {pre group post k}, syncGroups opts tasks = pre ++ group :: post →
      k < group.length → FuncOn tasks infos q (pre.flatten.length + k) →
      ¬ BarrierOn infos q (pre.flatten.length + k) →
      ¬ SendsOn tasks.length infos q (pre.flatten.length + k) ∧
      ∀ j, pre.flatten.length + k < j → j < tasks.length →
        (∃ l, pre.flatten.length + k < l ∧ l < j ∧ BarrierOn infos q l) ∨
        ¬ NeedsOn tasks infos q j ∧ (BarrierOn infos q j ∨ ¬ SendsOn tasks.length infos q j) := by
    intro pre group post k hgroups hk hfunc hopen
    have hi := lt_of_group hgroups hk
    have hsync := h.sync _ _ _ hgroups
    rw [FuncOn, taskType_group hgroups hk, hinfos _ hi] at hfunc
    rcases h.of_not_barrierOn hgroups hk hfunc.1 hfunc.2 hopen with ⟨hall, hend | herased⟩
    · refine ⟨fun hsends => ?_, fun j hj hlt => by omega⟩
      rcases (hsync.sendsOn_iff hgroups hk).mp hsends with ⟨_, r, he⟩
      exact (hkept _ _ _ hgroups).2 k hk hfunc.1 hend hall r he
    refine ⟨fun hsends => ?_, ?_⟩
    · rcases (hsync.sendsOn_iff hgroups hk).mp hsends with ⟨_, r, he⟩
      exact herased.1 r he
    have hevent : ∀ j < group.length, taskType group j = .nodeWait →
        ∃ q', queueTypeAt g tasks (pre.flatten.length + j) = eventQueue q' := by
      intro j hj hwait
      refine h.event _ (lt_of_group hgroups hj) ?_
      rw [taskType_group hgroups hj, hwait]
      simp
    rcases exists_first_wait herased hevent with ⟨w, hkw, hw, hwait, hwpart, hbetween⟩
    have hquietTask : ∀ l, k < l → l < w →
        ¬ hasPart (queueTypeAt g tasks (pre.flatten.length + l)) q = true := by
      intro l hkl hlw hpart
      have hl : l < group.length := hlw.trans hw
      have htype := hbetween l hkl hlw hpart
      have hknown := h.known _ (lt_of_group hgroups hl)
      rw [taskType_group hgroups hl] at hknown
      have hwrite : taskType group l = .nodeNotify ∨ taskType group l = .nodeReset := by
        rcases hknown with hl | hl | hl | hl
        · exact absurd hl htype.1
        · exact .inl hl
        · exact .inr hl
        · exact absurd hl htype.2
      exact (hkept _ _ _ hgroups).1 k l w
        ⟨hkl, hlw, hw, hfunc, herased.1, ⟨hwrite, hpart⟩, ⟨hwait, hwpart⟩, hbetween⟩
    -- the WAIT keeps its own hint, unless it ends the list
    have hwaitBarrier : pre.flatten.length + w + 1 < tasks.length →
        BarrierOn infos q (pre.flatten.length + w) := by
      intro hlt
      refine (hsync.barrierOn_iff hw).mpr (.inr ⟨by simp [hwait], by simp [hwait], hlt, hwpart, ?_⟩)
      rintro ⟨_, _, _, _, _, hlast⟩
      exact absurd (hwait.symm.trans hlast.kernel) (by simp)
    intro j hkj hj
    by_cases hjw : j < pre.flatten.length + w
    · have hpos : pre.flatten.length + (j - pre.flatten.length) = j := by omega
      have hnot := hquietTask (j - pre.flatten.length) (by omega) (by omega)
      rw [hpos] at hnot
      refine .inr ⟨fun hneeds => hnot (hinfos j hj ▸ hneeds.2), .inr fun hsends => ?_⟩
      have hlocal : j - pre.flatten.length < group.length := by omega
      rw [← hpos] at hsends
      rcases (hsync.sendsOn_iff hgroups hlocal).mp hsends with ⟨_, r, he⟩
      exact hquietTask _ (by omega) (by omega) (h.part_of_edge hgroups he)
    by_cases heq : j = pre.flatten.length + w
    · subst heq
      refine .inr ⟨fun hneeds => ?_, ?_⟩
      · have htype := hneeds.1
        rw [taskType_group hgroups hw, hwait] at htype
        simp at htype
      · by_cases hlt : pre.flatten.length + w + 1 < tasks.length
        · exact .inl (hwaitBarrier hlt)
        · refine .inr fun hsends => ?_
          rcases (hsync.sendsOn_iff hgroups hw).mp hsends with ⟨_, r, he⟩
          have hgroupNodup : (group.map (·.nodeId)).Nodup := by
            have hsub : group.Sublist tasks := by
              rw [← flatten_syncGroups opts tasks, hgroups, flatten_append,
                flatten_cons]
              exact (sublist_append_left _ _).trans (sublist_append_right _ _)
            exact (hsub.map _).nodup hnodup
          have hbackward := lt_of_edge_of_not_kernel hgroupNodup he (by simp [hwait])
          have hr := lt_of_group hgroups (bounded_groupEdges _ q _ he).2
          simp only at hr
          omega
    · exact .inl ⟨_, by omega, by omega, hwaitBarrier (by omega)⟩
  constructor
  · intro i hi hfunc hopen
    rcases exists_syncGroup opts hi with ⟨pre, group, post, k, hgroups, hk, rfl⟩
    exact (hquiet hgroups hk hfunc hopen).1
  · intro i j hij hj hfunc hopen hneeds
    rcases exists_syncGroup opts (hij.trans hj) with ⟨pre, group, post, k, hgroups, hk, rfl⟩
    rcases (hquiet hgroups hk hfunc hopen).2 j hij hj with hbarrier | ⟨hnot, hquietj⟩
    · exact hbarrier
    · rcases hneeds with hneeds | ⟨hopenj, hsends⟩
      · exact absurd hneeds hnot
      · rcases hquietj with hbarrier | hnosend
        · exact absurd hbarrier hopenj
        · exact absurd hsends hnosend

/-- From the barriers of a queue to the conditions on the groups. -/
theorem BuiltTasks.of_fencedTasks
    (hinfos : ∀ i < tasks.length, (infos i).queueType = queueTypeAt g tasks i)
    (hfenced : FencedTasks tasks infos q) (hgroups : syncGroups opts tasks = pre ++ group :: post) :
    (∀ k m w, ¬ DropsNeededHint (queueTypeAt g tasks) pre.flatten.length group q k m w) ∧
    ∀ k < group.length, taskType group k = .nodeKernel →
      pre.flatten.length + k + 1 = tasks.length →
        ¬ AllSyncAfter tasks.length (!customTasks.isEmpty) pre group post k →
          ∀ r, (k, r) ∉ groupEdges (queueTypeAt g tasks) group pre.flatten.length q := by
  have hsync := h.sync _ _ _ hgroups
  have hfunc : ∀ {k}, k < group.length → taskType group k = .nodeKernel →
      hasPart (queueTypeAt g tasks (pre.flatten.length + k)) q = true →
        FuncOn tasks infos q (pre.flatten.length + k) := by
    intro k hk hkernel hpart
    rw [FuncOn, taskType_group hgroups hk, hinfos _ (lt_of_group hgroups hk)]
    exact ⟨hkernel, hpart⟩
  constructor
  · intro k m w hdrop
    have hkm := hdrop.kernel_lt_write
    have hmw := hdrop.write_lt_wait
    have hw := hdrop.wait_lt
    have hwlt := lt_of_group hgroups hw
    -- nothing ends or precedes the custom tasks before the WAIT
    have hinside : ∀ l < w, ¬ AllSyncAfter tasks.length (!customTasks.isEmpty) pre group post l := by
      rintro l hl (⟨_, hlast⟩ | ⟨_, hlast⟩) <;> omega
    have hopen : ¬ BarrierOn infos q (pre.flatten.length + k) := by
      rw [hsync.barrierOn_iff (by omega)]
      rintro (hall | hhint)
      · exact hinside k (by omega) hall
      · refine hhint.notErased ⟨hdrop.noSet, w, hw, hdrop.wait.1, ?_, by omega, hdrop.kernel.1,
          hdrop.kernel.2, fun j hkj hj hkernel => ?_⟩
        · rcases h.event _ hwlt (by rw [taskType_group hgroups hw, hdrop.wait.1]; simp) with ⟨q', hq'⟩
          have hpart := hdrop.wait.2
          rw [hq'] at hpart
          exact hq'.trans (by rw [hasPart_eventQueue.mp hpart])
        · by_contra hpart
          exact (hdrop.between j hkj hj (by simpa using hpart)).1 hkernel
    have hneeds : NeedsOn tasks infos q (pre.flatten.length + m) := by
      have hm : m < group.length := by omega
      rw [NeedsOn, taskType_group hgroups hm, hinfos _ (lt_of_group hgroups hm)]
      exact ⟨.inr hdrop.write.1, hdrop.write.2⟩
    rcases hfenced.2 _ _ (by omega) (lt_of_group hgroups (by omega))
      (hfunc (by omega) hdrop.kernel.1 hdrop.kernel.2) hopen (.inl hneeds) with
      ⟨l, hkl, hlm, hbarrier⟩
    have hpos : pre.flatten.length + (l - pre.flatten.length) = l := by omega
    have hl : l - pre.flatten.length < group.length := by omega
    rw [← hpos, hsync.barrierOn_iff hl] at hbarrier
    rcases hbarrier with hall | hhint
    · exact hinside _ (by omega) hall
    have hbetween := hdrop.between _ (by omega) (by omega) hhint.part
    have hknown := h.known _ (lt_of_group hgroups hl)
    rw [taskType_group hgroups hl] at hknown
    rcases hknown with hl | hl | hl | hl
    · exact hbetween.1 hl
    · exact hhint.notNotify hl
    · exact hhint.notReset hl
    · exact hbetween.2 hl
  · intro k hk hkernel hend hall r he
    refine hfenced.1 _ (lt_of_group hgroups hk) (hfunc hk hkernel (h.part_of_edge hgroups he)) ?_
      ((hsync.sendsOn_iff hgroups hk).mpr ⟨fun hlast => hall (.inl hlast), r, he⟩)
    rw [hsync.barrierOn_iff hk]
    rintro (hafter | hhint)
    · exact hall hafter
    · have hlast := hhint.notLast
      omega

end

end Groups

/-! ## Built queues -/

section Build

variable {opts : TaskOptions} {g : SuperKernelGraph} {tasks customTasks : List SuperKernelBaseNode}
  {infos : TaskSyncInfos} {q : Bool}

theorem builtTasks_of_buildSyncInfos (hearly : opts.earlyStart ≠ 1) (hdebug : ¬ isDebugSync opts)
    (h : buildSyncInfos opts g tasks customTasks = some infos)
    (hbuilt : ∀ task ∈ tasks.zipIdx, TaskBuilt opts infos task) :
    BuiltTasks opts g tasks customTasks infos := by
  rcases buildSyncInfos_eq_some hearly h with ⟨_, origin, _, horigin, _⟩
  have hknown : ∀ i < tasks.length, taskType tasks i = .nodeKernel ∨
      taskType tasks i = .nodeNotify ∨ taskType tasks i = .nodeReset ∨
        taskType tasks i = .nodeWait := by
    intro i hi
    have hget := getElem?_eq_getElem hi
    have hone := hbuilt (tasks[i], i) (mem_zipIdx_iff_getElem?.mpr hget)
    rw [taskType_of_getElem? hget]
    unfold TaskBuilt at hone
    by_cases hkernel : tasks[i].nodeType = .nodeKernel
    · exact .inl hkernel
    · simp only [hkernel, if_false] at hone
      rcases hone with ⟨taskType', htype⟩
      rcases eventTaskType_eq_some htype with ⟨h, _⟩ | ⟨h, _⟩ | ⟨h, _⟩
      · exact .inr (.inl h)
      · exact .inr (.inr (.inr h))
      · exact .inr (.inr (.inl h))
  have hdefault : ∀ i < tasks.length, taskType tasks i ≠ .nodeDefault := by
    intro i hi hdefault
    have hone := hknown i hi
    simp [hdefault] at hone
  refine ⟨fun pre group post hgroups => groupSync_of_buildSyncInfos hearly hdebug h hgroups, hknown,
    fun i hi hunknown => ?_, fun i hi => (queueTypeAt_spec horigin (hdefault i hi)).2⟩
  rcases (queueTypeAt_spec horigin (hdefault i hi)).1 with ⟨q, hpart⟩
  rw [hunknown] at hpart
  exact absurd hpart (by simp [hasPart])

theorem queueTypesOk_of_buildSyncInfos (hearly : opts.earlyStart ≠ 1)
    (h : buildSyncInfos opts g tasks customTasks = some infos) : QueueTypesOk tasks infos := by
  rcases buildSyncInfos_eq_some hearly h with ⟨_, origin, _, horigin, _⟩
  intro i hi hdefault hkernel
  rw [queueType_buildSyncInfos hearly h hi]
  exact (queueTypeAt_spec horigin hdefault).2 hkernel

/-- The debug mode holds a barrier behind every task. -/
theorem debugSyncInfo_spec (t : TaskSyncInfo) {b : Bool} {key : ℕ} {d : SyncDirection} :
    (debugSyncInfo t).sendInfo b key = none ∧ (debugSyncInfo t).recvInfo b key = none ∧
      ((debugSyncInfo t).crossSyncInfo key = some d ↔ key = crossSyncKey true ∧ d = .allSync) := by
  refine ⟨by cases b <;> rfl, by cases b <;> rfl, ?_⟩
  simp only [debugSyncInfo, Function.update_apply]
  by_cases hkey : key = crossSyncKey true <;> simp [hkey, eq_comm (a := d)]

theorem syncValues_of_buildSyncInfos (hearly : opts.earlyStart ≠ 1)
    (h : buildSyncInfos opts g tasks customTasks = some infos) : SyncValues tasks.length infos := by
  by_cases hdebug : isDebugSync opts
  · refine ⟨fun i hi b r d hd => ?_, fun i hi b s d hd => ?_, fun i hi key d hd => ?_⟩ <;>
      rcases buildSyncInfos_debug hdebug h hi with ⟨t, ht⟩ <;> rw [ht] at hd
    · rw [(debugSyncInfo_spec t (d := d)).1] at hd
      exact absurd hd (by simp)
    · rw [(debugSyncInfo_spec t (d := d)).2.1] at hd
      exact absurd hd (by simp)
    · rcases (debugSyncInfo_spec t (b := true)).2.2.mp hd with ⟨rfl, rfl⟩
      exact ⟨by decide, .inr rfl⟩
  · refine ⟨fun i hi b r d hd => ?_, fun i hi b s d hd => ?_, fun i hi key d hd => ?_⟩ <;>
      rcases exists_syncGroup opts hi with ⟨pre, group, post, j, hgroups, hj, rfl⟩ <;>
      have hsync := groupSync_of_buildSyncInfos hearly hdebug h hgroups
    · exact ((hsync.send j hj b r d).mp hd).1
    · exact ((hsync.recv j hj b s d).mp hd).1
    · rcases (hsync.cross j hj key d).mp hd with ⟨_, rfl, rfl⟩ | ⟨_, q, rfl, rfl, _⟩
      · exact ⟨by decide, .inr rfl⟩
      · exact ⟨by cases q <;> decide, .inl ⟨q, rfl, rfl⟩⟩

/-- Without early start, the barriers of a built queue suffice exactly when no kernel gives its
hint up before an event write, and no SET follows a kernel at the end without a barrier. -/
theorem kernelsFenced_iff_barriersKept {skTasks : SkTasks} (hearly : opts.earlyStart ≠ 1)
    (hnodup : (tasks.map (·.nodeId)).Nodup)
    (h : buildTaskQueues opts g tasks customTasks = some skTasks) :
    KernelsFenced skTasks ↔ BarriersKept opts g tasks customTasks := by
  rcases buildTaskQueues_taskInfos h with ⟨infos, events, hinfos, hevents, hbuilt, hitems⟩
  have hpos : 0 < tasks.length := by
    cases tasks with
    | nil => simp [buildTaskQueues] at h
    | cons task rest => simp
  have hvalues := syncValues_of_buildSyncInfos hearly hinfos
  have htypes := queueTypesOk_of_buildSyncInfos hearly hinfos
  have hqueue := fun i hi => queueType_buildSyncInfos (i := i) hearly hinfos hi
  by_cases hdebug : isDebugSync opts
  · refine iff_of_true (fun q => ?_) (.inl hdebug)
    have hbarrier : ∀ i < tasks.length, BarrierOn infos q i := by
      intro i hi
      rcases buildSyncInfos_debug hdebug hinfos hi with ⟨t, ht⟩
      refine ⟨crossSyncKey true, .allSync, ?_, .inr rfl⟩
      rw [ht, (debugSyncInfo_spec t (b := true)).2.2]
      exact ⟨rfl, rfl⟩
    rw [hitems q, fenced_queueItems hearly hvalues htypes hbuilt hevents
      fun _ => ⟨hpos, hbarrier _ (by omega)⟩]
    exact ⟨fun i hi _ hopen => absurd (hbarrier i hi) hopen,
      fun i j hij hj _ hopen => absurd (hbarrier i (by omega)) hopen⟩
  · have htasks := builtTasks_of_buildSyncInfos hearly hdebug hinfos hbuilt
    have hcustom : ∀ q, customTasks ≠ [] →
        0 < tasks.length ∧ BarrierOn infos q (tasks.length - 1) := by
      intro q hne
      refine ⟨hpos, ?_⟩
      have hlast : tasks.length - 1 < (syncGroups opts tasks).flatten.length := by
        rw [flatten_syncGroups]
        omega
      rcases exists_group hlast with ⟨pre, group, post, j, hgroups, hj, heq⟩
      rw [heq, (htasks.sync _ _ _ hgroups).barrierOn_iff hj]
      exact .inl (.inr ⟨by simpa using hne, by omega⟩)
    have hfenced : ∀ q, Fenced IsFunc (IsBarrier q) (NeedsBarrier q) (skTasks q).taskInfos ↔
        FencedTasks tasks infos q := by
      intro q
      rw [hitems q, fenced_queueItems hearly hvalues htypes hbuilt hevents (hcustom q)]
    unfold KernelsFenced BarriersKept
    simp only [hfenced, hdebug, false_or]
    constructor
    · intro hall pre group post hgroups q
      exact htasks.of_fencedTasks hqueue (hall q) hgroups
    · intro hkept q
      exact htasks.fencedTasks hqueue hnodup fun pre group post hgroups => hkept pre group post hgroups q

end Build

/-! ## A kernel that loses its hint -/

/-- One stream on the cube: a kernel, a NOTIFY, a WAIT and a second kernel. -/
def lostHintTasks : List SuperKernelBaseNode :=
  let node := fun (nodeId : NodeId) (nodeType : SkNodeType) (preNodeId nextNodeId : Option NodeId) =>
    ({ nodeId := nodeId, streamIdxInGraph := 0, nodeIdxInStream := nodeId, preNodeId := preNodeId,
       nextNodeId := nextNodeId, nodeType := nodeType,
       kernelInfos := { kernelType := .aicOnly, numBlocks := 8, resolvedFuncs := [⟨1, 1, 0, 0⟩] } } :
      SuperKernelBaseNode)
  [node 0 .nodeKernel none (some 1), node 1 .nodeNotify (some 0) (some 2),
    node 2 .nodeWait (some 1) (some 3), node 3 .nodeKernel (some 2) none]

def lostHintGraph : SuperKernelGraph :=
  { nodes := lostHintTasks, eventToNodes := [], headNodes := [0], streamNum := 1 }

/-- The NOTIFY comes right behind the first kernel, with no barrier in between. -/
theorem not_kernelsFenced_lostHint :
    ∃ skTasks, buildTaskQueues { splitMode := 1 } lostHintGraph lostHintTasks [] = some skTasks ∧
      ¬ KernelsFenced skTasks := by
  have hrecords : (buildTaskQueues { splitMode := 1 } lostHintGraph lostHintTasks []).map
      (fun skTasks => ((skTasks true).taskInfos.map (·.type)).take 3) =
        some [.typePreload, .typeFunc, .typeEventNotify] := by decide +kernel
  rcases map_eq_some_iff.mp hrecords with ⟨skTasks, hbuild, htypes⟩
  refine ⟨skTasks, hbuild, fun hfenced => ?_⟩
  have hget : ∀ i < 3, (skTasks true).taskInfos[i]?.map (·.type) =
      [SkTaskType.typePreload, .typeFunc, .typeEventNotify][i]? := by
    intro i hi
    rw [← htypes, getElem?_take_of_lt hi, getElem?_map]
  rcases map_eq_some_iff.mp (hget 1 (by decide)) with ⟨x, hx, hfunc⟩
  rcases map_eq_some_iff.mp (hget 2 (by decide)) with ⟨y, hy, hnotify⟩
  rcases hfenced true 1 2 x y hx hy (by decide) hfunc (.inr (.inl hnotify)) with
    ⟨k, _, hk, hk', _⟩
  omega

theorem kernelsFenced_iff_barriersKept_sample :
    ∃ skTasks, buildTaskQueues { splitMode := 1 } lostHintGraph lostHintTasks [] = some skTasks ∧
      (KernelsFenced skTasks ↔ BarriersKept { splitMode := 1 } lostHintGraph lostHintTasks []) := by
  have hsome : (buildTaskQueues { splitMode := 1 } lostHintGraph lostHintTasks []).isSome = true := by
    decide +kernel
  rcases isSome_iff_exists.mp hsome with ⟨skTasks, hbuild⟩
  exact ⟨skTasks, hbuild, kernelsFenced_iff_barriersKept (by decide) (by decide) hbuild⟩

end GraphAutofusion.SuperKernel
