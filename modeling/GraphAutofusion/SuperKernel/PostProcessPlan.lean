import GraphAutofusion.SuperKernel.PostProcess

/-!
# SuperKernel.PostProcessPlan — the custom tasks of a main stream and an order

What `ProcessSubStreamSyncEvents` builds for a given main stream and order of the other
streams, stated without its state: a sub stream that has tasks before the scope sets its
front cell, and waits first for the front cell of the next stream of the order that has
one. The main stream waits for the first of them. A sub stream that has tasks behind the
scope waits for its back cell and clears it.
-/

namespace GraphAutofusion.SuperKernel

open List Option ScopeExtInfo

/-- The cells of one sub stream. -/
structure SubSync where
  stream : ℕ
  front : Option Addr
  back : Option Addr
deriving DecidableEq, Repr

/-- The wait for the next stream that has a front cell. -/
def nextWait (subs : List SubSync) : List CustomTask :=
  match subs.findSome? (·.front) with
  | none => []
  | some addr => [.valueWait addr SK_DEFAULT_WAIT_VALUE]

namespace SubSync

variable (s : SubSync)

def frontTasks (rest : List SubSync) : List CustomTask :=
  match s.front with
  | none => []
  | some addr => nextWait rest ++ [.valueWrite addr SK_DEFAULT_NOTIFY_VALUE]

def backTasks : List CustomTask :=
  match s.back with
  | none => []
  | some addr => [.valueWait addr SK_DEFAULT_WAIT_VALUE, .valueWrite addr SK_DEFAULT_RESET_VALUE]

/-- The custom tasks of a sub stream, with the streams that come after it in the order. -/
def tasks (rest : List SubSync) : List CustomTask := s.frontTasks rest ++ s.backTasks

/-- The cells in the order of their allocation. -/
def cells : List Addr := s.front.toList ++ s.back.toList

def eventNodes : List SyncEventNode :=
  s.front.toList.map (⟨.nodeReset, ·⟩) ++ s.back.toList.map (⟨.nodeNotify, ·⟩)

end SubSync

/-- The custom tasks of the sub streams. -/
def subTasks : List SubSync → ℕ → List CustomTask
  | [], _ => []
  | s :: rest, i => if i = s.stream then s.tasks rest else subTasks rest i

/-- The custom tasks of every stream. -/
def syncTasks (mainStreamIdx : ℕ) (subs : List SubSync) (i : ℕ) : List CustomTask :=
  if i = mainStreamIdx then nextWait subs else subTasks subs i

/-- The cells of a stream, when the `k`-th allocation gives `cell k` and `n` cells are taken. -/
def subOf (cell : ℕ → Addr) (plan : StreamPostPlan) (n i : ℕ) : SubSync where
  stream := i
  front := if plan.needFrontWait then some (cell n) else none
  back :=
    if plan.needBackBlock then some (cell (if plan.needFrontWait then n + 1 else n)) else none

/-- The cells of the streams of an order. -/
def subsOf (cell : ℕ → Addr) (plans : List StreamPostPlan) : ℕ → List ℕ → List SubSync
  | _, [] => []
  | n, i :: rest =>
    let s := subOf cell (plans.getD i {}) n i
    s :: subsOf cell plans (n + s.cells.length) rest

/-- The allocator as a total function. -/
def cellOf (alloc : ℕ → Option Addr) (k : ℕ) : Addr := (alloc k).getD 0

/-- The state of the processor with the tasks of further sub streams, when `prev` waits for
the first of them. -/
def ScopeExtInfo.withSubs (ext : ScopeExtInfo) (prev : ℕ) (subs : List SubSync) : ScopeExtInfo where
  customParamsList i :=
    (if i = prev then nextWait subs else []) ++ ext.customParamsList i ++ subTasks subs i
  eventNodes := ext.eventNodes ++ subs.flatMap (·.eventNodes)
  allocated := ext.allocated + (subs.flatMap (·.cells)).length

variable {alloc : ℕ → Option Addr} {infos : List ScopeStreamInfo} {plans : List StreamPostPlan}
  {order : List ℕ} {ext ext' : ScopeExtInfo} {prev i : ℕ} {subs : List SubSync}

/-! ## The cells of an order -/

theorem subsOf_stream (cell : ℕ → Addr) (plans : List StreamPostPlan) (n : ℕ) (order : List ℕ) :
    (subsOf cell plans n order).map (·.stream) = order := by
  induction order generalizing n with
  | nil => rfl
  | cons i rest ih => simp [subsOf, subOf, ih]

theorem subTasks_of_not_mem (h : i ∉ subs.map (·.stream)) : subTasks subs i = [] := by
  induction subs with
  | nil => rfl
  | cons s rest ih =>
    simp only [map_cons, mem_cons, not_or] at h
    simp [subTasks, h.1, ih h.2]

theorem nextWait_cons_some {s : SubSync} {addr : Addr} (h : s.front = some addr) (rest : List SubSync) :
    nextWait (s :: rest) = [.valueWait addr SK_DEFAULT_WAIT_VALUE] := by
  simp [nextWait, h]

theorem nextWait_cons_none {s : SubSync} (h : s.front = none) (rest : List SubSync) :
    nextWait (s :: rest) = nextWait rest := by
  simp [nextWait, h]

/-! ## One stream -/

/-- The state after the front wait of a stream. -/
def ScopeExtInfo.withFront (ext : ScopeExtInfo) (i prev : ℕ) (addr : Addr) : ScopeExtInfo :=
  ((ext.addEventNode .nodeReset addr).appendTasks i
    [.valueWrite addr SK_DEFAULT_NOTIFY_VALUE]).prependTask prev (.valueWait addr SK_DEFAULT_WAIT_VALUE)

/-- The state after the back block of a stream. -/
def ScopeExtInfo.withBack (ext : ScopeExtInfo) (i : ℕ) (addr : Addr) : ScopeExtInfo :=
  (ext.addEventNode .nodeNotify addr).appendTasks i
    [.valueWait addr SK_DEFAULT_WAIT_VALUE, .valueWrite addr SK_DEFAULT_RESET_VALUE]

theorem processFrontWaitForStream_eq_some :
    processFrontWaitForStream alloc infos ext i prev = some ext' ↔
      ∃ addr, alloc ext.allocated = some addr ∧ ext' = ext.withFront i prev addr ∧
        ensureStreamCapacity infos ext' i = true ∧ ensureStreamCapacity infos ext' prev = true := by
  unfold processFrontWaitForStream
  cases halloc : alloc ext.allocated with
  | none => simp
  | some addr =>
    change (if ensureStreamCapacity infos (ext.withFront i prev addr) i
      && ensureStreamCapacity infos (ext.withFront i prev addr) prev
      then some (ext.withFront i prev addr) else none) = some ext' ↔ _
    rw [ite_none_right_eq_some, Bool.and_eq_true]
    constructor
    · rintro ⟨⟨hcur, hprev⟩, ⟨⟩⟩
      exact ⟨addr, rfl, rfl, hcur, hprev⟩
    · rintro ⟨_, ⟨⟩, rfl, hcur, hprev⟩
      exact ⟨⟨hcur, hprev⟩, rfl⟩

theorem processBackBlockForStream_eq_some :
    processBackBlockForStream alloc infos ext i = some ext' ↔
      ∃ addr, alloc ext.allocated = some addr ∧ ext' = ext.withBack i addr ∧
        ensureStreamCapacity infos ext' i = true := by
  unfold processBackBlockForStream
  cases halloc : alloc ext.allocated with
  | none => simp
  | some addr =>
    change (if ensureStreamCapacity infos (ext.withBack i addr) i
      then some (ext.withBack i addr) else none) = some ext' ↔ _
    rw [ite_none_right_eq_some]
    constructor
    · rintro ⟨hcur, ⟨⟩⟩
      exact ⟨addr, rfl, rfl, hcur⟩
    · rintro ⟨_, ⟨⟩, rfl, hcur⟩
      exact ⟨hcur, rfl⟩

/-- The state after one sub stream. -/
def ScopeExtInfo.withSub (ext : ScopeExtInfo) (prev : ℕ) (s : SubSync) : ScopeExtInfo :=
  let ext := match s.front with
    | none => ext
    | some addr => ext.withFront s.stream prev addr
  match s.back with
  | none => ext
  | some addr => ext.withBack s.stream addr

/-- The stream that waits for the next front cell. -/
def SubSync.waiter (s : SubSync) (prev : ℕ) : ℕ := if s.front.isSome then s.stream else prev

theorem ScopeExtInfo.withSub_allocated (ext : ScopeExtInfo) (prev : ℕ) (s : SubSync) :
    (ext.withSub prev s).allocated = ext.allocated + s.cells.length := by
  unfold withSub SubSync.cells
  cases s.front <;> cases s.back <;> rfl

/-- The tasks of the first stream of an order, then those of the others. -/
theorem ScopeExtInfo.withSub_withSubs {s : SubSync} {rest : List SubSync} (hprev : prev ≠ s.stream)
    (hrest : s.stream ∉ rest.map (·.stream)) (hempty : ext.customParamsList s.stream = []) :
    (ext.withSub prev s).withSubs (s.waiter prev) rest = ext.withSubs prev (s :: rest) := by
  have hnone : subTasks rest s.stream = [] := subTasks_of_not_mem hrest
  have hcustom : ∀ i, ((ext.withSub prev s).withSubs (s.waiter prev) rest).customParamsList i
      = (ext.withSubs prev (s :: rest)).customParamsList i := by
    intro i
    by_cases hi : i = s.stream
    · subst hi
      cases hfront : s.front <;> cases hback : s.back <;>
        simp [withSubs, withSub, SubSync.waiter, withFront, withBack, addEventNode, appendTasks,
          prependTask, subTasks, SubSync.tasks, SubSync.frontTasks, SubSync.backTasks, hfront, hback,
          hnone, hempty, Ne.symm hprev]
    · by_cases hip : i = prev
      · subst hip
        cases hfront : s.front <;> cases hback : s.back <;>
          simp [withSubs, withSub, SubSync.waiter, withFront, withBack, addEventNode, appendTasks,
            prependTask, subTasks, hfront, hback, hi, nextWait_cons_none, nextWait_cons_some]
      · cases hfront : s.front <;> cases hback : s.back <;>
          simp [withSubs, withSub, SubSync.waiter, withFront, withBack, addEventNode, appendTasks,
            prependTask, subTasks, hfront, hback, hi, hip]
  have hevents : ((ext.withSub prev s).withSubs (s.waiter prev) rest).eventNodes
      = (ext.withSubs prev (s :: rest)).eventNodes := by
    cases hfront : s.front <;> cases hback : s.back <;>
      simp [withSubs, withSub, withFront, withBack, addEventNode, appendTasks, prependTask,
        SubSync.eventNodes, hfront, hback]
  have halloc : ((ext.withSub prev s).withSubs (s.waiter prev) rest).allocated
      = (ext.withSubs prev (s :: rest)).allocated := by
    simp only [withSubs, withSub_allocated, flatMap_cons, length_append, add_assoc]
  exact ScopeExtInfo.ext (funext hcustom) hevents halloc

/-- One round of the loop of `ProcessSubStreamSyncEvents`. -/
def processSubStream (alloc : ℕ → Option Addr) (infos : List ScopeStreamInfo) (plan : StreamPostPlan)
    (ext : ScopeExtInfo) (i prev : ℕ) : Option ScopeExtInfo :=
  (if plan.needFrontWait then processFrontWaitForStream alloc infos ext i prev else some ext).bind
    fun ext => if plan.needBackBlock then processBackBlockForStream alloc infos ext i else some ext

theorem processSubStreams_cons (rest : List ℕ) :
    processSubStreams alloc infos plans (i :: rest) ext prev
      = (processSubStream alloc infos (plans.getD i {}) ext i prev).bind fun ext' =>
          processSubStreams alloc infos plans rest ext'
            (if (plans.getD i {}).needFrontWait then i else prev) := by
  simp only [processSubStreams, processSubStream]
  split
  · next hfront => rw [hfront]; rfl
  · next ext₁ hfront =>
    rw [hfront, bind_some]
    split
    · next hback => rw [hback]; rfl
    · next ext₂ hback => rw [hback, bind_some]

/-- The allocations a step has used gave the cells of `cellOf`. -/
def AllocatedFrom (alloc : ℕ → Option Addr) (m n : ℕ) : Prop :=
  ∀ k, m ≤ k → k < n → alloc k = some (cellOf alloc k)

theorem AllocatedFrom.refl (m : ℕ) : AllocatedFrom alloc m m := by
  intro k hm hn
  omega

theorem AllocatedFrom.single {m : ℕ} {addr : Addr} (h : alloc m = some addr) :
    AllocatedFrom alloc m (m + 1) ∧ cellOf alloc m = addr := by
  refine ⟨fun k hm hn => ?_, by simp [cellOf, h]⟩
  have hk : k = m := by omega
  simp [hk, cellOf, h]

theorem AllocatedFrom.trans {l m n : ℕ} (h : AllocatedFrom alloc l m) (h' : AllocatedFrom alloc m n) :
    AllocatedFrom alloc l n := by
  intro k hl hn
  by_cases hk : k < m
  · exact h k hl hk
  · exact h' k (by omega) hn

theorem processSubStream_eq {plan : StreamPostPlan}
    (h : processSubStream alloc infos plan ext i prev = some ext') :
    ext' = ext.withSub prev (subOf (cellOf alloc) plan ext.allocated i) ∧
      AllocatedFrom alloc ext.allocated ext'.allocated := by
  rcases bind_eq_some_iff.mp h with ⟨ext₁, hfront, hback⟩
  by_cases hf : plan.needFrontWait
  · rw [if_pos hf] at hfront
    rcases processFrontWaitForStream_eq_some.mp hfront with ⟨addr, halloc, rfl, _⟩
    rcases AllocatedFrom.single halloc with ⟨hfrom, hcell⟩
    by_cases hb : plan.needBackBlock
    · rw [if_pos hb] at hback
      rcases processBackBlockForStream_eq_some.mp hback with ⟨addr', halloc', rfl, _⟩
      rcases AllocatedFrom.single halloc' with ⟨hfrom', hcell'⟩
      have hcell₂ : cellOf alloc (ext.allocated + 1) = addr' := hcell'
      refine ⟨?_, hfrom.trans hfrom'⟩
      simp [withSub, subOf, hf, hb, hcell, hcell₂]
    · rw [if_neg hb] at hback
      cases hback
      refine ⟨?_, hfrom⟩
      simp [withSub, subOf, hf, hb, hcell]
  · rw [if_neg hf] at hfront
    cases hfront
    by_cases hb : plan.needBackBlock
    · rw [if_pos hb] at hback
      rcases processBackBlockForStream_eq_some.mp hback with ⟨addr', halloc', rfl, _⟩
      rcases AllocatedFrom.single halloc' with ⟨hfrom', hcell'⟩
      refine ⟨?_, hfrom'⟩
      simp [withSub, subOf, hf, hb, hcell']
    · rw [if_neg hb] at hback
      cases hback
      refine ⟨?_, AllocatedFrom.refl _⟩
      simp [withSub, subOf, hf, hb]

/-! ## All sub streams -/

theorem ScopeExtInfo.withSubs_nil (ext : ScopeExtInfo) (prev : ℕ) : ext.withSubs prev [] = ext := by
  apply ScopeExtInfo.ext <;> simp [withSubs, nextWait, subTasks]

/-- A stream that is not touched by a step keeps its empty list. -/
theorem ScopeExtInfo.withSub_empty {s : SubSync} {j : ℕ} (hprev : j ≠ prev) (hj : j ≠ s.stream)
    (hempty : ext.customParamsList j = []) : (ext.withSub prev s).customParamsList j = [] := by
  cases hfront : s.front <;> cases hback : s.back <;>
    simp [withSub, withFront, withBack, addEventNode, appendTasks, prependTask, hfront, hback,
      hprev, hj, hempty]

theorem subOf_waiter (cell : ℕ → Addr) (plan : StreamPostPlan) (n i prev : ℕ) :
    (subOf cell plan n i).waiter prev = if plan.needFrontWait then i else prev := by
  by_cases hf : plan.needFrontWait <;> simp [SubSync.waiter, subOf, hf]

/-- What the loop of `ProcessSubStreamSyncEvents` builds. -/
theorem processSubStreams_eq (hnodup : (prev :: order).Nodup)
    (hempty : ∀ j ∈ order, ext.customParamsList j = [])
    (h : processSubStreams alloc infos plans order ext prev = some ext') :
    ext' = ext.withSubs prev (subsOf (cellOf alloc) plans ext.allocated order) ∧
      AllocatedFrom alloc ext.allocated ext'.allocated := by
  induction order generalizing ext prev with
  | nil =>
    cases h
    exact ⟨(withSubs_nil _ prev).symm, AllocatedFrom.refl _⟩
  | cons i rest ih =>
    rw [processSubStreams_cons] at h
    rcases bind_eq_some_iff.mp h with ⟨ext₁, hstep, hrest⟩
    rcases processSubStream_eq hstep with ⟨rfl, hfrom⟩
    rcases nodup_cons.mp hnodup with ⟨hprev, hnodup'⟩
    rcases nodup_cons.mp hnodup' with ⟨hi, hnodup''⟩
    have hpi : prev ≠ i := fun heq => hprev (heq ▸ mem_cons_self ..)
    rw [← subOf_waiter (cellOf alloc) _ ext.allocated] at hrest
    -- the waiter of the next round is the stream itself or the former waiter
    have hwaiter : ((subOf (cellOf alloc) (plans.getD i {}) ext.allocated i).waiter prev :: rest).Nodup := by
      refine nodup_cons.mpr ⟨?_, hnodup''⟩
      rw [subOf_waiter]
      split
      · exact hi
      · exact fun hmem => hprev (mem_cons_of_mem _ hmem)
    have hempty' : ∀ j ∈ rest, (ext.withSub prev
        (subOf (cellOf alloc) (plans.getD i {}) ext.allocated i)).customParamsList j = [] := by
      intro j hj
      apply withSub_empty
      · exact fun heq => hprev (heq ▸ mem_cons_of_mem _ hj)
      · intro heq
        have hji : j = i := heq
        exact hi (hji ▸ hj)
      · exact hempty j (mem_cons_of_mem _ hj)
    rcases ih hwaiter hempty' hrest with ⟨heq, hfrom'⟩
    refine ⟨?_, hfrom.trans hfrom'⟩
    rw [heq, withSub_allocated, withSub_withSubs hpi]
    · rfl
    · rw [subsOf_stream]
      exact hi
    · exact hempty i (mem_cons_self ..)

/-! ## Capacity -/

theorem ensureStreamCapacity_mono {j : ℕ}
    (hle : (ext.customParamsList j).length ≤ (ext'.customParamsList j).length)
    (h : ensureStreamCapacity infos ext' j = true) : ensureStreamCapacity infos ext j = true := by
  unfold ensureStreamCapacity at h ⊢
  cases hinfo : infos[j]? with
  | none => simp [hinfo] at h
  | some info =>
    simp only [hinfo, decide_eq_true_eq] at h ⊢
    omega

theorem ScopeExtInfo.withSubs_length (ext : ScopeExtInfo) (prev : ℕ) (subs : List SubSync) (j : ℕ) :
    (ext.customParamsList j).length ≤ ((ext.withSubs prev subs).customParamsList j).length := by
  simp only [withSubs, length_append]
  omega

/-- A round succeeds when the tasks built so far fit. -/
theorem processSubStream_some {plan : StreamPostPlan} (halloc : ∀ k, (alloc k).isSome)
    (hcur : ensureStreamCapacity infos
      (ext.withSub prev (subOf (cellOf alloc) plan ext.allocated i)) i = true)
    (hprev : ensureStreamCapacity infos
      (ext.withSub prev (subOf (cellOf alloc) plan ext.allocated i)) prev = true) :
    processSubStream alloc infos plan ext i prev
      = some (ext.withSub prev (subOf (cellOf alloc) plan ext.allocated i)) := by
  have hsome : ∀ k, alloc k = some (cellOf alloc k) := by
    intro k
    rcases isSome_iff_exists.mp (halloc k) with ⟨addr, haddr⟩
    simp [cellOf, haddr]
  refine bind_eq_some_iff.mpr ?_
  by_cases hf : plan.needFrontWait <;> by_cases hb : plan.needBackBlock <;>
    simp only [hf, hb, subOf, withSub, if_true] at hcur hprev ⊢
  · refine ⟨_, processFrontWaitForStream_eq_some.mpr ⟨_, hsome _, rfl, ?_, ?_⟩,
      processBackBlockForStream_eq_some.mpr ⟨_, hsome _, rfl, hcur⟩⟩
    · refine ensureStreamCapacity_mono ?_ hcur
      simp [withBack, addEventNode, appendTasks]
    · refine ensureStreamCapacity_mono ?_ hprev
      simp only [withBack, addEventNode, appendTasks]
      split <;> simp
  · exact ⟨_, processFrontWaitForStream_eq_some.mpr ⟨_, hsome _, rfl, hcur, hprev⟩, rfl⟩
  · exact ⟨_, rfl, processBackBlockForStream_eq_some.mpr ⟨_, hsome _, rfl, hcur⟩⟩
  · exact ⟨_, rfl, rfl⟩

/-- The loop succeeds when the lists it builds fit into their streams. -/
theorem processSubStreams_some (halloc : ∀ k, (alloc k).isSome) (hnodup : (prev :: order).Nodup)
    (hempty : ∀ j ∈ order, ext.customParamsList j = [])
    (hcap : ∀ j ∈ prev :: order, ensureStreamCapacity infos
      (ext.withSubs prev (subsOf (cellOf alloc) plans ext.allocated order)) j = true) :
    processSubStreams alloc infos plans order ext prev
      = some (ext.withSubs prev (subsOf (cellOf alloc) plans ext.allocated order)) := by
  induction order generalizing ext prev with
  | nil => simp [processSubStreams, subsOf, withSubs_nil]
  | cons i rest ih =>
    rcases nodup_cons.mp hnodup with ⟨hprev, hnodup'⟩
    rcases nodup_cons.mp hnodup' with ⟨hi, hnodup''⟩
    have hpi : prev ≠ i := fun heq => hprev (heq ▸ mem_cons_self ..)
    generalize hs : subOf (cellOf alloc) (plans.getD i {}) ext.allocated i = s
    have hstream : s.stream = i := hs ▸ rfl
    have hsubs : subsOf (cellOf alloc) plans ext.allocated (i :: rest)
        = s :: subsOf (cellOf alloc) plans (ext.withSub prev s).allocated rest := by
      rw [withSub_allocated, ← hs]
      rfl
    have hsplit : (ext.withSub prev s).withSubs (s.waiter prev)
          (subsOf (cellOf alloc) plans (ext.withSub prev s).allocated rest)
        = ext.withSubs prev (subsOf (cellOf alloc) plans ext.allocated (i :: rest)) := by
      rw [hsubs]
      apply withSub_withSubs
      · rw [hstream]
        exact hpi
      · rw [subsOf_stream, hstream]
        exact hi
      · rw [hstream]
        exact hempty i (mem_cons_self ..)
    rw [← hsplit] at hcap ⊢
    have hone : ∀ j ∈ prev :: i :: rest, ensureStreamCapacity infos (ext.withSub prev s) j = true := by
      intro j hj
      exact ensureStreamCapacity_mono (withSubs_length _ _ _ j) (hcap j hj)
    have hround : processSubStream alloc infos (plans.getD i {}) ext i prev
        = some (ext.withSub prev s) := by
      rw [← hs] at hone ⊢
      exact processSubStream_some halloc (hone i (mem_cons_of_mem _ (mem_cons_self ..)))
        (hone prev (mem_cons_self ..))
    rw [processSubStreams_cons, hround, bind_some, ← subOf_waiter (cellOf alloc) _ ext.allocated,
      hs]
    apply ih
    · refine nodup_cons.mpr ⟨?_, hnodup''⟩
      unfold SubSync.waiter
      split
      · rw [hstream]
        exact hi
      · exact fun hmem => hprev (mem_cons_of_mem _ hmem)
    · intro j hj
      apply withSub_empty
      · exact fun heq => hprev (heq ▸ mem_cons_of_mem _ hj)
      · intro heq
        exact hi (hstream ▸ heq ▸ hj)
      · exact hempty j (mem_cons_of_mem _ hj)
    · intro j hj
      rcases mem_cons.mp hj with rfl | hj
      · apply hcap
        unfold SubSync.waiter
        split
        · exact hstream ▸ mem_cons_of_mem _ (mem_cons_self ..)
        · exact mem_cons_self ..
      · exact hcap j (mem_cons_of_mem _ (mem_cons_of_mem _ hj))

/-- Starting from no tasks, the processor builds `syncTasks`. -/
theorem ScopeExtInfo.withSubs_empty {mainStreamIdx : ℕ}
    (hmain : mainStreamIdx ∉ subs.map (·.stream)) :
    (({} : ScopeExtInfo).withSubs mainStreamIdx subs).customParamsList
      = syncTasks mainStreamIdx subs := by
  funext i
  by_cases hi : i = mainStreamIdx
  · simp [withSubs, syncTasks, hi, subTasks_of_not_mem hmain]
  · simp [withSubs, syncTasks, hi]

/-- The custom tasks of a selection, when `PostProcess` builds them. -/
theorem processSubStreamSyncEvents_eq {sel : MainSelection}
    (hnodup : (sel.mainStreamIdx :: sel.subStreamOrder).Nodup)
    (h : processSubStreamSyncEvents alloc infos plans sel = some ext) :
    let subs := subsOf (cellOf alloc) plans 0 sel.subStreamOrder
    ext.customParamsList = syncTasks sel.mainStreamIdx subs ∧
      ext.eventNodes = subs.flatMap (·.eventNodes) ∧
      ext.allocated = (subs.flatMap (·.cells)).length ∧ AllocatedFrom alloc 0 ext.allocated := by
  rcases processSubStreams_eq hnodup (fun _ _ => rfl) h with ⟨rfl, hfrom⟩
  refine ⟨withSubs_empty ?_, ?_, ?_, hfrom⟩
  · rw [subsOf_stream]
    exact (nodup_cons.mp hnodup).1
  · simp [withSubs]
  · simp [withSubs]

/-- The custom tasks of a selection are built when they fit into the streams. -/
theorem processSubStreamSyncEvents_some {sel : MainSelection} (halloc : ∀ k, (alloc k).isSome)
    (hnodup : (sel.mainStreamIdx :: sel.subStreamOrder).Nodup)
    (hcap : ∀ i ∈ sel.mainStreamIdx :: sel.subStreamOrder, ∃ info, infos[i]? = some info ∧
      (syncTasks sel.mainStreamIdx (subsOf (cellOf alloc) plans 0 sel.subStreamOrder) i).length
        ≤ info.nodeSize) :
    ∃ ext, processSubStreamSyncEvents alloc infos plans sel = some ext := by
  refine ⟨_, processSubStreams_some halloc hnodup (fun _ _ => rfl) fun i hi => ?_⟩
  rcases hcap i hi with ⟨info, hinfo, hle⟩
  have hmain : sel.mainStreamIdx ∉ (subsOf (cellOf alloc) plans 0 sel.subStreamOrder).map (·.stream) := by
    rw [subsOf_stream]
    exact (nodup_cons.mp hnodup).1
  rw [← withSubs_empty hmain] at hle
  simpa [ensureStreamCapacity, hinfo] using hle

end GraphAutofusion.SuperKernel
