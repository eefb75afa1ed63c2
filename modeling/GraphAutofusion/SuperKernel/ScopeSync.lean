import GraphAutofusion.SuperKernel.ScopeProgram

/-!
# SuperKernel.ScopeSync — the synthesised synchronisation is correct

The protocol of a rewritten scope, for any interleaving of its streams: the front waits form
a chain that ends at the main stream, so the super kernel starts only after all streams have
reached the scope; the back cells keep the streams behind the scope until the super kernel
has finished; no wait blocks forever, and every cell is cleared again.
-/

namespace GraphAutofusion.SuperKernel

open Lib FlagState List FlagOp

/-- Nodes that are executed as they are. -/
def nodeActs (l : List NodeId) : List StreamOp := l.map fun n => .act (.node n)

def taskOps (tasks : List CustomTask) : List StreamOp := tasks.map (·.op)

/-- An operation that was synthesised: not a node of a stream. -/
def IsSynthesised : StreamOp → Prop
  | .act (.node _) => False
  | _ => True

/-- The programs of a main stream and an order of sub streams with their cells. -/
structure SyncProgram (prog : ℕ → List StreamOp) (main : ℕ) (subs : List SubSync)
    (pre post : ℕ → List NodeId) (eventOps : List StreamOp) : Prop where
  main_prog : prog main = nodeActs (pre main) ++ (taskOps (nextWait subs)
    ++ .act .skStart :: .act .skFinish :: eventOps) ++ nodeActs (post main)
  sub_prog : ∀ s rest, s :: rest <:+ subs →
    prog s.stream = nodeActs (pre s.stream) ++ taskOps (s.tasks rest) ++ nodeActs (post s.stream)
  other : ∀ i, i ∉ main :: subs.map (·.stream) → prog i = []
  events : eventOps.Perm ((subs.flatMap (·.eventNodes)).map (·.op))
  disjoint : ∀ i, ∀ n ∈ post i, n ∉ pre i
  front : ∀ s ∈ subs, s.front = none → pre s.stream = []
  back : ∀ s ∈ subs, s.back = none → post s.stream = []
  streams : (main :: subs.map (·.stream)).Nodup
  cells : (subs.flatMap (·.cells)).Nodup

/-- A stream that has only nodes behind the scope left has passed the scope. -/
def PassedScope (prog : ℕ → List StreamOp) (post : ℕ → List NodeId) (st : FlagState ℕ StreamAct Addr)
    (i : ℕ) : Prop :=
  ∃ rest, prog i = st.done i ++ rest ∧ rest <:+ nodeActs (post i)

def AllPassed (prog : ℕ → List StreamOp) (post : ℕ → List NodeId) (streams : List ℕ)
    (st : FlagState ℕ StreamAct Addr) : Prop :=
  ∀ i ∈ streams, PassedScope prog post st i

variable {prog : ℕ → List StreamOp} {main : ℕ} {subs rest : List SubSync} {pre post : ℕ → List NodeId}
  {eventOps : List StreamOp} {st : FlagState ℕ StreamAct Addr} {s t : SubSync} {a b c : Addr}
  {i j v : ℕ} {n : NodeId} {op : StreamOp}

/-! ## The operations of the parts -/

theorem mem_nodeActs {l : List NodeId} : op ∈ nodeActs l ↔ ∃ n ∈ l, op = .act (.node n) := by
  simp only [nodeActs, mem_map, eq_comm]

theorem not_synthesised_of_mem {l : List NodeId} (h : op ∈ nodeActs l) : ¬ IsSynthesised op := by
  rcases mem_nodeActs.mp h with ⟨_, _, rfl⟩
  exact not_false

theorem mem_nextWait : op ∈ taskOps (nextWait subs) ↔
    ∃ a, subs.findSome? (·.front) = some a ∧ op = .wait a SK_DEFAULT_WAIT_VALUE := by
  unfold nextWait taskOps
  cases subs.findSome? (·.front) with
  | none => simp
  | some a => simp [CustomTask.op]

theorem not_mem_before {l : List NodeId} (hop : IsSynthesised op)
    (hwait : ∀ a, op ≠ .wait a SK_DEFAULT_WAIT_VALUE) : op ∉ nodeActs l ++ taskOps (nextWait subs) := by
  rw [mem_append]
  rintro (hmem | hmem)
  · exact not_synthesised_of_mem hmem hop
  · rcases mem_nextWait.mp hmem with ⟨a, _, heq⟩
    exact hwait a heq

theorem taskOps_tasks (s : SubSync) (rest : List SubSync) :
    taskOps (s.tasks rest) = taskOps (s.frontTasks rest) ++ taskOps s.backTasks :=
  map_append ..

theorem taskOps_frontTasks (h : s.front = some a) (rest : List SubSync) :
    taskOps (s.frontTasks rest) = taskOps (nextWait rest) ++ [.write a SK_DEFAULT_NOTIFY_VALUE] := by
  simp [taskOps, SubSync.frontTasks, h, CustomTask.op]

theorem taskOps_frontTasks_none (h : s.front = none) (rest : List SubSync) :
    taskOps (s.frontTasks rest) = [] := by
  simp [taskOps, SubSync.frontTasks, h]

theorem taskOps_backTasks (h : s.back = some b) :
    taskOps s.backTasks = [.wait b SK_DEFAULT_WAIT_VALUE, .write b SK_DEFAULT_RESET_VALUE] := by
  simp [taskOps, SubSync.backTasks, h, CustomTask.op]

theorem taskOps_backTasks_none (h : s.back = none) : taskOps s.backTasks = [] := by
  simp [taskOps, SubSync.backTasks, h]

/-- The tasks of a front cell only raise it. -/
theorem write_mem_frontTasks (h : write c v ∈ taskOps (s.frontTasks rest)) :
    s.front = some c ∧ v = SK_DEFAULT_NOTIFY_VALUE := by
  cases hfront : s.front with
  | none =>
    rw [taskOps_frontTasks_none hfront] at h
    cases h
  | some a =>
    rw [taskOps_frontTasks hfront, mem_append] at h
    rcases h with h | h
    · rcases mem_nextWait.mp h with ⟨_, _, heq⟩
      cases heq
    · cases mem_singleton.mp h
      exact ⟨rfl, rfl⟩

theorem write_mem_tasks (h : write c v ∈ taskOps (s.tasks rest)) :
    (s.front = some c ∧ v = SK_DEFAULT_NOTIFY_VALUE) ∨ (s.back = some c ∧ v = SK_DEFAULT_RESET_VALUE) := by
  rw [taskOps_tasks, mem_append] at h
  rcases h with h | h
  · exact .inl (write_mem_frontTasks h)
  cases hback : s.back with
  | none =>
    rw [taskOps_backTasks_none hback] at h
    cases h
  | some b =>
    rw [taskOps_backTasks hback] at h
    simp only [mem_cons, reduceCtorEq, not_mem_nil, or_false, false_or] at h
    cases h
    exact .inr ⟨rfl, rfl⟩

theorem mem_eventNodes {e : SyncEventNode} : e ∈ s.eventNodes ↔
    (∃ a, s.front = some a ∧ e = ⟨.nodeReset, a⟩) ∨ (∃ b, s.back = some b ∧ e = ⟨.nodeNotify, b⟩) := by
  unfold SubSync.eventNodes
  cases s.front <;> cases s.back <;> simp

/-- A sub stream with the streams that come after it. -/
theorem exists_suffix (hs : s ∈ subs) : ∃ rest, s :: rest <:+ subs := by
  rcases append_of_mem hs with ⟨A, B, hsplit⟩
  exact ⟨B, A, hsplit.symm⟩

theorem passedScope_iff (hreach : Reachable prog st) {P : List StreamOp}
    (hprog : prog i = P ++ nodeActs (post i)) : PassedScope prog post st i ↔ P <+: st.done i := by
  constructor
  · rintro ⟨rest, hrest, X, hX⟩
    rw [hprog, ← hX, ← append_assoc, append_cancel_right_eq] at hrest
    exact ⟨X, hrest⟩
  · rintro ⟨X, hX⟩
    have hdone := hreach.done_prefix i
    rw [hprog, ← hX, prefix_append_right_inj] at hdone
    rcases hdone with ⟨rest, hrest⟩
    refine ⟨rest, ?_, X, hrest⟩
    rw [hprog, ← hX, ← hrest, append_assoc]

/-- An element behind a prefix of a part stands in the rest. -/
theorem mem_of_prefix_of_append_eq {W W' M₂ E : List StreamOp} (hW : W <+: W')
    (h : W' ++ op :: M₂ = W ++ E) : op ∈ E := by
  rcases hW with ⟨X, rfl⟩
  rw [append_assoc, append_cancel_left_eq] at h
  rw [← h]
  exact mem_append_right _ (mem_cons_self ..)

namespace SyncProgram

variable (hp : SyncProgram prog main subs pre post eventOps)
include hp

theorem mem_eventOps : op ∈ eventOps ↔ ∃ s ∈ subs,
    (∃ a, s.front = some a ∧ op = .write a SK_DEFAULT_RESET_VALUE) ∨
      (∃ b, s.back = some b ∧ op = .write b SK_DEFAULT_NOTIFY_VALUE) := by
  rw [hp.events.mem_iff, mem_map]
  constructor
  · rintro ⟨e, he, rfl⟩
    rcases mem_flatMap.mp he with ⟨s, hs, hes⟩
    refine ⟨s, hs, ?_⟩
    rcases mem_eventNodes.mp hes with ⟨a, ha, rfl⟩ | ⟨b, hb, rfl⟩
    · exact .inl ⟨a, ha, rfl⟩
    · exact .inr ⟨b, hb, rfl⟩
  · rintro ⟨s, hs, ⟨a, ha, rfl⟩ | ⟨b, hb, rfl⟩⟩
    · exact ⟨_, mem_flatMap.mpr ⟨s, hs, mem_eventNodes.mpr (.inl ⟨a, ha, rfl⟩)⟩, rfl⟩
    · exact ⟨_, mem_flatMap.mpr ⟨s, hs, mem_eventNodes.mpr (.inr ⟨b, hb, rfl⟩)⟩, rfl⟩

/-- A cell belongs to one stream of the order. -/
theorem cell_unique (hs : s ∈ subs) (ht : t ∈ subs) (hcs : c ∈ s.cells) (hct : c ∈ t.cells) : s = t := by
  by_contra hne
  have hpair := (nodup_flatMap.mp hp.cells).2
  have hsymm : Std.Symm (Function.onFun List.Disjoint SubSync.cells) :=
    ⟨fun _ _ hdisj _ hx hy => hdisj hy hx⟩
  exact hpair.forall hs ht hne hcs hct

theorem front_ne_back (hs : s ∈ subs) (ha : s.front = some a) (hb : s.back = some b) : a ≠ b := by
  have hnodup := (nodup_flatMap.mp hp.cells).1 s hs
  intro heq
  simp [SubSync.cells, ha, hb, heq] at hnodup

/-- Which streams write which values. -/
theorem write_mem (h : write c v ∈ prog j) :
    (j = main ∧ ∃ s ∈ subs, (s.front = some c ∧ v = SK_DEFAULT_RESET_VALUE) ∨
      (s.back = some c ∧ v = SK_DEFAULT_NOTIFY_VALUE)) ∨
    (∃ s ∈ subs, j = s.stream ∧ ((s.front = some c ∧ v = SK_DEFAULT_NOTIFY_VALUE) ∨
      (s.back = some c ∧ v = SK_DEFAULT_RESET_VALUE))) := by
  have hact : ∀ l, write c v ∉ nodeActs l := by
    intro l hmem
    rcases mem_nodeActs.mp hmem with ⟨_, _, heq⟩
    cases heq
  by_cases hmain : j = main
  · refine .inl ⟨hmain, ?_⟩
    rw [hmain, hp.main_prog] at h
    simp only [mem_append, mem_cons, reduceCtorEq, false_or, hact, or_false] at h
    rcases h with h | h
    · rcases mem_nextWait.mp h with ⟨_, _, heq⟩
      cases heq
    · rcases hp.mem_eventOps.mp h with ⟨s, hs, ⟨a, ha, heq⟩ | ⟨b, hb, heq⟩⟩
      · cases heq
        exact ⟨s, hs, .inl ⟨ha, rfl⟩⟩
      · cases heq
        exact ⟨s, hs, .inr ⟨hb, rfl⟩⟩
  · by_cases hsub : j ∈ subs.map (·.stream)
    · rcases mem_map.mp hsub with ⟨s, hs, rfl⟩
      rcases exists_suffix hs with ⟨rest, hsuffix⟩
      rw [hp.sub_prog s rest hsuffix] at h
      simp only [mem_append, hact, or_false, false_or] at h
      exact .inr ⟨s, hs, rfl, write_mem_tasks h⟩
    · rw [hp.other j (by simp [hmain, hsub])] at h
      cases h

/-- A front cell is raised by its stream and lowered by the super kernel. -/
theorem front_writer (hs : s ∈ subs) (ha : s.front = some a) (h : write a v ∈ prog j) :
    (j = s.stream ∧ v = SK_DEFAULT_NOTIFY_VALUE) ∨ (j = main ∧ v = SK_DEFAULT_RESET_VALUE) := by
  have hcell : a ∈ s.cells := by simp [SubSync.cells, ha]
  rcases hp.write_mem h with ⟨hj, t, ht, hw⟩ | ⟨t, ht, hj, hw⟩
  · rcases hw with ⟨_, hv⟩ | ⟨hb, _⟩
    · exact .inr ⟨hj, hv⟩
    · have heq := hp.cell_unique hs ht hcell (by simp [SubSync.cells, hb])
      exact absurd rfl (hp.front_ne_back hs ha (heq ▸ hb))
  · have heq := hp.cell_unique hs ht hcell (by rcases hw with ⟨hf, _⟩ | ⟨hb, _⟩ <;> simp [SubSync.cells, *])
    subst heq
    rcases hw with ⟨_, hv⟩ | ⟨hb, _⟩
    · exact .inl ⟨hj, hv⟩
    · exact absurd rfl (hp.front_ne_back hs ha hb)

/-- A back cell is raised by the super kernel and lowered by its stream. -/
theorem back_writer (hs : s ∈ subs) (hb : s.back = some b) (h : write b v ∈ prog j) :
    (j = main ∧ v = SK_DEFAULT_NOTIFY_VALUE) ∨ (j = s.stream ∧ v = SK_DEFAULT_RESET_VALUE) := by
  have hcell : b ∈ s.cells := by simp [SubSync.cells, hb]
  rcases hp.write_mem h with ⟨hj, t, ht, hw⟩ | ⟨t, ht, hj, hw⟩
  · rcases hw with ⟨hf, _⟩ | ⟨_, hv⟩
    · have heq := hp.cell_unique hs ht hcell (by simp [SubSync.cells, hf])
      exact absurd rfl (hp.front_ne_back hs (heq ▸ hf) hb)
    · exact .inl ⟨hj, hv⟩
  · have heq := hp.cell_unique hs ht hcell (by rcases hw with ⟨hf, _⟩ | ⟨hb, _⟩ <;> simp [SubSync.cells, *])
    subst heq
    rcases hw with ⟨hf, _⟩ | ⟨_, hv⟩
    · exact absurd rfl (hp.front_ne_back hs hf hb)
    · exact .inr ⟨hj, hv⟩

/-! ## The chain of front waits -/

/-- When the wait for the first stream of a suffix was passed, every stream of the suffix has
announced itself. -/
theorem chain (hreach : Reachable prog st) {l : List SubSync} (hl : l <:+ subs)
    (hwait : ∀ op ∈ taskOps (nextWait l), op ∈ st.done j) (ht : t ∈ l) (ha : t.front = some a) :
    write a SK_DEFAULT_NOTIFY_VALUE ∈ st.done t.stream := by
  induction l generalizing j with
  | nil => cases ht
  | cons s rest ih =>
    have hrest : rest <:+ subs := (suffix_cons s rest).trans hl
    have hs : s ∈ subs := hl.subset (mem_cons_self ..)
    cases hfront : s.front with
    | none =>
      rw [nextWait_cons_none hfront] at hwait
      rcases mem_cons.mp ht with rfl | ht
      · rw [hfront] at ha
        cases ha
      · exact ih hrest hwait ht
    | some a' =>
      -- the wait saw the write of this stream, which comes after its own wait
      have hw : wait a' SK_DEFAULT_WAIT_VALUE ∈ st.done j := by
        apply hwait
        rw [nextWait_cons_some hfront]
        exact mem_singleton_self _
      rcases hreach.wait_done (by decide) hw with ⟨k, hk⟩
      have hk' : write a' SK_DEFAULT_NOTIFY_VALUE ∈ st.done s.stream := by
        rcases hp.front_writer hs hfront (hreach.mem_prog hk) with ⟨rfl, _⟩ | ⟨_, hv⟩
        · exact hk
        · cases hv
      rcases mem_cons.mp ht with rfl | ht
      · rw [hfront] at ha
        cases ha
        exact hk'
      have hprog := hp.sub_prog s rest hl
      rw [taskOps_tasks, taskOps_frontTasks hfront] at hprog
      have hdone := hreach.part_done
        (A := nodeActs (pre s.stream) ++ taskOps (nextWait rest)) (by rw [hprog]; simp; rfl) hk' ?_
      · exact ih hrest (fun op hop => hdone.subset (mem_append_right _ hop)) ht
      · rw [mem_append]
        rintro (hmem | hmem)
        · rcases mem_nodeActs.mp hmem with ⟨_, _, heq⟩
          cases heq
        · rcases mem_nextWait.mp hmem with ⟨_, _, heq⟩
          cases heq

/-! ## The super kernel starts -/

section

variable (hreach : Reachable prog st)
include hreach

/-- Once the super kernel has started, the main stream has passed its wait. -/
theorem main_part_done (hstart : act .skStart ∈ st.done main) :
    nodeActs (pre main) ++ taskOps (nextWait subs) <+: st.done main := by
  apply hreach.part_done (B := .act .skStart :: .act .skFinish :: eventOps ++ nodeActs (post main))
  · rw [hp.main_prog]
    simp
  · exact hstart
  · exact not_mem_before trivial (by simp)

/-- Then every sub stream with a front cell has announced itself. -/
theorem front_done (hstart : act .skStart ∈ st.done main) (hs : s ∈ subs)
    (ha : s.front = some a) : write a SK_DEFAULT_NOTIFY_VALUE ∈ st.done s.stream := by
  apply hp.chain hreach (suffix_refl subs) (j := main) (fun op hop => ?_) hs ha
  exact (hp.main_part_done hreach hstart).subset (mem_append_right _ hop)

/-- A sub stream that has announced itself has executed the tasks of its front cell. -/
theorem front_part_done (hsuffix : s :: rest <:+ subs)
    (ha : s.front = some a) (hwrite : write a SK_DEFAULT_NOTIFY_VALUE ∈ st.done s.stream) :
    nodeActs (pre s.stream) ++ taskOps (s.frontTasks rest) <+: st.done s.stream := by
  rw [taskOps_frontTasks ha, ← append_assoc]
  apply hreach.through_done (B := taskOps s.backTasks ++ nodeActs (post s.stream)) ?_ hwrite
  · exact not_mem_before trivial (by simp)
  · rw [hp.sub_prog s rest hsuffix, taskOps_tasks, taskOps_frontTasks ha]
    simp

/-- The super kernel starts only after every stream has executed its nodes before the scope. -/
theorem start_after_pre (hstart : act .skStart ∈ st.done main)
    (hi : i ∈ main :: subs.map (·.stream)) : nodeActs (pre i) <+: st.done i := by
  rcases mem_cons.mp hi with rfl | hi
  · exact (prefix_append _ _).trans (hp.main_part_done hreach hstart)
  rcases mem_map.mp hi with ⟨s, hs, rfl⟩
  cases ha : s.front with
  | none =>
    -- a stream without a front cell has nothing before the scope
    rw [hp.front s hs ha]
    exact List.nil_prefix
  | some a =>
    rcases exists_suffix hs with ⟨rest, hsuffix⟩
    exact (prefix_append _ _).trans
      (hp.front_part_done hreach hsuffix ha (hp.front_done hreach hstart hs ha))

/-- The super kernel has finished before an event node is executed. -/
theorem finish_of_event (hop : op ∈ eventOps) (hdone : op ∈ st.done main) :
    nodeActs (pre main) ++ taskOps (nextWait subs) ++ [.act .skStart, .act .skFinish]
      <+: st.done main := by
  apply hreach.part_done (B := eventOps ++ nodeActs (post main))
  · rw [hp.main_prog]
    simp
  · exact hdone
  · rcases hp.mem_eventOps.mp hop with ⟨_, _, ⟨_, _, rfl⟩ | ⟨_, _, rfl⟩⟩ <;>
    · simp only [mem_append, mem_cons, reduceCtorEq, not_mem_nil, or_false]
      rintro (hmem | hmem)
      · exact not_synthesised_of_mem hmem trivial
      · rcases mem_nextWait.mp hmem with ⟨_, _, heq⟩
        cases heq

/-- On a sub stream no node behind the scope runs before the super kernel has finished. -/
theorem post_after_finish (hs : s ∈ subs) (hn : n ∈ post s.stream)
    (hdone : act (.node n) ∈ st.done s.stream) : act .skFinish ∈ st.done main := by
  rcases exists_suffix hs with ⟨rest, hsuffix⟩
  cases hb : s.back with
  | none =>
    rw [hp.back s hs hb] at hn
    cases hn
  | some b =>
    have htasks : nodeActs (pre s.stream) ++ taskOps (s.tasks rest) <+: st.done s.stream := by
      apply hreach.part_done (hp.sub_prog s rest hsuffix) hdone
      rw [mem_append]
      rintro (hmem | hmem)
      · rcases mem_nodeActs.mp hmem with ⟨m, hm, heq⟩
        cases heq
        exact hp.disjoint s.stream n hn hm
      · rcases mem_map.mp hmem with ⟨task, _, heq⟩
        cases task <;> cases heq
    have hwait : wait b SK_DEFAULT_WAIT_VALUE ∈ st.done s.stream := by
      apply htasks.subset
      rw [taskOps_tasks, taskOps_backTasks hb]
      simp
    rcases hreach.wait_done (by decide) hwait with ⟨j, hj⟩
    rcases hp.back_writer hs hb (hreach.mem_prog hj) with ⟨rfl, _⟩ | ⟨_, hv⟩
    · have hevent : write b SK_DEFAULT_NOTIFY_VALUE ∈ eventOps :=
        hp.mem_eventOps.mpr ⟨s, hs, .inr ⟨b, hb, rfl⟩⟩
      apply (hp.finish_of_event hreach hevent hj).subset
      simp
    · cases hv

end

/-! ## The cells are flags -/

theorem eventOps_nodup : eventOps.Nodup := by
  have haddr : ((subs.flatMap (·.eventNodes)).map (·.addr)).Nodup := by
    have heq : (subs.flatMap (·.eventNodes)).map (·.addr) = subs.flatMap (·.cells) := by
      rw [map_flatMap]
      apply flatMap_congr
      intro s _
      unfold SubSync.eventNodes SubSync.cells
      cases s.front <;> cases s.back <;> rfl
    rw [heq]
    exact hp.cells
  rw [hp.events.nodup_iff]
  refine haddr.of_map.map_on fun e he e' he' heq => ?_
  have haddr' : e.addr = e'.addr := by
    simp only [SyncEventNode.op, write.injEq] at heq
    exact heq.1
  exact inj_on_of_nodup_map haddr he he' haddr'

/-- The operations of a stream around a synthesised one that stands once among the tasks. -/
theorem frontFlag (hs : s ∈ subs) (ha : s.front = some a) : IsFlag prog a s.stream main where
  writes _ _ h := hp.front_writer hs ha h
  once d hd := by
    rcases exists_suffix hs with ⟨rest, hsuffix⟩
    refine not_mem_of_prefix_concat (A := nodeActs (pre s.stream) ++ taskOps (nextWait rest))
      (B := taskOps s.backTasks ++ nodeActs (post s.stream)) ?_ ?_ ?_ hd
    · rw [hp.sub_prog s rest hsuffix, taskOps_tasks, taskOps_frontTasks ha]
      simp [SK_DEFAULT_NOTIFY_VALUE]
    · exact not_mem_before trivial (by simp)
    · rw [mem_append]
      rintro (hmem | hmem)
      · cases hb : s.back with
        | none =>
          rw [taskOps_backTasks_none hb] at hmem
          cases hmem
        | some b =>
          rw [taskOps_backTasks hb] at hmem
          simp [SK_DEFAULT_RESET_VALUE] at hmem
      · exact not_synthesised_of_mem hmem trivial
  after st hreach hlow := by
    -- the super kernel lowers the cell, so it has started
    have hevent : write a SK_DEFAULT_RESET_VALUE ∈ eventOps :=
      hp.mem_eventOps.mpr ⟨s, hs, .inl ⟨a, ha, rfl⟩⟩
    apply hp.front_done hreach ?_ hs ha
    apply (hp.finish_of_event hreach hevent hlow).subset
    simp

theorem backFlag (hs : s ∈ subs) (hb : s.back = some b) : IsFlag prog b main s.stream where
  writes _ _ h := hp.back_writer hs hb h
  once d hd := by
    have hevent : write b SK_DEFAULT_NOTIFY_VALUE ∈ eventOps :=
      hp.mem_eventOps.mpr ⟨s, hs, .inr ⟨b, hb, rfl⟩⟩
    rcases append_of_mem hevent with ⟨E, E', hE⟩
    have hnodup := hp.eventOps_nodup
    rw [hE, nodup_append, nodup_cons] at hnodup
    refine not_mem_of_prefix_concat (A := nodeActs (pre main) ++ taskOps (nextWait subs)
        ++ .act .skStart :: .act .skFinish :: E) (B := E' ++ nodeActs (post main)) ?_ ?_ ?_ hd
    · rw [hp.main_prog, hE]
      simp [SK_DEFAULT_NOTIFY_VALUE]
    · simp only [mem_append, mem_cons, reduceCtorEq, false_or]
      rintro ((hmem | hmem) | hmem)
      · exact not_synthesised_of_mem hmem trivial
      · rcases mem_nextWait.mp hmem with ⟨_, _, heq⟩
        cases heq
      · exact hnodup.2.2 _ hmem _ (mem_cons_self ..) rfl
    · rw [mem_append]
      rintro (hmem | hmem)
      · exact hnodup.2.1.1 hmem
      · exact not_synthesised_of_mem hmem trivial
  after st hreach hlow := by
    rcases exists_suffix hs with ⟨rest, hsuffix⟩
    have hpart : nodeActs (pre s.stream) ++ taskOps (s.frontTasks rest)
        ++ [.wait b SK_DEFAULT_WAIT_VALUE] <+: st.done s.stream := by
      apply hreach.part_done (B := .write b SK_DEFAULT_RESET_VALUE :: nodeActs (post s.stream)) ?_ hlow
      · simp only [mem_append, mem_singleton, reduceCtorEq, or_false]
        rintro (hmem | hmem)
        · exact not_synthesised_of_mem hmem trivial
        · cases (write_mem_frontTasks hmem).2
      · rw [hp.sub_prog s rest hsuffix, taskOps_tasks, taskOps_backTasks hb]
        simp
    have hwait : wait b SK_DEFAULT_WAIT_VALUE ∈ st.done s.stream := hpart.subset (by simp)
    rcases hreach.wait_done (by decide) hwait with ⟨j, hj⟩
    rcases hp.back_writer hs hb (hreach.mem_prog hj) with ⟨rfl, _⟩ | ⟨_, hv⟩
    · exact hj
    · cases hv

/-! ## No wait blocks forever -/

omit hp in
theorem taskOps_synthesised (tasks : List CustomTask) : ∀ op ∈ taskOps tasks, IsSynthesised op := by
  intro op hop
  rcases mem_map.mp hop with ⟨task, _, rfl⟩
  cases task <;> exact trivial

section Stuck

variable (hreach : Reachable prog st)
  (hpre : ∀ i ∈ main :: subs.map (·.stream), nodeActs (pre i) <+: st.done i)
  (hstuck : ∀ i op, IsSynthesised op → ¬ st.CanStep prog i op)
include hreach hpre hstuck

/-- Every sub stream with a front cell has announced itself: by induction from the end of the
order, since a stream waits only for one that comes after it. -/
theorem stuck_front_done {l : List SubSync} (hl : l <:+ subs) (ht : t ∈ l) (ha : t.front = some a) :
    write a SK_DEFAULT_NOTIFY_VALUE ∈ st.done t.stream := by
  induction l generalizing t a with
  | nil => cases ht
  | cons s rest ih =>
    have hrest : rest <:+ subs := (suffix_cons s rest).trans hl
    rcases mem_cons.mp ht with rfl | ht
    · have hs : t ∈ subs := hl.subset (mem_cons_self ..)
      have hmem : t.stream ∈ main :: subs.map (·.stream) :=
        mem_cons_of_mem _ (mem_map.mpr ⟨t, hs, rfl⟩)
      have hprog : prog t.stream = nodeActs (pre t.stream) ++ taskOps (nextWait rest)
          ++ (.write a SK_DEFAULT_NOTIFY_VALUE :: taskOps t.backTasks ++ nodeActs (post t.stream)) := by
        rw [hp.sub_prog t rest hl, taskOps_tasks, taskOps_frontTasks ha]
        simp
      rcases hreach.part_done_or_waits hprog (taskOps_synthesised _) (hpre _ hmem)
        (hstuck t.stream) with hdone | ⟨M₁, c, v, M₂, hM, hdone, hcell⟩
      · -- the write itself is always enabled
        by_contra hnot
        rcases hdone with ⟨R, hR⟩
        have hprefix := hreach.done_prefix t.stream
        rw [hprog, ← hR, prefix_append_right_inj] at hprefix
        cases R with
        | nil =>
          refine hstuck t.stream (.write a SK_DEFAULT_NOTIFY_VALUE) trivial ⟨?_, trivial⟩
          rw [hprog, ← hR, append_nil, prefix_append_right_inj]
          exact ⟨_, rfl⟩
        | cons op R =>
          have hop := (cons_prefix_cons.mp (cons_append ▸ hprefix)).1
          apply hnot
          rw [← hR, hop]
          simp
      · -- it waits for the next stream, whose cell has been raised
        have hwait : wait c v ∈ taskOps (nextWait rest) := by
          rw [hM]
          exact mem_append_right _ (mem_cons_self ..)
        rcases mem_nextWait.mp hwait with ⟨a', hfind, heq⟩
        cases heq
        rcases exists_of_findSome?_eq_some hfind with ⟨t', ht', ha'⟩
        have hraised := ih hrest ht' ha'
        have hflag := hp.frontFlag (hrest.subset ht') ha'
        by_cases hlow : write c 0 ∈ st.done main
        · have hevent : write c SK_DEFAULT_RESET_VALUE ∈ eventOps :=
            hp.mem_eventOps.mpr ⟨t', hrest.subset ht', .inl ⟨c, ha', rfl⟩⟩
          have hstart : act .skStart ∈ st.done main :=
            (hp.finish_of_event hreach hevent hlow).subset (by simp)
          exact hp.front_done hreach hstart hs ha
        · exact absurd ((hflag.value hreach).2 hlow hraised) hcell
    · exact ih hrest ht ha

/-- The main stream has passed the scope. -/
theorem stuck_main_passed : nodeActs (pre main) ++ (taskOps (nextWait subs)
    ++ .act .skStart :: .act .skFinish :: eventOps) <+: st.done main := by
  have hsyn : ∀ op ∈ taskOps (nextWait subs) ++ .act .skStart :: .act .skFinish :: eventOps,
      IsSynthesised op := by
    intro op hop
    rcases mem_append.mp hop with hop | hop
    · exact taskOps_synthesised _ op hop
    · rcases mem_cons.mp hop with rfl | hop
      · exact trivial
      · rcases mem_cons.mp hop with rfl | hop
        · exact trivial
        · rcases hp.mem_eventOps.mp hop with ⟨_, _, ⟨_, _, rfl⟩ | ⟨_, _, rfl⟩⟩ <;> exact trivial
  rcases hreach.part_done_or_waits hp.main_prog hsyn (hpre main (mem_cons_self ..))
    (hstuck main) with hdone | ⟨M₁, c, v, M₂, hM, hdone, hcell⟩
  · exact hdone
  exfalso
  -- the only wait of the main stream stands before the start
  have hwait : wait c v ∈ taskOps (nextWait subs) := by
    have hmem : wait c v ∈ taskOps (nextWait subs)
        ++ .act .skStart :: .act .skFinish :: eventOps := by
      rw [hM]
      exact mem_append_right _ (mem_cons_self ..)
    simp only [mem_append, mem_cons, reduceCtorEq, false_or] at hmem
    rcases hmem with hmem | hmem
    · exact hmem
    · rcases hp.mem_eventOps.mp hmem with ⟨_, _, ⟨_, _, heq⟩ | ⟨_, _, heq⟩⟩ <;> cases heq
  rcases mem_nextWait.mp hwait with ⟨a, hfind, heq⟩
  cases heq
  rcases exists_of_findSome?_eq_some hfind with ⟨t, ht, ha⟩
  have hraised := hp.stuck_front_done hreach hpre hstuck (suffix_refl subs) ht ha
  have hflag := hp.frontFlag ht ha
  by_cases hlow : write c 0 ∈ st.done main
  · -- then the super kernel has finished, and no wait is left
    have hevent : write c SK_DEFAULT_RESET_VALUE ∈ eventOps :=
      hp.mem_eventOps.mpr ⟨t, ht, .inl ⟨c, ha, rfl⟩⟩
    have hpart := hp.finish_of_event hreach hevent hlow
    rw [hdone, append_assoc, prefix_append_right_inj] at hpart
    have hmem : wait c SK_DEFAULT_WAIT_VALUE ∈ eventOps := by
      apply mem_of_prefix_of_append_eq hpart
      rw [← hM]
      simp
    rcases hp.mem_eventOps.mp hmem with ⟨_, _, ⟨_, _, heq⟩ | ⟨_, _, heq⟩⟩ <;> cases heq
  · exact absurd ((hflag.value hreach).2 hlow hraised) hcell

/-- Every sub stream has passed the scope. -/
theorem stuck_sub_passed (hsuffix : s :: rest <:+ subs) :
    nodeActs (pre s.stream) ++ taskOps (s.tasks rest) <+: st.done s.stream := by
  have hs : s ∈ subs := hsuffix.subset (mem_cons_self ..)
  have hmem : s.stream ∈ main :: subs.map (·.stream) :=
    mem_cons_of_mem _ (mem_map.mpr ⟨s, hs, rfl⟩)
  rcases hreach.part_done_or_waits (hp.sub_prog s rest hsuffix) (taskOps_synthesised _)
    (hpre _ hmem) (hstuck s.stream) with hdone | ⟨M₁, c, v, M₂, hM, hdone, hcell⟩
  · exact hdone
  exfalso
  -- the stream has executed the tasks of its front cell, so it waits for its back cell
  have hfront : taskOps (s.frontTasks rest) <+: M₁ := by
    cases ha : s.front with
    | none =>
      rw [taskOps_frontTasks_none ha]
      exact List.nil_prefix
    | some a =>
      have hraised := hp.stuck_front_done hreach hpre hstuck (suffix_refl subs) hs ha
      have hpart := hp.front_part_done hreach hsuffix ha hraised
      rw [hdone, prefix_append_right_inj] at hpart
      exact hpart
  rcases hfront with ⟨X, rfl⟩
  rw [taskOps_tasks, append_assoc, append_cancel_left_eq] at hM
  cases hb : s.back with
  | none =>
    rw [taskOps_backTasks_none hb] at hM
    simp at hM
  | some b =>
    rw [taskOps_backTasks hb] at hM
    cases X with
    | cons x X =>
      -- behind the wait there is only a write
      have htail := (cons_eq_cons.mp hM).2
      cases X with
      | nil => cases htail
      | cons y Y => simp at htail
    | nil =>
      cases hM
      rw [append_nil] at hdone
      have hevent : write c SK_DEFAULT_NOTIFY_VALUE ∈ eventOps :=
        hp.mem_eventOps.mpr ⟨s, hs, .inr ⟨c, hb, rfl⟩⟩
      have hraised : write c SK_DEFAULT_NOTIFY_VALUE ∈ st.done main :=
        (hp.stuck_main_passed hreach hpre hstuck).subset (by simp [hevent])
      have hlow : write c 0 ∉ st.done s.stream := by
        rw [hdone, mem_append]
        rintro (hmem | hmem)
        · exact not_synthesised_of_mem hmem trivial
        · cases (write_mem_frontTasks hmem).2
      exact hcell (((hp.backFlag hs hb).value hreach).2 hlow hraised)

end Stuck

/-! ## Passing the scope -/

section

variable (hreach : Reachable prog st)
include hreach

theorem passedScope_main_iff : PassedScope prog post st main ↔
    nodeActs (pre main) ++ (taskOps (nextWait subs) ++ .act .skStart :: .act .skFinish :: eventOps)
      <+: st.done main :=
  passedScope_iff hreach hp.main_prog

theorem passedScope_sub_iff (hsuffix : s :: rest <:+ subs) :
    PassedScope prog post st s.stream ↔
      nodeActs (pre s.stream) ++ taskOps (s.tasks rest) <+: st.done s.stream :=
  passedScope_iff hreach (hp.sub_prog s rest hsuffix)

/-- When the streams have executed the nodes before the scope and no synthesised operation can
be executed, they have passed the scope. -/
theorem stuck_passed (hpre : ∀ i ∈ main :: subs.map (·.stream), nodeActs (pre i) <+: st.done i)
    (hstuck : ∀ i op, IsSynthesised op → ¬ st.CanStep prog i op)
    (hi : i ∈ main :: subs.map (·.stream)) : PassedScope prog post st i := by
  rcases mem_cons.mp hi with rfl | hi
  · exact (hp.passedScope_main_iff hreach).mpr (hp.stuck_main_passed hreach hpre hstuck)
  · rcases mem_map.mp hi with ⟨s, hs, rfl⟩
    rcases exists_suffix hs with ⟨rest, hsuffix⟩
    exact (hp.passedScope_sub_iff hreach hsuffix).mpr (hp.stuck_sub_passed hreach hpre hstuck hsuffix)

omit hreach in
/-- In a fair run the streams pass the scope once they have executed the nodes before it. -/
theorem eventually_passed {σ : ℕ → FlagState ℕ StreamAct Addr} (hσ : Behaviour prog σ)
    (hfair : Fair prog IsSynthesised σ) {n : ℕ}
    (hpre : ∀ i ∈ main :: subs.map (·.stream), nodeActs (pre i) <+: (σ n).done i) :
    ∃ m, n ≤ m ∧ AllPassed prog post (main :: subs.map (·.stream)) (σ m) := by
  have hstreams : ∀ i, i ∉ (main :: subs.map (·.stream)).toFinset → prog i = [] := by
    intro i hi
    rw [mem_toFinset] at hi
    exact hp.other i hi
  apply hσ.reaches hfair hstreams
  intro m hm
  by_cases hstuck : ∀ i op, IsSynthesised op → ¬ (σ m).CanStep prog i op
  · have hpre' : ∀ i ∈ main :: subs.map (·.stream), nodeActs (pre i) <+: (σ m).done i :=
      fun i hi => (hpre i hi).trans (hσ.done_mono hm i)
    exact .inl fun i hi => hp.stuck_passed (hσ.reachable m) hpre' hstuck hi
  · push Not at hstuck
    exact .inr hstuck

/-- When the streams have passed the scope, every cell holds 0 again. -/
theorem cells_cleared (hpassed : AllPassed prog post (main :: subs.map (·.stream)) st)
    (hs : s ∈ subs) (hc : c ∈ s.cells) : st.cells c = 0 := by
  rw [SubSync.cells, mem_append, Option.mem_toList, Option.mem_toList] at hc
  rcases hc with ha | hb
  · -- the super kernel has executed the RESET of a front cell
    have hmain := (hp.passedScope_main_iff hreach).mp (hpassed main (mem_cons_self ..))
    have hevent : write c SK_DEFAULT_RESET_VALUE ∈ eventOps :=
      hp.mem_eventOps.mpr ⟨s, hs, .inl ⟨c, ha, rfl⟩⟩
    have hlow : write c SK_DEFAULT_RESET_VALUE ∈ st.done main := hmain.subset (by simp [hevent])
    exact ((hp.frontFlag hs ha).value hreach).1 hlow
  · -- the stream itself has cleared its back cell
    rcases exists_suffix hs with ⟨rest, hsuffix⟩
    have hsub := (hp.passedScope_sub_iff hreach hsuffix).mp
      (hpassed s.stream (mem_cons_of_mem _ (mem_map.mpr ⟨s, hs, rfl⟩)))
    have hlow : write c SK_DEFAULT_RESET_VALUE ∈ st.done s.stream := by
      apply hsub.subset
      rw [taskOps_tasks, taskOps_backTasks hb]
      simp
    exact ((hp.backFlag hs hb).value hreach).1 hlow

end

end SyncProgram

end GraphAutofusion.SuperKernel
