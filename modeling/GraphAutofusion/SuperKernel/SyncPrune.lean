import GraphAutofusion.SuperKernel.SyncEdges
import Mathlib.Data.List.GetD

/-!
# SuperKernel.SyncPrune — pruning keeps every dependency

The send and receive maps of the sync metadata always hold the same two edge sets, one for
each direction. The three passes of the source compute the prunings of `Lib.EdgePrune`
on each of them, so the edges that remain form a matching and still enforce every
inserted dependency.
-/

namespace GraphAutofusion.SuperKernel

open Lib Relation List

/-- The edge sets the maps stand for; every edge appears on both of its sides. -/
structure Represents (types : ℕ → SkQueueType) (infos : TaskSyncInfos)
    (E : Bool → Set (ℕ × ℕ)) : Prop where
  types : ∀ i, (infos i).queueType = types i
  send : ∀ b s r, (infos s).sendInfo b r = some (syncDirection b) ↔ (s, r) ∈ E b
  recv : ∀ b s r, (infos r).recvInfo b s = some (syncDirection b) ↔ (s, r) ∈ E b
  recv_value : ∀ b s r d, (infos r).recvInfo b s = some d → d = syncDirection b

variable {types : ℕ → SkQueueType} {infos infos' : TaskSyncInfos} {n i k s r : ℕ} {b b' : Bool}
  {E E' : Bool → Set (ℕ × ℕ)} {D D' : Set (ℕ × ℕ)}

theorem Represents.congr (hrep : Represents types infos E) (heq : ∀ b e, e ∈ E b ↔ e ∈ E' b) :
    Represents types infos E' where
  types := hrep.types
  send := fun b s r => (hrep.send b s r).trans (heq b (s, r))
  recv := fun b s r => (hrep.recv b s r).trans (heq b (s, r))
  recv_value := hrep.recv_value

/-! ## Inserting and removing edges -/

section Entries

variable (t : TaskSyncInfo) (infos : TaskSyncInfos) (i j k key : ℕ) (b b' : Bool)

@[simp] theorem sendInfo_setSend : (t.setSend b key).sendInfo b' k
    = if b' = b ∧ k = key then some (syncDirection b) else t.sendInfo b' k := by
  cases b <;> cases b' <;> simp [TaskSyncInfo.setSend, TaskSyncInfo.sendInfo, syncDirection]

@[simp] theorem recvInfo_setSend : (t.setSend b key).recvInfo b' = t.recvInfo b' := by
  cases b <;> cases b' <;> rfl

@[simp] theorem sendInfo_setRecv : (t.setRecv b key).sendInfo b' = t.sendInfo b' := by
  cases b <;> cases b' <;> rfl

@[simp] theorem recvInfo_setRecv : (t.setRecv b key).recvInfo b' k
    = if b' = b ∧ k = key then some (syncDirection b) else t.recvInfo b' k := by
  cases b <;> cases b' <;> simp [TaskSyncInfo.setRecv, TaskSyncInfo.recvInfo, syncDirection]

@[simp] theorem queueType_setSend : (t.setSend b key).queueType = t.queueType := by
  cases b <;> rfl

@[simp] theorem queueType_setRecv : (t.setRecv b key).queueType = t.queueType := by
  cases b <;> rfl

variable (isRemoveRecv : Bool)

theorem sendInfo_removeSyncInfo :
    (removeSyncInfo infos i key isRemoveRecv (syncDirection b) j).sendInfo b' k
        = some (syncDirection b') ↔
      (infos j).sendInfo b' k = some (syncDirection b') ∧
        ¬ (isRemoveRecv = false ∧ b' = b ∧ j = i ∧ k = key) := by
  by_cases hj : j = i
  · cases isRemoveRecv <;> cases b' <;> cases b <;>
      simp [removeSyncInfo, updateTask, TaskSyncInfo.sendInfo, removeDirection, hj, syncDirection] <;>
      grind
  · simp [removeSyncInfo, updateTask, hj]

theorem recvInfo_removeSyncInfo :
    (removeSyncInfo infos i key isRemoveRecv (syncDirection b) j).recvInfo b' k
        = some (syncDirection b') ↔
      (infos j).recvInfo b' k = some (syncDirection b') ∧
        ¬ (isRemoveRecv = true ∧ b' = b ∧ j = i ∧ k = key) := by
  by_cases hj : j = i
  · cases isRemoveRecv <;> cases b' <;> cases b <;>
      simp [removeSyncInfo, updateTask, TaskSyncInfo.recvInfo, removeDirection, hj, syncDirection] <;>
      grind
  · simp [removeSyncInfo, updateTask, hj]

/-- Removals add no entry. -/
theorem recvInfo_of_removeSyncInfo {d : SyncDirection}
    (h : (removeSyncInfo infos i key isRemoveRecv (syncDirection b) j).recvInfo b' k = some d) :
    (infos j).recvInfo b' k = some d := by
  by_cases hj : j = i
  · cases isRemoveRecv <;> cases b' <;>
      simp_all [removeSyncInfo, updateTask, TaskSyncInfo.recvInfo, removeDirection]
  · simpa [removeSyncInfo, updateTask, hj] using h

theorem queueType_removeSyncInfo (dir : SyncDirection) :
    (removeSyncInfo infos i key isRemoveRecv dir j).queueType = (infos j).queueType := by
  by_cases hj : j = i
  · cases isRemoveRecv <;> simp [removeSyncInfo, updateTask, hj]
  · simp [removeSyncInfo, updateTask, hj]

end Entries

/-- The edge sets without the edges `D` of one direction. -/
def without (E : Bool → Set (ℕ × ℕ)) (b : Bool) (D : Set (ℕ × ℕ)) : Bool → Set (ℕ × ℕ) :=
  fun b' e => e ∈ E b' ∧ (b' = b → e ∉ D)

theorem mem_without {e : ℕ × ℕ} : e ∈ without E b D b' ↔ e ∈ E b' ∧ (b' = b → e ∉ D) := Iff.rfl

section

variable (hrep : Represents types infos E)
include hrep

/-- Removing an edge on both sides, in either order. -/
theorem Represents.removeBoth
    (hinfos : infos' = removeSyncInfo (removeSyncInfo infos s r false (syncDirection b))
        r s true (syncDirection b) ∨
      infos' = removeSyncInfo (removeSyncInfo infos r s true (syncDirection b))
        s r false (syncDirection b)) :
    Represents types infos' (without E b {(s, r)}) := by
  constructor
  · intro j
    rcases hinfos with rfl | rfl
    · rw [queueType_removeSyncInfo, queueType_removeSyncInfo, hrep.types j]
    · rw [queueType_removeSyncInfo, queueType_removeSyncInfo, hrep.types j]
  · intro b' s' r'
    have hiff : (infos' s').sendInfo b' r' = some (syncDirection b') ↔
        (infos s').sendInfo b' r' = some (syncDirection b') ∧ ¬ (b' = b ∧ s' = s ∧ r' = r) := by
      rcases hinfos with rfl | rfl
      · rw [sendInfo_removeSyncInfo, sendInfo_removeSyncInfo]
        simp
      · rw [sendInfo_removeSyncInfo, sendInfo_removeSyncInfo]
        simp
    rw [hiff, hrep.send, mem_without]
    simp
  · intro b' s' r'
    have hiff : (infos' r').recvInfo b' s' = some (syncDirection b') ↔
        (infos r').recvInfo b' s' = some (syncDirection b') ∧ ¬ (b' = b ∧ r' = r ∧ s' = s) := by
      rcases hinfos with rfl | rfl
      · rw [recvInfo_removeSyncInfo, recvInfo_removeSyncInfo]
        simp
      · rw [recvInfo_removeSyncInfo, recvInfo_removeSyncInfo]
        simp
    rw [hiff, hrep.recv, mem_without]
    simp only [Set.mem_singleton_iff, Prod.mk.injEq, not_and]
    constructor
    · rintro ⟨hmem, hne⟩
      exact ⟨hmem, fun hb hs hr => hne hb hr hs⟩
    · rintro ⟨hmem, hne⟩
      exact ⟨hmem, fun hb hr hs => hne hb hs hr⟩
  · intro b' s' r' d hd
    rcases hinfos with rfl | rfl
    · exact hrep.recv_value b' s' r' d (recvInfo_of_removeSyncInfo _ _ _ _ _ _ _ _
        (recvInfo_of_removeSyncInfo _ _ _ _ _ _ _ _ hd))
    · exact hrep.recv_value b' s' r' d (recvInfo_of_removeSyncInfo _ _ _ _ _ _ _ _
        (recvInfo_of_removeSyncInfo _ _ _ _ _ _ _ _ hd))

/-- Removing a list of edges. -/
theorem Represents.removeList {α : Type} (edge : α → ℕ × ℕ)
    {remove : TaskSyncInfos → α → TaskSyncInfos}
    (hremove : ∀ infos E a, Represents types infos E →
      Represents types (remove infos a) (without E b {edge a})) (l : List α) :
    Represents types (l.foldl remove infos) (without E b {e | ∃ a ∈ l, edge a = e}) := by
  induction l generalizing infos E with
  | nil => exact hrep.congr fun b' e => by simp [mem_without]
  | cons a l ih =>
    refine (ih (hremove infos E a hrep)).congr fun b' e => ?_
    simp only [mem_without, Set.mem_singleton_iff, Set.mem_ofPred_eq, mem_cons,
      exists_eq_or_imp, not_or, not_exists, not_and]
    constructor
    · rintro ⟨⟨hmem, hne⟩, hrest⟩
      exact ⟨hmem, fun hb => ⟨fun heq => hne hb heq.symm, hrest hb⟩⟩
    · rintro ⟨hmem, hall⟩
      exact ⟨⟨hmem, fun hb heq => (hall hb).1 heq.symm⟩, fun hb => (hall hb).2⟩

/-- A loop over the tasks that removes, at task `i`, the edges of `D` with key `i`. -/
theorem Represents.removeLoop {key : ℕ × ℕ → ℕ}
    {step : TaskSyncInfos → ℕ → TaskSyncInfos}
    (hstep : ∀ m cur, Represents types cur (without E b {e | key e < m ∧ e ∈ D}) →
      Represents types (step cur m)
        (without (without E b {e | key e < m ∧ e ∈ D}) b {e | key e = m ∧ e ∈ D})) (m : ℕ) :
    Represents types ((range m).foldl step infos) (without E b {e | key e < m ∧ e ∈ D}) := by
  induction m with
  | zero => exact hrep.congr fun b' e => by simp [mem_without]
  | succ m ih =>
    rw [range_succ, foldl_append]
    refine (hstep m _ ih).congr fun b' e => ?_
    simp only [mem_without, Set.mem_ofPred_eq, Nat.lt_succ_iff_lt_or_eq]
    tauto

end

/-! ## The passes compute the prunings -/

/-- The tasks of all edges exist. -/
def Bounded (n : ℕ) (E : Bool → Set (ℕ × ℕ)) : Prop := ∀ b, ∀ e ∈ E b, e.1 < n ∧ e.2 < n

theorem Bounded.mono (hbound : Bounded n E) (hsub : ∀ b, E' b ⊆ E b) : Bounded n E' :=
  fun b e he => hbound b e (hsub b he)

theorem Bounded.without (hbound : Bounded n E) (b : Bool) (D : Set (ℕ × ℕ)) :
    Bounded n (without E b D) :=
  hbound.mono fun _ _ he => he.1

section

variable (hrep : Represents types infos E)
include hrep

theorem Represents.mem_sendKeys (hbound : Bounded n E) :
    r ∈ keysOf n ((infos s).sendInfo b) b ↔ (s, r) ∈ E b := by
  unfold keysOf
  rw [mem_filter, decide_eq_true_eq, hrep.send, mem_range, and_iff_right_iff_imp]
  intro he
  exact (hbound b _ he).2

theorem Represents.mem_recvKeys (hbound : Bounded n E) :
    s ∈ keysOf n ((infos r).recvInfo b) b ↔ (s, r) ∈ E b := by
  unfold keysOf
  rw [mem_filter, decide_eq_true_eq, hrep.recv, mem_range, and_iff_right_iff_imp]
  intro he
  exact (hbound b _ he).1

theorem Represents.mem_setTasks (hbound : Bounded n E) :
    s ∈ setTasks n b infos ↔ ∃ r, (s, r) ∈ E b := by
  unfold setTasks
  rw [mem_filter, mem_range]
  simp only [Bool.not_eq_true', isEmpty_eq_false_iff_exists_mem, hrep.mem_sendKeys hbound]
  constructor
  · rintro ⟨_, r, he⟩
    exact ⟨r, he⟩
  · rintro ⟨r, he⟩
    exact ⟨(hbound b _ he).1, r, he⟩

theorem Represents.mem_waitTasks (hbound : Bounded n E) :
    r ∈ waitTasks n b infos ↔ ∃ s, (s, r) ∈ E b := by
  unfold waitTasks
  rw [mem_filter, mem_range]
  simp only [Bool.not_eq_true', isEmpty_eq_false_iff_exists_mem, hrep.mem_recvKeys hbound]
  constructor
  · rintro ⟨_, s, he⟩
    exact ⟨s, he⟩
  · rintro ⟨s, he⟩
    exact ⟨(hbound b _ he).2, s, he⟩

omit hrep in
theorem keysOf_sorted (n : ℕ) (info : SyncMap) (b : Bool) : (keysOf n info b).Pairwise (· < ·) :=
  pairwise_lt_range.filter _

/-- `JudgeRemoveCrossSync` looks for a crossing edge. -/
theorem Represents.judge (hbound : Bounded n E) :
    judgeRemoveCrossSync n infos s r b = true ↔ ∃ e ∈ E b, Crosses e (s, r) := by
  unfold judgeRemoveCrossSync
  simp only [any_eq_true, mem_range]
  constructor
  · rintro ⟨r', hr', s', _, htest⟩
    cases hentry : (infos r').recvInfo b s' with
    | none => simp [hentry] at htest
    | some d =>
      have hd := hrep.recv_value b s' r' d hentry
      rw [hd] at hentry
      simp only [hentry, Bool.and_eq_true, decide_eq_true_eq] at htest
      exact ⟨(s', r'), (hrep.recv b s' r').mp hentry, htest.2, hr'⟩
  · rintro ⟨⟨s', r'⟩, he, hlt, hr'⟩
    have hentry := (hrep.recv b s' r').mpr he
    refine ⟨r', hr', s', (hbound b _ he).1, ?_⟩
    simpa [hentry] using hlt

omit hrep in
/-- The edges a loop leaves, when its removed edges are those outside a pruning. -/
theorem without_loop {key : ℕ × ℕ → ℕ} (hkey : ∀ e ∈ E b, key e < n) {P : Set (ℕ × ℕ)}
    (hP : ∀ e, e ∈ P ↔ e ∈ E b ∧ e ∉ D) (b' : Bool) (e : ℕ × ℕ) :
    e ∈ without E b {e | key e < n ∧ e ∈ D} b' ↔ e ∈ Function.update E b P b' := by
  by_cases hb : b' = b
  · subst hb
    rw [Function.update_self, hP, mem_without]
    simp only [Set.mem_ofPred_eq, forall_const, not_and]
    constructor
    · rintro ⟨he, hnot⟩
      exact ⟨he, hnot (hkey e he)⟩
    · rintro ⟨he, hnot⟩
      exact ⟨he, fun _ => hnot⟩
  · rw [Function.update_of_ne hb, mem_without]
    simp [hb]

omit hrep in
theorem without_congr (h : ∀ e ∈ E b, e ∈ D ↔ e ∈ D') (b' : Bool) (e : ℕ × ℕ) :
    e ∈ without E b D b' ↔ e ∈ without E b D' b' := by
  rw [mem_without, mem_without]
  refine and_congr_right fun he => forall_congr' fun hb => ?_
  exact not_congr (h e (hb ▸ he))

/-- The edges that go are those another edge crosses. While task `i` is handled, all edges
that start later are still there. -/
theorem Represents.removeCrossedLines (hbound : Bounded n E) (b : Bool) :
    Represents types (removeCrossedLines n b infos) (Function.update E b (uncrossed (E b))) := by
  have hloop : Represents types (SuperKernel.removeCrossedLines n b infos)
      (without E b {e | e.1 < n ∧ e ∈ {e | ∃ e' ∈ E b, Crosses e' e}}) := by
    refine hrep.removeLoop (fun m cur hcur => ?_) n
    refine (hcur.removeList (b := b) (fun r => (m, r))
      (fun infos E r h => h.removeBoth (.inl rfl)) _).congr (without_congr fun e he => ?_)
    rcases e with ⟨s, r⟩
    have hjudge : ∀ r, judgeRemoveCrossSync n cur m r b = true ↔
        ∃ e' ∈ E b, Crosses e' (m, r) := by
      intro r
      rw [hcur.judge (hbound.without b _)]
      constructor
      · rintro ⟨e', he', hcross⟩
        exact ⟨e', he'.1, hcross⟩
      · rintro ⟨e', he', hcross⟩
        exact ⟨e', ⟨he', fun _ hgone => absurd hgone.1 (Nat.lt_asymm hcross.1)⟩, hcross⟩
    simp only [Set.mem_ofPred_eq, mem_filter, hcur.mem_sendKeys (hbound.without b _), hjudge,
      Prod.mk.injEq]
    constructor
    · rintro ⟨a, ⟨_, hcross⟩, rfl, rfl⟩
      exact ⟨rfl, hcross⟩
    · rintro ⟨rfl, hcross⟩
      exact ⟨r, ⟨he, hcross⟩, rfl, rfl⟩
  refine hloop.congr (without_loop (fun e he => (hbound b e he).1) fun e => ?_)
  simp only [Set.mem_ofPred_eq, not_exists, not_and]
  exact Iff.rfl

omit hrep in
/-- In an ascending list the tail holds what lies above some element. -/
theorem mem_tail_iff {l : List ℕ} (hl : l.Pairwise (· < ·)) {x : ℕ} :
    x ∈ l.tail ↔ x ∈ l ∧ ∃ y ∈ l, y < x := by
  cases l with
  | nil => simp
  | cons a l =>
    have hlt := (pairwise_cons.mp hl).1
    rw [tail_cons]
    constructor
    · intro hx
      exact ⟨mem_cons_of_mem _ hx, a, mem_cons_self .., hlt x hx⟩
    · rintro ⟨hx, y, hy, hyx⟩
      rcases mem_cons.mp hx with rfl | hx
      · rcases mem_cons.mp hy with rfl | hy
        · exact absurd hyx (Nat.lt_irrefl _)
        · exact absurd hyx (Nat.lt_asymm (hlt y hy))
      · exact hx

omit hrep in
/-- In an ascending list the reversed list's tail holds what lies below some element. -/
theorem mem_tail_reverse_iff {l : List ℕ} (hl : l.Pairwise (· < ·)) {x : ℕ} :
    x ∈ l.reverse.tail ↔ x ∈ l ∧ ∃ y ∈ l, x < y := by
  rw [tail_reverse, mem_reverse]
  rcases eq_nil_or_concat' l with rfl | ⟨l, a, rfl⟩
  · simp
  have hlt := (pairwise_append.mp hl).2.2
  rw [dropLast_concat]
  constructor
  · intro hx
    have hmem : a ∈ l ++ [a] := mem_append_right _ (mem_singleton_self a)
    exact ⟨mem_append_left _ hx, a, hmem, hlt x hx a (mem_singleton_self a)⟩
  · rintro ⟨hx, y, hy, hxy⟩
    rcases mem_append.mp hx with hx | hx
    · exact hx
    · have hxa : x = a := by simpa using hx
      subst hxa
      rcases mem_append.mp hy with hy | hy
      · exact absurd hxy (Nat.lt_asymm (hlt y hy x (mem_singleton_self x)))
      · have hyx : y = x := by simpa using hy
        exact absurd hxy (hyx ▸ Nat.lt_irrefl _)

/-- Each task keeps its first receiver. -/
theorem Represents.removeMultiSends (hbound : Bounded n E) (b : Bool) :
    Represents types (removeMultiSends n b infos) (Function.update E b (firstTargets (E b))) := by
  have hloop : Represents types (SuperKernel.removeMultiSends n b infos)
      (without E b {e | e.1 < n ∧ e ∈ {e | ∃ e' ∈ E b, e'.1 = e.1 ∧ e'.2 < e.2}}) := by
    refine hrep.removeLoop (fun m cur hcur => ?_) n
    refine (hcur.removeList (b := b) (fun r => (m, r))
      (fun infos E r h => h.removeBoth (.inl rfl)) _).congr (without_congr fun e he => ?_)
    rcases e with ⟨s, r⟩
    have hkeys := keysOf_sorted n ((cur m).sendInfo b) b
    simp only [Set.mem_ofPred_eq, mem_tail_iff hkeys, hcur.mem_sendKeys (hbound.without b _), Prod.mk.injEq]
    constructor
    · rintro ⟨a, ⟨_, r', he', hlt⟩, rfl, rfl⟩
      exact ⟨rfl, (m, r'), he'.1, rfl, hlt⟩
    · rintro ⟨rfl, ⟨s', r'⟩, he', hsource, hlt⟩
      have hsame : s' = s := hsource
      subst hsame
      exact ⟨r, ⟨he, r', ⟨he', fun _ hgone => absurd hgone.1 (Nat.lt_irrefl _)⟩, hlt⟩, rfl, rfl⟩
  refine hloop.congr (without_loop (fun e he => (hbound b e he).1) fun e => ?_)
  simp only [Set.mem_ofPred_eq, not_exists, not_and, not_lt]
  exact Iff.rfl

/-- Each task keeps its last sender. -/
theorem Represents.removeMultiRecvs (hbound : Bounded n E) (b : Bool) :
    Represents types (removeMultiRecvs n b infos) (Function.update E b (lastSources (E b))) := by
  have hloop : Represents types (SuperKernel.removeMultiRecvs n b infos)
      (without E b {e | e.2 < n ∧ e ∈ {e | ∃ e' ∈ E b, e'.2 = e.2 ∧ e.1 < e'.1}}) := by
    refine hrep.removeLoop (fun m cur hcur => ?_) n
    refine (hcur.removeList (b := b) (fun s => (s, m))
      (fun infos E s h => h.removeBoth (.inr rfl)) _).congr (without_congr fun e he => ?_)
    rcases e with ⟨s, r⟩
    have hkeys := keysOf_sorted n ((cur m).recvInfo b) b
    simp only [Set.mem_ofPred_eq, mem_tail_reverse_iff hkeys, hcur.mem_recvKeys (hbound.without b _),
      Prod.mk.injEq]
    constructor
    · rintro ⟨a, ⟨_, s', he', hlt⟩, rfl, rfl⟩
      exact ⟨rfl, (s', m), he'.1, rfl, hlt⟩
    · rintro ⟨rfl, ⟨s', r'⟩, he', htarget, hlt⟩
      have hsame : r' = r := htarget
      subst hsame
      exact ⟨s, ⟨he, s', ⟨he', fun _ hgone => absurd hgone.1 (Nat.lt_irrefl _)⟩, hlt⟩, rfl, rfl⟩
  refine hloop.congr (without_loop (fun e he => (hbound b e he).2) fun e => ?_)
  simp only [Set.mem_ofPred_eq, not_exists, not_and, not_lt]
  exact Iff.rfl

/-- The three passes prune both directions. -/
theorem Represents.pruneSync (hbound : Bounded n E) :
    Represents types (pruneSync n infos) fun b => pruned (E b) := by
  have hstep : ∀ {E : Bool → Set (ℕ × ℕ)} (prune : Set (ℕ × ℕ) → Set (ℕ × ℕ)) (b : Bool),
      (∀ F, prune F ⊆ F) → Bounded n E → Bounded n (Function.update E b (prune (E b))) := by
    intro E prune b hsub hE
    refine hE.mono fun b' => ?_
    by_cases hb : b' = b
    · subst hb
      rw [Function.update_self]
      exact hsub _
    · rw [Function.update_of_ne hb]
  have hcross₁ := hrep.removeCrossedLines hbound true
  have hbound₁ := hstep uncrossed true (fun _ => uncrossed_subset) hbound
  have hcross₂ := hcross₁.removeCrossedLines hbound₁ false
  have hbound₂ := hstep uncrossed false (fun _ => uncrossed_subset) hbound₁
  have hsend₁ := hcross₂.removeMultiSends hbound₂ false
  have hbound₃ := hstep firstTargets false (fun _ => firstTargets_subset) hbound₂
  have hsend₂ := hsend₁.removeMultiSends hbound₃ true
  have hbound₄ := hstep firstTargets true (fun _ => firstTargets_subset) hbound₃
  have hrecv₁ := hsend₂.removeMultiRecvs hbound₄ true
  have hbound₅ := hstep lastSources true (fun _ => lastSources_subset) hbound₄
  refine (hrecv₁.removeMultiRecvs hbound₅ false).congr fun b e => ?_
  cases b <;> simp [Function.update, pruned]

end

/-! ## The inserted edges -/

section Insert

variable (infos : TaskSyncInfos) (p c j k : ℕ) (b : Bool)

/-- The direction `InsertSyncEvent` uses. -/
def insertDirection : SyncDirection :=
  genSyncDirection (infos p).queueType (infos c).queueType

theorem syncInfo_insertSyncEvent :
    (insertSyncEvent infos p c j).sendInfo b k =
        (if needsEdge b (insertDirection infos p c) ∧ j = p ∧ k = c then some (syncDirection b)
          else (infos j).sendInfo b k) ∧
      (insertSyncEvent infos p c j).recvInfo b k =
        if needsEdge b (insertDirection infos p c) ∧ j = c ∧ k = p then some (syncDirection b)
        else (infos j).recvInfo b k := by
  unfold insertSyncEvent insertDirection
  generalize genSyncDirection (infos p).queueType (infos c).queueType = dir
  cases hcub : needsEdge true dir <;> cases hvec : needsEdge false dir <;> cases b <;>
    by_cases hp : j = p <;> by_cases hc : j = c <;> simp [updateTask, hcub, hvec, hp, hc] <;>
    simp_all

theorem queueType_insertSyncEvent :
    (insertSyncEvent infos p c j).queueType = (infos j).queueType := by
  unfold insertSyncEvent
  split <;> split <;> by_cases hp : j = p <;> by_cases hc : j = c <;>
    simp [updateTask, hp, hc] <;> simp_all

end Insert

/-- The edges of one direction that the dependencies need. -/
def depEdges (types : ℕ → SkQueueType) (deps : List (ℕ × ℕ)) (b : Bool) : Set (ℕ × ℕ) :=
  {e | e ∈ deps ∧ needsEdge b (genSyncDirection (types e.1) (types e.2)) = true}

theorem Represents.insertSyncEvent (hrep : Represents types infos E) (p c : ℕ) :
    Represents types (insertSyncEvent infos p c) fun b =>
      {e | e ∈ E b ∨ e = (p, c) ∧ needsEdge b (genSyncDirection (types p) (types c)) = true} := by
  have hdir : insertDirection infos p c = genSyncDirection (types p) (types c) := by
    unfold insertDirection
    rw [hrep.types, hrep.types]
  constructor
  · intro i
    rw [queueType_insertSyncEvent, hrep.types]
  · intro b s r
    rw [(syncInfo_insertSyncEvent ..).1, hdir]
    simp only [Set.mem_ofPred_eq, Prod.mk.injEq, ← hrep.send b s r]
    split
    · next h => exact iff_of_true rfl (.inr ⟨h.2, h.1⟩)
    · next h => exact (or_iff_left fun hnew => h ⟨hnew.2, hnew.1⟩).symm
  · intro b s r
    rw [(syncInfo_insertSyncEvent ..).2, hdir]
    simp only [Set.mem_ofPred_eq, Prod.mk.injEq, ← hrep.recv b s r]
    split
    · next h => exact iff_of_true rfl (.inr ⟨⟨h.2.2, h.2.1⟩, h.1⟩)
    · next h => exact (or_iff_left fun hnew => h ⟨hnew.2, hnew.1.2, hnew.1.1⟩).symm
  · intro b s r d hd
    rw [(syncInfo_insertSyncEvent ..).2] at hd
    split at hd
    · exact (Option.some.inj hd).symm
    · exact hrep.recv_value b s r d hd

/-- Inserting all dependencies into metadata without edges. -/
theorem Represents.insertAll (hrep : Represents types infos fun _ => ∅) (deps : List (ℕ × ℕ)) :
    Represents types (deps.foldl (fun infos dep => SuperKernel.insertSyncEvent infos dep.1 dep.2) infos)
      (depEdges types deps) := by
  induction deps using reverseRecOn with
  | nil => exact hrep.congr fun b e => by simp [depEdges]
  | append_singleton deps dep ih =>
    rw [foldl_append]
    refine (ih.insertSyncEvent dep.1 dep.2).congr fun b e => ?_
    simp only [depEdges, Set.mem_ofPred_eq, mem_append, mem_singleton]
    constructor
    · rintro (⟨hmem, hneeds⟩ | ⟨rfl, hneeds⟩)
      · exact ⟨.inl hmem, hneeds⟩
      · exact ⟨.inr rfl, hneeds⟩
    · rintro ⟨hmem | rfl, hneeds⟩
      · exact .inl ⟨hmem, hneeds⟩
      · exact .inr ⟨rfl, hneeds⟩

theorem represents_insertSyncEvents (queueTypes : List SkQueueType) (deps : List (ℕ × ℕ)) :
    Represents (fun i => queueTypes.getD i .unknown) (insertSyncEvents queueTypes deps)
      (depEdges (fun i => queueTypes.getD i .unknown) deps) := by
  refine Represents.insertAll ?_ deps
  constructor <;> intros <;> simp_all [TaskSyncInfo.sendInfo, TaskSyncInfo.recvInfo]

/-- An edge leads from a task with a part on the sending queue to one with a part on the
receiving queue. -/
theorem hasPart_of_needsEdge {preType currType : SkQueueType} (hpre : preType ≠ .unknown)
    (hcurr : currType ≠ .unknown) (h : needsEdge b (genSyncDirection preType currType) = true) :
    hasPart preType b = true ∧ hasPart currType (!b) = true := by
  cases preType <;> cases currType <;> cases b <;>
    simp_all [needsEdge, genSyncDirection, hasPart, syncDirection]

/-- Parts on different queues always get an edge. -/
theorem needsEdge_of_hasPart {preType currType : SkQueueType} (hpre : hasPart preType b = true)
    (hcurr : hasPart currType (!b) = true) :
    needsEdge b (genSyncDirection preType currType) = true := by
  cases preType <;> cases currType <;> cases b <;>
    simp_all [needsEdge, genSyncDirection, hasPart, syncDirection]

/-! ## The result of pruning -/

/-- A task below another one on a queue, or the task itself. -/
theorem queue_le (hi : hasPart (infos i).queueType b = true)
    (hk : hasPart (infos k).queueType b = true) (hle : i ≤ k) :
    ReflTransGen (PartStep infos) (i, b) (k, b) := by
  rcases Nat.eq_or_lt_of_le hle with rfl | hlt
  · exact .refl
  · exact .single (PartStep.queue hi hk hlt)

/-- After the pruning, every part of `pre` still comes before every part of `curr` for each
inserted dependency, both sides of an edge agree, and the edges of each direction are
an increasing matching, in which the `k`-th SET belongs to the `k`-th WAIT. -/
theorem pruneSync_preserves (queueTypes : List SkQueueType) (deps : List (ℕ × ℕ))
    (htypes : ∀ q ∈ queueTypes, q ≠ .unknown)
    (hdeps : ∀ e ∈ deps, e.1 < e.2 ∧ e.2 < queueTypes.length) :
    let infos := pruneSync queueTypes.length (insertSyncEvents queueTypes deps)
    let edge := fun b s r => (infos s).sendInfo b r = some (syncDirection b)
    (∀ e ∈ deps, ∀ q q', hasPart (infos e.1).queueType q = true →
      hasPart (infos e.2).queueType q' = true →
        TransGen (PartStep infos) (e.1, q) (e.2, q')) ∧
    (∀ b s r, edge b s r ↔ (infos r).recvInfo b s = some (syncDirection b)) ∧
    ∀ b, (∀ s r r', edge b s r → edge b s r' → r = r') ∧
      (∀ s s' r, edge b s r → edge b s' r → s = s') ∧
      (∀ s r s' r', edge b s r → edge b s' r' → s < s' → r < r') ∧
      Forall₂ (edge b) (setTasks queueTypes.length b infos)
        (waitTasks queueTypes.length b infos) := by
  intro infos edge
  have htask : ∀ i < queueTypes.length, queueTypes.getD i .unknown ≠ .unknown := by
    intro i hi
    rw [getD_eq_getElem _ _ hi]
    exact htypes _ (getElem_mem hi)
  have hbound : Bounded queueTypes.length (depEdges (fun i => queueTypes.getD i .unknown) deps) := by
    intro b e he
    rcases hdeps e he.1 with ⟨hlt, hlen⟩
    exact ⟨hlt.trans hlen, hlen⟩
  have hfinite : ∀ b, (depEdges (fun i => queueTypes.getD i .unknown) deps b).Finite :=
    fun b => (deps.finite_toSet).subset fun e he => he.1
  have hrep : Represents _ infos _ := (represents_insertSyncEvents queueTypes deps).pruneSync hbound
  refine ⟨?_, fun b s r => (hrep.send b s r).trans (hrep.recv b s r).symm, fun b => ?_⟩
  · intro e he q q' hpre hcurr
    rcases hdeps e he with ⟨hlt, hlen⟩
    by_cases hq : q' = q
    · subst hq
      exact TransGen.single (PartStep.queue hpre hcurr hlt)
    -- the remaining edge that covers the dependency starts no earlier and ends no later
    have hq' : q' = !q := by cases q <;> cases q' <;> simp_all
    subst hq'
    rw [hrep.types] at hpre hcurr
    have hedge : e ∈ depEdges (fun i => queueTypes.getD i .unknown) deps q :=
      ⟨he, needsEdge_of_hasPart hpre hcurr⟩
    rcases pruned_coversAll (hfinite q) e hedge with ⟨e', he', hstart, hend⟩
    have he'dep := pruned_subset he'
    have hparts := hasPart_of_needsEdge (htask _ (hbound q e' he'dep).1)
      (htask _ (hbound q e' he'dep).2) he'dep.2
    have hfirst : ReflTransGen (PartStep infos) (e.1, q) (e'.1, q) :=
      queue_le (by rw [hrep.types]; exact hpre) (by rw [hrep.types]; exact hparts.1) hstart
    have hsync : PartStep infos (e'.1, q) (e'.2, !q) :=
      PartStep.sync ((hrep.send q e'.1 e'.2).mpr he')
    have hlast : ReflTransGen (PartStep infos) (e'.2, !q) (e.2, !q) :=
      queue_le (by rw [hrep.types]; exact hparts.2) (by rw [hrep.types]; exact hcurr) hend
    exact TransGen.trans_left (TransGen.tail' hfirst hsync) hlast
  · have hmatch := pruned_matching (depEdges (fun i => queueTypes.getD i .unknown) deps b)
    have hmem : ∀ s r, edge b s r ↔ (s, r) ∈ pruned (depEdges _ deps b) := hrep.send b
    simp only [hmem]
    refine ⟨fun s r r' h h' => ?_, fun s s' r h h' => ?_, fun s r s' r' h h' hlt => ?_, ?_⟩
    · exact congrArg Prod.snd (hmatch.source _ h _ h' rfl)
    · exact congrArg Prod.fst (hmatch.target _ h _ h' rfl)
    · exact hmatch.increasing _ h _ h' hlt
    · have hbound' : Bounded queueTypes.length fun b => pruned (depEdges _ deps b) :=
        hbound.mono fun _ => pruned_subset
      have hsets : (setTasks queueTypes.length b infos).Pairwise (· < ·) :=
        pairwise_lt_range.filter _
      have hwaits : (waitTasks queueTypes.length b infos).Pairwise (· < ·) :=
        pairwise_lt_range.filter _
      have hall := hmatch.forall₂ hsets hwaits (fun s => hrep.mem_setTasks hbound')
        (fun r => hrep.mem_waitTasks hbound')
      exact hall.imp fun s r he => (hmem s r).mpr he

/-- Two tasks on both queues between a cube and a vec task: of the four cube-to-vec edges
the inner dependency leaves one. -/
theorem pruneSync_preserves_sample :
    let queueTypes := [SkQueueType.aic, .mix11, .mix12, .aiv]
    let infos := pruneSync 4 (insertSyncEvents queueTypes [(0, 3), (0, 1), (1, 2), (1, 3)])
    setTasks 4 true infos = [0, 1] ∧ waitTasks 4 true infos = [1, 2] ∧
      TransGen (PartStep infos) (0, true) (3, false) := by
  refine ⟨by decide +kernel, by decide +kernel, ?_⟩
  exact (pruneSync_preserves [.aic, .mix11, .mix12, .aiv] [(0, 3), (0, 1), (1, 2), (1, 3)]
    (by decide) (by decide)).1 (0, 3) (by decide) true false (by decide +kernel) (by decide +kernel)

end GraphAutofusion.SuperKernel
