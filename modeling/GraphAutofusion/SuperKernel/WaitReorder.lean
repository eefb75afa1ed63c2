import GraphAutofusion.SuperKernel.ScopeStreams
import Mathlib.Data.List.Perm.Basic
import Mathlib.Data.List.Infix
import Mathlib.Algebra.GroupWithZero.Nat

/-!
# SuperKernel.WaitReorder — delayed waits

Before the tasks are built, `ReorderWaitNodesForTaskBuild` moves each wait down to the next kernel
of its stream. A pass from the back finds these kernels; the pass from the front holds a wait until
the position of its kernel is reached. All other nodes stay in order, so a wait stays behind
nothing of its own stream only when no notify or reset stands between it and its kernel.
-/

namespace GraphAutofusion.SuperKernel

open List

/-- The option value is narrowed to eight bits. -/
def shouldReorderWaitNodesForTaskBuild (autoOpParallel : Option ℕ) : Bool :=
  match autoOpParallel with
  | none => false
  | some value => value % 2 ^ 8 = 1

structure PendingWaitNode where
  node : SuperKernelBaseNode
  targetKernelIdx : ℕ

/-- The pass from the back: the next kernel of each stream, and for each node the kernel a wait is
moved to. -/
def waitTargetKernelIdx :
    ℕ → List SuperKernelBaseNode → (StreamIdx → Option ℕ) × List (Option ℕ)
  | _, [] => (fun _ => none, [])
  | idx, node :: nodes =>
    let (nextKernelIdxByStream, targets) := waitTargetKernelIdx (idx + 1) nodes
    if node.nodeType = .nodeKernel then
      (Function.update nextKernelIdxByStream node.streamIdxInGraph (some idx), none :: targets)
    else if node.nodeType = .nodeWait then
      (nextKernelIdxByStream, nextKernelIdxByStream node.streamIdxInGraph :: targets)
    else (nextKernelIdxByStream, none :: targets)

/-- The pending waits whose kernel is reached, and those that stay. -/
def flushPendingWaitNodes (pending : List PendingWaitNode) (currentIdx : ℕ) :
    List SuperKernelBaseNode × List PendingWaitNode :=
  ((pending.filter fun p => p.targetKernelIdx ≤ currentIdx).map PendingWaitNode.node,
    pending.filter fun p => currentIdx < p.targetKernelIdx)

/-- The pass from the front. What is listed is appended to the reordered nodes. -/
def reorderFrom :
    ℕ → List PendingWaitNode → List (SuperKernelBaseNode × Option ℕ) → List SuperKernelBaseNode
  | idx, pending, [] => (flushPendingWaitNodes pending idx).1
  | idx, pending, (node, target) :: rest =>
    match node.nodeType, target with
    | .nodeWait, some targetKernelIdx =>
      reorderFrom (idx + 1) (pending ++ [{ node, targetKernelIdx }]) rest
    | _, _ =>
      (flushPendingWaitNodes pending idx).1
        ++ node :: reorderFrom (idx + 1) (flushPendingWaitNodes pending idx).2 rest

def reorderWaitNodesForTaskBuild (autoOpParallel : Option ℕ)
    (taskNodes : List SuperKernelBaseNode) : List SuperKernelBaseNode :=
  if shouldReorderWaitNodesForTaskBuild autoOpParallel then
    reorderFrom 0 [] (taskNodes.zip (waitTargetKernelIdx 0 taskNodes).2)
  else taskNodes

/-! ## What the order should keep -/

def SuperKernelBaseNode.isKernel (n : SuperKernelBaseNode) : Prop := n.nodeType = .nodeKernel

def SuperKernelBaseNode.isWait (n : SuperKernelBaseNode) : Prop := n.nodeType = .nodeWait

instance (n : SuperKernelBaseNode) : Decidable n.isKernel :=
  inferInstanceAs (Decidable (n.nodeType = .nodeKernel))

instance (n : SuperKernelBaseNode) : Decidable n.isWait :=
  inferInstanceAs (Decidable (n.nodeType = .nodeWait))

/-- The nodes are reordered, but no stream is, and no two nodes that are not waits. -/
structure KeepsStreamOrder (l l' : List SuperKernelBaseNode) : Prop where
  perm : l'.Perm l
  wait_before_kernel : ∀ w k, w.isWait → k.isKernel → w.streamIdxInGraph = k.streamIdxInGraph →
    [w, k].Sublist l → [w, k].Sublist l'
  others : l'.filter (fun n => ¬ n.isWait) = l.filter (fun n => ¬ n.isWait)
  streams : ∀ s, onStream l' s = onStream l s

def HasKernel (l : List SuperKernelBaseNode) : Prop := ∃ k ∈ l, k.isKernel

/-- A node that is neither wait nor kernel stands before the next kernel. -/
def OtherBeforeKernel (l : List SuperKernelBaseNode) : Prop :=
  ∃ b x c, l = b ++ x :: c ∧ ¬ x.isWait ∧ ¬ x.isKernel ∧ HasKernel c ∧ ¬ HasKernel b

/-- Such a node stands between a wait and its kernel. -/
def Overtakes (l : List SuperKernelBaseNode) : Prop :=
  ∃ a w c, l = a ++ w :: c ∧ w.isWait ∧ OtherBeforeKernel c

/-! ## One stream -/

section Stream

variable {l held : List SuperKernelBaseNode} {n : SuperKernelBaseNode}

instance (l : List SuperKernelBaseNode) : Decidable (HasKernel l) :=
  inferInstanceAs (Decidable (∃ k ∈ l, k.isKernel))

theorem isKernel_not_isWait (h : n.isKernel) : ¬ n.isWait := by
  intro hw
  unfold SuperKernelBaseNode.isKernel at h
  unfold SuperKernelBaseNode.isWait at hw
  rw [h] at hw
  exact nomatch hw

theorem hasKernel_cons : HasKernel (n :: l) ↔ n.isKernel ∨ HasKernel l := by
  unfold HasKernel
  rw [exists_mem_cons_iff]

/-- What happens to the nodes of one stream. -/
def delayWaits (held : List SuperKernelBaseNode) :
    List SuperKernelBaseNode → List SuperKernelBaseNode
  | [] => held
  | n :: l =>
    if n.isKernel then held ++ n :: delayWaits [] l
    else if n.isWait ∧ HasKernel l then delayWaits (held ++ [n]) l
    else n :: delayWaits held l

theorem delayWaits_perm (held l : List SuperKernelBaseNode) :
    (delayWaits held l).Perm (held ++ l) := by
  induction l generalizing held with
  | nil =>
    rw [delayWaits, append_nil]
  | cons n l ih =>
    rw [delayWaits]
    split
    · exact ((ih []).cons n).append_left held
    · split
      · have := ih (held ++ [n])
        rw [append_assoc] at this
        exact this
      · exact ((ih held).cons n).trans perm_middle.symm

theorem otherBeforeKernel_cons : OtherBeforeKernel (n :: l) ↔
    (¬ n.isWait ∧ ¬ n.isKernel ∧ HasKernel l) ∨ (¬ n.isKernel ∧ OtherBeforeKernel l) := by
  constructor
  · rintro ⟨b, x, c, heq, hwait, hkernel, hc, hb⟩
    cases b with
    | nil =>
      obtain ⟨rfl, rfl⟩ := List.cons.inj heq
      exact .inl ⟨hwait, hkernel, hc⟩
    | cons m b =>
      obtain ⟨rfl, rfl⟩ := List.cons.inj heq
      rw [hasKernel_cons, not_or] at hb
      exact .inr ⟨hb.1, b, x, c, rfl, hwait, hkernel, hc, hb.2⟩
  · rintro (⟨hwait, hkernel, hc⟩ | ⟨hn, b, x, c, rfl, hwait, hkernel, hc, hb⟩)
    · exact ⟨[], n, l, rfl, hwait, hkernel, hc, fun ⟨_, h, _⟩ => nomatch h⟩
    · exact ⟨n :: b, x, c, rfl, hwait, hkernel, hc,
        fun h => (hasKernel_cons.mp h).elim hn hb⟩

theorem overtakes_cons : Overtakes (n :: l) ↔ (n.isWait ∧ OtherBeforeKernel l) ∨ Overtakes l := by
  constructor
  · rintro ⟨a, w, c, heq, hwait, hother⟩
    cases a with
    | nil =>
      obtain ⟨rfl, rfl⟩ := List.cons.inj heq
      exact .inl ⟨hwait, hother⟩
    | cons m a =>
      obtain ⟨rfl, rfl⟩ := List.cons.inj heq
      exact .inr ⟨a, w, c, rfl, hwait, hother⟩
  · rintro (⟨hwait, hother⟩ | ⟨a, w, c, rfl, hwait, hother⟩)
    · exact ⟨[], n, l, rfl, hwait, hother⟩
    · exact ⟨n :: a, w, c, rfl, hwait, hother⟩

theorem OtherBeforeKernel.hasKernel (h : OtherBeforeKernel l) : HasKernel l := by
  obtain ⟨b, x, c, rfl, -, -, ⟨k, hk, hkernel⟩, -⟩ := h
  exact ⟨k, mem_append_right _ (mem_cons_of_mem _ hk), hkernel⟩

/-- Held waits overtake what stands before the kernel. -/
theorem overtakes_held (hwaits : ∀ w ∈ held, w.isWait) :
    Overtakes (held ++ l) ↔ (held ≠ [] ∧ OtherBeforeKernel l) ∨ Overtakes l := by
  induction held with
  | nil => simp
  | cons w held ih =>
    obtain ⟨hw, hrest⟩ := forall_mem_cons.mp hwaits
    have hother : OtherBeforeKernel (held ++ l) ↔ OtherBeforeKernel l := by
      clear ih hwaits
      induction held with
      | nil => exact Iff.rfl
      | cons w' held ih =>
        obtain ⟨hw', hrest⟩ := forall_mem_cons.mp hrest
        rw [cons_append, otherBeforeKernel_cons, ih hrest]
        have hk : ¬ w'.isKernel := fun h => isKernel_not_isWait h hw'
        simp [hw', hk]
    rw [cons_append, overtakes_cons, ih hrest, hother]
    simp only [hw, true_and, ne_eq, reduceCtorEq, not_false_eq_true]
    tauto

/-- A stream stays in order unless a wait is overtaken. The induction holds the waits whose kernel
is still to come. -/
theorem delayWaits_eq_iff (hwaits : ∀ w ∈ held, w.isWait) (hheld : held ≠ [] → HasKernel l) :
    delayWaits held l = held ++ l ↔ ¬ Overtakes (held ++ l) := by
  induction l generalizing held with
  | nil =>
    have hnil : held = [] := by
      by_contra h
      obtain ⟨k, hk, -⟩ := hheld h
      exact nomatch hk
    rw [hnil, delayWaits, append_nil]
    exact ⟨fun _ ⟨a, w, c, heq, _⟩ => by simp at heq, fun _ => rfl⟩
  | cons n l ih =>
    rw [delayWaits]
    by_cases hkernel : n.isKernel
    · rw [if_pos hkernel, append_cancel_left_eq, List.cons.injEq]
      have := @ih [] (fun w h => nomatch h) (fun h => absurd rfl h)
      rw [nil_append] at this
      rw [this, overtakes_held hwaits, overtakes_cons, otherBeforeKernel_cons]
      have hnw := isKernel_not_isWait hkernel
      simp [hkernel, hnw]
    rw [if_neg hkernel]
    by_cases hdelay : n.isWait ∧ HasKernel l
    · rw [if_pos hdelay]
      have hwaits' : ∀ w ∈ held ++ [n], w.isWait := by
        intro w hw
        rcases mem_append.mp hw with hw | hw
        · exact hwaits w hw
        · rw [mem_singleton.mp hw]
          exact hdelay.1
      have := ih hwaits' (fun _ => hdelay.2)
      rw [append_assoc] at this
      exact this
    · rw [if_neg hdelay]
      by_cases hnil : held = []
      · rw [hnil, nil_append, List.cons.injEq]
        have := @ih [] (fun w h => nomatch h) (fun h => absurd rfl h)
        rw [nil_append] at this
        rw [this, overtakes_cons]
        have hnot : ¬ (n.isWait ∧ OtherBeforeKernel l) := fun h => hdelay ⟨h.1, h.2.hasKernel⟩
        simp [hnot]
      · -- a node that is not delayed passes the waits that are held
        have hl : HasKernel l := by
          rcases hasKernel_cons.mp (hheld hnil) with h | h
          · exact absurd h hkernel
          · exact h
        have hnw : ¬ n.isWait := fun h => hdelay ⟨h, hl⟩
        have hover : Overtakes (held ++ n :: l) := by
          rw [overtakes_held hwaits, otherBeforeKernel_cons]
          exact .inl ⟨hnil, .inl ⟨hnw, hkernel, hl⟩⟩
        refine ⟨fun heq => ?_, fun h => absurd hover h⟩
        obtain ⟨w, rest, rfl⟩ := exists_cons_of_ne_nil hnil
        obtain ⟨rfl, -⟩ := List.cons.inj heq
        exact absurd (hwaits n mem_cons_self) hnw

/-- A wait is still before the kernels that follow it. -/
theorem wait_before_kernel_delayWaits {w k : SuperKernelBaseNode} (hw : w.isWait) (hk : k.isKernel)
    (h : [w, k].Sublist l ∨ (w ∈ held ∧ k ∈ l)) : [w, k].Sublist (delayWaits held l) := by
  induction l generalizing held with
  | nil =>
    rcases h with h | h
    · exact absurd (sublist_nil.mp h) (by simp)
    · exact nomatch h.2
  | cons n l ih =>
    rw [delayWaits]
    by_cases hkernel : n.isKernel
    · rw [if_pos hkernel]
      rcases h with h | ⟨hmem, h⟩
      · have hne : w ≠ n := by
          intro heq
          rw [heq] at hw
          exact isKernel_not_isWait hkernel hw
        have hrest : [w, k].Sublist l := by
          cases h with
          | cons _ h => exact h
          | cons_cons _ h => exact absurd rfl hne
        exact ((ih (.inl hrest)).cons n).trans (sublist_append_right _ _)
      · have hmem' : k ∈ n :: delayWaits [] l := by
          rcases mem_cons.mp h with rfl | h
          · exact mem_cons_self
          · exact mem_cons_of_mem _ ((delayWaits_perm [] l).mem_iff.mpr h)
        exact (singleton_sublist.mpr hmem).append (singleton_sublist.mpr hmem')
    · rw [if_neg hkernel]
      have hkn : k ≠ n := by
        intro heq
        rw [heq] at hk
        exact hkernel hk
      -- the kernel is further back in every case
      by_cases hdelay : n.isWait ∧ HasKernel l
      · rw [if_pos hdelay]
        apply ih
        rcases h with h | ⟨hmem, h⟩
        · cases h with
          | cons _ h => exact .inl h
          | cons_cons _ h =>
            exact .inr ⟨mem_append_right _ mem_cons_self, singleton_sublist.mp h⟩
        · rcases mem_cons.mp h with h | h
          · exact absurd h hkn
          · exact .inr ⟨mem_append_left _ hmem, h⟩
      · rw [if_neg hdelay]
        rcases h with h | ⟨hmem, h⟩
        · cases h with
          | cons _ h => exact (ih (.inl h)).cons n
          | cons_cons _ h =>
            have hl : HasKernel l := ⟨k, singleton_sublist.mp h, hk⟩
            exact absurd ⟨hw, hl⟩ hdelay
        · rcases mem_cons.mp h with h | h
          · exact absurd h hkn
          · exact (ih (.inr ⟨hmem, h⟩)).cons n

end Stream

/-! ## All streams -/

section Run

variable {l : List SuperKernelBaseNode} {n : SuperKernelBaseNode} {idx : ℕ} {s : StreamIdx}
  {pending : List PendingWaitNode}

theorem waitTargetKernelIdx_cons : (waitTargetKernelIdx idx (n :: l)).1 s
    = if n.isKernel ∧ s = n.streamIdxInGraph then some idx
      else (waitTargetKernelIdx (idx + 1) l).1 s := by
  rw [waitTargetKernelIdx]
  simp only
  split
  · rename_i hkernel
    have hk : n.isKernel := hkernel
    show Function.update (waitTargetKernelIdx (idx + 1) l).1 n.streamIdxInGraph (some idx) s = _
    by_cases hs : s = n.streamIdxInGraph
    · rw [hs, Function.update_self, if_pos ⟨hk, rfl⟩]
    · rw [Function.update_of_ne hs, if_neg fun h => hs h.2]
  · rename_i hkernel
    split
    · exact (if_neg fun h => hkernel h.1).symm
    · exact (if_neg fun h => hkernel h.1).symm

/-- Only waits have a target. -/
theorem zip_waitTargetKernelIdx : (n :: l).zip (waitTargetKernelIdx idx (n :: l)).2
    = (n, if n.isWait then (waitTargetKernelIdx (idx + 1) l).1 n.streamIdxInGraph else none)
      :: l.zip (waitTargetKernelIdx (idx + 1) l).2 := by
  rw [waitTargetKernelIdx]
  simp only
  split
  · rename_i hkernel
    rw [if_neg (isKernel_not_isWait hkernel)]
    rfl
  · split
    · rename_i hwait
      rw [if_pos (show n.isWait from hwait)]
      rfl
    · rename_i hwait
      rw [if_neg (show ¬ n.isWait from hwait)]
      rfl

theorem lt_of_waitTargetKernelIdx {t : ℕ} (h : (waitTargetKernelIdx idx l).1 s = some t) :
    idx ≤ t ∧ t < idx + l.length := by
  induction l generalizing idx with
  | nil => exact nomatch h
  | cons n l ih =>
    rw [waitTargetKernelIdx_cons] at h
    rw [length_cons]
    split at h
    · obtain rfl := Option.some.inj h
      omega
    · have := ih h
      omega

theorem waitTargetKernelIdx_isSome :
    ((waitTargetKernelIdx idx l).1 s).isSome ↔ HasKernel (onStream l s) := by
  induction l generalizing idx with
  | nil => simp [waitTargetKernelIdx, HasKernel, onStream]
  | cons n l ih =>
    have hcons : HasKernel (onStream (n :: l) s)
        ↔ (n.isKernel ∧ s = n.streamIdxInGraph) ∨ HasKernel (onStream l s) := by
      unfold onStream
      by_cases hs : n.streamIdxInGraph = s
      · rw [filter_cons_of_pos (by simpa using hs), hasKernel_cons]
        simp [hs]
      · have hs' : s ≠ n.streamIdxInGraph := fun h => hs h.symm
        rw [filter_cons_of_neg (by simpa using hs)]
        simp [hs']
    rw [hcons, waitTargetKernelIdx_cons]
    split
    · rename_i h
      simp [h]
    · rename_i h
      rw [ih]
      simp [h]

/-- Pending nodes are waits that know their kernel. -/
def PendingOk (idx : ℕ) (l : List SuperKernelBaseNode) (pending : List PendingWaitNode) : Prop :=
  ∀ p ∈ pending, p.node.isWait ∧
    (waitTargetKernelIdx idx l).1 p.node.streamIdxInGraph = some p.targetKernelIdx

theorem PendingOk.nil (h : PendingOk idx [] pending) : pending = [] := by
  apply eq_nil_iff_forall_not_mem.mpr
  intro p hp
  exact nomatch (h p hp).2

section

variable (h : PendingOk idx (n :: l) pending)
include h

/-- A kernel takes the waits of its stream. -/
theorem flush_kernel (hkernel : n.isKernel) :
    flushPendingWaitNodes pending idx
      = ((pending.filter fun p => p.node.streamIdxInGraph = n.streamIdxInGraph).map
          PendingWaitNode.node,
        pending.filter fun p => p.node.streamIdxInGraph ≠ n.streamIdxInGraph) ∧
      PendingOk (idx + 1) l (flushPendingWaitNodes pending idx).2 := by
  have htarget : ∀ p ∈ pending, (p.node.streamIdxInGraph = n.streamIdxInGraph ∧
      p.targetKernelIdx = idx) ∨ (p.node.streamIdxInGraph ≠ n.streamIdxInGraph ∧
        (waitTargetKernelIdx (idx + 1) l).1 p.node.streamIdxInGraph = some p.targetKernelIdx) := by
    intro p hp
    have hnext := (h p hp).2
    rw [waitTargetKernelIdx_cons] at hnext
    by_cases hs : p.node.streamIdxInGraph = n.streamIdxInGraph
    · rw [if_pos ⟨hkernel, hs⟩] at hnext
      exact .inl ⟨hs, (Option.some.inj hnext).symm⟩
    · rw [if_neg fun h => hs h.2] at hnext
      exact .inr ⟨hs, hnext⟩
  have hle : ∀ p ∈ pending, p.targetKernelIdx ≤ idx ↔
      p.node.streamIdxInGraph = n.streamIdxInGraph := by
    intro p hp
    rcases htarget p hp with ⟨hs, ht⟩ | ⟨hs, ht⟩
    · simp [hs, ht]
    · have := (lt_of_waitTargetKernelIdx ht).1
      simp only [hs, iff_false, not_le]
      omega
  constructor
  · unfold flushPendingWaitNodes
    congr 1
    · congr 1
      apply filter_congr
      intro p hp
      rw [decide_eq_decide]
      exact hle p hp
    · apply filter_congr
      intro p hp
      rw [decide_eq_decide, ← not_le]
      exact not_congr (hle p hp)
  · intro p hp
    obtain ⟨hp, hlt⟩ := mem_filter.mp hp
    refine ⟨(h p hp).1, ?_⟩
    rcases htarget p hp with ⟨-, ht⟩ | ⟨-, ht⟩
    · have := of_decide_eq_true hlt
      omega
    · exact ht

/-- Other nodes take none. -/
theorem flush_other (hkernel : ¬ n.isKernel) :
    flushPendingWaitNodes pending idx = ([], pending) ∧ PendingOk (idx + 1) l pending := by
  have htarget : ∀ p ∈ pending,
      (waitTargetKernelIdx (idx + 1) l).1 p.node.streamIdxInGraph = some p.targetKernelIdx := by
    intro p hp
    have hnext := (h p hp).2
    rw [waitTargetKernelIdx_cons, if_neg fun h => hkernel h.1] at hnext
    exact hnext
  have hlt : ∀ p ∈ pending, idx < p.targetKernelIdx := by
    intro p hp
    have := (lt_of_waitTargetKernelIdx (htarget p hp)).1
    omega
  refine ⟨?_, fun p hp => ⟨(h p hp).1, htarget p hp⟩⟩
  unfold flushPendingWaitNodes
  congr 1
  · rw [filter_eq_nil_iff.mpr fun p hp => ?_]
    · rfl
    · have := hlt p hp
      simp only [decide_eq_true_eq, not_le]
      omega
  · apply filter_eq_self.mpr
    intro p hp
    exact decide_eq_true (hlt p hp)

/-- One step of the front pass: a kernel comes after the waits of its stream, a wait with a later
kernel is held, every other node stays. -/
theorem reorderFrom_cons :
    (n.isKernel ∧ ∃ pending', PendingOk (idx + 1) l pending' ∧
      pending' = (pending.filter fun p => p.node.streamIdxInGraph ≠ n.streamIdxInGraph) ∧
      reorderFrom idx pending ((n :: l).zip (waitTargetKernelIdx idx (n :: l)).2)
        = (pending.filter fun p => p.node.streamIdxInGraph = n.streamIdxInGraph).map
            PendingWaitNode.node
          ++ n :: reorderFrom (idx + 1) pending' (l.zip (waitTargetKernelIdx (idx + 1) l).2)) ∨
    (n.isWait ∧ HasKernel (onStream l n.streamIdxInGraph) ∧ ∃ p : PendingWaitNode, p.node = n ∧
      PendingOk (idx + 1) l (pending ++ [p]) ∧
      reorderFrom idx pending ((n :: l).zip (waitTargetKernelIdx idx (n :: l)).2)
        = reorderFrom (idx + 1) (pending ++ [p]) (l.zip (waitTargetKernelIdx (idx + 1) l).2)) ∨
    (¬ n.isKernel ∧ ¬ (n.isWait ∧ HasKernel (onStream l n.streamIdxInGraph)) ∧
      PendingOk (idx + 1) l pending ∧
      reorderFrom idx pending ((n :: l).zip (waitTargetKernelIdx idx (n :: l)).2)
        = n :: reorderFrom (idx + 1) pending (l.zip (waitTargetKernelIdx (idx + 1) l).2)) := by
  rw [zip_waitTargetKernelIdx]
  by_cases hkernel : n.isKernel
  · obtain ⟨hflush, hok⟩ := flush_kernel h hkernel
    refine .inl ⟨hkernel, _, hok, by rw [hflush], ?_⟩
    rw [if_neg (isKernel_not_isWait hkernel), reorderFrom, hflush]
    intro k _ hk
    exact nomatch hk
  obtain ⟨hflush, hok⟩ := flush_other h hkernel
  by_cases hwait : n.isWait
  · have hsome : _ ↔ HasKernel (onStream l n.streamIdxInGraph) :=
      @waitTargetKernelIdx_isSome l (idx + 1) n.streamIdxInGraph
    rw [if_pos hwait]
    cases htarget : (waitTargetKernelIdx (idx + 1) l).1 n.streamIdxInGraph with
    | some t =>
      rw [htarget] at hsome
      refine .inr (.inl ⟨hwait, hsome.mp rfl, ⟨n, t⟩, rfl, ?_, ?_⟩)
      · intro p hp
        rcases mem_append.mp hp with hp | hp
        · exact hok p hp
        · rw [mem_singleton.mp hp]
          exact ⟨hwait, htarget⟩
      · rw [reorderFrom]
        simp only [show n.nodeType = .nodeWait from hwait]
    | none =>
      rw [htarget] at hsome
      have hno : ¬ HasKernel (onStream l n.streamIdxInGraph) := fun hk => nomatch hsome.mpr hk
      refine .inr (.inr ⟨hkernel, fun hk => hno hk.2, hok, ?_⟩)
      rw [reorderFrom, hflush, nil_append]
      intro k _ hk
      exact nomatch hk
  · refine .inr (.inr ⟨hkernel, fun hk => hwait hk.1, hok, ?_⟩)
    rw [if_neg hwait, reorderFrom, hflush, nil_append]
    intro k _ hk
    exact nomatch hk

end

section

variable (h : PendingOk idx l pending)
include h

/-- Each stream goes its own way. -/
theorem onStream_reorderFrom (s : StreamIdx) :
    onStream (reorderFrom idx pending (l.zip (waitTargetKernelIdx idx l).2)) s
      = delayWaits ((pending.filter fun p => p.node.streamIdxInGraph = s).map
          PendingWaitNode.node) (onStream l s) := by
  induction l generalizing idx pending with
  | nil =>
    rw [h.nil]
    rfl
  | cons n l ih =>
    have hcons : ∀ X, onStream (n :: X) s
        = if n.streamIdxInGraph = s then n :: onStream X s else onStream X s := by
      intro X
      unfold onStream
      rw [filter_cons]
      simp only [decide_eq_true_eq]
    rw [hcons]
    rcases reorderFrom_cons h with ⟨hkernel, pending', hok, rfl, heq⟩ |
      ⟨hwait, hk, p, rfl, hok, heq⟩ | ⟨hkernel, hdelay, hok, heq⟩
    · rw [heq, onStream_append, hcons, ih hok, filter_filter, onStream, filter_map,
        filter_filter]
      by_cases hs : n.streamIdxInGraph = s
      · -- the waits that leave are those that were held, none is held on
        have hready : (pending.filter fun p => ((fun n => decide (n.streamIdxInGraph = s)) ∘
            PendingWaitNode.node) p && decide (p.node.streamIdxInGraph = n.streamIdxInGraph))
            = pending.filter fun p => p.node.streamIdxInGraph = s := by
          apply filter_congr
          intro p _
          simp [hs]
        have hnone : (pending.filter fun p => decide (p.node.streamIdxInGraph = s) &&
            decide (p.node.streamIdxInGraph ≠ n.streamIdxInGraph)) = [] := by
          apply filter_eq_nil_iff.mpr
          intro p _
          simp [hs]
        rw [hready, hnone, if_pos hs, if_pos hs, delayWaits, if_pos hkernel]
        rfl
      · have hready : (pending.filter fun p => ((fun n => decide (n.streamIdxInGraph = s)) ∘
            PendingWaitNode.node) p && decide (p.node.streamIdxInGraph = n.streamIdxInGraph))
            = [] := by
          apply filter_eq_nil_iff.mpr
          intro p _
          simp only [Function.comp_apply, Bool.and_eq_true, decide_eq_true_eq, not_and]
          intro hp hp'
          exact hs (hp'.symm.trans hp)
        have hnone : (pending.filter fun p => decide (p.node.streamIdxInGraph = s) &&
            decide (p.node.streamIdxInGraph ≠ n.streamIdxInGraph))
            = pending.filter fun p => p.node.streamIdxInGraph = s := by
          apply filter_congr
          intro p _
          by_cases hp : p.node.streamIdxInGraph = s
          · have hne : ¬ s = n.streamIdxInGraph := fun h => hs h.symm
            simp [hp, hne]
          · simp [hp]
        rw [hready, hnone, if_neg hs, if_neg hs]
        rfl
    · rw [heq, ih hok, filter_append, map_append]
      by_cases hs : p.node.streamIdxInGraph = s
      · rw [if_pos hs, delayWaits, if_neg fun hk => isKernel_not_isWait hk hwait,
          if_pos ⟨hwait, hs ▸ hk⟩, filter_cons_of_pos (by simpa using hs)]
        rfl
      · rw [if_neg hs, filter_cons_of_neg (by simpa using hs)]
        simp
    · rw [heq, hcons, ih hok]
      by_cases hs : n.streamIdxInGraph = s
      · rw [if_pos hs, if_pos hs, delayWaits, if_neg hkernel, if_neg]
        intro hd
        exact hdelay ⟨hd.1, hs ▸ hd.2⟩
      · rw [if_neg hs, if_neg hs]

theorem reorderFrom_perm :
    (reorderFrom idx pending (l.zip (waitTargetKernelIdx idx l).2)).Perm
      (pending.map PendingWaitNode.node ++ l) := by
  induction l generalizing idx pending with
  | nil =>
    rw [h.nil]
    exact Perm.refl []
  | cons n l ih =>
    rcases reorderFrom_cons h with ⟨-, pending', hok, rfl, heq⟩ | ⟨-, -, p, rfl, hok, heq⟩ |
      ⟨-, -, hok, heq⟩
    · rw [heq]
      have hsplit : (pending.map PendingWaitNode.node).Perm
          ((pending.filter fun p => p.node.streamIdxInGraph = n.streamIdxInGraph).map
            PendingWaitNode.node
          ++ (pending.filter fun p => p.node.streamIdxInGraph ≠ n.streamIdxInGraph).map
            PendingWaitNode.node) := by
        rw [← map_append]
        apply Perm.map
        have := filter_append_perm
          (fun p : PendingWaitNode => decide (p.node.streamIdxInGraph = n.streamIdxInGraph)) pending
        simpa using this.symm
      refine Perm.trans ?_ (hsplit.append_right (n :: l)).symm
      rw [append_assoc]
      exact (((ih hok).cons n).trans perm_middle.symm).append_left _
    · rw [heq]
      have := ih hok
      rw [map_append, append_assoc] at this
      exact this
    · rw [heq]
      exact ((ih hok).cons n).trans perm_middle.symm

theorem others_reorderFrom :
    (reorderFrom idx pending (l.zip (waitTargetKernelIdx idx l).2)).filter (fun n => ¬ n.isWait)
      = l.filter (fun n => ¬ n.isWait) := by
  have hwaits : ∀ held : List PendingWaitNode, (∀ p ∈ held, p.node.isWait) →
      (held.map PendingWaitNode.node).filter (fun n => ¬ n.isWait) = [] := by
    intro held hheld
    apply filter_eq_nil_iff.mpr
    intro n hn
    obtain ⟨p, hp, rfl⟩ := mem_map.mp hn
    simp [hheld p hp]
  induction l generalizing idx pending with
  | nil =>
    rw [h.nil]
    rfl
  | cons n l ih =>
    rcases reorderFrom_cons h with ⟨-, pending', hok, rfl, heq⟩ | ⟨hwait, -, p, rfl, hok, heq⟩ |
      ⟨-, -, hok, heq⟩
    · rw [heq, filter_append, hwaits _ fun p hp => (h p (mem_of_mem_filter hp)).1,
        nil_append, filter_cons, filter_cons, ih hok]
    · rw [heq, ih hok, filter_cons_of_neg (by simpa using hwait)]
    · rw [heq, filter_cons, filter_cons, ih hok]

end

end Run

/-- The streams stay in order exactly when on none of them a notify, a reset or another node stands
between a wait and the next kernel. -/
theorem keepsStreamOrder_iff {autoOpParallel : Option ℕ}
    (h : shouldReorderWaitNodesForTaskBuild autoOpParallel = true)
    (taskNodes : List SuperKernelBaseNode) :
    KeepsStreamOrder taskNodes (reorderWaitNodesForTaskBuild autoOpParallel taskNodes)
      ↔ ∀ s, ¬ Overtakes (onStream taskNodes s) := by
  have hrun : reorderWaitNodesForTaskBuild autoOpParallel taskNodes
      = reorderFrom 0 [] (taskNodes.zip (waitTargetKernelIdx 0 taskNodes).2) := if_pos h
  have hok : PendingOk 0 taskNodes [] := fun p hp => nomatch hp
  have hstream : ∀ s, onStream (reorderWaitNodesForTaskBuild autoOpParallel taskNodes) s
      = delayWaits [] (onStream taskNodes s) := by
    intro s
    rw [hrun]
    exact onStream_reorderFrom hok s
  have hiff : ∀ s, delayWaits [] (onStream taskNodes s) = onStream taskNodes s ↔
      ¬ Overtakes (onStream taskNodes s) := fun s =>
    delayWaits_eq_iff (fun w hw => nomatch hw) (fun hne => absurd rfl hne)
  constructor
  · intro hkeeps s
    rw [← hiff, ← hstream]
    exact hkeeps.streams s
  · intro hover
    refine ⟨?_, ?_, ?_, fun s => (hstream s).trans ((hiff s).mpr (hover s))⟩
    · rw [hrun]
      exact reorderFrom_perm hok
    · intro w k hw hk hs hsub
      -- on their stream the wait is still before the kernel
      have hsub' : [w, k].Sublist (onStream taskNodes k.streamIdxInGraph) := by
        have := hsub.filter fun n => decide (n.streamIdxInGraph = k.streamIdxInGraph)
        rw [filter_cons_of_pos (by simpa using hs), filter_cons_of_pos (by simp)] at this
        exact this
      have hdelayed : [w, k].Sublist (delayWaits [] (onStream taskNodes k.streamIdxInGraph)) :=
        wait_before_kernel_delayWaits hw hk (.inl hsub')
      rw [← hstream] at hdelayed
      exact hdelayed.trans filter_sublist
    · rw [hrun]
      exact others_reorderFrom hok

/-- Waits of two streams, one of which is moved down behind a kernel of a third stream. -/
def twoWaits : List SuperKernelBaseNode :=
  [{ nodeId := 10, streamIdxInGraph := 1, nodeIdxInStream := 0, nodeType := .nodeWait },
    { nodeId := 11, streamIdxInGraph := 2, nodeIdxInStream := 0, nodeType := .nodeWait },
    { nodeId := 20, streamIdxInGraph := 0, nodeIdxInStream := 0, nodeType := .nodeKernel },
    { nodeId := 12, streamIdxInGraph := 1, nodeIdxInStream := 1, nodeType := .nodeKernel },
    { nodeId := 13, streamIdxInGraph := 2, nodeIdxInStream := 1, nodeType := .nodeKernel }]

theorem keepsStreamOrder_iff_twoWaits :
    KeepsStreamOrder twoWaits (reorderWaitNodesForTaskBuild (some 1) twoWaits)
      ↔ ∀ s, ¬ Overtakes (onStream twoWaits s) :=
  keepsStreamOrder_iff (by decide) twoWaits

/-- A wait, a notify and a kernel of one stream. -/
def notifyBehindWait : List SuperKernelBaseNode :=
  [{ nodeId := 10, streamIdxInGraph := 1, nodeIdxInStream := 0, nodeType := .nodeWait },
    { nodeId := 11, streamIdxInGraph := 1, nodeIdxInStream := 1, nodeType := .nodeNotify },
    { nodeId := 12, streamIdxInGraph := 1, nodeIdxInStream := 2, nodeType := .nodeKernel }]

/-- The notify overtakes the wait. -/
theorem notifyBehindWait_not_keepsStreamOrder :
    shouldReorderWaitNodesForTaskBuild (some 1) = true ∧
      ¬ KeepsStreamOrder notifyBehindWait
        (reorderWaitNodesForTaskBuild (some 1) notifyBehindWait) := by
  refine ⟨by decide, fun h => ?_⟩
  exact absurd (h.streams 1) (by decide)

end GraphAutofusion.SuperKernel
