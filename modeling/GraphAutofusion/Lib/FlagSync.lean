import Mathlib.Algebra.Order.BigOperators.Group.Finset

/-!
# Lib.FlagSync — streams that synchronise through shared cells

Each stream executes a fixed finite program in order. An operation is an action of its own,
a wait until a cell holds a value, or a write to a cell. The streams interleave freely.

A *flag* is a cell that one stream raises to 1 once and one stream lowers to 0 afterwards.
The library gives the order rules of a program, the rule that a wait that was passed saw a
write, the value of a flag in every reachable state, and a liveness rule: finite programs
under weak fairness reach every goal before which some operation is enabled.
-/

namespace GraphAutofusion.Lib

open List Function

/-- An operation of a stream. -/
inductive FlagOp (α β : Type*) where
  | act (x : α)
  | wait (cell : β) (value : ℕ)
  | write (cell : β) (value : ℕ)
deriving DecidableEq, Repr

variable {ι α β : Type*} [DecidableEq ι] [DecidableEq β]

namespace FlagOp

def Enabled (cells : β → ℕ) : FlagOp α β → Prop
  | .wait cell value => cells cell = value
  | _ => True

def effect (cells : β → ℕ) : FlagOp α β → β → ℕ
  | .write cell value => Function.update cells cell value
  | _ => cells

end FlagOp

/-- The operations each stream has executed, and the contents of the cells. -/
structure FlagState (ι α β : Type*) where
  done : ι → List (FlagOp α β)
  cells : β → ℕ

namespace FlagState

variable (prog : ι → List (FlagOp α β))

/-- All cells hold 0 at the start. -/
def init : FlagState ι α β where
  done _ := []
  cells _ := 0

/-- `op` is the next operation of stream `i`, and it can be executed. -/
structure CanStep (i : ι) (op : FlagOp α β) (s : FlagState ι α β) : Prop where
  next : s.done i ++ [op] <+: prog i
  enabled : op.Enabled s.cells

/-- The state after stream `i` has executed `op`. -/
def execute (i : ι) (op : FlagOp α β) (s : FlagState ι α β) : FlagState ι α β where
  done := Function.update s.done i (s.done i ++ [op])
  cells := op.effect s.cells

/-- Some stream executes its next operation. -/
def Step (s s' : FlagState ι α β) : Prop :=
  ∃ i op, s.CanStep prog i op ∧ s' = s.execute i op

inductive Reachable : FlagState ι α β → Prop where
  | init : Reachable init
  | step {s : FlagState ι α β} {i : ι} {op : FlagOp α β} (hreach : Reachable s)
      (hcan : s.CanStep prog i op) : Reachable (s.execute i op)

variable {prog} {s s' : FlagState ι α β} {i j : ι} {op x : FlagOp α β} {A B : List (FlagOp α β)}
  {c : β} {v : ℕ}

/-! ## Order rules -/

@[simp] theorem execute_done_self : (s.execute i op).done i = s.done i ++ [op] :=
  update_self ..

theorem execute_done_of_ne (h : j ≠ i) : (s.execute i op).done j = s.done j :=
  update_of_ne h ..

theorem mem_execute_done : x ∈ (s.execute i op).done j ↔ x ∈ s.done j ∨ (j = i ∧ x = op) := by
  by_cases h : j = i
  · subst h
    simp
  · rw [execute_done_of_ne h]
    simp [h]

section

variable (h : Reachable prog s)
include h

/-- A stream executes a prefix of its program. -/
theorem Reachable.done_prefix (i : ι) : s.done i <+: prog i := by
  induction h with
  | init => exact List.nil_prefix
  | @step s j op _ hcan ih =>
    by_cases hij : i = j
    · subst hij
      rw [execute_done_self]
      exact hcan.next
    · rw [execute_done_of_ne hij]
      exact ih

/-- An executed operation is one of the program. -/
theorem Reachable.mem_prog (hx : x ∈ s.done i) : x ∈ prog i :=
  (h.done_prefix i).subset hx

/-- When an operation that is not in the first part of a program is executed, that part has
been executed. -/
theorem Reachable.part_done (hprog : prog i = A ++ B) (hx : x ∈ s.done i)
    (hA : x ∉ A) : A <+: s.done i := by
  have hdone := h.done_prefix i
  rw [hprog] at hdone
  rcases List.prefix_or_prefix_of_prefix hdone (prefix_append A B) with hle | hle
  · exact absurd (hle.subset hx) hA
  · exact hle

/-- The program up to an operation that was executed. -/
theorem Reachable.through_done (hprog : prog i = A ++ x :: B)
    (hx : x ∈ s.done i) (hA : x ∉ A) : A ++ [x] <+: s.done i := by
  rcases h.part_done hprog hx hA with ⟨R, hR⟩
  have hdone := h.done_prefix i
  rw [hprog, ← hR, prefix_append_right_inj] at hdone
  rw [← hR, prefix_append_right_inj]
  cases R with
  | nil =>
    rw [← hR, append_nil] at hx
    exact absurd hx hA
  | cons y R =>
    rw [(cons_prefix_cons.mp hdone).1]
    exact ⟨R, rfl⟩

omit h in
/-- An operation that stands once in a program is not repeated. -/
theorem not_mem_of_prefix_concat {l d : List (FlagOp α β)} (hl : l = A ++ x :: B) (hA : x ∉ A)
    (hB : x ∉ B) (hd : d ++ [x] <+: l) : x ∉ d := by
  classical
  intro hx
  have hcount := hd.sublist.count_le x
  have hpos : 0 < d.count x := count_pos_iff.mpr hx
  rw [hl, count_append, count_append, count_cons_self, count_cons_self,
    count_eq_zero.mpr hA, count_eq_zero.mpr hB] at hcount
  omega

/-- A stream that cannot execute any operation of a part of its program has passed the part or
waits in it. -/
theorem Reachable.part_done_or_waits {p : FlagOp α β → Prop} {M : List (FlagOp α β)}
    (hprog : prog i = A ++ M ++ B) (hp : ∀ op ∈ M, p op) (hA : A <+: s.done i)
    (hstuck : ∀ op, p op → ¬ s.CanStep prog i op) :
    A ++ M <+: s.done i ∨ ∃ M₁ c v M₂, M = M₁ ++ .wait c v :: M₂ ∧ s.done i = A ++ M₁ ∧
      s.cells c ≠ v := by
  have hdone := h.done_prefix i
  rw [hprog] at hdone
  rcases List.prefix_or_prefix_of_prefix hdone (prefix_append (A ++ M) B) with hle | hle
  · rcases hA with ⟨M₁, hM₁⟩
    rw [← hM₁, prefix_append_right_inj] at hle
    rcases hle with ⟨R, hR⟩
    cases R with
    | nil =>
      rw [append_nil] at hR
      exact .inl ⟨[], by rw [append_nil, ← hR, hM₁]⟩
    | cons op M₂ =>
      -- the next operation belongs to the part, so it is a wait that is not enabled
      have hnext : s.done i ++ [op] <+: prog i := by
        rw [hprog, ← hM₁, ← hR]
        exact ⟨M₂ ++ B, by simp⟩
      have hop : op ∈ M := hR ▸ mem_append_right _ (mem_cons_self ..)
      have hdisabled : ¬ op.Enabled s.cells := fun hen => hstuck op (hp op hop) ⟨hnext, hen⟩
      cases op with
      | act x => exact absurd trivial hdisabled
      | wait c v => exact .inr ⟨M₁, c, v, M₂, hR.symm, hM₁.symm, hdisabled⟩
      | write c v => exact absurd trivial hdisabled
  · exact .inl hle

end

/-! ## Waits and writes -/

/-- What was written last was written. -/
theorem Reachable.exists_write (h : Reachable prog s) (hv : v ≠ 0) (hc : s.cells c = v) :
    ∃ j, FlagOp.write c v ∈ s.done j := by
  induction h with
  | init => exact absurd hc.symm hv
  | @step s i op _ hcan ih =>
    by_cases hold : s.cells c = v
    · rcases ih hold with ⟨j, hj⟩
      exact ⟨j, mem_execute_done.mpr (.inl hj)⟩
    -- the step has changed the cell, so it was the write
    cases op with
    | act x => exact absurd hc hold
    | wait cell value => exact absurd hc hold
    | write cell value =>
      have hcell : c = cell := by
        by_contra hne
        exact hold ((update_of_ne hne ..).symm.trans hc)
      subst hcell
      have hvalue : value = v := (update_self ..).symm.trans hc
      exact ⟨i, mem_execute_done.mpr (.inr ⟨rfl, by rw [hvalue]⟩)⟩

/-- A wait that was passed saw a write. -/
theorem Reachable.wait_done (h : Reachable prog s) (hv : v ≠ 0) (hwait : FlagOp.wait c v ∈ s.done i) :
    ∃ j, FlagOp.write c v ∈ s.done j := by
  induction h with
  | init => exact absurd hwait not_mem_nil
  | @step s k op hreach hcan ih =>
    rcases mem_execute_done.mp hwait with hold | ⟨rfl, rfl⟩
    · rcases ih hold with ⟨j, hj⟩
      exact ⟨j, mem_execute_done.mpr (.inl hj)⟩
    · rcases hreach.exists_write hv hcan.enabled with ⟨j, hj⟩
      exact ⟨j, mem_execute_done.mpr (.inl hj)⟩

/-- A cell that one stream raises once and one stream lowers, always after it was raised. -/
structure IsFlag (prog : ι → List (FlagOp α β)) (c : β) (raiser lowerer : ι) : Prop where
  writes : ∀ j v, FlagOp.write c v ∈ prog j → (j = raiser ∧ v = 1) ∨ (j = lowerer ∧ v = 0)
  once : ∀ d, d ++ [FlagOp.write c 1] <+: prog raiser → FlagOp.write c 1 ∉ d
  after : ∀ s, Reachable prog s → FlagOp.write c 0 ∈ s.done lowerer → FlagOp.write c 1 ∈ s.done raiser

/-- The value of a flag. -/
theorem IsFlag.value {raiser lowerer : ι} (hflag : IsFlag prog c raiser lowerer)
    (h : Reachable prog s) : (FlagOp.write c 0 ∈ s.done lowerer → s.cells c = 0) ∧
      (FlagOp.write c 0 ∉ s.done lowerer → FlagOp.write c 1 ∈ s.done raiser → s.cells c = 1) := by
  induction h with
  | init => exact ⟨fun _ => rfl, fun _ h => absurd h not_mem_nil⟩
  | @step s i op hreach hcan ih =>
    by_cases hother : ∃ v, op = .write c v
    · rcases hother with ⟨v, rfl⟩
      have hcells : (s.execute i (.write c v)).cells c = v := update_self ..
      have hprog : FlagOp.write c v ∈ prog i :=
        hcan.next.subset (mem_append_right _ (mem_singleton_self _))
      rcases hflag.writes i v hprog with ⟨rfl, rfl⟩ | ⟨rfl, rfl⟩
      · -- raising: the flag has not been lowered, since it was not raised before
        refine ⟨fun hlow => ?_, fun _ _ => hcells⟩
        rcases mem_execute_done.mp hlow with hlow | ⟨_, heq⟩
        · exact absurd (hflag.after s hreach hlow) (hflag.once _ hcan.next)
        · cases heq
      · refine ⟨fun _ => hcells, fun hlow => absurd ?_ hlow⟩
        exact mem_execute_done.mpr (.inr ⟨rfl, rfl⟩)
    · have hcells : (s.execute i op).cells c = s.cells c := by
        cases op with
        | act x => rfl
        | wait cell value => rfl
        | write cell value =>
          have hne : c ≠ cell := fun heq => hother ⟨value, by rw [heq]⟩
          exact update_of_ne hne ..
      have hmem : ∀ {v j}, FlagOp.write c v ∈ (s.execute i op).done j ↔ FlagOp.write c v ∈ s.done j := by
        intro v j
        rw [mem_execute_done]
        exact or_iff_left fun h => hother ⟨v, h.2.symm⟩
      rw [hcells, hmem, hmem]
      exact ih

/-! ## Liveness -/

variable {σ : ℕ → FlagState ι α β} {p : FlagOp α β → Prop} {streams : Finset ι} {n m : ℕ}

/-- An infinite run, in which the state may also stay as it is. -/
structure Behaviour (prog : ι → List (FlagOp α β)) (σ : ℕ → FlagState ι α β) : Prop where
  start : σ 0 = init
  next : ∀ n, σ (n + 1) = σ n ∨ Step prog (σ n) (σ (n + 1))

/-- Weak fairness: a stream whose next operation has the property and can be executed from
some time on executes it at some time. -/
def Fair (prog : ι → List (FlagOp α β)) (p : FlagOp α β → Prop) (σ : ℕ → FlagState ι α β) : Prop :=
  ∀ i n, (∀ m, n ≤ m → ∃ op, p op ∧ (σ m).CanStep prog i op) →
    ∃ m, n ≤ m ∧ (σ (m + 1)).done i ≠ (σ m).done i

theorem Behaviour.reachable (h : Behaviour prog σ) (n : ℕ) : Reachable prog (σ n) := by
  induction n with
  | zero =>
    rw [h.start]
    exact Reachable.init
  | succ n ih =>
    rcases h.next n with heq | ⟨i, op, hcan, heq⟩
    · rw [heq]
      exact ih
    · rw [heq]
      exact ih.step hcan

theorem Behaviour.done_mono (h : Behaviour prog σ) (hnm : n ≤ m) (i : ι) :
    (σ n).done i <+: (σ m).done i := by
  induction m, hnm using Nat.le_induction with
  | base => exact prefix_refl _
  | succ m _ ih =>
    rcases h.next m with heq | ⟨j, op, _, heq⟩
    · rw [heq]
      exact ih
    · rw [heq]
      by_cases hij : i = j
      · subst hij
        rw [execute_done_self]
        exact ih.trans (prefix_append _ _)
      · rw [execute_done_of_ne hij]
        exact ih

/-- The number of operations that are left. -/
def remaining (prog : ι → List (FlagOp α β)) (streams : Finset ι) (s : FlagState ι α β) : ℕ :=
  ∑ i ∈ streams, ((prog i).length - (s.done i).length)

theorem CanStep.remaining_lt (hcan : s.CanStep prog i op) (hi : i ∈ streams) :
    remaining prog streams (s.execute i op) < remaining prog streams s := by
  have hlength : (s.done i).length + 1 ≤ (prog i).length := by
    simpa using hcan.next.length_le
  refine Finset.sum_lt_sum (fun j _ => ?_) ⟨i, hi, ?_⟩
  · by_cases hij : j = i
    · subst hij
      simp only [execute_done_self, length_append, length_singleton]
      omega
    · rw [execute_done_of_ne hij]
  · simp only [execute_done_self, length_append, length_singleton]
    omega

theorem Step.remaining_lt (hstreams : ∀ i, i ∉ streams → prog i = []) (h : Step prog s s') :
    remaining prog streams s' < remaining prog streams s := by
  rcases h with ⟨i, op, hcan, rfl⟩
  refine hcan.remaining_lt ?_
  by_contra hi
  have hnil := hcan.next
  rw [hstreams i hi] at hnil
  simp at hnil

theorem Behaviour.remaining_le (h : Behaviour prog σ) (hstreams : ∀ i, i ∉ streams → prog i = [])
    (hnm : n ≤ m) : remaining prog streams (σ m) ≤ remaining prog streams (σ n) := by
  induction m, hnm using Nat.le_induction with
  | base => exact le_refl _
  | succ m _ ih =>
    rcases h.next m with heq | hstep
    · rw [heq]
      exact ih
    · exact (hstep.remaining_lt hstreams).le.trans ih

/-- A goal is reached when before it some fairly scheduled operation can always be executed. -/
theorem Behaviour.reaches (h : Behaviour prog σ) (hfair : Fair prog p σ)
    (hstreams : ∀ i, i ∉ streams → prog i = []) {Goal : FlagState ι α β → Prop}
    (hprogress : ∀ m, n ≤ m → Goal (σ m) ∨ ∃ i op, p op ∧ (σ m).CanStep prog i op) :
    ∃ m, n ≤ m ∧ Goal (σ m) := by
  induction hk : remaining prog streams (σ n) using Nat.strong_induction_on generalizing n with
  | _ k ih =>
    by_cases hmove : ∃ m, n ≤ m ∧ σ (m + 1) ≠ σ m
    · rcases hmove with ⟨m, hnm, hne⟩
      have hstep := (h.next m).resolve_left hne
      have hlt : remaining prog streams (σ (m + 1)) < k :=
        hk ▸ (hstep.remaining_lt hstreams).trans_le (h.remaining_le hstreams hnm)
      rcases ih _ hlt (fun j hj => hprogress j (by omega)) rfl with ⟨j, hj, hgoal⟩
      exact ⟨j, by omega, hgoal⟩
    -- the state stays, so an operation that can be executed can be so forever
    push Not at hmove
    have hstay : ∀ m, n ≤ m → σ m = σ n := by
      intro m hnm
      induction m, hnm using Nat.le_induction with
      | base => rfl
      | succ m hm ih => exact (hmove m hm).trans ih
    rcases hprogress n (le_refl _) with hgoal | ⟨i, op, hop, hcan⟩
    · exact ⟨n, le_refl _, hgoal⟩
    · have henabled : ∀ m, n ≤ m → ∃ op, p op ∧ (σ m).CanStep prog i op := by
        intro m hm
        rw [hstay m hm]
        exact ⟨op, hop, hcan⟩
      rcases hfair i n henabled with ⟨m, hm, hdone⟩
      exact absurd (congrArg (fun s => FlagState.done s i) (hmove m hm)) hdone

end FlagState

end GraphAutofusion.Lib
