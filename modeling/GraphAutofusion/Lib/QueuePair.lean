import Mathlib.Data.List.Forall2
import Mathlib.Data.List.GetD
import Mathlib.Order.Lattice

/-!
# Lib.QueuePair — two in-order queues with counting flags and barriers

Two queues execute their entries in order and interleave freely. A SET adds one to the flag
counter of its queue, a WAIT takes one from the counter of the other queue, and a barrier is
executed by both queues together. An external wait passes when the environment lets it.

`Scheduled` is a sufficient condition on the two queues: there are times, nowhere descending
along a queue, with the `k`-th SET before the `k`-th WAIT it serves and with the same barrier times on
both sides. Then the pair never blocks on itself, and it respects the order of the times across
flags and barriers in every interleaving.
-/

namespace GraphAutofusion.Lib

open Relation List Option Function

/-- What an entry of a queue does. -/
inductive QueueOp where
  | act
  | external
  | set
  | wait
  | barrier
  | trap
deriving DecidableEq, Repr

/-- The next position of each queue, and its flag counter. -/
structure PairState where
  pos : Bool → ℕ
  flags : Bool → ℕ

namespace PairState

def init : PairState where
  pos _ := 0
  flags _ := 0

def advance (s : PairState) (b : Bool) : PairState :=
  { s with pos := Function.update s.pos b (s.pos b + 1) }

def raise (s : PairState) (b : Bool) : PairState :=
  { s with flags := Function.update s.flags b (s.flags b + 1) }

def lower (s : PairState) (b : Bool) : PairState :=
  { s with flags := Function.update s.flags b (s.flags b - 1) }

section Run

variable {α : Type*} (op : Bool → α → QueueOp) (prog : Bool → List α)

/-- The next entry of queue `b` does `k`. -/
def AtOp (b : Bool) (k : QueueOp) (s : PairState) : Prop :=
  ∃ a, (prog b)[s.pos b]? = some a ∧ op b a = k

/-- The steps the queues take by themselves. -/
inductive Step : PairState → PairState → Prop where
  | act {s : PairState} {b : Bool} (h : AtOp op prog b .act s) : Step s (s.advance b)
  | set {s : PairState} {b : Bool} (h : AtOp op prog b .set s) : Step s ((s.advance b).raise b)
  | wait {s : PairState} {b : Bool} (h : AtOp op prog b .wait s) (hflag : 0 < s.flags (!b)) :
      Step s ((s.advance b).lower (!b))
  | barrier {s : PairState} (h : ∀ b, AtOp op prog b .barrier s) :
      Step s ((s.advance true).advance false)

/-- The environment lets an external wait pass. -/
inductive ExternalStep : PairState → PairState → Prop where
  | pass {s : PairState} {b : Bool} (h : AtOp op prog b .external s) : ExternalStep s (s.advance b)

/-- Any step. -/
def AnyStep (s s' : PairState) : Prop := Step op prog s s' ∨ ExternalStep op prog s s'

def Reachable (s : PairState) : Prop := ReflTransGen (AnyStep op prog) init s

def Finished (s : PairState) : Prop := ∀ b, s.pos b = (prog b).length

/-- The executed entries of queue `b` that do `k`. -/
def executed (k : QueueOp) (b : Bool) (s : PairState) : ℕ :=
  ((prog b).take (s.pos b)).countP fun a => op b a = k

/-- The entries left to execute. -/
def remaining (s : PairState) : ℕ :=
  ((prog true).length - s.pos true) + ((prog false).length - s.pos false)

end Run

variable {α : Type*} {op : Bool → α → QueueOp} {prog : Bool → List α} {s s' : PairState}
  {b c : Bool} {k : QueueOp}

/-! ## Counting -/

@[simp] theorem advance_pos_self : (s.advance b).pos b = s.pos b + 1 := update_self ..

theorem advance_pos_of_ne (h : c ≠ b) : (s.advance b).pos c = s.pos c := update_of_ne h ..

@[simp] theorem advance_pos_not : (s.advance b).pos (!b) = s.pos (!b) :=
  advance_pos_of_ne (by simp)

@[simp] theorem advance_flags : (s.advance b).flags = s.flags := rfl

@[simp] theorem raise_pos : (s.raise b).pos = s.pos := rfl

@[simp] theorem lower_pos : (s.lower b).pos = s.pos := rfl

@[simp] theorem raise_flags_self : (s.raise b).flags b = s.flags b + 1 := update_self ..

@[simp] theorem raise_flags_not : (s.raise b).flags (!b) = s.flags (!b) :=
  update_of_ne (by simp) ..

@[simp] theorem lower_flags_self : (s.lower b).flags b = s.flags b - 1 := update_self ..

theorem lower_flags_of_ne (h : c ≠ b) : (s.lower b).flags c = s.flags c :=
  update_of_ne h ..

/-- Counts depend on the position only. -/
theorem executed_congr (h : s'.pos b = s.pos b) :
    executed op prog k b s' = executed op prog k b s := by
  unfold executed
  rw [h]

theorem AtOp.lt (h : AtOp op prog b k s) : s.pos b < (prog b).length := by
  rcases h with ⟨a, ha, _⟩
  exact (List.getElem?_eq_some_iff.mp ha).1

/-- Executing an entry counts it under what it does. -/
theorem AtOp.executed_succ {j : QueueOp} (h : AtOp op prog b j s) (hpos : s'.pos b = s.pos b + 1) :
    executed op prog k b s' = executed op prog k b s + if j = k then 1 else 0 := by
  rcases h with ⟨a, ha, hop⟩
  unfold executed
  rw [hpos, take_add_one, ha, Option.toList_some, countP_append, countP_singleton,
    hop]
  simp only [decide_eq_true_eq]

/-! ## The invariant of a run -/

/-- The counters hold the SETs that no WAIT has taken, and barriers were met together. -/
structure Balanced (op : Bool → α → QueueOp) (prog : Bool → List α) (s : PairState) : Prop where
  le : ∀ b, s.pos b ≤ (prog b).length
  flags : ∀ b, s.flags b + executed op prog .wait (!b) s = executed op prog .set b s
  barriers : executed op prog .barrier true s = executed op prog .barrier false s

theorem balanced_init : Balanced op prog init :=
  ⟨fun _ => Nat.zero_le _, fun _ => rfl, rfl⟩

section

variable (h : Balanced op prog s)
include h

/-- An entry that touches no counter. -/
theorem Balanced.advance (hat : AtOp op prog b k s)
    (hk : k = .act ∨ k = .external) : Balanced op prog (s.advance b) := by
  have hsame : ∀ j, j = .wait ∨ j = .set ∨ j = .barrier → ∀ c,
      executed op prog j c (s.advance b) = executed op prog j c s := by
    intro j hj c
    by_cases hc : c = b
    · subst hc
      rw [hat.executed_succ advance_pos_self, if_neg, Nat.add_zero]
      rcases hk with rfl | rfl <;> rcases hj with rfl | rfl | rfl <;> decide
    · exact executed_congr (advance_pos_of_ne hc)
  refine ⟨fun c => ?_, fun c => ?_, ?_⟩
  · by_cases hc : c = b
    · subst hc
      rw [advance_pos_self]
      exact hat.lt
    · rw [advance_pos_of_ne hc]
      exact h.le c
  · rw [hsame .wait (by decide), hsame .set (by decide)]
    exact h.flags c
  · rw [hsame .barrier (by decide), hsame .barrier (by decide)]
    exact h.barriers

theorem Balanced.set (hat : AtOp op prog b .set s) : Balanced op prog ((s.advance b).raise b) := by
  have hself : ∀ j, executed op prog j b ((s.advance b).raise b) =
      executed op prog j b s + if QueueOp.set = j then 1 else 0 := fun j =>
    hat.executed_succ advance_pos_self
  have hother : ∀ j, executed op prog j (!b) ((s.advance b).raise b) = executed op prog j (!b) s :=
    fun j => executed_congr advance_pos_not
  refine ⟨fun c => ?_, fun c => ?_, ?_⟩
  · rw [raise_pos]
    by_cases hc : c = b
    · subst hc
      rw [advance_pos_self]
      exact hat.lt
    · rw [advance_pos_of_ne hc]
      exact h.le c
  · have hflags := h.flags c
    by_cases hc : c = b
    · subst hc
      rw [hother, hself, raise_flags_self, advance_flags]
      simp only [if_true]
      omega
    · have hc' : c = !b := by cases b <;> cases c <;> simp_all
      subst hc'
      rw [Bool.not_not] at hflags ⊢
      rw [hself, hother, raise_flags_not, advance_flags]
      simpa using hflags
  · have hbarriers := h.barriers
    cases b <;> simp_all

theorem Balanced.wait (hat : AtOp op prog b .wait s)
    (hflag : 0 < s.flags (!b)) : Balanced op prog ((s.advance b).lower (!b)) := by
  have hself : ∀ j, executed op prog j b ((s.advance b).lower (!b)) =
      executed op prog j b s + if QueueOp.wait = j then 1 else 0 := fun j =>
    hat.executed_succ advance_pos_self
  have hother : ∀ j, executed op prog j (!b) ((s.advance b).lower (!b)) =
      executed op prog j (!b) s := fun j => executed_congr advance_pos_not
  refine ⟨fun c => ?_, fun c => ?_, ?_⟩
  · rw [lower_pos]
    by_cases hc : c = b
    · subst hc
      rw [advance_pos_self]
      exact hat.lt
    · rw [advance_pos_of_ne hc]
      exact h.le c
  · have hflags := h.flags c
    by_cases hc : c = b
    · subst hc
      rw [hother, hself, lower_flags_of_ne (by simp), advance_flags]
      simpa using hflags
    · have hc' : c = !b := by cases b <;> cases c <;> simp_all
      subst hc'
      rw [Bool.not_not] at hflags ⊢
      rw [hself, hother, lower_flags_self, advance_flags]
      simp only [if_true]
      omega
  · have hbarriers := h.barriers
    cases b <;> simp_all

theorem Balanced.barrier (hat : ∀ b, AtOp op prog b .barrier s) :
    Balanced op prog ((s.advance true).advance false) := by
  have hpos : ∀ b, ((s.advance true).advance false).pos b = s.pos b + 1 := by
    intro b
    cases b <;> rfl
  have hself : ∀ j b, executed op prog j b ((s.advance true).advance false) =
      executed op prog j b s + if QueueOp.barrier = j then 1 else 0 := fun j b =>
    (hat b).executed_succ (hpos b)
  refine ⟨fun b => ?_, fun b => ?_, ?_⟩
  · rw [hpos]
    exact (hat b).lt
  · simpa [hself] using h.flags b
  · simpa [hself] using h.barriers

theorem Balanced.step (hstep : AnyStep op prog s s') : Balanced op prog s' := by
  rcases hstep with hstep | hstep
  · cases hstep with
    | act hat => exact h.advance hat (.inl rfl)
    | set hat => exact h.set hat
    | wait hat hflag => exact h.wait hat hflag
    | barrier hat => exact h.barrier hat
  · cases hstep with
    | pass hat => exact h.advance hat (.inr rfl)

end

theorem Reachable.balanced (h : Reachable op prog s) : Balanced op prog s := by
  induction h with
  | refl => exact balanced_init
  | tail _ hstep ih => exact ih.step hstep

/-- Both queues are at the same barrier when they meet. -/
theorem Reachable.barrier_index (h : Reachable op prog s) :
    executed op prog .barrier true s = executed op prog .barrier false s := h.balanced.barriers

/-- Every step uses up an entry. -/
theorem AnyStep.remaining_lt (hstep : AnyStep op prog s s') :
    remaining prog s' < remaining prog s := by
  have hone : ∀ {b k} {t : PairState}, AtOp op prog b k s → t.pos b = s.pos b + 1 →
      t.pos (!b) = s.pos (!b) → remaining prog t < remaining prog s := by
    intro b k t hat hself hother
    have hlt := hat.lt
    unfold remaining
    cases b <;> simp_all <;> omega
  rcases hstep with hstep | hstep
  · cases hstep with
    | act hat => exact hone hat advance_pos_self advance_pos_not
    | set hat => exact hone hat advance_pos_self advance_pos_not
    | wait hat hflag => exact hone hat advance_pos_self advance_pos_not
    | barrier hat =>
      have htrue := (hat true).lt
      have hfalse := (hat false).lt
      have hpos : ∀ b, ((s.advance true).advance false).pos b = s.pos b + 1 := by
        intro b
        cases b <;> rfl
      unfold remaining
      rw [hpos, hpos]
      omega
  · cases hstep with
    | pass hat => exact hone hat advance_pos_self advance_pos_not

/-! ## Scheduled pairs -/

section Times

variable {τ : Type*} (op : Bool → α → QueueOp) (time : α → τ)

/-- The times of the entries of a list that do `k`. -/
def times (k : QueueOp) (b : Bool) (l : List α) : List τ :=
  (l.filter fun a => op b a = k).map time

/-- Times along which the pair can execute. -/
structure Scheduled [LinearOrder τ] (prog : Bool → List α) : Prop where
  sorted : ∀ b, (prog b).Pairwise fun a a' => time a ≤ time a'
  noTrap : ∀ b, ∀ a ∈ prog b, op b a ≠ .trap
  flags : ∀ b, Forall₂ (· < ·) (times op time .set b (prog b))
    (times op time .wait (!b) (prog (!b)))
  barriers : times op time .barrier true (prog true) = times op time .barrier false (prog false)

end Times

variable {τ : Type*} {time : α → τ} {l : List α} {t u w : τ} {i j : ℕ} {a x y : α}

theorem times_append {l' : List α} :
    times op time k b (l ++ l') = times op time k b l ++ times op time k b l' := by
  unfold times
  rw [filter_append, map_append]

theorem mem_times : t ∈ times op time k b l ↔ ∃ a ∈ l, op b a = k ∧ time a = t := by
  simp [times, and_assoc]

theorem length_times : (times op time k b l).length = l.countP fun a => op b a = k := by
  rw [times, length_map, countP_eq_length_filter]

/-- The times of a queue, split where it stands. -/
theorem times_split (s : PairState) : times op time k b (prog b) =
    times op time k b ((prog b).take (s.pos b)) ++ times op time k b ((prog b).drop (s.pos b)) := by
  rw [← times_append, take_append_drop]

theorem length_times_take (s : PairState) :
    (times op time k b ((prog b).take (s.pos b))).length = executed op prog k b s := length_times

theorem times_flatMap {ι : Type*} {items : ι → List α} {L : List ι} :
    times op time k b (L.flatMap items) = L.flatMap fun i => times op time k b (items i) := by
  induction L with
  | nil => rfl
  | cons i L ih => rw [flatMap_cons, flatMap_cons, times_append, ih]

/-- A stretch of a queue between two times. -/
structure Within [LinearOrder τ] (time : α → τ) (lo hi : τ) (l : List α) : Prop where
  sorted : l.Pairwise fun a a' => time a ≤ time a'
  lower : ∀ a ∈ l, lo ≤ time a
  upper : ∀ a ∈ l, time a ≤ hi

section Within

variable [LinearOrder τ] {lo hi m m' : τ} {l' : List α}

theorem Within.const (h : ∀ a ∈ l, time a = t) : Within time t t l where
  sorted := pairwise_of_forall_mem_list fun a ha a' ha' => ((h a ha).trans (h a' ha').symm).le
  lower a ha := (h a ha).ge
  upper a ha := (h a ha).le

theorem Within.append (h : Within time lo m l) (h' : Within time m' hi l') (hm : m ≤ m')
    (hlo : lo ≤ m') (hhi : m ≤ hi) : Within time lo hi (l ++ l') where
  sorted := pairwise_append.mpr ⟨h.sorted, h'.sorted, fun a ha a' ha' =>
    ((h.upper a ha).trans hm).trans (h'.lower a' ha')⟩
  lower a ha := by
    rcases mem_append.mp ha with ha | ha
    · exact h.lower a ha
    · exact hlo.trans (h'.lower a ha)
  upper a ha := by
    rcases mem_append.mp ha with ha | ha
    · exact (h.upper a ha).trans hhi
    · exact h'.upper a ha

/-- Stretches one after the other. -/
theorem Within.flatMap {ι : Type*} {items : ι → List α} {first last : ι → τ} {L : List ι}
    (h : ∀ i ∈ L, Within time (first i) (last i) (items i))
    (hL : L.Pairwise fun i j => last i ≤ first j) (hlo : ∀ i ∈ L, lo ≤ first i)
    (hhi : ∀ i ∈ L, last i ≤ hi) : Within time lo hi (L.flatMap items) where
  sorted := by
    refine pairwise_flatMap.mpr ⟨fun i hi => (h i hi).sorted, ?_⟩
    refine hL.imp_of_mem fun {i j} hi hj hij a ha a' ha' => ?_
    exact (((h i hi).upper a ha).trans hij).trans ((h j hj).lower a' ha')
  lower a ha := by
    rcases mem_flatMap.mp ha with ⟨i, hi, ha⟩
    exact (hlo i hi).trans ((h i hi).lower a ha)
  upper a ha := by
    rcases mem_flatMap.mp ha with ⟨i, hi, ha⟩
    exact ((h i hi).upper a ha).trans (hhi i hi)

end Within

namespace Scheduled

variable [LinearOrder τ] (hs : Scheduled op time prog)
include hs

/-- The next entry comes no later than the entries behind it. -/
theorem le_of_head (ha : (prog b)[s.pos b]? = some a) :
    ∀ a' ∈ (prog b).drop (s.pos b), time a ≤ time a' := by
  intro a' ha'
  rcases List.getElem?_eq_some_iff.mp ha with ⟨hlt, rfl⟩
  rw [drop_eq_getElem_cons hlt] at ha'
  rcases mem_cons.mp ha' with rfl | ha'
  · exact le_refl _
  · have hrest := (hs.sorted b).drop (i := s.pos b)
    rw [drop_eq_getElem_cons hlt] at hrest
    exact rel_of_pairwise_cons hrest ha'

/-- Executed entries come no later than the others. -/
theorem le_of_executed (hx : x ∈ (prog b).take i) (hy : y ∈ (prog b).drop i) : time x ≤ time y := by
  have hsorted := hs.sorted b
  rw [← take_append_drop i (prog b), pairwise_append] at hsorted
  exact hsorted.2.2 x hx y hy

/-- A later time stands at a later position. -/
theorem lt_of_time (hx : (prog b)[i]? = some x) (hy : (prog b)[j]? = some y)
    (hxy : time x < time y) : i < j := by
  by_contra hle
  rcases List.getElem?_eq_some_iff.mp hx with ⟨hi, rfl⟩
  rcases List.getElem?_eq_some_iff.mp hy with ⟨hj, rfl⟩
  rcases Nat.eq_or_lt_of_le (not_lt.mp hle) with rfl | hlt
  · exact lt_irrefl _ hxy
  · exact absurd (pairwise_iff_getElem.mp (hs.sorted b) j i hj hi hlt) (not_le.mpr hxy)

section

variable (h : Reachable op prog s)
include h

/-- A queue at a WAIT whose counter is empty stands at a later time than the other queue. -/
theorem lt_of_blocked_wait (ha : (prog (!b))[s.pos (!b)]? = some a) (hop : op (!b) a = .wait)
    (hempty : s.flags b = 0) : ∃ a', (prog b)[s.pos b]? = some a' ∧ time a' < time a := by
  rcases List.getElem?_eq_some_iff.mp ha with ⟨hlt, rfl⟩
  -- as many SETs as WAITs were executed, so the WAIT is served by the next SET
  have hcount : executed op prog .set b s = executed op prog .wait (!b) s := by
    have hflags := h.balanced.flags b
    omega
  have hnext := forall₂_drop (executed op prog .set b s) (hs.flags b)
  rw [times_split s, times_split s, drop_left' (length_times_take s),
    drop_left' ((length_times_take s).trans hcount.symm)] at hnext
  have hwaits : times op time .wait (!b) ((prog (!b)).drop (s.pos (!b))) =
      time (prog (!b))[s.pos (!b)] ::
        times op time .wait (!b) ((prog (!b)).drop (s.pos (!b) + 1)) := by
    rw [drop_eq_getElem_cons hlt, times, filter_cons_of_pos (by simp [hop]), map_cons]
    rfl
  rw [hwaits] at hnext
  rcases forall₂_cons_right_iff.mp hnext with ⟨u, sets, hlt', _, hsets⟩
  have hu : u ∈ times op time .set b ((prog b).drop (s.pos b)) := by
    rw [hsets]
    exact mem_cons_self
  rcases mem_times.mp hu with ⟨a', ha', _, rfl⟩
  have hpos : s.pos b < (prog b).length := by
    by_contra hge
    rw [drop_eq_nil_of_le (not_lt.mp hge)] at ha'
    exact absurd ha' not_mem_nil
  have hhead := getElem?_eq_getElem hpos
  exact ⟨_, hhead, (hs.le_of_head hhead a' ha').trans_lt hlt'⟩

omit h in
/-- The barrier times of both queues agree. -/
theorem barriers_eq (b c : Bool) :
    times op time .barrier b (prog b) = times op time .barrier c (prog c) := by
  cases b <;> cases c
  · rfl
  · exact hs.barriers.symm
  · exact hs.barriers
  · rfl

/-- The other queue has not left a barrier that is still to come. -/
theorem le_of_barrier (ha : (prog b)[s.pos b]? = some a) (hop : op b a = .barrier) (c : Bool) :
    ∃ a', (prog c)[s.pos c]? = some a' ∧ time a' ≤ time a := by
  have hcount : executed op prog .barrier b s = executed op prog .barrier c s := by
    have hbarriers := h.balanced.barriers
    cases b <;> cases c <;> simp_all
  have hrest : times op time .barrier c ((prog c).drop (s.pos c)) =
      times op time .barrier b ((prog b).drop (s.pos b)) := by
    have hall := congrArg (drop (executed op prog .barrier b s)) (hs.barriers_eq c b)
    rw [times_split s, times_split (b := b) s, drop_left' ((length_times_take s).trans hcount.symm),
      drop_left' (length_times_take s)] at hall
    exact hall
  have hmem : a ∈ (prog b).drop (s.pos b) := by
    rcases List.getElem?_eq_some_iff.mp ha with ⟨hlt, rfl⟩
    rw [drop_eq_getElem_cons hlt]
    exact mem_cons_self
  have htime : time a ∈ times op time .barrier c ((prog c).drop (s.pos c)) := by
    rw [hrest]
    exact mem_times.mpr ⟨a, hmem, hop, rfl⟩
  rcases mem_times.mp htime with ⟨a', ha', _, heq⟩
  have hpos : s.pos c < (prog c).length := by
    by_contra hge
    rw [drop_eq_nil_of_le (not_lt.mp hge)] at ha'
    exact absurd ha' not_mem_nil
  have hhead := getElem?_eq_getElem hpos
  exact ⟨_, hhead, (hs.le_of_head hhead a' ha').trans_eq heq⟩

/-- The pair only stops at the end or at an external wait. -/
theorem progress :
    Finished prog s ∨ (∃ b, AtOp op prog b .external s) ∨ ∃ s', Step op prog s s' := by
  by_contra hstuck
  simp only [not_or, not_exists] at hstuck
  rcases hstuck with ⟨hunfinished, hexternal, hstep⟩
  -- what a queue that cannot step is at
  have hat : ∀ b a, (prog b)[s.pos b]? = some a →
      op b a = .wait ∧ s.flags (!b) = 0 ∨ op b a = .barrier := by
    intro b a ha
    cases hop : op b a with
    | act => exact absurd (Step.act ⟨a, ha, hop⟩) (hstep _)
    | external => exact absurd ⟨a, ha, hop⟩ (hexternal b)
    | set => exact absurd (Step.set ⟨a, ha, hop⟩) (hstep _)
    | wait =>
      refine .inl ⟨rfl, Nat.eq_zero_of_not_pos fun hflag => ?_⟩
      exact hstep _ (Step.wait ⟨a, ha, hop⟩ hflag)
    | barrier => exact .inr rfl
    | trap => exact absurd hop (hs.noTrap b a (mem_of_getElem? ha))
  have hwait : ∀ b a, (prog b)[s.pos b]? = some a → op b a = .wait → s.flags (!b) = 0 →
      ∃ a', (prog (!b))[s.pos (!b)]? = some a' ∧ time a' < time a := by
    intro b a ha hop hempty
    rw [← Bool.not_not b] at ha hop
    exact hs.lt_of_blocked_wait h ha hop hempty
  rcases not_forall.mp hunfinished with ⟨b, hb⟩
  have hlt : s.pos b < (prog b).length := Nat.lt_of_le_of_ne (h.balanced.le b) hb
  have ha := getElem?_eq_getElem hlt
  -- the other queue has an entry left too, no later than this one
  have hother : ∃ a', (prog (!b))[s.pos (!b)]? = some a' ∧ time a' ≤ time (prog b)[s.pos b] := by
    rcases hat b _ ha with ⟨hop, hempty⟩ | hop
    · rcases hwait b _ ha hop hempty with ⟨a', ha', hlt'⟩
      exact ⟨a', ha', hlt'.le⟩
    · exact hs.le_of_barrier h ha hop (!b)
  rcases hother with ⟨a', ha', hle⟩
  rcases hat (!b) a' ha' with ⟨hop', hempty'⟩ | hop'
  · rcases hwait (!b) a' ha' hop' hempty' with ⟨a'', ha'', hlt''⟩
    rw [Bool.not_not, ha] at ha''
    rw [← some.inj ha''] at hlt''
    exact absurd hlt'' (not_lt.mpr hle)
  rcases hat b _ ha with ⟨hop, hempty⟩ | hop
  · rcases hwait b _ ha hop hempty with ⟨x, hx, hlt'⟩
    rw [ha'] at hx
    rw [← some.inj hx] at hlt'
    -- a barrier of the other queue lies before the WAIT, so this queue has not passed it
    rcases hs.le_of_barrier h ha' hop' b with ⟨y, hy, hle'⟩
    rw [ha] at hy
    rw [← some.inj hy] at hle'
    exact absurd hlt' (not_lt.mpr hle')
  · refine hstep _ (Step.barrier fun c => ?_)
    by_cases hc : c = b
    · subst hc
      exact ⟨_, ha, hop⟩
    · have hc' : c = !b := by cases b <;> cases c <;> simp_all
      subst hc'
      exact ⟨a', ha', hop'⟩

/-- At the end every counter is empty. -/
theorem flags_finished (hfinished : Finished prog s) (b : Bool) : s.flags b = 0 := by
  have hall : ∀ k c, executed op prog k c s = (times op time k c (prog c)).length := by
    intro k c
    rw [length_times, executed, hfinished c, take_length]
  have hflags := h.balanced.flags b
  rw [hall, hall, (hs.flags b).length_eq] at hflags
  omega

/-- When external waits pass, every run can be completed. -/
theorem exists_finished : ∃ s', ReflTransGen (AnyStep op prog) s s' ∧ Finished prog s' := by
  induction hn : remaining prog s using Nat.strongRecOn generalizing s with
  | ind n ih =>
    have hnext : ∀ s', AnyStep op prog s s' →
        ∃ s', ReflTransGen (AnyStep op prog) s s' ∧ Finished prog s' := by
      intro s' hstep
      have hlt := hstep.remaining_lt
      rw [hn] at hlt
      rcases ih _ hlt (h.tail hstep) rfl with ⟨t, ht, hfinished⟩
      exact ⟨t, ht.head hstep, hfinished⟩
    rcases hs.progress h with hfinished | ⟨b, hexternal⟩ | ⟨s', hstep⟩
    · exact ⟨s, .refl, hfinished⟩
    · exact hnext _ (.inr (ExternalStep.pass hexternal))
    · exact hnext s' (.inl hstep)

end

/-! ## Order across the queues -/

/-- What comes before a SET is executed before the queue of the WAIT it serves gets further. -/
theorem before_of_flag (h : Reachable op prog s) (hu : (times op time .set b (prog b))[i]? = some u)
    (hw : (times op time .wait (!b) (prog (!b)))[i]? = some w) {m n : ℕ}
    (hx : (prog b)[m]? = some x) (hxu : time x < u) (hy : (prog (!b))[n]? = some y)
    (hwy : w < time y) (hn : n ≤ s.pos (!b)) : m < s.pos b := by
  have hwait : i < executed op prog .wait (!b) s := by
    by_contra hge
    rw [times_split s, getElem?_append_right ((length_times_take s).trans_le (not_lt.mp hge))]
      at hw
    rcases mem_times.mp (mem_of_getElem? hw) with ⟨a, ha, _, rfl⟩
    rcases mem_iff_getElem?.mp ha with ⟨d, hd⟩
    rw [getElem?_drop] at hd
    have hlt := hs.lt_of_time hd hy hwy
    omega
  have hset : i < executed op prog .set b s := by
    have hflags := h.balanced.flags b
    omega
  by_contra hge
  rw [times_split s, getElem?_append_left ((length_times_take s).symm ▸ hset)] at hu
  rcases mem_times.mp (mem_of_getElem? hu) with ⟨a, ha, _, rfl⟩
  rcases List.getElem?_eq_some_iff.mp hx with ⟨hm, rfl⟩
  have hmem : (prog b)[m] ∈ (prog b).drop (s.pos b) :=
    mem_drop_iff_getElem.mpr ⟨m - s.pos b, by omega, by simp [Nat.add_sub_cancel' (not_lt.mp hge)]⟩
  exact absurd (hs.le_of_executed ha hmem) (not_le.mpr hxu)

/-- What comes before a barrier is executed before the other queue gets past the barrier. -/
theorem before_of_barrier (h : Reachable op prog s) {b c : Bool}
    (ht : t ∈ times op time .barrier b (prog b))
    {m n : ℕ} (hx : (prog b)[m]? = some x) (hxt : time x < t)
    (hy : (prog c)[n]? = some y) (hty : t < time y) (hn : n ≤ s.pos c) : m < s.pos b := by
  rcases mem_iff_getElem?.mp ht with ⟨i, hi⟩
  have hcount : executed op prog .barrier b s = executed op prog .barrier c s := by
    have hbarriers := h.balanced.barriers
    cases b <;> cases c <;> simp_all
  have hdone : i < executed op prog .barrier c s := by
    by_contra hge
    rw [hs.barriers_eq b c, times_split s,
      getElem?_append_right ((length_times_take s).trans_le (not_lt.mp hge))] at hi
    rcases mem_times.mp (mem_of_getElem? hi) with ⟨a, ha, _, rfl⟩
    rcases mem_iff_getElem?.mp ha with ⟨d, hd⟩
    rw [getElem?_drop] at hd
    have hlt := hs.lt_of_time hd hy hty
    omega
  by_contra hge
  rw [← hcount] at hdone
  rw [times_split s, getElem?_append_left ((length_times_take s).symm ▸ hdone)] at hi
  rcases mem_times.mp (mem_of_getElem? hi) with ⟨a, ha, _, rfl⟩
  rcases List.getElem?_eq_some_iff.mp hx with ⟨hm, rfl⟩
  have hmem : (prog b)[m] ∈ (prog b).drop (s.pos b) :=
    mem_drop_iff_getElem.mpr ⟨m - s.pos b, by omega, by simp [Nat.add_sub_cancel' (not_lt.mp hge)]⟩
  exact absurd (hs.le_of_executed ha hmem) (not_le.mpr hxt)

end Scheduled

end PairState

end GraphAutofusion.Lib
