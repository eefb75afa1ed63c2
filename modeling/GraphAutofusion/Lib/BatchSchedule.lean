import Mathlib.Data.List.Pairwise
import Mathlib.Data.Set.Finite.Basic
import Mathlib.Order.WellFounded

/-!
# Lib.BatchSchedule — batching the items of a dependency relation

A scheduler handles items one at a time, each after everything it depends on.
Some items are emitted into an open batch, the others are skipped, and skipping
needs all batches closed. The batches of any run are a linear extension of the
dependency order in which no batch spans a skipped item.
-/

namespace GraphAutofusion.Lib

open Relation List Option

variable {α : Type*}

/-- The handled items, the closed batches and the open batch, if any. -/
structure BatchState (α : Type*) where
  done : Set α
  closed : List (List α) := []
  current : Option (List α) := none

def BatchState.batches (s : BatchState α) : List (List α) := s.closed ++ s.current.toList

/-- One step of a batch scheduler. An empty batch may be dropped instead of closed. -/
inductive BatchStep (dep : α → α → Prop) (emits : α → Prop) :
    BatchState α → BatchState α → Prop where
  | start {s : BatchState α} (hnone : s.current = none) :
      BatchStep dep emits s { s with current := some [] }
  | emit {s : BatchState α} {b : List α} {x : α} (hcur : s.current = some b) (hx : x ∉ s.done)
      (hemits : emits x) (hready : ∀ y, dep y x → y ∈ s.done) :
      BatchStep dep emits s { s with done := insert x s.done, current := some (b ++ [x]) }
  | skip {s : BatchState α} {x : α} (hnone : s.current = none) (hx : x ∉ s.done)
      (hemits : ¬ emits x) (hready : ∀ y, dep y x → y ∈ s.done) :
      BatchStep dep emits s { s with done := insert x s.done }
  | close {s : BatchState α} {b : List α} (hcur : s.current = some b) :
      BatchStep dep emits s { s with closed := s.closed ++ [b], current := none }
  | discard {s : BatchState α} (hcur : s.current = some []) :
      BatchStep dep emits s { s with current := none }

abbrev BatchSteps (dep : α → α → Prop) (emits : α → Prop) :
    BatchState α → BatchState α → Prop :=
  ReflTransGen (BatchStep dep emits)

/-- Batches in dependency order: no item depends on a later one, and no two items
of one batch have an item that is not emitted between them. -/
structure LinearExtension (dep : α → α → Prop) (emits : α → Prop) (batches : List (List α)) :
    Prop where
  nodup : batches.flatten.Nodup
  irrefl : ∀ x ∈ batches.flatten, ¬ TransGen dep x x
  order : batches.flatten.Pairwise fun a b => ¬ TransGen dep b a
  barrier : ∀ b ∈ batches, ∀ y ∈ b, ∀ x ∈ b, ∀ u, ¬ emits u →
    TransGen dep y u → ¬ TransGen dep u x

/-- Item `x` stands at position `p` of batch `i`. -/
def StandsAt (batches : List (List α)) (i p : ℕ) (x : α) : Prop :=
  ∃ b, batches[i]? = some b ∧ b[p]? = some x

/-- A batch depends on another one when one of its items does. -/
def BatchDep (dep : α → α → Prop) (batches : List (List α)) (i j : ℕ) : Prop :=
  i ≠ j ∧ ∃ p q y x, StandsAt batches i p y ∧ StandsAt batches j q x ∧ TransGen dep y x

namespace LinearExtension

variable {dep : α → α → Prop} {emits : α → Prop} {batches : List (List α)} {i j p q : ℕ} {x y : α}

section

variable (hl : LinearExtension dep emits batches)
include hl

/-- An item stands after everything it depends on. -/
theorem lt_of_dep (hy : StandsAt batches i p y)
    (hx : StandsAt batches j q x) (hdep : TransGen dep y x) : i < j ∨ i = j ∧ p < q := by
  obtain ⟨by', hby, hyp⟩ := hy
  obtain ⟨bx, hbx, hxq⟩ := hx
  have hmem : x ∈ batches.flatten :=
    mem_flatten.mpr ⟨bx, mem_of_getElem? hbx, mem_of_getElem? hxq⟩
  obtain ⟨hin, hacross⟩ := pairwise_flatten.mp hl.order
  rcases Nat.lt_trichotomy i j with hij | rfl | hji
  · exact .inl hij
  · refine .inr ⟨rfl, ?_⟩
    obtain rfl : by' = bx := some.inj (hby.symm.trans hbx)
    have hpair := pairwise_iff_getElem.mp (hin by' (mem_of_getElem? hby))
    obtain ⟨hp, hyp⟩ := List.getElem?_eq_some_iff.mp hyp
    obtain ⟨hq, hxq⟩ := List.getElem?_eq_some_iff.mp hxq
    rcases Nat.lt_trichotomy p q with hpq | rfl | hqp
    · exact hpq
    · obtain rfl : y = x := hyp.symm.trans hxq
      exact absurd hdep (hl.irrefl y hmem)
    · have hno := hpair q p hq hp hqp
      rw [hyp, hxq] at hno
      exact absurd hdep hno
  · obtain ⟨hi, hby⟩ := List.getElem?_eq_some_iff.mp hby
    obtain ⟨hj, hbx⟩ := List.getElem?_eq_some_iff.mp hbx
    have hno := pairwise_iff_getElem.mp hacross j i hj hi hji
    rw [hby, hbx] at hno
    exact absurd hdep (hno x (mem_of_getElem? hxq) y (mem_of_getElem? hyp))

/-- A dependency through an item that is not emitted crosses a batch border. -/
theorem lt_of_barrier (hy : StandsAt batches i p y) (hx : StandsAt batches j q x) {u : α}
    (hu : ¬ emits u) (hyu : TransGen dep y u) (hux : TransGen dep u x) : i < j := by
  rcases hl.lt_of_dep hy hx (hyu.trans hux) with hij | ⟨rfl, _⟩
  · exact hij
  · obtain ⟨b, hb, hyb⟩ := hy
    obtain ⟨b', hb', hxb⟩ := hx
    obtain rfl : b = b' := some.inj (hb.symm.trans hb')
    exact absurd hux (hl.barrier b (mem_of_getElem? hb) y (mem_of_getElem? hyb) x
      (mem_of_getElem? hxb) u hu hyu)

theorem lt_of_batchDep (hij : BatchDep dep batches i j) : i < j := by
  obtain ⟨hne, p, q, y, x, hy, hx, hdep⟩ := hij
  rcases hl.lt_of_dep hy hx hdep with hlt | ⟨heq, _⟩
  · exact hlt
  · exact absurd heq hne

/-- Contracting every batch to one item leaves no cycle. -/
theorem batchDep_acyclic (i : ℕ) : ¬ TransGen (BatchDep dep batches) i i := by
  have hlt : ∀ {k}, TransGen (BatchDep dep batches) i k → i < k := by
    intro k hk
    induction hk with
    | single h => exact hl.lt_of_batchDep h
    | tail _ h ih => exact ih.trans (hl.lt_of_batchDep h)
  intro hcycle
  exact absurd (hlt hcycle) (lt_irrefl i)

end

end LinearExtension

/-- The invariant of a batch scheduler. -/
structure BatchInv (dep : α → α → Prop) (emits : α → Prop) (s : BatchState α) : Prop where
  down : ∀ x ∈ s.done, ∀ y, dep y x → y ∈ s.done
  mem_iff : ∀ x, x ∈ s.batches.flatten ↔ x ∈ s.done ∧ emits x
  irrefl : ∀ x ∈ s.done, ¬ TransGen dep x x
  linear : LinearExtension dep emits s.batches
  open_barrier : ∀ u ∈ s.done, ¬ emits u → ∀ b ∈ s.current, ∀ y ∈ b, ¬ TransGen dep y u

namespace BatchInv

variable {dep : α → α → Prop} {emits : α → Prop} {s s' : BatchState α}

theorem init : BatchInv dep emits { done := ∅ } where
  down x hx := absurd hx (Set.notMem_empty x)
  mem_iff x := by simp [BatchState.batches]
  irrefl x hx := absurd hx (Set.notMem_empty x)
  linear := by constructor <;> simp [BatchState.batches]
  open_barrier u hu := absurd hu (Set.notMem_empty u)

section

variable (hi : BatchInv dep emits s)
include hi

theorem mem_done_of_dep {x y : α} (hdep : TransGen dep y x) (hx : x ∈ s.done) : y ∈ s.done := by
  induction hdep using TransGen.head_induction_on with
  | single h => exact hi.down x hx _ h
  | head h _ ih => exact hi.down _ ih _ h

/-- Everything an item that is ready depends on is done. -/
theorem mem_done_of_ready {x y : α} (hready : ∀ z, dep z x → z ∈ s.done)
    (hdep : TransGen dep y x) : y ∈ s.done := by
  rcases TransGen.tail'_iff.mp hdep with ⟨z, hyz, hzx⟩
  rcases reflTransGen_iff_eq_or_transGen.mp hyz with rfl | hyz
  · exact hready _ hzx
  · exact hi.mem_done_of_dep hyz (hready z hzx)

theorem insert_down {x : α} (hready : ∀ y, dep y x → y ∈ s.done) :
    ∀ z ∈ insert x s.done, ∀ y, dep y z → y ∈ insert x s.done := by
  rintro z (rfl | hz) y hdep
  · exact .inr (hready y hdep)
  · exact .inr (hi.down z hz y hdep)

theorem insert_irrefl {x : α} (hx : x ∉ s.done)
    (hready : ∀ y, dep y x → y ∈ s.done) : ∀ z ∈ insert x s.done, ¬ TransGen dep z z := by
  rintro z (rfl | hz) hcycle
  · exact hx (hi.mem_done_of_ready hready hcycle)
  · exact hi.irrefl z hz hcycle

theorem emit {b : List α} {x : α} (hcur : s.current = some b)
    (hx : x ∉ s.done) (hemits : emits x) (hready : ∀ y, dep y x → y ∈ s.done) :
    BatchInv dep emits { s with done := insert x s.done, current := some (b ++ [x]) } := by
  have hbatches : s.batches = s.closed ++ [b] := by simp [BatchState.batches, hcur]
  have hflat : s.batches.flatten = s.closed.flatten ++ b := by simp [hbatches]
  have hdone : ∀ y ∈ s.closed.flatten ++ b, y ∈ s.done := fun y hy =>
    ((hi.mem_iff y).mp (hflat ▸ hy)).1
  have hnew : ({ s with done := insert x s.done, current := some (b ++ [x]) } :
      BatchState α).batches.flatten = s.batches.flatten ++ [x] := by
    simp [BatchState.batches, hcur]
  refine ⟨hi.insert_down hready, ?_, hi.insert_irrefl hx hready, ⟨?_, ?_, ?_, ?_⟩, ?_⟩
  · intro y
    rw [hnew, mem_append, mem_singleton, hi.mem_iff y]
    simp only [Set.mem_insert_iff]
    constructor
    · rintro (⟨hy, he⟩ | rfl)
      · exact ⟨.inr hy, he⟩
      · exact ⟨.inl rfl, hemits⟩
    · rintro ⟨rfl | hy, he⟩
      · exact .inr rfl
      · exact .inl ⟨hy, he⟩
  · rw [hnew, nodup_append]
    refine ⟨hi.linear.nodup, nodup_singleton x, ?_⟩
    rintro y hy z hz rfl
    rw [mem_singleton] at hz
    exact hx (hz ▸ ((hi.mem_iff y).mp hy).1)
  · intro y hy
    rw [hnew, mem_append, mem_singleton] at hy
    rcases hy with hy | rfl
    · exact hi.linear.irrefl y hy
    · exact fun hcycle => hx (hi.mem_done_of_ready hready hcycle)
  · rw [hnew, pairwise_append]
    refine ⟨hi.linear.order, pairwise_singleton _ x, ?_⟩
    intro y hy z hz hdep
    rw [mem_singleton] at hz
    exact hx (hi.mem_done_of_dep (hz ▸ hdep) ((hi.mem_iff y).mp hy).1)
  · -- only the open batch changed, and `x` is its last item
    intro b' hb' y hy z hz u hu hyu huz
    have hcases : b' ∈ s.batches ∨ b' = b ++ [x] := by
      rw [hbatches]
      simp [BatchState.batches] at hb' ⊢
      tauto
    rcases hcases with hold | rfl
    · exact hi.linear.barrier b' hold y hy z hz u hu hyu huz
    rw [mem_append, mem_singleton] at hy hz
    have hbmem : b ∈ s.batches := by simp [hbatches]
    rcases hz with hz | rfl
    · rcases hy with hy | rfl
      · exact hi.linear.barrier b hbmem y hy z hz u hu hyu huz
      · exact hx (hi.mem_done_of_dep (hyu.trans huz)
          (hdone z (mem_append_right _ hz)))
    · have hudone := hi.mem_done_of_ready hready huz
      rcases hy with hy | rfl
      · exact hi.open_barrier u hudone hu b hcur y hy hyu
      · exact hx (hi.mem_done_of_dep hyu hudone)
  · rintro u (rfl | hu) hne b' hb' y hy hdep
    · exact hne hemits
    · obtain rfl : b ++ [x] = b' := some.inj hb'
      rw [mem_append, mem_singleton] at hy
      rcases hy with hy | rfl
      · exact hi.open_barrier u hu hne b hcur y hy hdep
      · exact hx (hi.mem_done_of_dep hdep hu)

theorem skip {x : α} (hnone : s.current = none) (hx : x ∉ s.done)
    (hemits : ¬ emits x) (hready : ∀ y, dep y x → y ∈ s.done) :
    BatchInv dep emits { s with done := insert x s.done } := by
  refine ⟨hi.insert_down hready, ?_, hi.insert_irrefl hx hready, hi.linear, ?_⟩
  · intro y
    refine (hi.mem_iff y).trans ?_
    simp only [Set.mem_insert_iff]
    constructor
    · rintro ⟨hy, he⟩
      exact ⟨.inr hy, he⟩
    · rintro ⟨rfl | hy, he⟩
      · exact absurd he hemits
      · exact ⟨hy, he⟩
  · intro u _ _ b hb
    simp [hnone] at hb

/-- Every step keeps the invariant. -/
theorem step (hs : BatchStep dep emits s s') : BatchInv dep emits s' := by
  cases hs with
  | start hnone =>
    have hflat : ({ s with current := some [] } : BatchState α).batches.flatten
        = s.batches.flatten := by simp [BatchState.batches, hnone]
    refine ⟨hi.down, fun x => by rw [hflat]; exact hi.mem_iff x, hi.irrefl,
      ⟨hflat ▸ hi.linear.nodup, hflat ▸ hi.linear.irrefl, hflat ▸ hi.linear.order, ?_⟩, ?_⟩
    · intro b hb y hy
      simp only [BatchState.batches, Option.toList_some, mem_append, mem_singleton] at hb
      rcases hb with hb | rfl
      · exact hi.linear.barrier b (mem_append_left _ hb) y hy
      · simp at hy
    · intro u _ _ b hb y hy
      obtain rfl : [] = b := some.inj hb
      simp at hy
  | emit hcur hx hemits hready => exact hi.emit hcur hx hemits hready
  | skip hnone hx hemits hready => exact hi.skip hnone hx hemits hready
  | @close b hcur =>
    have hbatches : ({ s with closed := s.closed ++ [b], current := none } :
        BatchState α).batches = s.batches := by simp [BatchState.batches, hcur]
    exact ⟨hi.down, hbatches ▸ hi.mem_iff, hi.irrefl, hbatches ▸ hi.linear,
      fun u _ _ b hb => by simp at hb⟩
  | discard hcur =>
    have hflat : ({ s with current := none } : BatchState α).batches.flatten
        = s.batches.flatten := by simp [BatchState.batches, hcur]
    refine ⟨hi.down, fun x => by rw [hflat]; exact hi.mem_iff x, hi.irrefl,
      ⟨hflat ▸ hi.linear.nodup, hflat ▸ hi.linear.irrefl, hflat ▸ hi.linear.order, ?_⟩,
      fun u _ _ b hb => by simp at hb⟩
    intro b hb
    refine hi.linear.barrier b ?_
    simp [BatchState.batches] at hb
    exact mem_append_left _ hb

/-- So does every run. -/
theorem steps (hs : BatchSteps dep emits s s') : BatchInv dep emits s' := by
  induction hs with
  | refl => exact hi
  | tail _ h ih => exact ih.step h

end

end BatchInv

/-- Handled items stay handled. -/
theorem BatchSteps.done_subset {dep : α → α → Prop} {emits : α → Prop} {s s' : BatchState α}
    (hs : BatchSteps dep emits s s') : s.done ⊆ s'.done := by
  induction hs with
  | refl => exact Set.Subset.refl _
  | tail _ h ih =>
    refine ih.trans ?_
    cases h with
    | start => exact Set.Subset.refl _
    | emit => exact Set.subset_insert _ _
    | skip => exact Set.subset_insert _ _
    | close => exact Set.Subset.refl _
    | discard => exact Set.Subset.refl _

/-- In a finite acyclic dependency order, while some item is not done, one of them
depends on done items only. -/
theorem exists_ready_of_acyclic {dep : α → α → Prop} (hacyclic : ∀ x, ¬ TransGen dep x x)
    {todo : Set α} (hfin : todo.Finite) (hne : todo.Nonempty) :
    ∃ x ∈ todo, ∀ y, dep y x → y ∉ todo := by
  have hwf : WellFounded fun y x : todo => TransGen dep y x := by
    have : Finite todo := hfin
    have : IsTrans todo fun y x => TransGen dep y.1 x.1 := ⟨fun _ _ _ => TransGen.trans⟩
    have : Std.Irrefl fun y x : todo => TransGen dep y.1 x.1 := ⟨fun x => hacyclic x⟩
    exact Finite.wellFounded_of_trans_of_irrefl _
  obtain ⟨x, hx⟩ := hne
  obtain ⟨⟨m, hm⟩, _, hmin⟩ := hwf.has_min Set.univ ⟨⟨x, hx⟩, trivial⟩
  refine ⟨m, hm, ?_⟩
  intro y hdep hy
  exact hmin ⟨y, hy⟩ trivial (TransGen.single hdep)

end GraphAutofusion.Lib
