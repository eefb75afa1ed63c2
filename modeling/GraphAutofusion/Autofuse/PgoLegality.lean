import GraphAutofusion.Autofuse.PgoRun

/-!
# Autofuse.PgoLegality — when all enumerated tilings are legal

The generated code lists a constraint with the tiling variables that its formula reads, and the
enumeration looks at a constraint with the variables that list it only. A constraint on the local
buffer is never looked at with a multicore variable.
-/

namespace GraphAutofusion.Autofuse.PgoSolver

open Lib AxesReorderSolver Function List

variable {n : ℕ} (solver : PgoSolver n)

/-- A constraint with the tiling variables that its formula reads. -/
structure ListedConstraint (n : ℕ) extends Constraint n where
  listedBy : List (Fin n)
  eval_congr : ∀ (st st' : Values n) (spec : ℤ), (∀ v ∈ listedBy, st v = st' v) →
    eval st spec = eval st' spec

/-- What is known of a constraint without its formula. -/
def ListedConstraint.layout (cons : ListedConstraint n) : ConstraintType × List (Fin n) :=
  (cons.type, cons.listedBy)

def withConstraints (constraints : List (ListedConstraint n)) (calRealUsedCoreNum : Values n → ℤ)
    (coreNum : ℤ) : PgoSolver n :=
  { solver with
    allCons := constraints.map (·.toConstraint)
    relCons := fun v => (constraints.filter (·.listedBy.contains v)).map (·.toConstraint)
    calRealUsedCoreNum := calRealUsedCoreNum
    coreNum := coreNum }

/-! ## Legality -/

/-- The vector holds the values of the variables. -/
def Reads (item : List ℕ) (a : Values n) : Prop :=
  item.length = solver.slots.length ∧
    ∀ slot ∈ solver.slots, item[slot.place]?.map Int.ofNat = some (a slot.var)

structure LegalValues (a : Values n) : Prop where
  multiple : ∀ v ∈ solver.orderedLocalBufferVars, solver.align v ∣ a v
  range : ∀ v ∈ solver.orderedLocalBufferVars, solver.align v ≤ a v ∧ a v ≤ solver.maxValue v
  cons : ∀ type, solver.satisfyCons type a = true
  cores : solver.satisfyMCCons a = true

/-- The enumeration ends, and returns legal vectors, none of them twice. -/
def EnumeratesLegal : Prop :=
  ∀ st, ∃ ans, (∃ size, ∀ fuel, size ≤ fuel → solver.generateAllTilingData fuel st = some ans) ∧
    (∀ item ∈ ans, ∃ a, solver.Reads item a ∧ solver.LegalValues a) ∧ ans.Nodup

/-- A constraint is looked at once the variables that it reads have their values. -/
def CheckedInTime (type : ConstraintType) (listedBy : List (Fin n)) : Prop :=
  if type = .MC_MIXED then ∃ v ∈ solver.pureMcVars, v ∈ listedBy
  else (∃ v ∈ solver.orderedLocalBufferVars, v ∈ listedBy) ∧
    ∀ v ∈ solver.pureMcVars, v ∈ listedBy → solver.maxValue v ≤ solver.align v

/-- The loops that are reached end. If none is empty, the values fit in 32 bits and are multiples, and
the constraints are looked at in time. -/
structure EnumerationOk (layouts : List (ConstraintType × List (Fin n))) : Prop where
  stepsUp : ∀ pre slot rest, solver.slots = pre ++ slot :: rest →
    (∀ p ∈ pre, 0 < solver.maxValue p.var) → solver.StepsUp slot
  fits : (∀ v, 0 < solver.maxValue v) → ∀ v, solver.maxValue v < 2 ^ 32
  onGrid : (∀ v, 0 < solver.maxValue v) → ∀ v ∈ solver.orderedLocalBufferVars, solver.OnGrid v
  checked : (∀ v, 0 < solver.maxValue v) → ∀ layout ∈ layouts,
    solver.CheckedInTime layout.1 layout.2

section Legal

variable {solver : PgoSolver n} {slot : PgoSlot n} {pre rest slots : List (PgoSlot n)}
  {levels : PgoSlot n → List ℤ} {a b : Values n} {item : List ℕ}

/-! ## The run with its lists of values -/

theorem exists_levels_all (hsolver : solver.WellFormed) :
    ∃ levels : PgoSlot n → List ℤ, ∀ slot,
      (solver.StepsUp slot → solver.Levels slot 0 (solver.align slot.var) (levels slot)) ∧
        (¬ solver.StepsUp slot → levels slot = []) := by
  have hslot : ∀ slot, ∃ l, (solver.StepsUp slot → solver.Levels slot 0 (solver.align slot.var) l) ∧
      (¬ solver.StepsUp slot → l = []) := by
    intro slot
    by_cases hup : solver.StepsUp slot
    · rcases exists_levels (hsolver.align_pos slot.var) hup with ⟨l, hl⟩
      exact ⟨l, fun _ => hl, fun h => absurd hup h⟩
    · exact ⟨[], fun h => absurd h hup, fun _ => rfl⟩
  choose levels hlevels using hslot
  exact ⟨levels, hlevels⟩

/-- The lists of values that the loops go through. -/
structure LevelsOf (solver : PgoSolver n) (levels : PgoSlot n → List ℤ) : Prop where
  nodup : ∀ slot, (levels slot).Nodup
  listed : ∀ slot, solver.StepsUp slot → solver.Levels slot 0 (solver.align slot.var) (levels slot)
  ok : ∀ slot x, x ∈ levels slot → solver.Levels slot 0 (solver.align slot.var) (levels slot) ∧
    solver.LevelsOk slot (levels slot)
  terminates : solver.Terminates levels solver.slots

theorem exists_levelsOf (hsolver : solver.WellFormed)
    (hup : ∀ pre slot rest, solver.slots = pre ++ slot :: rest →
      (∀ p ∈ pre, 0 < solver.maxValue p.var) → solver.StepsUp slot) :
    ∃ levels, LevelsOf solver levels := by
  rcases exists_levels_all hsolver with ⟨levels, hlevels⟩
  have hok : ∀ slot, solver.StepsUp slot → solver.LevelsOk slot (levels slot) := fun slot hslot =>
    ((hlevels slot).1 hslot).ok (hsolver.align_pos slot.var) hslot
  refine ⟨levels, ?_, fun slot => (hlevels slot).1, ?_, ?_⟩
  · intro slot
    by_cases hslot : solver.StepsUp slot
    · exact (hok slot hslot).sorted.imp fun hlt => ne_of_lt hlt
    · rw [(hlevels slot).2 hslot]
      exact nodup_nil
  · intro slot x hx
    by_cases hslot : solver.StepsUp slot
    · exact ⟨(hlevels slot).1 hslot, hok slot hslot⟩
    · rw [(hlevels slot).2 hslot] at hx
      exact absurd hx not_mem_nil
  · have hrun : ∀ slots pre, solver.slots = pre ++ slots →
        (∀ p ∈ pre, 0 < solver.maxValue p.var) → solver.Terminates levels slots := by
      intro slots
      induction slots with
      | nil => exact fun _ _ _ => trivial
      | cons slot rest ih =>
        intro pre hsplit hpre
        have hslot := hup pre slot rest hsplit hpre
        refine ⟨(hlevels slot).1 hslot, ?_⟩
        by_cases hempty : levels slot = []
        · exact .inl hempty
        · right
          refine ih (pre ++ [slot]) (by simpa using hsplit) ?_
          intro p hp
          rcases mem_append.mp hp with hp | hp
          · exact hpre p hp
          · rw [mem_singleton.mp hp]
            exact (hok slot hslot).max_pos hempty
    exact hrun _ [] rfl (by simp)

theorem exists_size (levels : PgoSlot n → List ℤ) (slots : List (PgoSlot n)) :
    ∃ size, ∀ slot ∈ slots, (levels slot).length < size := by
  induction slots with
  | nil => exact ⟨0, by simp⟩
  | cons slot rest ih =>
    rcases ih with ⟨size, hsize⟩
    refine ⟨max ((levels slot).length + 1) size, ?_⟩
    intro p hp
    rcases mem_cons.mp hp with rfl | hp
    · exact lt_max_of_lt_left (Nat.lt_succ_self _)
    · exact lt_max_of_lt_right (hsize p hp)

/-- One vector is returned for each assignment of the listed values that passes the checks. -/
theorem generateAllTilingData_spec (hsolver : solver.WellFormed) (hlevels : LevelsOf solver levels)
    (st : Values n) :
    ∃ ans, (∃ size, ∀ fuel, size ≤ fuel → solver.generateAllTilingData fuel st = some ans) ∧
      Appends solver.Stores (fun a => (∀ slot ∈ solver.slots, a slot.var ∈ levels slot) ∧
        solver.Passes a solver.slots) [] ans := by
  rcases exists_size levels solver.slots with ⟨size, hsize⟩
  have hknown : solver.Known st [] { values := st, ansItem := replicate solver.slots.length 0 } :=
    ⟨length_replicate, by simp, by simp⟩
  have hspec := runSlots_spec hsolver hlevels.nodup (nil_append solver.slots).symm hknown
  have hvars : (solver.slots.map (·.var)).Nodup := by
    rw [slots_vars]
    exact hsolver.nodup
  refine ⟨_, ⟨size, ?_⟩, hspec.2.congr ?_⟩
  · intro fuel hfuel
    rw [generateAllTilingData, generateAllTilingDataInner_eq hvars hlevels.terminates
      fun slot hslot => lt_of_lt_of_le (hsize slot hslot) hfuel]
    rfl
  · intro a
    constructor
    · exact fun h => ⟨h.levels, h.passes⟩
    · rintro ⟨hvalues, hpasses⟩
      exact ⟨by simp, hvalues, hpasses⟩

/-! ## The condition is enough -/

theorem toUint32_of_lt {v : ℤ} (hnonneg : 0 ≤ v) (hlt : v < 2 ^ 32) : (toUint32 v : ℤ) = v := by
  rw [toUint32, Int.emod_eq_of_lt hnonneg hlt, Int.toNat_of_nonneg hnonneg]

theorem Stores.reads (h : solver.Stores a item) (hrange : ∀ v, 0 ≤ a v ∧ a v < 2 ^ 32) :
    solver.Reads item a := by
  refine ⟨h.1, ?_⟩
  intro slot hslot
  rw [h.2 slot hslot, Option.map_some]
  exact congrArg some (toUint32_of_lt (hrange slot.var).1 (hrange slot.var).2)

theorem Reads.eq (hsolver : solver.WellFormed) (ha : solver.Reads item a) (hb : solver.Reads item b) :
    a = b := by
  refine hsolver.ext ?_
  intro slot hslot
  exact Option.some.inj ((ha.2 slot hslot).symm.trans (hb.2 slot hslot))

theorem Passes.cores (h : solver.Passes a slots) : solver.satisfyMCCons a = true := by
  induction slots with
  | nil => exact h
  | cons slot rest ih => exact ih h.2

/-- The last variable of a kind is checked when all of them have their values. -/
theorem Passes.exists_last (h : solver.Passes a slots) {kind : PgoSlot n → Prop}
    (hkind : ∃ slot ∈ slots, kind slot) :
    ∃ slot rest, (slot :: rest) <:+ slots ∧ kind slot ∧ (∀ p ∈ rest, ¬ kind p) ∧
      solver.satisfySlotCons slot (solver.setAligns rest a) = true := by
  induction slots with
  | nil => simp at hkind
  | cons slot rest ih =>
    by_cases hrest : ∃ p ∈ rest, kind p
    · rcases ih h.2 hrest with ⟨last, later, hsuffix, hlast⟩
      exact ⟨last, later, hsuffix.trans (suffix_cons slot rest), hlast⟩
    · refine ⟨slot, rest, suffix_rfl, ?_, fun p hp hkind => hrest ⟨p, hp, hkind⟩, h.1⟩
      rcases hkind with ⟨p, hp, hkind⟩
      rcases mem_cons.mp hp with rfl | hp
      · exact hkind
      · exact absurd ⟨p, hp, hkind⟩ hrest

/-- The variables of a vector are in their ranges. -/
theorem LevelsOf.range (hsolver : solver.WellFormed) (hlevels : LevelsOf solver levels)
    (ha : ∀ slot ∈ solver.slots, a slot.var ∈ levels slot) (v : Fin n) :
    0 < solver.maxValue v ∧ solver.align v ≤ a v ∧ a v ≤ solver.maxValue v := by
  have hv := hsolver.mem v
  rw [← slots_vars] at hv
  rcases mem_map.mp hv with ⟨slot, hslot, rfl⟩
  have hmem := ha slot hslot
  have hok := (hlevels.ok slot _ hmem).2
  exact ⟨hok.max_pos (ne_nil_of_mem hmem), hok.range _ hmem⟩

theorem enumeratesLegal_of (hsolver : solver.WellFormed)
    (hup : ∀ pre slot rest, solver.slots = pre ++ slot :: rest →
      (∀ p ∈ pre, 0 < solver.maxValue p.var) → solver.StepsUp slot)
    (hfits : (∀ v, 0 < solver.maxValue v) → ∀ v, solver.maxValue v < 2 ^ 32)
    (hgrid : (∀ v, 0 < solver.maxValue v) → ∀ v ∈ solver.orderedLocalBufferVars, solver.OnGrid v)
    (hcons : ∀ a, (∀ v, 0 < solver.maxValue v ∧ solver.align v ≤ a v ∧ a v ≤ solver.maxValue v) →
      solver.Passes a solver.slots → ∀ type, solver.satisfyCons type a = true) :
    solver.EnumeratesLegal := by
  intro st
  rcases exists_levelsOf hsolver hup with ⟨levels, hlevels⟩
  rcases generateAllTilingData_spec hsolver hlevels st with ⟨ans, hrun, happends⟩
  have hstored : ∀ a, (∀ slot ∈ solver.slots, a slot.var ∈ levels slot) → ∀ item,
      solver.Stores a item → solver.Reads item a := by
    intro a ha item hitem
    have hrange := hlevels.range hsolver ha
    refine hitem.reads ?_
    intro v
    have hlt := hfits (fun v => (hrange v).1) v
    have hpos := hsolver.align_pos v
    have hv := hrange v
    omega
  refine ⟨ans, hrun, ?_, happends.nodup ?_⟩
  · intro item hitem
    rcases happends.mem hitem with ⟨a, ⟨ha, hpasses⟩, hstores⟩
    have hrange := hlevels.range hsolver ha
    refine ⟨a, hstored a ha item hstores, ?_, fun v _ => (hrange v).2, hcons a hrange hpasses,
      hpasses.cores⟩
    intro v hv
    rcases exists_local_slot hv with ⟨slot, hslot, rfl, hlocal⟩
    have hmem := ha slot hslot
    exact (hlevels.ok slot _ hmem).1.dvd hlocal (hgrid (fun v => (hrange v).1) _ hv) _ hmem
  · intro a b item ha hb hstores hstores'
    exact Reads.eq hsolver (hstored a ha.1 item hstores) (hstored b hb.1 item hstores')

variable {constraints : List (ListedConstraint n)} {cores : Values n → ℤ} {coreNum : ℤ}
  {type : ConstraintType} {st : Values n}

theorem satisfyVarCons_withConstraints {v : Fin n} :
    (solver.withConstraints constraints cores coreNum).satisfyVarCons v type st = true ↔
      ∀ c ∈ constraints, v ∈ c.listedBy → c.type = type → c.eval st c.relHwSpec ≤ 0 := by
  simp only [satisfyVarCons, withConstraints, all_map, all_filter, all_eq_true,
    comp_apply, Bool.or_eq_true, Bool.not_eq_true', decide_eq_true_eq, ← Bool.not_eq_true,
    contains_iff_mem, ← imp_iff_not_or, ne_eq]

/-- A local buffer variable looks at the constraints of two types, a multicore one at the third. -/
theorem satisfySlotCons_withConstraints :
    (solver.withConstraints constraints cores coreNum).satisfySlotCons slot st = true ↔
      ∀ c ∈ constraints, slot.var ∈ c.listedBy →
        (c.type = .MC_MIXED ↔ slot.fromLocalBufferVars = false) → c.eval st c.relHwSpec ≤ 0 := by
  rw [satisfySlotCons]
  split
  next hlocal =>
    rw [Bool.and_eq_true, satisfyVarCons_withConstraints, satisfyVarCons_withConstraints]
    constructor
    · intro h c hc hlisted htype
      cases hkind : c.type with
      | LOCAL_BUFFER => exact h.2 c hc hlisted hkind
      | LB_MIXED => exact h.1 c hc hlisted hkind
      | MC_MIXED => exact absurd (htype.mp hkind) (by simp [hlocal])
    · intro h
      constructor
      · exact fun c hc hlisted htype => h c hc hlisted (by simp [htype, hlocal])
      · exact fun c hc hlisted htype => h c hc hlisted (by simp [htype, hlocal])
  next hmc =>
    rw [satisfyVarCons_withConstraints]
    have hfalse : slot.fromLocalBufferVars = false := Bool.eq_false_iff.mpr hmc
    simp only [hfalse, iff_true]

theorem satisfyCons_withConstraints :
    (solver.withConstraints constraints cores coreNum).satisfyCons type st = true ↔
      ∀ c ∈ constraints, c.type = type → c.eval st c.relHwSpec ≤ 0 := by
  simp only [satisfyCons, withConstraints, all_map, all_eq_true, comp_apply,
    Bool.or_eq_true, decide_eq_true_eq, ← imp_iff_not_or, ne_eq]

/-- A constraint that is looked at in time holds of the assignment. -/
theorem eval_of_checkedInTime {c : ListedConstraint n} (hc : c ∈ constraints)
    (hchecked : solver.CheckedInTime c.type c.listedBy)
    (hrange : ∀ v, solver.align v ≤ a v ∧ a v ≤ solver.maxValue v)
    (hpasses : (solver.withConstraints constraints cores coreNum).Passes a solver.slots) :
    c.eval a c.relHwSpec ≤ 0 := by
  -- the last variable of the right kind that lists the constraint
  have hexists : ∃ slot ∈ solver.slots, slot.var ∈ c.listedBy ∧
      (c.type = .MC_MIXED ↔ slot.fromLocalBufferVars = false) := by
    by_cases hmixed : c.type = .MC_MIXED
    · rw [CheckedInTime, if_pos hmixed] at hchecked
      rcases hchecked with ⟨v, hv, hlisted⟩
      rcases exists_mc_slot hv with ⟨slot, hslot, rfl, hmc⟩
      exact ⟨slot, hslot, hlisted, by simp [hmixed, hmc]⟩
    · rw [CheckedInTime, if_neg hmixed] at hchecked
      rcases hchecked.1 with ⟨v, hv, hlisted⟩
      rcases exists_local_slot hv with ⟨slot, hslot, rfl, hlocal⟩
      exact ⟨slot, hslot, hlisted, by simp [hmixed, hlocal]⟩
  rcases hpasses.exists_last hexists with ⟨slot, rest, hsuffix, ⟨hlisted, hkind⟩, hlast, hcheck⟩
  have heval := satisfySlotCons_withConstraints.mp hcheck c hc hlisted hkind
  rw [c.eval_congr a _ c.relHwSpec ?_]
  · exact heval
  intro v hv
  by_cases hrest : v ∈ rest.map (·.var)
  · rcases mem_map.mp hrest with ⟨p, hp, rfl⟩
    -- a later variable that the constraint reads is a multicore variable with one value
    have hp' : ¬ (c.type = .MC_MIXED ↔ p.fromLocalBufferVars = false) := fun h => hlast p hp ⟨hv, h⟩
    have hmixed : c.type ≠ .MC_MIXED := by
      intro hmixed
      have hpairwise := slots_mc_last.sublist hsuffix.sublist
      exact hp' (by simp [hmixed, (pairwise_cons.mp hpairwise).1 p hp (hkind.mp hmixed)])
    have hmc : p.fromLocalBufferVars = false := by
      by_contra hlocal
      exact hp' (by simp [hmixed, hlocal])
    rw [CheckedInTime, if_neg hmixed] at hchecked
    have hslots : p ∈ solver.slots := hsuffix.subset (mem_cons_of_mem _ hp)
    have hone := hchecked.2 p.var ((var_mem_of_slot hslots).2 hmc) hv
    rw [setAligns_of_mem hrest]
    have hbounds := hrange p.var
    exact le_antisymm (le_trans hbounds.2 hone) hbounds.1
  · rw [setAligns_of_notMem hrest]

theorem enumeratesLegal_withConstraints (hsolver : solver.WellFormed)
    (hok : solver.EnumerationOk (constraints.map (·.layout))) :
    (solver.withConstraints constraints cores coreNum).EnumeratesLegal := by
  have hsolver' : (solver.withConstraints constraints cores coreNum).WellFormed :=
    ⟨hsolver.align_pos, hsolver.nodup, hsolver.mem, hsolver.canonical_lt, hsolver.canonical_inj⟩
  refine enumeratesLegal_of hsolver' hok.stepsUp hok.fits hok.onGrid ?_
  intro a hrange hpasses type
  rw [satisfyCons_withConstraints]
  intro c hc _
  have hchecked := hok.checked (fun v => (hrange v).1) c.layout (mem_map_of_mem hc)
  exact eval_of_checkedInTime hc hchecked (fun v => (hrange v).2) hpasses

end Legal

/-! ## The condition is needed -/

section Stuck

variable {solver : PgoSolver n} {slot : PgoSlot n} {pre rest slots : List (PgoSlot n)} {u : Fin n}
  {inner : PgoState n → Option (PgoState n)} {x y : PgoLoop n} {s s' : PgoState n} {fuel : ℕ}

theorem pgoRound_spec (hinner : ∀ s s', inner s = some s' → s'.values u = s.values u)
    (hu : u ∉ rest.map (·.var)) (h : solver.pgoRound inner rest slot x = some y) :
    y.state.values u = update x.state.values slot.var
        (solver.cutValue slot (solver.nextValue slot (x.state.values slot.var) x.step)) u ∧
      y.varValue = solver.nextValue slot (x.state.values slot.var) x.step ∧
      (slot.fromLocalBufferVars = true → y.step = solver.nextStep slot x.step) := by
  rw [pgoRound] at h
  split at h
  next hskip =>
    obtain rfl := Option.some.inj h
    refine ⟨rfl, rfl, ?_⟩
    intro hlocal
    simp [hlocal] at hskip
  next =>
    dsimp only at h
    split at h
    · rcases Option.map_eq_some_iff.mp h with ⟨s', hs', rfl⟩
      exact ⟨(hinner _ _ hs').trans (setAligns_of_notMem hu), rfl, fun _ => rfl⟩
    · obtain rfl := Option.some.inj h
      exact ⟨setAligns_of_notMem hu, rfl, fun _ => rfl⟩

theorem pgoLoop_values (hinner : ∀ s s', inner s = some s' → s'.values u = s.values u)
    (hne : u ≠ slot.var) (hu : u ∉ rest.map (·.var))
    (h : solver.pgoLoop inner rest slot fuel x = some s) : s.values u = x.state.values u := by
  induction fuel generalizing x with
  | zero => cases h
  | succ fuel ih =>
    rw [pgoLoop] at h
    split at h
    · rcases Option.bind_eq_some_iff.mp h with ⟨y, hy, hloop⟩
      rw [ih hloop, (pgoRound_spec hinner hu hy).1, update_of_ne hne]
    · obtain rfl := Option.some.inj h
      rfl

/-- The values of the earlier variables stay, however the recursion ends. -/
theorem generateAllTilingDataInner_values (hu : u ∉ slots.map (·.var))
    (h : solver.generateAllTilingDataInner fuel slots s = some s') : s'.values u = s.values u := by
  induction slots generalizing s s' with
  | nil =>
    obtain rfl := Option.some.inj h
    rw [pgoLeaf]
    split <;> rfl
  | cons slot rest ih =>
    rw [map_cons, mem_cons, not_or] at hu
    rw [generateAllTilingDataInner] at h
    rw [pgoLoop_values (fun _ _ => ih hu.2) hu.1 hu.2 h]
    exact update_of_ne hu.1 _ _

/-- With a largest step that is not positive, a value never grows beyond the alignment. -/
theorem pgoLoop_eq_none (hinner : ∀ s s', inner s = some s' → s'.values slot.var = s.values slot.var)
    (hrest : slot.var ∉ rest.map (·.var)) (hlocal : slot.fromLocalBufferVars = true)
    (hstepMax : solver.stepMax ≤ 0) (hlt : solver.align slot.var < solver.maxValue slot.var)
    (hpos : 0 < solver.align slot.var) (hx : x.varValue < solver.maxValue slot.var)
    (hvalue : x.state.values slot.var = x.varValue)
    (hstep : (x.varValue = 0 ∧ x.step = solver.align slot.var) ∨ x.step ≤ solver.stepMax) :
    solver.pgoLoop inner rest slot fuel x = none := by
  induction fuel generalizing x with
  | zero => rfl
  | succ fuel ih =>
    rw [pgoLoop, if_pos hx, Option.bind_eq_none_iff]
    intro y hy
    have hround := pgoRound_spec hinner hrest hy
    rw [update_self, hvalue] at hround
    have hnext : solver.nextValue slot x.varValue x.step < solver.maxValue slot.var := by
      rcases hstep with ⟨hzero, hstep⟩ | hstep
      · rw [hzero, hstep, nextValue_zero]
        exact hlt
      · rw [nextValue]
        split <;> omega
    refine ih (hround.2.1.symm ▸ hnext) ?_ (.inr ?_)
    · rw [hround.1, hround.2.1, cutValue_of_lt hnext]
    · rw [hround.2.2 hlocal, nextStep, if_pos hlocal]
      exact min_le_left _ _

/-- A recursion that never ends for the later variables does not end for an earlier one, when nothing
keeps it from being reached. -/
theorem generateAllTilingDataInner_eq_none (hcheck : ∀ p st, solver.satisfySlotCons p st = true)
    (hpre : ∀ p ∈ pre, 0 < solver.maxValue p.var)
    (hnone : ∀ s, solver.generateAllTilingDataInner fuel slots s = none) :
    solver.generateAllTilingDataInner fuel (pre ++ slots) s = none := by
  induction pre generalizing s with
  | nil => exact hnone s
  | cons slot pre ih =>
    have hinner := fun s => @ih s fun p hp => hpre p (mem_cons_of_mem _ hp)
    have hmax := hpre slot mem_cons_self
    rw [cons_append, generateAllTilingDataInner]
    cases fuel with
    | zero => rfl
    | succ fuel =>
      have hkeeps : (!slot.fromLocalBufferVars && decide (solver.maxValue slot.var <
          solver.nextValue slot 0 (solver.align slot.var))) = false := by
        rw [nextValue_zero, decide_eq_false (not_lt.mpr (align_le_maxValue hmax)), Bool.and_false]
      rw [pgoLoop, if_pos hmax, Option.bind_eq_none_iff]
      intro y hy
      rw [pgoRound] at hy
      simp only [update_self, hkeeps, Bool.false_eq_true, if_false, hcheck, if_true, hinner,
        Option.map_none, reduceCtorEq] at hy

theorem stepsUp_of_legal (hsolver : solver.WellFormed)
    (hcheck : ∀ p st, solver.satisfySlotCons p st = true) (hlegal : solver.EnumeratesLegal)
    (hsplit : solver.slots = pre ++ slot :: rest) (hpre : ∀ p ∈ pre, 0 < solver.maxValue p.var) :
    solver.StepsUp slot := by
  intro hlocal
  by_contra hnot
  rw [not_or, not_lt, not_le] at hnot
  rcases hlegal (fun _ => 0) with ⟨ans, ⟨size, hrun⟩, -⟩
  have hsome := hrun size le_rfl
  have hslot := hsolver.split hsplit
  have hpos := hsolver.align_pos slot.var
  have hnone : ∀ s, solver.generateAllTilingDataInner size (slot :: rest) s = none := fun s =>
    pgoLoop_eq_none (fun _ _ => generateAllTilingDataInner_values hslot.var_notMem) hslot.var_notMem
      hlocal hnot.1 hnot.2 hpos (lt_trans hpos hnot.2) (update_self ..) (.inl ⟨rfl, rfl⟩)
  rw [generateAllTilingData, hsplit, generateAllTilingDataInner_eq_none hcheck hpre hnone] at hsome
  cases hsome

end Stuck

section Needed

variable {solver : PgoSolver n} {slot : PgoSlot n} {slots : List (PgoSlot n)} {a : Values n} {v : Fin n}

theorem passes_of_splits (hcheck : ∀ pre slot rest, slots = pre ++ slot :: rest →
    solver.satisfySlotCons slot (solver.setAligns rest a) = true)
    (hcores : solver.satisfyMCCons a = true) : solver.Passes a slots := by
  induction slots with
  | nil => exact hcores
  | cons slot rest ih =>
    refine ⟨hcheck [] slot rest rfl, ih ?_⟩
    intro pre p later hsplit
    exact hcheck (slot :: pre) p later (by rw [hsplit, cons_append])

theorem Levels.unique {value step : ℤ} {l l' : List ℤ} (hl : solver.Levels slot value step l)
    (hl' : solver.Levels slot value step l') : l = l' := by
  induction hl generalizing l' with
  | stop h =>
    cases hl' with
    | stop => rfl
    | next hlt => exact absurd hlt (not_lt.mpr h)
  | next hlt _ _ ih =>
    cases hl' with
    | stop h => exact absurd hlt (not_lt.mpr h)
    | next _ _ h => rw [ih h]

/-- The values of an assignment are among those that the loops give to the variables. -/
def AmongLevels (solver : PgoSolver n) (a : Values n) : Prop :=
  ∀ slot ∈ solver.slots, ∃ l, solver.Levels slot 0 (solver.align slot.var) l ∧ a slot.var ∈ l

section

variable (hsolver : solver.WellFormed)
include hsolver

/-- When all is legal, so is the vector of an assignment that passes the checks. -/
theorem exists_legalValues
    (hup : ∀ slot ∈ solver.slots, solver.StepsUp slot) (hlegal : solver.EnumeratesLegal)
    (ha : AmongLevels solver a) (hpasses : solver.Passes a solver.slots) :
    ∃ b, solver.LegalValues b ∧ ∀ v, b v = toUint32 (a v) := by
  have hsplits : ∀ pre slot rest, solver.slots = pre ++ slot :: rest →
      (∀ p ∈ pre, 0 < solver.maxValue p.var) → solver.StepsUp slot := fun pre slot rest hsplit _ =>
    hup slot (hsplit ▸ mem_append_right _ mem_cons_self)
  rcases exists_levelsOf hsolver hsplits with ⟨levels, hlevels⟩
  rcases generateAllTilingData_spec hsolver hlevels (fun _ => 0) with ⟨ans, ⟨size, hrun⟩, happends⟩
  rcases hlegal (fun _ => 0) with ⟨ans', ⟨size', hrun'⟩, hall, -⟩
  have heq : ans = ans' := by
    have hsome := hrun (max size size') (le_max_left _ _)
    rw [hrun' _ (le_max_right _ _)] at hsome
    exact (Option.some.inj hsome).symm
  have hvalues : ∀ slot ∈ solver.slots, a slot.var ∈ levels slot := by
    intro slot hslot
    rcases ha slot hslot with ⟨l, hl, hmem⟩
    rwa [hl.unique (hlevels.listed slot (hup slot hslot))] at hmem
  rcases happends.exists_entry ⟨hvalues, hpasses⟩ with ⟨item, hitem, hstores⟩
  rcases hall item (heq ▸ hitem) with ⟨b, hreads, hb⟩
  refine ⟨b, hb, ?_⟩
  intro v
  have hv := hsolver.mem v
  rw [← slots_vars] at hv
  rcases mem_map.mp hv with ⟨slot, hslot, rfl⟩
  have hread := hreads.2 slot hslot
  rw [hstores.2 slot hslot] at hread
  exact (Option.some.inj hread).symm

theorem amongLevels_maxValue (hup : ∀ slot ∈ solver.slots, solver.StepsUp slot)
    (hmax : ∀ v, 0 < solver.maxValue v) : AmongLevels solver solver.maxValue := by
  intro slot hslot
  rcases exists_levels (hsolver.align_pos slot.var) (hup slot hslot) with ⟨l, hl⟩
  exact ⟨l, hl, hl.maxValue_mem (hmax slot.var)⟩

/-- The largest assignment alone may satisfy the limit on the cores. -/
theorem fits_of_legal (hup : ∀ slot ∈ solver.slots, solver.StepsUp slot)
    (hmax : ∀ v, 0 < solver.maxValue v) (hcheck : ∀ p st, solver.satisfySlotCons p st = true)
    (hcores : ∀ st, solver.satisfyMCCons st = true ↔ st v = solver.maxValue v)
    (hlegal : solver.EnumeratesLegal) : solver.maxValue v < 2 ^ 32 := by
  rcases exists_legalValues hsolver hup hlegal (amongLevels_maxValue hsolver hup hmax)
    (passes_of_splits (fun _ _ _ _ => hcheck _ _) ((hcores _).mpr rfl)) with ⟨b, hb, hvalues⟩
  have heq := (hcores b).mp hb.cores
  rw [hvalues v, toUint32, Int.toNat_of_nonneg (Int.emod_nonneg _ (by decide))] at heq
  rw [← heq]
  exact Int.emod_lt_of_pos _ (by decide)

theorem onGrid_of_legal (hup : ∀ slot ∈ solver.slots, solver.StepsUp slot)
    (hmax : ∀ v, 0 < solver.maxValue v) (hcheck : ∀ p st, solver.satisfySlotCons p st = true)
    (hcores : ∀ st, solver.satisfyMCCons st = true) (hfits : solver.maxValue v < 2 ^ 32)
    (hlegal : solver.EnumeratesLegal) (hv : v ∈ solver.orderedLocalBufferVars) :
    solver.OnGrid v := by
  by_contra hgrid
  rcases exists_local_slot hv with ⟨slot, hslot, rfl, hlocal⟩
  have halign := hsolver.align_pos slot.var
  have hpos : 0 < solver.stepMax := by
    refine (hup slot hslot hlocal).resolve_right ?_
    intro hle
    exact hgrid (.inr (le_max_of_le_left hle))
  rcases exists_levels halign (hup slot hslot) with ⟨l, hl⟩
  rcases hl.exists_not_dvd halign hlocal hpos hgrid with ⟨x, hx, hdvd⟩
  -- the other variables are at their upper bounds
  have hamong : AmongLevels solver (update solver.maxValue slot.var x) := by
    intro p hp
    by_cases hvar : p.var = slot.var
    · obtain rfl := hsolver.slot_eq hp hslot hvar
      exact ⟨l, hl, by rwa [update_self]⟩
    · rw [update_of_ne hvar]
      exact amongLevels_maxValue hsolver hup hmax p hp
  rcases exists_legalValues hsolver hup hlegal hamong
    (passes_of_splits (fun _ _ _ _ => hcheck _ _) (hcores _)) with ⟨b, hb, hvalues⟩
  have hrange := (hl.ok halign (hup slot hslot)).range x hx
  have hmultiple := hb.multiple slot.var hv
  rw [hvalues, update_self, toUint32_of_lt (by omega) (by omega)] at hmultiple
  exact hdvd hmultiple

end

end Needed

/-! ## Constraints with one formula that matters -/

/-- A formula over some of the variables. -/
structure Formula (n : ℕ) where
  layout : ConstraintType × List (Fin n)
  eval : Values n → ℤ
  eval_congr : ∀ st st', (∀ v ∈ layout.2, st v = st' v) → eval st = eval st'

/-- The constraint of a layout: the formula on its own layout, and nothing on the others. -/
def Formula.constraint (f : Formula n) (layout : ConstraintType × List (Fin n)) :
    ListedConstraint n where
  type := layout.1
  relHwSpec := 0
  eval := fun st _ => if layout = f.layout then f.eval st else 0
  listedBy := layout.2
  eval_congr := by
    intro st st' _ h
    split
    next heq =>
      rw [heq] at h
      exact f.eval_congr st st' h
    next => rfl

/-- No constraint at all. -/
def Formula.free (n : ℕ) : Formula n := ⟨(.LOCAL_BUFFER, []), fun _ => 0, fun _ _ _ => rfl⟩

section Layouts

variable {solver : PgoSolver n} {f : Formula n} {layouts : List (ConstraintType × List (Fin n))}
  {cores : Values n → ℤ} {coreNum : ℤ}

theorem Formula.map_layout : (layouts.map f.constraint).map (·.layout) = layouts := by
  rw [map_map]
  exact map_id _

theorem Formula.satisfySlotCons_free (p : PgoSlot n) (st : Values n) :
    (solver.withConstraints (layouts.map (Formula.free n).constraint) cores coreNum).satisfySlotCons
      p st = true := by
  rw [satisfySlotCons_withConstraints]
  intro c hc _ _
  rcases mem_map.mp hc with ⟨layout, _, rfl⟩
  exact le_of_eq (ite_self _)

/-- A formula that is positive at the upper bounds is looked at there or before. -/
theorem checked_of_legal (hsolver : solver.WellFormed)
    (hup : ∀ slot ∈ solver.slots, solver.StepsUp slot) (hmax : ∀ v, 0 < solver.maxValue v)
    (hfits : ∀ v, solver.maxValue v < 2 ^ 32) (hlayout : f.layout ∈ layouts)
    (hlegal : (solver.withConstraints (layouts.map f.constraint) (fun _ => 0) 0).EnumeratesLegal)
    (hcheck : ∀ pre slot rest, solver.slots = pre ++ slot :: rest → slot.var ∈ f.layout.2 →
      (f.layout.1 = .MC_MIXED ↔ slot.fromLocalBufferVars = false) →
      f.eval (solver.setAligns rest solver.maxValue) ≤ 0) :
    f.eval solver.maxValue ≤ 0 := by
  have hsolver' : (solver.withConstraints (layouts.map f.constraint) (fun _ => 0) 0).WellFormed :=
    ⟨hsolver.align_pos, hsolver.nodup, hsolver.mem, hsolver.canonical_lt, hsolver.canonical_inj⟩
  have hpasses : (solver.withConstraints (layouts.map f.constraint) (fun _ => 0) 0).Passes
      solver.maxValue solver.slots := by
    refine passes_of_splits ?_ (by rfl)
    intro pre slot rest hsplit
    rw [satisfySlotCons_withConstraints]
    intro c hc hlisted hkind
    rcases mem_map.mp hc with ⟨layout, _, rfl⟩
    simp only [Formula.constraint] at hlisted hkind ⊢
    split
    next heq =>
      rw [heq] at hlisted hkind
      exact hcheck pre slot rest hsplit hlisted hkind
    next => exact le_rfl
  rcases exists_legalValues hsolver' hup hlegal (amongLevels_maxValue hsolver' hup hmax) hpasses with
    ⟨b, hb, hvalues⟩
  have heq : b = solver.maxValue := by
    funext v
    rw [hvalues v]
    exact toUint32_of_lt (le_of_lt (hmax v)) (hfits v)
  have hcons := satisfyCons_withConstraints.mp (hb.cons f.layout.1) (f.constraint f.layout)
    (mem_map_of_mem hlayout) rfl
  simp only [Formula.constraint, if_true] at hcons
  rwa [heq] at hcons

theorem checkedInTime_of_legal (hsolver : solver.WellFormed)
    (hup : ∀ slot ∈ solver.slots, solver.StepsUp slot) (hmax : ∀ v, 0 < solver.maxValue v)
    (hfits : ∀ v, solver.maxValue v < 2 ^ 32) {layout : ConstraintType × List (Fin n)}
    (hlayout : layout ∈ layouts)
    (hlegal : ∀ f : Formula n,
      (solver.withConstraints (layouts.map f.constraint) (fun _ => 0) 0).EnumeratesLegal) :
    solver.CheckedInTime layout.1 layout.2 := by
  -- a formula that nobody looks at
  have hlisted : ∃ slot ∈ solver.slots, slot.var ∈ layout.2 ∧
      (layout.1 = .MC_MIXED ↔ slot.fromLocalBufferVars = false) := by
    by_contra hnone
    have hle := checked_of_legal (f := ⟨layout, fun _ => 1, fun _ _ _ => rfl⟩) hsolver hup hmax hfits
      hlayout (hlegal _) fun pre slot rest hsplit hlisted hkind => absurd
        ⟨slot, hsplit ▸ mem_append_right _ mem_cons_self, hlisted, hkind⟩ hnone
    exact not_le.mpr Int.one_pos hle
  rcases hlisted with ⟨slot, hslot, hlisted, hkind⟩
  rw [CheckedInTime]
  split
  next hmixed => exact ⟨slot.var, (var_mem_of_slot hslot).2 (hkind.mp hmixed), hlisted⟩
  next hmixed =>
    have hlocal : slot.fromLocalBufferVars = true := by
      by_contra hmc
      exact hmixed (hkind.mpr (Bool.eq_false_iff.mpr hmc))
    refine ⟨⟨slot.var, (var_mem_of_slot hslot).1 hlocal, hlisted⟩, ?_⟩
    intro w hw hwlisted
    -- a formula that grows with a multicore variable, which is at its alignment in the checks
    have hle := checked_of_legal (f := ⟨layout, fun st => st w - solver.align w,
      fun _ _ h => by rw [h w hwlisted]⟩) hsolver hup hmax hfits hlayout (hlegal _) ?_
    · dsimp only at hle
      omega
    intro pre p rest hsplit _ hpkind
    have hplocal : p.fromLocalBufferVars ≠ false := fun h => hmixed (hpkind.mpr h)
    rcases exists_mc_slot hw with ⟨q, hq, rfl, hmc⟩
    have hrest : q ∈ rest := by
      have hpairwise := @slots_mc_last n solver
      rw [hsplit] at hq hpairwise
      rcases mem_append.mp hq with hpre | hq
      · exact absurd ((pairwise_append.mp hpairwise).2.2 q hpre p mem_cons_self hmc) hplocal
      · rcases mem_cons.mp hq with rfl | hq
        · exact absurd hmc hplocal
        · exact hq
    dsimp only
    rw [setAligns_of_mem (mem_map_of_mem hrest)]
    omega

end Layouts

/-- The enumeration is finite, legal and without repetition, whatever the formulas of the constraints
are, exactly when its loops end, the values fit and are multiples, and no constraint is looked at too
early or never. -/
theorem generateAllTilingData_legal_iff {solver : PgoSolver n} (hsolver : solver.WellFormed)
    (layouts : List (ConstraintType × List (Fin n))) :
    (∀ constraints : List (ListedConstraint n), constraints.map (·.layout) = layouts →
      ∀ cores coreNum, (solver.withConstraints constraints cores coreNum).EnumeratesLegal) ↔
      solver.EnumerationOk layouts := by
  constructor
  · intro h
    have hlegal := fun (f : Formula n) => h (layouts.map f.constraint) Formula.map_layout
    have hsolver' : ∀ cores coreNum, (solver.withConstraints
        (layouts.map (Formula.free n).constraint) cores coreNum).WellFormed := fun _ _ =>
      ⟨hsolver.align_pos, hsolver.nodup, hsolver.mem, hsolver.canonical_lt, hsolver.canonical_inj⟩
    have hsteps : ∀ pre slot rest, solver.slots = pre ++ slot :: rest →
        (∀ p ∈ pre, 0 < solver.maxValue p.var) → solver.StepsUp slot := by
      intro pre slot rest hsplit hpre
      have hslot := stepsUp_of_legal (hsolver' (fun _ => 0) 0) Formula.satisfySlotCons_free
        (hlegal _ _ _) hsplit hpre
      exact hslot
    have hup : (∀ v, 0 < solver.maxValue v) → ∀ slot ∈ solver.slots, solver.StepsUp slot := by
      intro hmax slot hslot
      rcases append_of_mem hslot with ⟨pre, rest, hsplit⟩
      exact hsteps pre slot rest hsplit fun p _ => hmax p.var
    have hfits : (∀ v, 0 < solver.maxValue v) → ∀ v, solver.maxValue v < 2 ^ 32 := by
      intro hmax v
      have hcores : ∀ st, (solver.withConstraints (layouts.map (Formula.free n).constraint)
          (fun st => if st v = solver.maxValue v then 0 else 1) 0).satisfyMCCons st = true ↔
            st v = solver.maxValue v := by
        intro st
        rw [MulticoreSolver.satisfyMCCons, decide_eq_true_eq]
        by_cases heq : st v = solver.maxValue v
        · simp [withConstraints, heq]
        · simp [withConstraints, heq]
      have hv := fits_of_legal (hsolver' _ _) (hup hmax) hmax Formula.satisfySlotCons_free hcores
        (hlegal _ _ _)
      exact hv
    refine ⟨hsteps, hfits, ?_, ?_⟩
    · intro hmax v hv
      have hgrid := onGrid_of_legal (hsolver' (fun _ => 0) 0) (hup hmax) hmax
        Formula.satisfySlotCons_free (fun _ => rfl) (hfits hmax v) (hlegal _ _ _) hv
      exact hgrid
    · intro hmax layout hlayout
      exact checkedInTime_of_legal hsolver (hup hmax) hmax (hfits hmax) hlayout fun f => hlegal f _ _
  · rintro hok constraints rfl cores coreNum
    exact enumeratesLegal_withConstraints hsolver hok

/-- One local buffer variable with the alignment 32. The largest step is 16. -/
def halfStep : PgoSolver 1 where
  allCons := []
  relCons := fun _ => []
  satisfyUBSizeCacheLine := fun _ _ => true
  ubThresholdSpec := fun spec => spec
  pureMcVars := []
  align := fun _ => 32
  coreNum := 1
  calRealUsedCoreNum := fun _ => 1
  getPerf := fun _ => 0
  orderedLocalBufferVars := [⟨0, Nat.zero_lt_one⟩]
  upperBound := fun _ => 128
  orderedToCanonical := fun i => i
  pgoStepMax := 16

theorem halfStep_wellFormed : halfStep.WellFormed where
  align_pos _ := show (0 : ℤ) < 32 by decide
  nodup := nodup_singleton _
  mem v := mem_singleton.mpr (Subsingleton.elim v _)
  canonical_lt _ hi := hi
  canonical_inj _ _ _ _ h := h

theorem generateAllTilingData_legal_iff_halfStep :
    (∀ constraints : List (ListedConstraint 1),
      constraints.map (·.layout) = [(.LOCAL_BUFFER, [⟨0, Nat.zero_lt_one⟩])] → ∀ cores coreNum,
        (halfStep.withConstraints constraints cores coreNum).EnumeratesLegal) ↔
      halfStep.EnumerationOk [(.LOCAL_BUFFER, [⟨0, Nat.zero_lt_one⟩])] :=
  generateAllTilingData_legal_iff halfStep_wellFormed [(.LOCAL_BUFFER, [⟨0, Nat.zero_lt_one⟩])]

/-- The second value is 48. -/
theorem not_enumeratesLegal_halfStep : halfStep.WellFormed ∧ ¬ halfStep.EnumeratesLegal := by
  refine ⟨halfStep_wellFormed, ?_⟩
  intro hlegal
  have hup : ∀ slot ∈ halfStep.slots, halfStep.StepsUp slot := fun _ _ _ => .inl (by decide)
  have hmax : ∀ v, 0 < halfStep.maxValue v := fun _ => show (0 : ℤ) < ceilDiv 128 32 * 32 by decide
  have hcheck : ∀ p st, halfStep.satisfySlotCons p st = true := by
    intro p st
    rw [satisfySlotCons]
    split
    · rfl
    · rfl
  have hgrid := onGrid_of_legal halfStep_wellFormed hup hmax hcheck (fun _ => rfl) (by decide) hlegal
    (mem_singleton.mpr rfl)
  rcases hgrid with hdvd | hle
  · exact absurd hdvd (show ¬ (32 : ℤ) ∣ 16 by decide)
  · exact absurd hle (show ¬ ceilDiv 128 32 * 32 ≤ max (32 : ℤ) 16 by decide)

end GraphAutofusion.Autofuse.PgoSolver
