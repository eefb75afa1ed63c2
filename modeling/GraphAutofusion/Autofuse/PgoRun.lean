import GraphAutofusion.Autofuse.PgoEnumeration
import GraphAutofusion.Lib.Enumeration

/-!
# Autofuse.PgoRun — what the enumeration of the tilings returns

When each loop has its list of values, the recursion is a fold over them. It returns one vector for
each assignment of those values that passes the checks on the way.
-/

namespace GraphAutofusion.Autofuse.PgoSolver

open Lib AxesReorderSolver Function List

variable {n : ℕ} (solver : PgoSolver n)

/-! ## The loops as folds over the values -/

/-- One value of a variable. `inner` is what happens for the later variables. -/
def visit (inner : PgoState n → PgoState n) (rest : List (PgoSlot n)) (slot : PgoSlot n)
    (s : PgoState n) (value : ℤ) : PgoState n :=
  let st := solver.setAligns rest (update s.values slot.var value)
  if solver.satisfySlotCons slot st then
    inner { s with values := st, ansItem := s.ansItem.set slot.place (toUint32 (st slot.var)) }
  else { s with values := st }

def runSlots (levels : PgoSlot n → List ℤ) : List (PgoSlot n) → PgoState n → PgoState n
  | [], s => solver.pgoLeaf s
  | slot :: rest, s =>
    (levels slot).foldl (solver.visit (runSlots levels rest) rest slot)
      { s with values := update s.values slot.var 0 }

/-- Each variable that is reached has a list of values. -/
def Terminates (levels : PgoSlot n → List ℤ) : List (PgoSlot n) → Prop
  | [] => True
  | slot :: rest => solver.Levels slot 0 (solver.align slot.var) (levels slot) ∧
      (levels slot = [] ∨ Terminates levels rest)

section Run

variable {solver : PgoSolver n} {inner : PgoState n → Option (PgoState n)}
  {innerRun : PgoState n → PgoState n} {rest slots : List (PgoSlot n)} {slot : PgoSlot n}
  {s s' : PgoState n} {st : Values n} {value step : ℤ} {u : Fin n} {levels : PgoSlot n → List ℤ}
  {fuel : ℕ}

theorem setAligns_of_mem (h : u ∈ rest.map (·.var)) : solver.setAligns rest st u = solver.align u := by
  induction rest generalizing st with
  | nil => simp at h
  | cons slot rest ih =>
    rw [setAligns, foldl_cons]
    by_cases hu : u ∈ rest.map (·.var)
    · exact ih hu
    rw [map_cons, mem_cons, or_iff_left hu] at h
    have hkeep : ∀ st : Values n, rest.foldl
        (fun st slot => update st slot.var (solver.align slot.var)) st u = st u := by
      clear ih
      induction rest with
      | nil => exact fun _ => rfl
      | cons slot' rest ih =>
        intro st
        rw [map_cons, mem_cons, not_or] at hu
        rw [foldl_cons, ih hu.2, update_of_ne hu.1]
    rw [hkeep, h, update_self]

theorem setAligns_of_notMem (h : u ∉ rest.map (·.var)) : solver.setAligns rest st u = st u := by
  induction rest generalizing st with
  | nil => rfl
  | cons slot rest ih =>
    rw [map_cons, mem_cons, not_or] at h
    rw [setAligns, foldl_cons]
    exact (ih h.2).trans (update_of_ne h.1 _ _)

theorem visit_values (hinner : ∀ s, (innerRun s).values u = s.values u)
    (hu : u ∉ rest.map (·.var)) :
    (solver.visit innerRun rest slot s value).values u =
      update s.values slot.var value u := by
  rw [visit]
  split
  · exact (hinner _).trans (setAligns_of_notMem hu)
  · exact setAligns_of_notMem hu

/-- The values of the earlier variables stay. -/
theorem runSlots_values (hu : u ∉ slots.map (·.var)) :
    (solver.runSlots levels slots s).values u = s.values u := by
  induction slots generalizing s with
  | nil =>
    rw [runSlots, pgoLeaf]
    split <;> rfl
  | cons slot rest ih =>
    rw [map_cons, mem_cons, not_or] at hu
    have hfold : ∀ (l : List ℤ) (s : PgoState n),
        (l.foldl (solver.visit (solver.runSlots levels rest) rest slot) s).values u =
          s.values u := by
      intro l
      induction l with
      | nil => exact fun _ => rfl
      | cons value l ihl =>
        intro s
        rw [foldl_cons, ihl, visit_values (fun _ => ih hu.2) hu.2,
          update_of_ne hu.1]
    rw [runSlots, hfold]
    exact update_of_ne hu.1 _ _

theorem pgoRound_eq (hinner : ∀ s, inner s = some (innerRun s))
    (hin : slot.fromLocalBufferVars = true ∨
      solver.nextValue slot value step ≤ solver.maxValue slot.var) (hs : s.values slot.var = value) :
    solver.pgoRound inner rest slot { varValue := value, step := step, state := s } =
      some { varValue := solver.nextValue slot value step
             step := solver.nextStep slot step
             state := solver.visit innerRun rest slot s
              (solver.cutValue slot (solver.nextValue slot value step)) } := by
  have hkeeps : (!slot.fromLocalBufferVars &&
      decide (solver.maxValue slot.var < solver.nextValue slot value step)) = false := by
    rcases hin with hlocal | hle
    · simp [hlocal]
    · simp [hle]
  simp only [pgoRound, hs, hkeeps, Bool.false_eq_true, if_false, visit]
  split
  · rw [hinner]
    rfl
  · rfl

/-- A loop goes through the values of its variable. -/
theorem pgoLoop_eq (hinner : ∀ s, inner s = some (innerRun s))
    (hkeep : ∀ s, (innerRun s).values slot.var = s.values slot.var)
    (hrest : slot.var ∉ rest.map (·.var)) {l : List ℤ} (hl : solver.Levels slot value step l)
    (hfuel : l.length < fuel) (hs : value < solver.maxValue slot.var → s.values slot.var = value) :
    solver.pgoLoop inner rest slot fuel { varValue := value, step := step, state := s } =
      some (l.foldl (solver.visit innerRun rest slot) s) := by
  induction hl generalizing fuel s with
  | stop h =>
    obtain ⟨fuel, rfl⟩ := Nat.exists_eq_succ_of_ne_zero (Nat.ne_zero_of_lt hfuel)
    rw [pgoLoop, if_neg (not_lt.mpr h)]
    rfl
  | next hlt hin _ ih =>
    obtain ⟨fuel, rfl⟩ := Nat.exists_eq_succ_of_ne_zero (Nat.ne_zero_of_lt hfuel)
    rw [pgoLoop, if_pos hlt, pgoRound_eq hinner hin (hs hlt), Option.bind_some, foldl_cons]
    refine ih (Nat.lt_of_succ_lt_succ hfuel) ?_
    intro hnext
    rw [visit_values hkeep hrest, update_self, cutValue_of_lt hnext]

theorem generateAllTilingDataInner_eq (hnodup : (slots.map (·.var)).Nodup)
    (hterm : solver.Terminates levels slots) (hfuel : ∀ slot ∈ slots, (levels slot).length < fuel) :
    solver.generateAllTilingDataInner fuel slots s = some (solver.runSlots levels slots s) := by
  induction slots generalizing s with
  | nil => rfl
  | cons slot rest ih =>
    rw [map_cons, nodup_cons] at hnodup
    have hlength := hfuel slot mem_cons_self
    rw [generateAllTilingDataInner, runSlots]
    rcases hterm with ⟨hlevels, hempty | hterm⟩
    · -- the later variables are not reached
      rw [hempty] at hlevels hlength ⊢
      obtain ⟨fuel, rfl⟩ := Nat.exists_eq_succ_of_ne_zero (Nat.ne_zero_of_lt hlength)
      cases hlevels with
      | stop h =>
        rw [pgoLoop, if_neg (not_lt.mpr h)]
        rfl
    · exact pgoLoop_eq
        (fun s => ih hnodup.2 hterm fun slot hslot => hfuel slot (mem_cons_of_mem _ hslot))
        (fun s => runSlots_values hnodup.1) hnodup.1 hlevels hlength
        (fun _ => update_self ..)

end Run

/-! ## What is enumerated -/

/-- The alignments are positive, each variable stands in one of the two lists, and the places of the
local buffer variables are a permutation of the first ones. -/
structure WellFormed : Prop where
  align_pos : ∀ v, 0 < solver.align v
  nodup : (solver.orderedLocalBufferVars ++ solver.pureMcVars).Nodup
  mem : ∀ v, v ∈ solver.orderedLocalBufferVars ++ solver.pureMcVars
  canonical_lt : ∀ i < solver.orderedLocalBufferVars.length,
    solver.orderedToCanonical i < solver.orderedLocalBufferVars.length
  canonical_inj : ∀ i < solver.orderedLocalBufferVars.length,
    ∀ j < solver.orderedLocalBufferVars.length,
      solver.orderedToCanonical i = solver.orderedToCanonical j → i = j

/-- The checks on the way to a vector: those of a variable are made while the later variables are at
their alignment. -/
def Passes (a : Values n) : List (PgoSlot n) → Prop
  | [] => solver.satisfyMCCons a = true
  | slot :: rest => solver.satisfySlotCons slot (solver.setAligns rest a) = true ∧ Passes a rest

/-- The vector of an assignment, with the values as the code stores them. -/
def Stores (a : Values n) (item : List ℕ) : Prop :=
  item.length = solver.slots.length ∧
    ∀ slot ∈ solver.slots, item[slot.place]? = some (toUint32 (a slot.var))

/-- The variables `pre` have the values of `a`, and so has the vector. -/
structure Known (a : Values n) (pre : List (PgoSlot n)) (s : PgoState n) : Prop where
  length : s.ansItem.length = solver.slots.length
  values : ∀ slot ∈ pre, s.values slot.var = a slot.var
  places : ∀ slot ∈ pre, s.ansItem[slot.place]? = some (toUint32 (a slot.var))

/-- The assignments that extend `a` from `pre` to the variables of `slots`. -/
structure Extends (levels : PgoSlot n → List ℤ) (a : Values n) (pre slots : List (PgoSlot n))
    (b : Values n) : Prop where
  pre : ∀ slot ∈ pre, b slot.var = a slot.var
  levels : ∀ slot ∈ slots, b slot.var ∈ levels slot
  passes : solver.Passes b slots

section Slots

variable {solver : PgoSolver n} {slot : PgoSlot n} {pre rest : List (PgoSlot n)} {v : Fin n}

theorem slots_vars : solver.slots.map (·.var) = solver.orderedLocalBufferVars ++ solver.pureMcVars := by
  simp only [slots, map_append, map_map, comp_def, zipIdx_map_fst]

theorem exists_local_slot (hv : v ∈ solver.orderedLocalBufferVars) :
    ∃ slot ∈ solver.slots, slot.var = v ∧ slot.fromLocalBufferVars = true := by
  rw [← zipIdx_map_fst 0 solver.orderedLocalBufferVars] at hv
  rcases mem_map.mp hv with ⟨p, hp, rfl⟩
  exact ⟨_, mem_append_left _ (mem_map_of_mem hp), rfl, rfl⟩

theorem exists_mc_slot (hv : v ∈ solver.pureMcVars) :
    ∃ slot ∈ solver.slots, slot.var = v ∧ slot.fromLocalBufferVars = false := by
  rw [← zipIdx_map_fst solver.orderedLocalBufferVars.length solver.pureMcVars] at hv
  rcases mem_map.mp hv with ⟨p, hp, rfl⟩
  exact ⟨_, mem_append_right _ (mem_map_of_mem hp), rfl, rfl⟩

theorem var_mem_of_slot (hslot : slot ∈ solver.slots) :
    (slot.fromLocalBufferVars = true → slot.var ∈ solver.orderedLocalBufferVars) ∧
      (slot.fromLocalBufferVars = false → slot.var ∈ solver.pureMcVars) := by
  rcases mem_append.mp hslot with h | h
  · rcases mem_map.mp h with ⟨p, hp, rfl⟩
    exact ⟨fun _ => fst_mem_of_mem_zipIdx hp, fun h => nomatch h⟩
  · rcases mem_map.mp h with ⟨p, hp, rfl⟩
    exact ⟨fun h => (nomatch h), fun _ => fst_mem_of_mem_zipIdx hp⟩

/-- The multicore variables come last. -/
theorem slots_mc_last : solver.slots.Pairwise fun p q =>
    p.fromLocalBufferVars = false → q.fromLocalBufferVars = false := by
  have hmc : ∀ q ∈ (solver.pureMcVars.zipIdx solver.orderedLocalBufferVars.length).map
      fun p => (⟨p.1, false, p.2⟩ : PgoSlot n), q.fromLocalBufferVars = false := by
    intro q hq
    rcases mem_map.mp hq with ⟨p, _, rfl⟩
    rfl
  rw [slots, pairwise_append]
  refine ⟨?_, ?_, fun _ _ q hq _ => hmc q hq⟩
  · rw [pairwise_map]
    exact pairwise_of_forall_mem_list fun _ _ _ _ h => nomatch h
  · exact pairwise_of_forall_mem_list fun _ _ q hq _ => hmc q hq

theorem slots_places : solver.slots.map (·.place) =
    (range solver.orderedLocalBufferVars.length).map solver.orderedToCanonical ++
      range' solver.orderedLocalBufferVars.length solver.pureMcVars.length := by
  have hcanonical : (solver.orderedLocalBufferVars.zipIdx.map fun p => solver.orderedToCanonical p.2) =
      (range solver.orderedLocalBufferVars.length).map solver.orderedToCanonical := by
    rw [range_eq_range', ← zipIdx_map_snd, map_map]
    rfl
  simp only [slots, map_append, map_map, comp_def, zipIdx_map_snd, hcanonical]

theorem WellFormed.places_nodup (h : solver.WellFormed) : (solver.slots.map (·.place)).Nodup := by
  rw [slots_places, nodup_append']
  refine ⟨?_, nodup_range', ?_⟩
  · refine Nodup.map_on ?_ nodup_range
    intro i hi j hj
    exact h.canonical_inj i (mem_range.mp hi) j (mem_range.mp hj)
  · intro place hlocal hmc
    rcases mem_map.mp hlocal with ⟨i, hi, rfl⟩
    have hlt := h.canonical_lt i (mem_range.mp hi)
    have hle := left_le_of_mem_range' hmc
    omega

theorem WellFormed.place_lt (h : solver.WellFormed) (hslot : slot ∈ solver.slots) :
    slot.place < solver.slots.length := by
  have hlength : solver.slots.length =
      solver.orderedLocalBufferVars.length + solver.pureMcVars.length := by
    simp [slots]
  have hplace := mem_map_of_mem (f := (·.place)) hslot
  rw [slots_places, mem_append] at hplace
  rw [hlength]
  rcases hplace with hlocal | hmc
  · rcases mem_map.mp hlocal with ⟨i, hi, heq⟩
    have hlt := h.canonical_lt i (mem_range.mp hi)
    omega
  · rcases mem_range'_1.mp hmc with ⟨_, hlt⟩
    exact hlt

theorem WellFormed.slot_eq (h : solver.WellFormed) {p q : PgoSlot n} (hp : p ∈ solver.slots)
    (hq : q ∈ solver.slots) (hvar : p.var = q.var) : p = q := by
  have hnodup := h.nodup
  rw [← slots_vars] at hnodup
  exact inj_on_of_nodup_map hnodup hp hq hvar

/-- A variable among those before it and after it. -/
structure Split (solver : PgoSolver n) (pre : List (PgoSlot n)) (slot : PgoSlot n)
    (rest : List (PgoSlot n)) : Prop where
  var_ne : ∀ p ∈ pre, p.var ≠ slot.var
  var_notMem : slot.var ∉ rest.map (·.var)
  pre_notMem : ∀ p ∈ pre, p.var ∉ rest.map (·.var)
  place_ne : ∀ p ∈ pre, p.place ≠ slot.place
  cover : ∀ u, u ∉ rest.map (·.var) → u = slot.var ∨ ∃ p ∈ pre, p.var = u

theorem WellFormed.split (h : solver.WellFormed) (hsplit : solver.slots = pre ++ slot :: rest) :
    Split solver pre slot rest := by
  have hvars : (pre.map (·.var) ++ slot.var :: rest.map (·.var)).Nodup := by
    have hnodup := h.nodup
    rw [← slots_vars, hsplit, map_append, map_cons] at hnodup
    exact hnodup
  have hplaces := h.places_nodup
  rw [hsplit, map_append, map_cons, nodup_append'] at hplaces
  rw [nodup_append', nodup_cons] at hvars
  refine ⟨?_, hvars.2.1.1, ?_, ?_, ?_⟩
  · intro p hp heq
    exact hvars.2.2 (mem_map_of_mem hp) (heq ▸ mem_cons_self)
  · intro p hp hmem
    exact hvars.2.2 (mem_map_of_mem hp) (mem_cons_of_mem _ hmem)
  · intro p hp heq
    exact hplaces.2.2 (mem_map_of_mem hp) (heq ▸ mem_cons_self)
  · intro u hu
    have hmem := h.mem u
    rw [← slots_vars, hsplit, map_append, map_cons, mem_append, mem_cons] at hmem
    rcases hmem with hpre | hslot | hrest
    · exact .inr (mem_map.mp hpre)
    · exact .inl hslot
    · exact absurd hrest hu

end Slots

section Enumeration

variable {solver : PgoSolver n} {slot : PgoSlot n} {pre rest slots : List (PgoSlot n)}
  {levels : PgoSlot n → List ℤ} {a b : Values n} {s : PgoState n} {value : ℤ}

theorem WellFormed.ext (hsolver : solver.WellFormed)
    (h : ∀ slot ∈ solver.slots, a slot.var = b slot.var) : a = b := by
  funext v
  have hv := hsolver.mem v
  rw [← slots_vars] at hv
  rcases mem_map.mp hv with ⟨slot, hslot, rfl⟩
  exact h slot hslot

/-- The state at the check of a variable is that of every assignment that extends it. -/
theorem setAligns_eq (h : Split solver pre slot rest) (hs : ∀ p ∈ pre, s.values p.var = b p.var)
    (hvalue : b slot.var = value) :
    solver.setAligns rest (update s.values slot.var value) = solver.setAligns rest b := by
  funext u
  by_cases hu : u ∈ rest.map (·.var)
  · rw [setAligns_of_mem hu, setAligns_of_mem hu]
  rw [setAligns_of_notMem hu, setAligns_of_notMem hu]
  rcases h.cover u hu with rfl | ⟨p, hp, rfl⟩
  · rw [update_self, hvalue]
  · rw [update_of_ne (h.var_ne p hp), hs p hp]

/-- A variable gets its value, and its place in the vector. -/
theorem Known.push (hsolver : solver.WellFormed) (hsplit : solver.slots = pre ++ slot :: rest)
    (h : Known solver a pre s) :
    Known solver (update a slot.var value) (pre ++ [slot])
      { s with
        values := solver.setAligns rest (update s.values slot.var value)
        ansItem := s.ansItem.set slot.place (toUint32
          (solver.setAligns rest (update s.values slot.var value) slot.var)) } := by
  have hslot := hsolver.split hsplit
  have hplace : slot.place < s.ansItem.length := by
    rw [h.length]
    exact hsolver.place_lt (hsplit ▸ mem_append_right _ mem_cons_self)
  have hvalue : solver.setAligns rest (update s.values slot.var value) slot.var = value := by
    rw [setAligns_of_notMem hslot.var_notMem, update_self]
  refine ⟨by rw [length_set, h.length], ?_, ?_⟩
  · intro p hp
    rcases mem_append.mp hp with hp | hp
    · refine (setAligns_of_notMem (hslot.pre_notMem p hp)).trans ?_
      rw [update_of_ne (hslot.var_ne p hp), update_of_ne (hslot.var_ne p hp)]
      exact h.values p hp
    · rw [mem_singleton.mp hp, update_self]
      exact hvalue
  · intro p hp
    rcases mem_append.mp hp with hp | hp
    · rw [getElem?_set_ne (hslot.place_ne p hp).symm, update_of_ne (hslot.var_ne p hp)]
      exact h.places p hp
    · rw [mem_singleton.mp hp, getElem?_set_self hplace, hvalue, update_self]

theorem Known.pop (hslot : Split solver pre slot rest)
    (h : Known solver (update a slot.var value) (pre ++ [slot]) s) : Known solver a pre s := by
  refine ⟨h.length, ?_, ?_⟩
  · intro p hp
    have hvalues := h.values p (mem_append_left _ hp)
    rwa [update_of_ne (hslot.var_ne p hp)] at hvalues
  · intro p hp
    have hplaces := h.places p (mem_append_left _ hp)
    rwa [update_of_ne (hslot.var_ne p hp)] at hplaces

theorem extends_push (hslot : Split solver pre slot rest) (hvalue : value ∈ levels slot)
    (hcheck : ∀ b : Values n, (∀ p ∈ pre, b p.var = a p.var) → b slot.var = value →
      solver.satisfySlotCons slot (solver.setAligns rest b) = true) :
    Extends solver levels (update a slot.var value) (pre ++ [slot]) rest b ↔
      Extends solver levels a pre (slot :: rest) b ∧ b slot.var = value := by
  constructor
  · intro h
    have hvar : b slot.var = value := by
      rw [h.pre slot (by simp), update_self]
    have hpre : ∀ p ∈ pre, b p.var = a p.var := by
      intro p hp
      rw [h.pre p (mem_append_left _ hp), update_of_ne (hslot.var_ne p hp)]
    refine ⟨⟨hpre, ?_, hcheck b hpre hvar, h.passes⟩, hvar⟩
    intro p hp
    rcases mem_cons.mp hp with rfl | hp
    · rw [hvar]
      exact hvalue
    · exact h.levels p hp
  · rintro ⟨h, hvar⟩
    refine ⟨?_, fun p hp => h.levels p (mem_cons_of_mem _ hp), h.passes.2⟩
    intro p hp
    rcases mem_append.mp hp with hp | hp
    · rw [h.pre p hp, update_of_ne (hslot.var_ne p hp)]
    · rw [mem_singleton.mp hp, hvar, update_self]

/-- From a state where the variables `pre` have their values, one vector is appended for each
assignment that gives the other variables one of their values and passes the checks. -/
theorem runSlots_spec (hsolver : solver.WellFormed) (hlevels : ∀ slot, (levels slot).Nodup)
    (hsplit : solver.slots = pre ++ slots) (h : Known solver a pre s) :
    Known solver a pre (solver.runSlots levels slots s) ∧
      Appends solver.Stores (Extends solver levels a pre slots) s.ans
        (solver.runSlots levels slots s).ans := by
  induction slots generalizing pre a s with
  | nil =>
    rw [append_nil] at hsplit
    subst hsplit
    have hvalues := hsolver.ext h.values
    have hext : ∀ b, Extends solver levels a solver.slots [] b ↔
        b = a ∧ solver.satisfyMCCons s.values = true := by
      intro b
      rw [hvalues]
      constructor
      · intro hb
        have hba := hsolver.ext hb.pre
        exact ⟨hba, hba ▸ hb.passes⟩
      · rintro ⟨rfl, hcores⟩
        exact ⟨fun _ _ => rfl, by simp, hcores⟩
    rw [runSlots, pgoLeaf]
    split
    next hcores =>
      refine ⟨⟨h.length, h.values, h.places⟩, (Appends.one ⟨h.length, h.places⟩).congr ?_⟩
      intro b
      rw [hext, and_iff_left hcores]
    next hcores => exact ⟨h, .none fun b hb => hcores ((hext b).mp hb).2⟩
  | cons slot rest ih =>
    have hslot := hsolver.split hsplit
    have hstart : Known solver a pre { s with values := update s.values slot.var 0 } := by
      refine ⟨h.length, ?_, h.places⟩
      intro p hp
      exact (update_of_ne (hslot.var_ne p hp) _ _).trans (h.values p hp)
    rw [runSlots]
    have hloop := @Appends.foldl _ _ solver.Stores _ _
      (solver.visit (solver.runSlots levels rest) rest slot) (·.ans) (Known solver a pre)
      (fun value b => Extends solver levels a pre (slot :: rest) b ∧ b slot.var = value)
      (fun c c' b hb hb' => hb.2.symm.trans hb'.2) (levels slot) (hlevels slot) ?_ _ hstart
    · refine ⟨hloop.1, hloop.2.congr ?_⟩
      intro b
      constructor
      · rintro ⟨value, _, hb, _⟩
        exact hb
      · intro hb
        exact ⟨_, hb.levels slot mem_cons_self, hb, rfl⟩
    · intro s value hvalue hs
      have hstate : ∀ b : Values n, (∀ p ∈ pre, b p.var = a p.var) → b slot.var = value →
          solver.setAligns rest (update s.values slot.var value) =
            solver.setAligns rest b := by
        intro b hpre hvar
        exact setAligns_eq hslot (fun p hp => (hs.values p hp).trans (hpre p hp).symm) hvar
      rw [visit]
      split
      next hcheck =>
        have hinner := ih (by simpa using hsplit) (@Known.push _ _ _ _ _ _ _ value hsolver hsplit hs)
        refine ⟨hinner.1.pop hslot, hinner.2.congr fun b => extends_push hslot hvalue ?_⟩
        intro b hpre hvar
        rw [← hstate b hpre hvar]
        exact hcheck
      next hcheck =>
        refine ⟨?_, .none ?_⟩
        · refine ⟨hs.length, ?_, hs.places⟩
          intro p hp
          refine (setAligns_of_notMem (hslot.pre_notMem p hp)).trans ?_
          rw [update_of_ne (hslot.var_ne p hp)]
          exact hs.values p hp
        · rintro b ⟨hb, hvar⟩
          rw [hstate b hb.pre hvar] at hcheck
          exact hcheck hb.passes.1

end Enumeration

end GraphAutofusion.Autofuse.PgoSolver
