import GraphAutofusion.Autofuse.FusedGraphModifier

/-!
# Autofuse.WorkspaceReuse — reuse never clobbers a live value

A workspace with readers to come is neither free nor overwritten. The invariant counts for each
output anchor the reads to come; one read and one store keep it, and so does every
sub-graph, since the inputs are processed before the outputs and ids released by an input
are withheld from the outputs.
-/

namespace GraphAutofusion.Autofuse

open List Option

/-- The state between two steps of the pass, together with the buffers after the stores up to
there: `produced` are the anchors stored so far, `need` the reads to come. -/
structure WorkspaceInv (attrs : OutAnchor → OutAnchorAttr) (produced : Set OutAnchor)
    (need : OutAnchor → ℕ) (s : ModifierState) (mem : Memory) : Prop where
  linked : ∀ a, (s.outAnchorAttr a).linkedOutputIrIdx = (attrs a).linkedOutputIrIdx
  fresh : ∀ a ∉ produced, s.outAnchorAttr a = attrs a
  max_nonneg : 0 ≤ s.maxWorkspaceNum
  free_lt : ∀ id ∈ s.freeWorkspaceId, id < s.maxWorkspaceNum
  dataUsed_lt : ∀ id ∈ s.dataUsedIds, id < s.maxWorkspaceNum
  used_lt : ∀ a ∈ produced, (attrs a).linkedOutputIrIdx < 0 →
    (s.outAnchorAttr a).usedWsIdx < s.maxWorkspaceNum
  depends : ∀ a ∈ produced, (attrs a).linkedOutputIrIdx < 0 →
    need a = 0 ∨ (need a : ℤ) ≤ (s.outAnchorAttr a).depends
  live : ∀ a ∈ produced, (attrs a).linkedOutputIrIdx < 0 → 0 < need a →
    (s.outAnchorAttr a).usedWsIdx ∉ s.freeWorkspaceId ∧
      mem (.workspace (s.outAnchorAttr a).usedWsIdx) = some a
  stored : ∀ a ∈ produced, 0 ≤ (attrs a).linkedOutputIrIdx →
    mem (.output (attrs a).linkedOutputIrIdx) = some a
  outputs : ∀ idx a, mem (.output idx) = some a → 0 ≤ idx ∧ (attrs a).linkedOutputIrIdx = idx

variable {g : FusedGraph} {attrs : OutAnchor → OutAnchorAttr} {produced : Set OutAnchor}
  {need need' : OutAnchor → ℕ} {s s' : ModifierState} {mem : Memory} {a : OutAnchor}

/-! ## One read -/

section Read

variable (hneg : (s.outAnchorAttr a).linkedOutputIrIdx < 0)

include hneg

theorem readAnchor_fst : (readAnchor a s).1 = .workspace (s.outAnchorAttr a).usedWsIdx := by
  simp [readAnchor, not_le.mpr hneg]

theorem readAnchor_attr (b : OutAnchor) : (readAnchor a s).2.outAnchorAttr b =
    if b = a then { s.outAnchorAttr a with depends := (s.outAnchorAttr a).depends - 1 }
    else s.outAnchorAttr b := by
  simp only [readAnchor, not_le.mpr hneg, if_false, ModifierState.setAttr]
  split <;> rfl

theorem readAnchor_free : (readAnchor a s).2.freeWorkspaceId =
    if (s.outAnchorAttr a).depends - 1 ≤ 0 then
      insert (s.outAnchorAttr a).usedWsIdx s.freeWorkspaceId else s.freeWorkspaceId := by
  simp only [readAnchor, not_le.mpr hneg, if_false, ModifierState.setAttr]
  split <;> rfl

theorem readAnchor_dataUsed : (readAnchor a s).2.dataUsedIds =
    insert (s.outAnchorAttr a).usedWsIdx s.dataUsedIds := by
  simp only [readAnchor, not_le.mpr hneg, if_false, ModifierState.setAttr]
  split <;> rfl

theorem readAnchor_max : (readAnchor a s).2.maxWorkspaceNum = s.maxWorkspaceNum := by
  simp only [readAnchor, not_le.mpr hneg, if_false, ModifierState.setAttr]
  split <;> rfl

end Read

/-- A read finds the value of its anchor, marks the workspace as used by this sub-graph, and
releases it only after the last read. -/
theorem WorkspaceInv.read (h : WorkspaceInv attrs produced need s mem) (ha : a ∈ produced)
    (hneed : need a = need' a + 1) (hother : ∀ b, b ≠ a → need' b = need b) :
    mem (readAnchor a s).1 = some a ∧ WorkspaceInv attrs produced need' (readAnchor a s).2 mem ∧
      (∀ id, (readAnchor a s).1 = .workspace id → id ∈ (readAnchor a s).2.dataUsedIds) ∧
      s.dataUsedIds ⊆ (readAnchor a s).2.dataUsedIds ∧
      (readAnchor a s).2.maxWorkspaceNum = s.maxWorkspaceNum := by
  have hlinked := h.linked a
  by_cases hout : 0 ≤ (attrs a).linkedOutputIrIdx
  · have hread : readAnchor a s = (.output (attrs a).linkedOutputIrIdx, s) := by
      simp [readAnchor, hlinked, hout]
    rw [hread]
    refine ⟨h.stored a ha hout, ?_, by simp, by simp, rfl⟩
    -- an anchor that is a graph output has no workspace
    have hne : ∀ b, (attrs b).linkedOutputIrIdx < 0 → need' b = need b :=
      fun b hb => hother b fun heq => absurd hb (heq ▸ not_lt.mpr hout)
    refine { h with depends := ?_, live := ?_ }
    · intro b hb hb'
      rw [hne b hb']
      exact h.depends b hb hb'
    · intro b hb hb' hpos
      rw [hne b hb'] at hpos
      exact h.live b hb hb' hpos
  have hneg : (attrs a).linkedOutputIrIdx < 0 := not_le.mp hout
  have hpos : 0 < need a := by omega
  have hlive := h.live a ha hneg hpos
  have hdepends : (need' a : ℤ) + 1 ≤ (s.outAnchorAttr a).depends := by
    have hcount := h.depends a ha hneg
    omega
  have hnegS : (s.outAnchorAttr a).linkedOutputIrIdx < 0 := hlinked ▸ hneg
  rw [readAnchor_fst hnegS]
  refine ⟨hlive.2, ?_, ?_, ?_, readAnchor_max hnegS⟩
  · have hattr := readAnchor_attr hnegS
    have hused : ∀ b, ((readAnchor a s).2.outAnchorAttr b).usedWsIdx
        = (s.outAnchorAttr b).usedWsIdx := by
      intro b
      rw [hattr]
      split
      · next heq => rw [heq]
      · rfl
    refine ⟨?_, ?_, ?_, ?_, ?_, ?_, ?_, ?_, h.stored, h.outputs⟩
    · intro b
      rw [← h.linked b, hattr]
      split
      · next heq => rw [heq]
      · rfl
    · intro b hb
      have hne : b ≠ a := fun heq => hb (heq ▸ ha)
      rw [hattr, if_neg hne]
      exact h.fresh b hb
    · rw [readAnchor_max hnegS]
      exact h.max_nonneg
    · intro id hid
      rw [readAnchor_max hnegS]
      rw [readAnchor_free hnegS] at hid
      split at hid
      · rcases Finset.mem_insert.mp hid with rfl | hid
        · exact h.used_lt a ha hneg
        · exact h.free_lt id hid
      · exact h.free_lt id hid
    · intro id hid
      rw [readAnchor_max hnegS]
      rw [readAnchor_dataUsed hnegS] at hid
      rcases Finset.mem_insert.mp hid with rfl | hid
      · exact h.used_lt a ha hneg
      · exact h.dataUsed_lt id hid
    · intro b hb hb'
      rw [hused, readAnchor_max hnegS]
      exact h.used_lt b hb hb'
    · intro b hb hb'
      rw [hattr]
      split
      · next heq =>
        subst heq
        refine .inr ?_
        show (need' b : ℤ) ≤ (s.outAnchorAttr b).depends - 1
        omega
      · next hne =>
        rw [hother b hne]
        exact h.depends b hb hb'
    · intro b hb hb' hcount
      have hcountOld : 0 < need b := by
        by_cases heq : b = a
        · exact heq ▸ hpos
        · exact hother b heq ▸ hcount
      have hliveB := h.live b hb hb' hcountOld
      rw [hused, readAnchor_free hnegS]
      refine ⟨?_, hliveB.2⟩
      split
      · next hlast =>
        intro hmem
        rcases Finset.mem_insert.mp hmem with hsame | hmem
        · -- the workspace holds one value only, and its anchor has no read to come
          have hvalue := hliveB.2
          rw [hsame, hlive.2] at hvalue
          have heq : a = b := some.inj hvalue
          subst heq
          omega
        · exact hliveB.1 hmem
      · exact hliveB.1
  · intro id hid
    rw [readAnchor_dataUsed hnegS]
    injection hid with hid
    exact Finset.mem_insert.mpr (.inl hid.symm)
  · rw [readAnchor_dataUsed hnegS]
    exact Finset.subset_insert _ _

/-! ## One store -/

/-- A reused id is free and not withheld; otherwise the id is new. -/
theorem reuseWorkspaceId_cases (s : ModifierState) :
    (∃ id ∈ s.freeWorkspaceId, id ∉ s.dataUsedIds ∧ reuseWorkspaceId s
        = (id, { s with freeWorkspaceId := s.freeWorkspaceId.erase id })) ∨
      reuseWorkspaceId s
        = (s.maxWorkspaceNum, { s with maxWorkspaceNum := s.maxWorkspaceNum + 1 }) := by
  unfold reuseWorkspaceId
  split
  · next h =>
    have hmem := Finset.mem_sdiff.mp (Finset.min'_mem _ h)
    exact .inl ⟨_, hmem.1, hmem.2, rfl⟩
  · exact .inr rfl

/-- What a new id owes to the ids in use. -/
structure FreshId (attrs : OutAnchor → OutAnchorAttr) (produced : Set OutAnchor)
    (need : OutAnchor → ℕ) (s : ModifierState) (id : ℤ) (s' : ModifierState) : Prop where
  attr : s'.outAnchorAttr = s.outAnchorAttr
  dataUsed : s'.dataUsedIds = s.dataUsedIds
  max_le : s.maxWorkspaceNum ≤ s'.maxWorkspaceNum
  id_lt : id < s'.maxWorkspaceNum
  free_subset : s'.freeWorkspaceId ⊆ s.freeWorkspaceId
  not_free : id ∉ s'.freeWorkspaceId
  not_used : id ∉ s.dataUsedIds
  not_live : ∀ b ∈ produced, (attrs b).linkedOutputIrIdx < 0 → 0 < need b →
    (s.outAnchorAttr b).usedWsIdx ≠ id

section

variable (h : WorkspaceInv attrs produced need s mem)
include h

theorem WorkspaceInv.freshId :
    FreshId attrs produced need s (reuseWorkspaceId s).1 (reuseWorkspaceId s).2 := by
  rcases reuseWorkspaceId_cases s with ⟨id, hfree, hused, heq⟩ | heq
  · rw [heq]
    refine ⟨rfl, rfl, le_refl _, h.free_lt id hfree, Finset.erase_subset _ _,
      Finset.notMem_erase _ _, hused, ?_⟩
    intro b hb hb' hpos hsame
    exact (h.live b hb hb' hpos).1 (hsame ▸ hfree)
  · rw [heq]
    refine ⟨rfl, rfl, le_of_lt (Int.lt_succ _), Int.lt_succ _, Finset.Subset.refl _, ?_, ?_, ?_⟩
    · intro hfree
      exact lt_irrefl _ (h.free_lt _ hfree)
    · intro hused
      exact lt_irrefl _ (h.dataUsed_lt _ hused)
    · intro b hb hb' _ hsame
      have hlt := h.used_lt b hb hb'
      rw [hsame] at hlt
      exact lt_irrefl _ hlt

/-- Storing a graph output. -/
theorem WorkspaceInv.storeOutput (hnew : a ∉ produced)
    (hout : 0 ≤ (attrs a).linkedOutputIrIdx)
    (hinj : ∀ b, 0 ≤ (attrs b).linkedOutputIrIdx →
      (attrs b).linkedOutputIrIdx = (attrs a).linkedOutputIrIdx → b = a) :
    WorkspaceInv attrs (insert a produced) need s
      (storeAt mem (.output (attrs a).linkedOutputIrIdx) a) := by
  have hold : ∀ b ∈ insert a produced, (attrs b).linkedOutputIrIdx < 0 → b ∈ produced := by
    intro b hb hneg
    rcases hb with rfl | hb
    · exact absurd hout (not_le.mpr hneg)
    · exact hb
  refine ⟨h.linked, fun b hb => h.fresh b fun hmem => hb (.inr hmem), h.max_nonneg, h.free_lt,
    h.dataUsed_lt, fun b hb hneg => h.used_lt b (hold b hb hneg) hneg,
    fun b hb hneg => h.depends b (hold b hb hneg) hneg, ?_, ?_, ?_⟩
  · intro b hb hneg hpos
    have hlive := h.live b (hold b hb hneg) hneg hpos
    refine ⟨hlive.1, ?_⟩
    rw [storeAt, if_neg (by simp)]
    exact hlive.2
  · intro b hb hb'
    by_cases heq : b = a
    · rw [heq, storeAt, if_pos rfl]
    · have hne : (attrs b).linkedOutputIrIdx ≠ (attrs a).linkedOutputIrIdx :=
        fun hsame => heq (hinj b hb' hsame)
      rw [storeAt, if_neg (by simpa using hne)]
      exact h.stored b (hb.resolve_left heq) hb'
  · intro idx b hb
    simp only [storeAt] at hb
    split at hb
    · next hsame =>
      injection hsame with hsame
      injection hb with hb
      subst hsame hb
      exact ⟨hout, rfl⟩
    · exact h.outputs idx b hb

/-- Storing a value into a workspace. -/
theorem WorkspaceInv.storeWorkspace (hneg : (attrs a).linkedOutputIrIdx < 0)
    (hneed : need a = 0 ∨ (need a : ℤ) ≤ (attrs a).depends) {id : ℤ}
    (hid : FreshId attrs produced need s id s') :
    WorkspaceInv attrs (insert a produced) need
      (s'.setAttr a { attrs a with usedWsIdx := id }) (storeAt mem (.workspace id) a) := by
  have hattrOf : ∀ b, b ≠ a →
      (s'.setAttr a { attrs a with usedWsIdx := id }).outAnchorAttr b = s.outAnchorAttr b := by
    intro b hne
    rw [ModifierState.outAnchorAttr_setAttr, if_neg hne, hid.attr]
  have hattrA : (s'.setAttr a { attrs a with usedWsIdx := id }).outAnchorAttr a
      = { attrs a with usedWsIdx := id } := by
    rw [ModifierState.outAnchorAttr_setAttr, if_pos rfl]
  refine ⟨?_, ?_, le_trans h.max_nonneg hid.max_le, ?_, ?_, ?_, ?_, ?_, ?_, ?_⟩
  · intro b
    by_cases heq : b = a
    · rw [heq, hattrA]
    · rw [hattrOf b heq]
      exact h.linked b
  · intro b hb
    rw [hattrOf b fun heq => hb (.inl heq)]
    exact h.fresh b fun hmem => hb (.inr hmem)
  · intro i hi
    exact lt_of_lt_of_le (h.free_lt i (hid.free_subset hi)) hid.max_le
  · intro i hi
    have hi' : i ∈ s.dataUsedIds := hid.dataUsed ▸ hi
    exact lt_of_lt_of_le (h.dataUsed_lt i hi') hid.max_le
  · intro b hb hb'
    by_cases heq : b = a
    · rw [heq, hattrA]
      exact hid.id_lt
    · rw [hattrOf b heq]
      exact lt_of_lt_of_le (h.used_lt b (hb.resolve_left heq) hb') hid.max_le
  · intro b hb hb'
    by_cases heq : b = a
    · rw [heq, hattrA]
      exact hneed
    · rw [hattrOf b heq]
      exact h.depends b (hb.resolve_left heq) hb'
  · intro b hb hb' hpos
    by_cases heq : b = a
    · rw [heq, hattrA]
      exact ⟨hid.not_free, if_pos rfl⟩
    · -- the workspace of a value with readers to come is not the new one
      have hmem := hb.resolve_left heq
      have hlive := h.live b hmem hb' hpos
      have hne := hid.not_live b hmem hb' hpos
      rw [hattrOf b heq, storeAt, if_neg (by simpa using hne)]
      exact ⟨fun hfree => hlive.1 (hid.free_subset hfree), hlive.2⟩
  · intro b hb hb'
    rw [storeAt, if_neg (by simp)]
    have hne : b ≠ a := fun heq => absurd hb' (not_le.mpr (heq ▸ hneg))
    exact h.stored b (hb.resolve_left hne) hb'
  · intro idx b hb
    rw [storeAt, if_neg (by simp)] at hb
    exact h.outputs idx b hb

/-- A store fills a buffer that no value with readers to come is in, and no workspace that the
sub-graph reads. -/
theorem WorkspaceInv.store {place : ℕ} {irIndex : ℤ}
    (hnew : (place, irIndex) ∉ produced)
    (hneed : need (place, irIndex) = 0 ∨
      (need (place, irIndex) : ℤ) ≤ (attrs (place, irIndex)).depends)
    (hinj : ∀ b, 0 ≤ (attrs b).linkedOutputIrIdx → (attrs b).linkedOutputIrIdx
      = (attrs (place, irIndex)).linkedOutputIrIdx → b = (place, irIndex))
    {buffer : Buffer} (hstore : processOutputNode place irIndex s = some (buffer, s')) :
    WorkspaceInv attrs (insert (place, irIndex) produced) need s'
        (storeAt mem buffer (place, irIndex)) ∧
      s'.dataUsedIds = s.dataUsedIds ∧
      (∀ id, buffer = .workspace id → id ∉ s.dataUsedIds) ∧
      (∀ idx, buffer ≠ .input idx) ∧
      ∀ idx, buffer = .output idx → 0 ≤ idx ∧ (attrs (place, irIndex)).linkedOutputIrIdx = idx := by
  have hattr := h.fresh _ hnew
  simp only [processOutputNode] at hstore
  split at hstore
  · cases hstore
  rw [hattr] at hstore
  split at hstore
  · next hout =>
    simp only [some.injEq, Prod.mk.injEq] at hstore
    rcases hstore with ⟨rfl, rfl⟩
    refine ⟨h.storeOutput hnew hout hinj, rfl, by simp, by simp, ?_⟩
    intro idx hsame
    injection hsame with hsame
    exact ⟨hsame ▸ hout, hsame⟩
  · next hout =>
    simp only [some.injEq, Prod.mk.injEq] at hstore
    rcases hstore with ⟨rfl, rfl⟩
    have hid := h.freshId
    refine ⟨h.storeWorkspace (not_le.mp hout) hneed hid, hid.dataUsed, ?_, by simp, by simp⟩
    intro id hsame
    injection hsame with hsame
    exact hsame ▸ hid.not_used

/-- Fewer reads to come. -/
theorem WorkspaceInv.mono
    (hle : ∀ a, need' a ≤ need a) : WorkspaceInv attrs produced need' s mem := by
  refine { h with depends := ?_, live := ?_ }
  · intro b hb hb'
    have hle := hle b
    have hcount := h.depends b hb hb'
    omega
  · intro b hb hb' hpos
    exact h.live b hb hb' (lt_of_lt_of_le hpos (hle b))

end

/-! ## The loops over a sub-graph -/

/-- A Data finds the graph input or the value that feeds it. -/
def ReadsSource (g : FusedGraph) (place : ℕ) (mem : Memory) (index : ℤ) (buffer : Buffer) : Prop :=
  ∃ a, g.inputAt place index = some a ∧
    (∀ irIdx, g.nodes[a.1]? = some (.data irIdx) → buffer = .input irIdx) ∧
    ((∀ irIdx, g.nodes[a.1]? ≠ some (.data irIdx)) → mem buffer = some a)

theorem processSubNodes_cons {process : ℤ → ModifierState → Option (Buffer × ModifierState)}
    {index : ℤ} {rest : List ℤ} {result : List (ℤ × Buffer)}
    (h : processSubNodes process (index :: rest) s = some (result, s')) :
    ∃ buffer mid buffers, process index s = some (buffer, mid) ∧
      processSubNodes process rest mid = some (buffers, s') ∧ result = (index, buffer) :: buffers := by
  simp only [processSubNodes] at h
  split at h
  · cases h
  · next buffer mid hstep =>
    split at h
    · cases h
    · next buffers last hrest =>
      simp only [some.injEq, Prod.mk.injEq] at h
      rcases h with ⟨rfl, rfl⟩
      exact ⟨buffer, mid, buffers, hstep, hrest, rfl⟩

/-- The loop over the Data nodes. -/
theorem WorkspaceInv.reads {place : ℕ} {base : OutAnchor → ℕ} :
    ∀ (indices : List ℤ) {s : ModifierState} {reads : List (ℤ × Buffer)},
      WorkspaceInv attrs produced
        (fun a => base a + indices.countP fun i => g.inputAt place i = some a) s mem →
      (∀ i ∈ indices, ∀ a, g.inputAt place i = some a →
        (∃ irIdx, g.nodes[a.1]? = some (.data irIdx)) ∨ a ∈ produced) →
      processSubNodes (processDataNode g place) indices s = some (reads, s') →
      WorkspaceInv attrs produced base s' mem ∧ reads.map Prod.fst = indices ∧
        s.dataUsedIds ⊆ s'.dataUsedIds ∧
        ∀ read ∈ reads, ReadsSource g place mem read.1 read.2 ∧
          ∀ id, read.2 = .workspace id → id ∈ s'.dataUsedIds := by
  intro indices
  induction indices with
  | nil =>
    intro s reads h _ hrun
    simp only [processSubNodes, Option.some.injEq, Prod.mk.injEq] at hrun
    rcases hrun with ⟨rfl, rfl⟩
    exact ⟨h.mono fun a => by simp, rfl, Finset.Subset.refl _, by simp⟩
  | cons index rest ih =>
    intro s reads h hsource hrun
    rcases processSubNodes_cons hrun with ⟨buffer, mid, buffers, hstep, hrest, rfl⟩
    have hstep' : WorkspaceInv attrs produced
        (fun a => base a + rest.countP fun i => g.inputAt place i = some a) mid mem ∧
          ReadsSource g place mem index buffer ∧
          (∀ id, buffer = .workspace id → id ∈ mid.dataUsedIds) ∧
          s.dataUsedIds ⊆ mid.dataUsedIds := by
      simp only [processDataNode] at hstep
      split at hstep
      · cases hstep
      · next a hinput =>
        have hless : ∀ b, rest.countP (fun i => g.inputAt place i = some b) ≤
            (index :: rest).countP fun i => g.inputAt place i = some b := fun b =>
          (sublist_cons_self index rest).countP_le
        split at hstep
        · next irIdx hdata =>
          split at hstep
          · simp only [Option.some.injEq, Prod.mk.injEq] at hstep
            rcases hstep with ⟨rfl, rfl⟩
            refine ⟨h.mono fun b => Nat.add_le_add_left (hless b) _, ⟨a, hinput, ?_, ?_⟩, by simp,
              Finset.Subset.refl _⟩
            · intro irIdx' hdata'
              rw [hdata] at hdata'
              injection hdata' with hdata'
              injection hdata' with hdata'
              rw [hdata']
            · intro hno
              exact absurd hdata (hno irIdx)
          · cases hstep
        · next hno =>
          have hmem : a ∈ produced := by
            rcases hsource index mem_cons_self a hinput with ⟨irIdx, hdata⟩ | hmem
            · exact absurd hdata (hno irIdx)
            · exact hmem
          have hcount : base a + (index :: rest).countP (fun i => g.inputAt place i = some a)
              = base a + rest.countP (fun i => g.inputAt place i = some a) + 1 := by
            simp [hinput, Nat.add_assoc]
          have hother : ∀ b, b ≠ a → base b + rest.countP (fun i => g.inputAt place i = some b)
              = base b + (index :: rest).countP fun i => g.inputAt place i = some b := by
            intro b hb
            have hne : ¬ a = b := fun heq => hb heq.symm
            simp [hinput, hne]
          have hread := h.read hmem hcount hother
          simp only [Option.some.injEq] at hstep
          rw [hstep] at hread
          refine ⟨hread.2.1, ⟨a, hinput, ?_, fun _ => hread.1⟩, hread.2.2.1, hread.2.2.2.1⟩
          intro irIdx hdata
          exact absurd hdata (hno irIdx)
    have hrec := ih hstep'.1 (fun i hi => hsource i (mem_cons_of_mem index hi)) hrest
    refine ⟨hrec.1, by rw [map_cons, hrec.2.1], hstep'.2.2.2.trans hrec.2.2.1, ?_⟩
    intro read hread
    rcases mem_cons.mp hread with rfl | hread
    · exact ⟨hstep'.2.1, fun id hid => hrec.2.2.1 (hstep'.2.2.1 id hid)⟩
    · exact hrec.2.2.2 read hread

/-- Where an Output of a sub-graph is stored: not where the sub-graph reads. -/
def WritesApart (attrs : OutAnchor → OutAnchorAttr) (place : ℕ) (dataUsedIds : Finset ℤ)
    (write : ℤ × Buffer) : Prop :=
  (∀ id, write.2 = .workspace id → id ∉ dataUsedIds) ∧ (∀ idx, write.2 ≠ .input idx) ∧
    ∀ idx, write.2 = .output idx → 0 ≤ idx ∧ (attrs (place, write.1)).linkedOutputIrIdx = idx

/-- The loop over the Output nodes. -/
theorem WorkspaceInv.writes {place : ℕ}
    (hneed : ∀ k, need (place, k) = 0 ∨ (need (place, k) : ℤ) ≤ (attrs (place, k)).depends)
    (hinj : ∀ a b, 0 ≤ (attrs b).linkedOutputIrIdx →
      (attrs b).linkedOutputIrIdx = (attrs a).linkedOutputIrIdx → b = a) :
    ∀ (indices : List ℤ) {produced : Set OutAnchor} {s : ModifierState} {mem : Memory}
      {writes : List (ℤ × Buffer)},
      WorkspaceInv attrs produced need s mem → indices.Nodup →
      (∀ k ∈ indices, (place, k) ∉ produced) →
      processSubNodes (processOutputNode place) indices s = some (writes, s') →
      WorkspaceInv attrs (produced ∪ {a | a.1 = place ∧ a.2 ∈ indices}) need s'
          (writes.foldl (fun mem write => storeAt mem write.2 (place, write.1)) mem) ∧
        writes.map Prod.fst = indices ∧ ∀ write ∈ writes, WritesApart attrs place s.dataUsedIds write := by
  intro indices
  induction indices with
  | nil =>
    intro produced s mem writes h _ _ hrun
    simp only [processSubNodes, some.injEq, Prod.mk.injEq] at hrun
    rcases hrun with ⟨rfl, rfl⟩
    have hsame : produced ∪ {a : OutAnchor | a.1 = place ∧ a.2 ∈ ([] : List ℤ)} = produced := by
      ext a
      simp
    rw [hsame]
    exact ⟨h, rfl, by simp⟩
  | cons index rest ih =>
    intro produced s mem writes h hnodup hnew hrun
    rcases processSubNodes_cons hrun with ⟨buffer, mid, buffers, hstep, hrest, rfl⟩
    have hstore := h.store (hnew index mem_cons_self) (hneed index) (hinj _) hstep
    have hrec := ih hstore.1 (nodup_cons.mp hnodup).2 (by
      intro k hk hmem
      rcases hmem with heq | hmem
      · injection heq with _ hk'
        exact (nodup_cons.mp hnodup).1 (hk' ▸ hk)
      · exact hnew k (mem_cons_of_mem index hk) hmem) hrest
    have hsame : insert (place, index) produced ∪ {a : OutAnchor | a.1 = place ∧ a.2 ∈ rest}
        = produced ∪ {a | a.1 = place ∧ a.2 ∈ index :: rest} := by
      ext ⟨p, k⟩
      simp only [Set.mem_union, Set.mem_insert_iff, Prod.mk.injEq, Set.mem_ofPred_eq, mem_cons]
      tauto
    refine ⟨?_, by rw [map_cons, hrec.2.1], ?_⟩
    · rw [← hsame]
      exact hrec.1
    · intro write hwrite
      rcases mem_cons.mp hwrite with rfl | hwrite
      · exact hstore.2.2
      · have hapart := hrec.2.2 write hwrite
        rwa [hstore.2.1] at hapart

end GraphAutofusion.Autofuse
