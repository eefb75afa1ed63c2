import GraphAutofusion.Autofuse.MemReuseManager
import GraphAutofusion.Lib.StepCondition

/-!
# Autofuse.MemReuseRun — the blocks against the log of the placements

Every step of the allocation makes a block, joins one, or sorts the groups of some. The invariant says
of any state between steps that the ids of the blocks are distinct and a block holds the groups
the log places there.
-/

namespace GraphAutofusion.Autofuse

open Lib Function List

variable {std : StdLib} {s : MemReuseState} {t : MemoryType} {group : TensorGroup} {ref : BlockRef}

/-- The groups that were placed in a block, in this order. -/
def placedIn (placements : List Placement) (t : MemoryType) (id : ℤ) : List TensorGroup :=
  (placements.filter fun p => p.memType = t && p.blockId = id).map (·.group)

/-- The id that the next block of a type gets. -/
def nextId (s : MemReuseState) (t : MemoryType) : ℤ := if t.isQue then s.queId else s.bufId

structure BlockInv (s : MemReuseState) : Prop where
  memType : ∀ t, ∀ b ∈ s.typeBlocks t, b.memType = t
  idsNodup : ∀ t, ((s.typeBlocks t).map (·.id)).Nodup
  idsDisjoint : ∀ t t', t ≠ t' → t.isQue = t'.isQue →
    ∀ b ∈ s.typeBlocks t, ∀ b' ∈ s.typeBlocks t', b.id ≠ b'.id
  id_lt : ∀ t, ∀ b ∈ s.typeBlocks t, b.id < nextId s t
  log : ∀ t, ∀ b ∈ s.typeBlocks t, b.tensorGroups.Perm (placedIn s.placements t b.id)
  logged : ∀ p ∈ s.placements, ∃ b ∈ s.typeBlocks p.memType, b.id = p.blockId

theorem blockInv_init (tmpBuffers : ℕ → TmpBufferMem) : BlockInv { tmpBuffers := tmpBuffers } where
  memType _ _ hb := absurd hb not_mem_nil
  idsNodup _ := nodup_nil
  idsDisjoint _ _ _ _ _ hb := absurd hb not_mem_nil
  id_lt _ _ hb := absurd hb not_mem_nil
  log _ _ hb := absurd hb not_mem_nil
  logged _ hp := absurd hp not_mem_nil

/-! ## A new block -/

theorem placedIn_fresh (h : BlockInv s) (t : MemoryType) : placedIn s.placements t (nextId s t) = [] := by
  refine map_eq_nil_iff.mpr (filter_eq_nil_iff.mpr fun p hp hsame => ?_)
  obtain ⟨b, hb, hid⟩ := h.logged p hp
  have hlt := h.id_lt _ b hb
  simp only [Bool.and_eq_true, decide_eq_true_eq] at hsame
  rw [hsame.1, hid, hsame.2] at hlt
  exact lt_irrefl _ hlt

theorem placedIn_snoc (placements : List Placement) (p : Placement) (t : MemoryType) (id : ℤ) :
    placedIn (placements ++ [p]) t id =
      placedIn placements t id ++ if p.memType = t ∧ p.blockId = id then [p.group] else [] := by
  unfold placedIn
  rw [filter_append, map_append]
  congr 1
  by_cases hsame : p.memType = t ∧ p.blockId = id
  · simp [hsame]
  · rw [if_neg hsame, filter_cons_of_neg (by simpa using hsame)]
    rfl

variable {t' : MemoryType} {b : MemoryBlock}

theorem mem_createMemBlock :
    b ∈ (createMemBlockByType s group t).typeBlocks t' ↔
      b ∈ s.typeBlocks t' ∨ (t' = t ∧ b = ⟨nextId s t, t, group.maxSizeLevel, [group]⟩) := by
  show b ∈ update s.typeBlocks t _ t' ↔ _
  by_cases heq : t' = t
  · subst heq
    simp [nextId]
  · simp [heq]

theorem id_lt_nextId (h : BlockInv s) (hque : t'.isQue = t.isQue)
    (hb : b ∈ s.typeBlocks t') : b.id < nextId s t := by
  have hlt := h.id_lt t' b hb
  rw [nextId, hque] at hlt
  exact hlt

theorem nextId_create (t' : MemoryType) : nextId (createMemBlockByType s group t) t' =
    if t'.isQue = t.isQue then nextId s t' + 1 else nextId s t' := by
  unfold nextId createMemBlockByType
  cases t'.isQue with
  | true => cases t.isQue <;> rfl
  | false => cases t.isQue <;> rfl

theorem BlockInv.create (h : BlockInv s) (group : TensorGroup) (t : MemoryType) :
    BlockInv (createMemBlockByType s group t) := by
  refine ⟨?_, ?_, ?_, ?_, ?_, ?_⟩
  · intro t' b hb
    rcases mem_createMemBlock.mp hb with hold | ⟨rfl, rfl⟩
    · exact h.memType t' b hold
    · rfl
  · intro t'
    show ((update s.typeBlocks t _ t').map (·.id)).Nodup
    by_cases heq : t' = t
    · -- the new id is beyond all ids of the type
      subst heq
      rw [update_self, map_append, nodup_append]
      refine ⟨h.idsNodup t', nodup_singleton _, fun id hid id' hid' heq => ?_⟩
      obtain ⟨b, hb, rfl⟩ := mem_map.mp hid
      have hlt := id_lt_nextId h rfl hb
      rw [heq, mem_singleton.mp hid'] at hlt
      exact lt_irrefl _ hlt
    · rw [update_of_ne heq]
      exact h.idsNodup t'
  · intro t' t'' hne hque b hb b' hb'
    rcases mem_createMemBlock.mp hb with hold | ⟨rfl, rfl⟩
    · rcases mem_createMemBlock.mp hb' with hold' | ⟨rfl, rfl⟩
      · exact h.idsDisjoint t' t'' hne hque b hold b' hold'
      · exact ne_of_lt (id_lt_nextId h hque hold)
    · rcases mem_createMemBlock.mp hb' with hold' | ⟨rfl, rfl⟩
      · exact ne_of_gt (id_lt_nextId h hque.symm hold')
      · exact absurd rfl hne
  · intro t' b hb
    rw [nextId_create]
    rcases mem_createMemBlock.mp hb with hold | ⟨rfl, rfl⟩
    · have hlt := h.id_lt t' b hold
      split <;> omega
    · rw [if_pos rfl]
      exact Int.lt_succ _
  · intro t' b hb
    show b.tensorGroups.Perm (placedIn (s.placements ++ [⟨group, t, nextId s t⟩]) t' b.id)
    rw [placedIn_snoc]
    rcases mem_createMemBlock.mp hb with hold | ⟨rfl, rfl⟩
    · rw [if_neg, append_nil]
      · exact h.log t' b hold
      · rintro ⟨rfl, hid⟩
        exact ne_of_gt (id_lt_nextId h rfl hold) hid
    · rw [placedIn_fresh h, if_pos ⟨rfl, rfl⟩]
      exact Perm.refl _
  · intro p hp
    have hp : p ∈ s.placements ++ [⟨group, t, nextId s t⟩] := hp
    rcases mem_append.mp hp with hp | hp
    · obtain ⟨b, hb, hid⟩ := h.logged p hp
      exact ⟨b, mem_createMemBlock.mpr (.inl hb), hid⟩
    · rw [mem_singleton.mp hp]
      exact ⟨_, mem_createMemBlock.mpr (.inr ⟨rfl, rfl⟩), rfl⟩

/-! ## A block that exists -/

theorem mem_blockRefs : ref ∈ blockRefs s t ↔
    ref.memType = t ∧ (s.typeBlocks t)[ref.idx]? = some ref.block := by
  unfold blockRefs
  constructor
  · intro h
    obtain ⟨p, hp, rfl⟩ := mem_map.mp h
    exact ⟨rfl, mem_zipIdx_iff_getElem?.mp hp⟩
  · rintro ⟨rfl, hget⟩
    exact mem_map.mpr ⟨(ref.block, ref.idx), mem_zipIdx_iff_getElem?.mpr hget, rfl⟩

variable {grow : MemorySizeLevel → MemorySizeLevel}

theorem map_id_joinBlock (t' : MemoryType) :
    ((joinBlock s ref group grow).typeBlocks t').map (·.id) = (s.typeBlocks t').map (·.id) := by
  show (update s.typeBlocks ref.memType _ t').map (·.id) = _
  by_cases heq : t' = ref.memType
  · subst heq
    rw [update_self]
    refine ext_getElem? fun i => ?_
    rw [getElem?_map, getElem?_map, getElem?_modify]
    cases (s.typeBlocks ref.memType)[i]? with
    | none => rfl
    | some b =>
      show some (if ref.idx = i then _ else b).id = some b.id
      split <;> rfl
  · rw [update_of_ne heq]

/-- The blocks after a join: the one that was joined, and the others as before. -/
theorem mem_joinBlock (h : BlockInv s) (href : ref ∈ blockRefs s ref.memType)
    (hb : b ∈ (joinBlock s ref group grow).typeBlocks t') :
    (b ∈ s.typeBlocks t' ∧ ¬ (t' = ref.memType ∧ b.id = ref.block.id)) ∨
      (t' = ref.memType ∧ b = { ref.block with
        tensorGroups := ref.block.tensorGroups ++ [group]
        maxSizeLevel := grow ref.block.maxSizeLevel }) := by
  have hget := (mem_blockRefs.mp href).2
  have hb : b ∈ update s.typeBlocks ref.memType _ t' := hb
  by_cases heq : t' = ref.memType
  · subst heq
    rw [update_self] at hb
    obtain ⟨i, hi⟩ := mem_iff_getElem?.mp hb
    rw [getElem?_modify] at hi
    by_cases hidx : ref.idx = i
    · subst hidx
      rw [hget] at hi
      right
      simpa [eq_comm] using hi
    left
    simp only [hidx, if_false, Option.map_eq_map, Option.map_id'] at hi
    refine ⟨mem_of_getElem? hi, fun hboth => hidx ?_⟩
    -- the ids of the list are distinct
    have hget' : ((s.typeBlocks ref.memType).map (·.id))[ref.idx]? = some b.id := by
      rw [getElem?_map, hget, hboth.2]
      rfl
    have hi' : ((s.typeBlocks ref.memType).map (·.id))[i]? = some b.id := by
      rw [getElem?_map, hi]
      rfl
    have hlt := (List.getElem?_eq_some_iff.mp hget').1
    exact (getElem?_inj hlt (h.idsNodup _)).mp (hget'.trans hi'.symm)
  · rw [update_of_ne heq] at hb
    exact .inl ⟨hb, fun hboth => heq hboth.1⟩

theorem BlockInv.join (h : BlockInv s) (href : ref ∈ blockRefs s ref.memType) :
    BlockInv (joinBlock s ref group grow) := by
  have hget := mem_of_getElem? (mem_blockRefs.mp href).2
  -- a block of the new list has the id of one of the old list
  have hold : ∀ t', ∀ b ∈ (joinBlock s ref group grow).typeBlocks t',
      ∃ b' ∈ s.typeBlocks t', b'.id = b.id ∧ b'.memType = b.memType := by
    intro t' b hb
    rcases mem_joinBlock h href hb with ⟨hmem, -⟩ | ⟨rfl, rfl⟩
    · exact ⟨b, hmem, rfl, rfl⟩
    · exact ⟨ref.block, hget, rfl, rfl⟩
  refine ⟨?_, ?_, ?_, ?_, ?_, ?_⟩
  · intro t' b hb
    obtain ⟨b', hb', -, htype⟩ := hold t' b hb
    rw [← htype]
    exact h.memType t' b' hb'
  · intro t'
    rw [map_id_joinBlock]
    exact h.idsNodup t'
  · intro t' t'' hne hque b hb c hc
    obtain ⟨b', hb', hid, -⟩ := hold t' b hb
    obtain ⟨c', hc', hid', -⟩ := hold t'' c hc
    rw [← hid, ← hid']
    exact h.idsDisjoint t' t'' hne hque b' hb' c' hc'
  · intro t' b hb
    obtain ⟨b', hb', hid, -⟩ := hold t' b hb
    rw [← hid]
    exact h.id_lt t' b' hb'
  · intro t' b hb
    show b.tensorGroups.Perm (placedIn (s.placements ++ [⟨group, ref.memType, ref.block.id⟩]) t' b.id)
    rw [placedIn_snoc]
    rcases mem_joinBlock h href hb with ⟨hmem, hother⟩ | ⟨rfl, rfl⟩
    · rw [if_neg fun hboth => hother ⟨hboth.1.symm, hboth.2.symm⟩, append_nil]
      exact h.log t' b hmem
    · rw [if_pos ⟨rfl, rfl⟩]
      exact (h.log _ ref.block hget).append_right _
  · intro p hp
    have hids := @map_id_joinBlock s group ref grow p.memType
    have hp : p ∈ s.placements ++ [⟨group, ref.memType, ref.block.id⟩] := hp
    have hin : p.blockId ∈ (s.typeBlocks p.memType).map (·.id) := by
      rcases mem_append.mp hp with hp | hp
      · obtain ⟨b, hb, hid⟩ := h.logged p hp
        exact mem_map.mpr ⟨b, hb, hid⟩
      · rw [mem_singleton.mp hp]
        exact mem_map_of_mem hget
    rw [← hids] at hin
    exact mem_map.mp hin

/-- The search sorts the groups of a block, which changes no group and no id. -/
theorem mem_sortTmpBlocks (hb : b ∈ (sortTmpBlocks std s).typeBlocks t') :
    ∃ b' ∈ s.typeBlocks t', b'.id = b.id ∧ b'.memType = b.memType ∧
      b.tensorGroups.Perm b'.tensorGroups := by
  have hb : b ∈ update s.typeBlocks .tmpBuff _ t' := hb
  by_cases heq : t' = .tmpBuff
  · subst heq
    rw [update_self] at hb
    obtain ⟨b', hb', rfl⟩ := mem_map.mp hb
    exact ⟨b', hb', rfl, rfl, std.sort_perm _ _⟩
  · rw [update_of_ne heq] at hb
    exact ⟨b, hb, rfl, rfl, Perm.refl _⟩

theorem map_id_sortTmpBlocks (t' : MemoryType) :
    ((sortTmpBlocks std s).typeBlocks t').map (·.id) = (s.typeBlocks t').map (·.id) := by
  show (update s.typeBlocks .tmpBuff _ t').map (·.id) = _
  by_cases heq : t' = .tmpBuff
  · subst heq
    rw [update_self, map_map]
    rfl
  · rw [update_of_ne heq]

theorem BlockInv.sort (h : BlockInv s) : BlockInv (sortTmpBlocks std s) := by
  refine ⟨?_, ?_, ?_, ?_, ?_, ?_⟩
  · intro t' b hb
    obtain ⟨b', hb', -, htype, -⟩ := mem_sortTmpBlocks hb
    rw [← htype]
    exact h.memType t' b' hb'
  · intro t'
    rw [map_id_sortTmpBlocks]
    exact h.idsNodup t'
  · intro t' t'' hne hque b hb c hc
    obtain ⟨b', hb', hid, -⟩ := mem_sortTmpBlocks hb
    obtain ⟨c', hc', hid', -⟩ := mem_sortTmpBlocks hc
    rw [← hid, ← hid']
    exact h.idsDisjoint t' t'' hne hque b' hb' c' hc'
  · intro t' b hb
    obtain ⟨b', hb', hid, -⟩ := mem_sortTmpBlocks hb
    rw [← hid]
    exact h.id_lt t' b' hb'
  · intro t' b hb
    obtain ⟨b', hb', hid, -, hperm⟩ := mem_sortTmpBlocks hb
    rw [← hid]
    exact hperm.trans (h.log t' b' hb')
  · intro p hp
    obtain ⟨b, hb, hid⟩ := h.logged p hp
    have hin : p.blockId ∈ (s.typeBlocks p.memType).map (·.id) := mem_map.mpr ⟨b, hb, hid⟩
    rw [← @map_id_sortTmpBlocks std s p.memType] at hin
    exact mem_map.mp hin

theorem BlockInv.setTmpId (h : BlockInv s) (buff : ℕ) (id : ℤ) : BlockInv (setTmpId s buff id) :=
  ⟨h.memType, h.idsNodup, h.idsDisjoint, h.id_lt, h.log, h.logged⟩

/-! ## The flags -/

/-- Of two groups in one block the earlier is reusable, and the later can reuse others. -/
def FlagsKept (placements : List Placement) : Prop :=
  placements.Pairwise fun p q => p.memType = q.memType → p.blockId = q.blockId →
    p.group.groupIsReusable = true ∧ q.group.groupIsCanReuseOthers = true

theorem flagsKept_snoc {placements : List Placement} {q : Placement} :
    FlagsKept (placements ++ [q]) ↔ FlagsKept placements ∧
      ∀ other ∈ placedIn placements q.memType q.blockId,
        other.groupIsReusable = true ∧ q.group.groupIsCanReuseOthers = true := by
  unfold FlagsKept
  rw [pairwise_append, and_congr_right_iff]
  intro _
  constructor
  · intro h other hother
    obtain ⟨p, hp, rfl⟩ := mem_map.mp hother
    obtain ⟨hp, hsame⟩ := mem_filter.mp hp
    simp only [Bool.and_eq_true, decide_eq_true_eq] at hsame
    exact h.2 p hp q mem_cons_self hsame.1 hsame.2
  · intro h
    refine ⟨pairwise_singleton _ _, fun p hp q' hq' htype hid => ?_⟩
    rw [mem_singleton.mp hq'] at htype hid ⊢
    refine h _ (mem_map.mpr ⟨p, mem_filter.mpr ⟨hp, ?_⟩, rfl⟩)
    simp only [Bool.and_eq_true, decide_eq_true_eq]
    exact ⟨htype, hid⟩

theorem flagsKept_create (h : BlockInv s) :
    FlagsKept (createMemBlockByType s group t).placements ↔ FlagsKept s.placements := by
  show FlagsKept (s.placements ++ [⟨group, t, nextId s t⟩]) ↔ _
  rw [flagsKept_snoc, placedIn_fresh h]
  exact and_iff_left fun other hother => absurd hother not_mem_nil

theorem flagsKept_join (h : BlockInv s) (href : ref ∈ blockRefs s ref.memType) :
    FlagsKept (joinBlock s ref group grow).placements ↔ FlagsKept s.placements ∧
      ∀ other ∈ ref.block.tensorGroups,
        other.groupIsReusable = true ∧ group.groupIsCanReuseOthers = true := by
  have hperm := h.log _ ref.block (mem_of_getElem? (mem_blockRefs.mp href).2)
  show FlagsKept (s.placements ++ [⟨group, ref.memType, ref.block.id⟩]) ↔ _
  rw [flagsKept_snoc]
  refine and_congr_right fun _ => forall_congr' fun other => ?_
  rw [hperm.mem_iff]

/-! ## What the searches return -/

variable {last : ℤ}

theorem selectBestMemoryBlock_spec {refs : List BlockRef}
    (h : selectBestMemoryBlock std group last refs = some ref) :
    ref ∈ refs ∧ reusableLifetimesOk group ref.block = true := by
  have hcand : ref ∈ refs.filter fun ref => reusableLifetimesOk group ref.block := by
    unfold selectBestMemoryBlock at h
    dsimp only at h
    split at h
    · next best _ hsort =>
      have hmem := (std.sort_perm _ _).mem_iff.mp (hsort ▸ mem_cons_self : best ∈ std.sort _ _)
      rw [← Option.some.inj h]
      exact (mem_filter.mp hmem).1
    · split at h
      · exact (mem_filter.mp (mem_of_getLast? h)).1
      · exact absurd h (by simp)
  exact mem_filter.mp hcand

theorem reusable_of_lifetimesOk {block : MemoryBlock} (h : reusableLifetimesOk group block = true) :
    ∀ other ∈ block.tensorGroups, other.groupIsReusable = true := by
  intro other hother
  have hboth := all_eq_true.mp h other hother
  exact (Bool.and_eq_true_iff.mp hboth).1

theorem findCandidateQueBlock_spec (h : ref ∈ findCandidateQueBlockWithSizeCheck s t group) :
    ref ∈ blockRefs s t ∧ ∀ other ∈ ref.block.tensorGroups, other.groupIsReusable = true := by
  obtain ⟨href, hok⟩ := mem_filter.mp h
  refine ⟨href, fun other hother => ?_⟩
  have hall := all_eq_true.mp (Bool.and_eq_true_iff.mp hok).1 other hother
  split at hall
  · exact (Bool.and_eq_true_iff.mp (Bool.and_eq_true_iff.mp hall).1).1
  · exact (Bool.and_eq_true_iff.mp hall).1

/-- The search for temporary buffers leaves the state, or sorts. -/
theorem findCandidateTmpBuffBlock_cases (std : StdLib) (s : MemReuseState) (group : TensorGroup) :
    (findCandidateTmpBuffBlockWithSizeCheck std s group).1 = s ∨
      (findCandidateTmpBuffBlockWithSizeCheck std s group).1 = sortTmpBlocks std s := by
  unfold findCandidateTmpBuffBlockWithSizeCheck
  split
  · exact .inl rfl
  · exact .inr rfl

theorem findCandidateTmpBuffBlock_mem
    (h : ref ∈ (findCandidateTmpBuffBlockWithSizeCheck std s group).2) :
    ref ∈ blockRefs (findCandidateTmpBuffBlockWithSizeCheck std s group).1 .tmpBuff := by
  unfold findCandidateTmpBuffBlockWithSizeCheck at h ⊢
  split at h
  · exact absurd h not_mem_nil
  · next hflags =>
    rw [if_neg hflags]
    exact (mem_filter.mp h).1

theorem BlockInv.findTmp (h : BlockInv s) (group : TensorGroup) :
    BlockInv (findCandidateTmpBuffBlockWithSizeCheck std s group).1 := by
  rcases findCandidateTmpBuffBlock_cases std s group with heq | heq
  · rw [heq]
    exact h
  · rw [heq]
    exact h.sort

theorem placements_findTmp (std : StdLib) (s : MemReuseState) (group : TensorGroup) :
    (findCandidateTmpBuffBlockWithSizeCheck std s group).1.placements = s.placements := by
  rcases findCandidateTmpBuffBlock_cases std s group with heq | heq
  · rw [heq]
  · rw [heq]
    rfl

theorem chooseCalcBlock_spec (h : (chooseCalcBlock std s group).2 = some ref) :
    ref ∈ blockRefs (chooseCalcBlock std s group).1 ref.memType := by
  have hmem := (std.sort_perm _ _).mem_iff.mp (mem_of_head? h)
  have hself : ∀ {s t}, ref ∈ blockRefs s t → ref ∈ blockRefs s ref.memType := by
    intro s t href
    rw [(mem_blockRefs.mp href).1]
    exact href
  split at hmem
  · rcases mem_append.mp hmem with hmem | hmem
    · rcases mem_append.mp hmem with hmem | hmem
      · exact hself (findCandidateQueBlock_spec hmem).1
      · exact hself (findCandidateQueBlock_spec hmem).1
    · exact hself (mem_filter.mp hmem).1
  · exact hself (findCandidateTmpBuffBlock_mem hmem)

end GraphAutofusion.Autofuse
