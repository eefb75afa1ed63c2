import GraphAutofusion.Autofuse.MemReuseIds
import Mathlib.Data.List.Pairwise
import Mathlib.Data.List.Sort

/-!
# Autofuse.MemReuseAlloc — what the allocation keeps, and when it honours the reuse flags

Every group is in one block, every tensor and every temporary buffer has the id of its block, and no two
blocks share one, whatever the infos are. The reuse flags are honoured iff no search by lifetimes
alone breaks one.
-/

namespace GraphAutofusion.Autofuse

open Lib List Function

variable {std : StdLib} {s : MemReuseState} {t : MemoryType} {group : TensorGroup}
  {tensors tmps : InfoMap}

/-! ## Groups -/

theorem pairwise_disjoint_keys (tensors tmps : InfoMap) : (allGroups tensors tmps).Pairwise
    fun g g' => (g.groupedTensors.map (·.1)).Disjoint (g'.groupedTensors.map (·.1)) := by
  have hkeys := keys_nodup tensors tmps
  unfold infosOf at hkeys
  rw [map_flatMap, nodup_flatMap] at hkeys
  exact hkeys.2

theorem group_of_key {g g' : TensorGroup} (hg : g ∈ allGroups tensors tmps)
    (hg' : g' ∈ allGroups tensors tmps) {i i' : InfoKey × TensorInfo} (hi : i ∈ g.groupedTensors)
    (hi' : i' ∈ g'.groupedTensors) (hkey : i.1 = i'.1) : g = g' := by
  by_contra hne
  have hsymm : Std.Symm fun g g' : TensorGroup =>
      (g.groupedTensors.map (·.1)).Disjoint (g'.groupedTensors.map (·.1)) := ⟨fun _ _ h => h.symm⟩
  have hdisj := (pairwise_disjoint_keys tensors tmps).forall hg hg' hne
  refine hdisj (mem_map_of_mem hi) ?_
  show i.1 ∈ _
  rw [hkey]
  exact mem_map_of_mem hi'

theorem groupedTensors_ne_nil (hgroup : group ∈ allGroups tensors tmps) :
    group.groupedTensors ≠ [] := by
  rcases mem_append.mp hgroup with hgroup | hgroup
  · exact (tempGroups_inv tensors).nonempty group hgroup
  · obtain ⟨entry, -, rfl⟩ := mem_map.mp hgroup
    exact cons_ne_nil _ _

theorem allGroups_nodup (tensors tmps : InfoMap) : (allGroups tensors tmps).Nodup := by
  refine List.Pairwise.imp_of_mem (fun hg _ hdisj heq => ?_) (pairwise_disjoint_keys tensors tmps)
  obtain ⟨i, hi⟩ := exists_mem_of_ne_nil _ (groupedTensors_ne_nil hg)
  rw [← heq] at hdisj
  exact hdisj (mem_map_of_mem hi) (mem_map_of_mem hi)

theorem positions_perm (groups : List TensorGroup) :
    (groups.filter (·.memPosition = .vecIn) ++ (groups.filter (·.memPosition = .vecOut) ++
      groups.filter fun g => g.memPosition ≠ .vecIn && g.memPosition ≠ .vecOut)).Perm groups := by
  induction groups with
  | nil => exact Perm.refl _
  | cons g groups ih =>
    by_cases hin : g.memPosition = .vecIn
    · rw [filter_cons_of_pos (by simp [hin]), filter_cons_of_neg (by simp [hin]),
        filter_cons_of_neg (by simp [hin])]
      exact ih.cons g
    by_cases hout : g.memPosition = .vecOut
    · rw [filter_cons_of_neg (by simp [hin]), filter_cons_of_pos (by simp [hout]),
        filter_cons_of_neg (by simp [hout])]
      exact perm_middle.trans (ih.cons g)
    · rw [filter_cons_of_neg (by simp [hin]), filter_cons_of_neg (by simp [hout]),
        filter_cons_of_pos (by simp [hin, hout])]
      rw [← append_assoc] at ih ⊢
      exact perm_middle.trans (ih.cons g)

/-- The state when the queues have their groups. -/
def queState (std : StdLib) (tensors : InfoMap) (tmpBuffers : ℕ → TmpBufferMem) : MemReuseState :=
  allocForTQue std .copyOut
    (allocForTQue std .copyIn { tmpBuffers := tmpBuffers } (mergeTensorByGroupId std tensors).1)
    (mergeTensorByGroupId std tensors).2.1

theorem placedGroups_allocBlocks (std : StdLib) (tensors tmps : InfoMap)
    (tmpBuffers : ℕ → TmpBufferMem) :
    (placedGroups (allocBlocks std tensors tmps tmpBuffers)).Perm (allGroups tensors tmps) := by
  have hsort := fun groups => std.sort_perm startsEarlier groups
  have hmerge := (positions_perm (std.visit (tempGroups tensors))).trans (std.visit_perm _)
  unfold allocBlocks
  rw [placedGroups_calc, placedGroups_tmp, placedGroups_que, placedGroups_que]
  show ([] ++ std.sort startsEarlier _ ++ std.sort startsEarlier _ ++ tmps.entries.map tmpGroup ++
    std.sort startsEarlier _).Perm (tempGroups tensors ++ tmps.entries.map tmpGroup)
  rw [nil_append]
  refine Perm.trans ?_ (hmerge.append_right _)
  have hqueues := ((hsort (mergeTensorByGroupId std tensors).1).append
    (hsort (mergeTensorByGroupId std tensors).2.1))
  refine ((hqueues.append_right _).append (hsort (mergeTensorByGroupId std tensors).2.2)).trans ?_
  rw [append_assoc, ← append_assoc (filter _ _) (filter _ _) (filter _ _),
    append_assoc (filter _ _ ++ filter _ _)]
  exact Perm.append_left _ perm_append_comm

/-! ## Blocks -/

section Blocks

variable (h : BlockInv s) (hnodup : (placedGroups s).Nodup)

include h

theorem placement_of_mem {b : MemoryBlock} (hb : b ∈ s.typeBlocks t) (hgroup : group ∈ b.tensorGroups) :
    ∃ p ∈ s.placements, p.group = group ∧ p.memType = t ∧ p.blockId = b.id := by
  obtain ⟨p, hp, heq⟩ := mem_map.mp ((h.log t b hb).mem_iff.mp hgroup)
  obtain ⟨hp, hsame⟩ := mem_filter.mp hp
  simp only [Bool.and_eq_true, decide_eq_true_eq] at hsame
  exact ⟨p, hp, heq, hsame⟩

theorem block_of_placed (hgroup : group ∈ placedGroups s) :
    ∃ t, ∃ b ∈ s.typeBlocks t, group ∈ b.tensorGroups := by
  obtain ⟨p, hp, rfl⟩ := mem_map.mp hgroup
  obtain ⟨b, hb, hid⟩ := h.logged p hp
  refine ⟨p.memType, b, hb, (h.log _ b hb).mem_iff.mpr ?_⟩
  refine mem_map.mpr ⟨p, mem_filter.mpr ⟨hp, ?_⟩, rfl⟩
  simp [hid]

include hnodup

theorem block_unique {t' : MemoryType} {b b' : MemoryBlock} (hb : b ∈ s.typeBlocks t)
    (hb' : b' ∈ s.typeBlocks t') (hgroup : group ∈ b.tensorGroups) (hgroup' : group ∈ b'.tensorGroups) :
    t = t' ∧ b = b' := by
  obtain ⟨p, hp, heq, htype, hid⟩ := placement_of_mem h hb hgroup
  obtain ⟨p', hp', heq', htype', hid'⟩ := placement_of_mem h hb' hgroup'
  have hsame : p = p' := inj_on_of_nodup_map hnodup hp hp' (heq.trans heq'.symm)
  rw [← hsame] at htype' hid'
  have ht : t = t' := htype.symm.trans htype'
  subst ht
  exact ⟨rfl, inj_on_of_nodup_map (h.idsNodup t) hb hb' (hid.symm.trans hid')⟩

theorem tensorGroups_nodup {b : MemoryBlock} (hb : b ∈ s.typeBlocks t) : b.tensorGroups.Nodup :=
  (h.log t b hb).nodup_iff.mpr (hnodup.sublist (filter_sublist.map _))

end Blocks

/-! ## The attributes of the tensors -/

/-- What the last loop writes, tensor after tensor. -/
def writes (blocks : List MemoryBlock) : List (MemoryBlock × (InfoKey × TensorInfo)) :=
  blocks.flatMap fun block => (infosOf block.tensorGroups).map (block, ·)

theorem foldl_setQueBufId (blocks : List MemoryBlock) (attrs : ℕ → TensorMem) :
    blocks.foldl setQueBufIdToTensorAttr attrs =
      (writes blocks).foldl (fun attrs w => setQueBufId w.1 attrs w.2) attrs := by
  have hblock : ∀ attrs block, setQueBufIdToTensorAttr attrs block =
      ((infosOf block.tensorGroups).map (block, ·)).foldl (fun attrs w => setQueBufId w.1 attrs w.2)
        attrs := by
    intro attrs block
    rw [foldl_map, infosOf, foldl_flatMap]
    rfl
  rw [writes, foldl_flatMap]
  exact congrArg (fun f => blocks.foldl f attrs) (funext fun attrs => funext fun block => hblock attrs block)

/-- The tensor has the id of the block. -/
def HasBlockId (block : MemoryBlock) (mem : TensorMem) : Prop :=
  if block.memType.isQue then mem.allocType = .queue ∧ mem.queId = block.id
  else mem.allocType = .buffer ∧ mem.bufId = block.id

/-- A tensor that is written for one block only gets its id. -/
theorem hasBlockId_foldl {ws : List (MemoryBlock × (InfoKey × TensorInfo))} {block : MemoryBlock}
    {attr : ℕ} (hmem : ∃ w ∈ ws, w.2.1 = .tensor attr)
    (honly : ∀ w ∈ ws, w.2.1 = .tensor attr → w.1 = block) (attrs : ℕ → TensorMem) :
    HasBlockId block (ws.foldl (fun attrs w => setQueBufId w.1 attrs w.2) attrs attr) := by
  induction ws using reverseRecOn with
  | nil =>
    obtain ⟨_, hw, -⟩ := hmem
    exact absurd hw not_mem_nil
  | append_singleton ws w ih =>
    rw [foldl_append, foldl_cons, foldl_nil]
    by_cases hkey : w.2.1 = .tensor attr
    · -- the last write
      have hw := honly w (mem_append_right _ mem_cons_self) hkey
      rw [hw]
      unfold setQueBufId HasBlockId
      rw [hkey]
      dsimp only
      split
      · rw [update_self]
        exact ⟨rfl, rfl⟩
      · rw [update_self]
        exact ⟨rfl, rfl⟩
    · have hother : ∀ attrs : ℕ → TensorMem, setQueBufId w.1 attrs w.2 attr = attrs attr := by
        intro attrs
        unfold setQueBufId
        cases hw : w.2.1 with
        | tmpBuffer _ => rfl
        | tensor a =>
          have hne : attr ≠ a := fun heq => hkey (hw.trans (congrArg _ heq.symm))
          dsimp only
          split
          · exact update_of_ne hne _ _
          · exact update_of_ne hne _ _
      rw [hother]
      refine ih ?_ fun w hw => honly w (mem_append_left _ hw)
      obtain ⟨w', hw', hkey'⟩ := hmem
      rcases mem_append.mp hw' with hw' | hw'
      · exact ⟨w', hw', hkey'⟩
      · rw [mem_singleton.mp hw'] at hkey'
        exact absurd hkey' hkey

theorem mem_writes {blocks : List MemoryBlock} {block : MemoryBlock} {info : InfoKey × TensorInfo} :
    (block, info) ∈ writes blocks ↔
      block ∈ blocks ∧ ∃ group ∈ block.tensorGroups, info ∈ group.groupedTensors := by
  unfold writes infosOf
  rw [mem_flatMap]
  constructor
  · intro h
    obtain ⟨b, hb, hinfo⟩ := h
    obtain ⟨i, hi, heq⟩ := mem_map.mp hinfo
    obtain ⟨rfl, rfl⟩ := Prod.mk.inj heq
    exact ⟨hb, mem_flatMap.mp hi⟩
  · intro h
    exact ⟨block, h.1, mem_map_of_mem (mem_flatMap.mpr h.2)⟩

/-! ## The allocation -/

/-- What `AllocMemBlocks` is meant to leave behind. The log is that of the manager: the blocks hold the
groups that it places there. -/
structure ReuseHonoured (tensors tmps : InfoMap) (result : MemReuseState × (ℕ → TensorMem)) : Prop where
  once : ∀ group ∈ allGroups tensors tmps, ∃! place : MemoryType × MemoryBlock,
    place.2 ∈ result.1.typeBlocks place.1 ∧ group ∈ place.2.tensorGroups
  nodup : ∀ t, ∀ block ∈ result.1.typeBlocks t, block.tensorGroups.Nodup
  log : ∀ t, ∀ block ∈ result.1.typeBlocks t,
    block.tensorGroups.Perm (placedIn result.1.placements t block.id)
  tensorIds : ∀ t, ∀ block ∈ result.1.typeBlocks t, ∀ group ∈ block.tensorGroups,
    ∀ info ∈ group.groupedTensors, ∀ attr, info.1 = .tensor attr → HasBlockId block (result.2 attr)
  tmpIds : ∀ t, ∀ block ∈ result.1.typeBlocks t, ∀ group ∈ block.tensorGroups,
    ∀ info ∈ group.groupedTensors, ∀ buff, info.1 = .tmpBuffer buff →
      (result.1.tmpBuffers buff).id = block.id
  flags : FlagsKept result.1.placements
  idsNodup : ∀ t, ((result.1.typeBlocks t).map (·.id)).Nodup
  idsDisjoint : ∀ t t', t ≠ t' → t.isQue = t'.isQue → ∀ block ∈ result.1.typeBlocks t,
    ∀ block' ∈ result.1.typeBlocks t', block.id ≠ block'.id

theorem queState_kept (std : StdLib) (tensors : InfoMap) (tmpBuffers : ℕ → TmpBufferMem) :
    BlockInv (queState std tensors tmpBuffers) ∧
      FlagsKept (queState std tensors tmpBuffers).placements :=
  allocForTQue_kept (allocForTQue_kept ⟨blockInv_init tmpBuffers, List.Pairwise.nil⟩ _) _

theorem blockInv_tmp (std : StdLib) (h : BlockInv s) (tmps : InfoMap) : BlockInv (allocTmpBuff std s tmps) :=
  foldl_inv (fun _ entry _ h => allocTmpGroup_inv h entry) h

theorem blockInv_allocBlocks (std : StdLib) (tensors tmps : InfoMap) (tmpBuffers : ℕ → TmpBufferMem) :
    BlockInv (allocBlocks std tensors tmps tmpBuffers) :=
  foldl_inv (fun _ _ _ h => allocCalcGroup_inv h)
    (blockInv_tmp std (queState_kept std tensors tmpBuffers).1 tmps)

/-- Each search by lifetimes alone meets its condition in the state it starts from. -/
def SearchesOk (std : StdLib) (tensors tmps : InfoMap) (tmpBuffers : ℕ → TmpBufferMem) : Prop :=
  EachStep (allocTmpGroup std) (TmpStepOk std) (queState std tensors tmpBuffers) tmps.entries ∧
    EachStep (allocCalcGroup std) (CalcStepOk std)
      (allocTmpBuff std (queState std tensors tmpBuffers) tmps)
      (std.sort startsEarlier (mergeTensorByGroupId std tensors).2.2)

theorem flagsKept_allocBlocks (std : StdLib) (tensors tmps : InfoMap) (tmpBuffers : ℕ → TmpBufferMem) :
    FlagsKept (allocBlocks std tensors tmps tmpBuffers).placements ↔
      SearchesOk std tensors tmps tmpBuffers := by
  obtain ⟨hinv, hflags⟩ := queState_kept std tensors tmpBuffers
  have hcalc := @foldl_iff_eachStep MemReuseState TensorGroup (allocCalcGroup std) (CalcStepOk std)
    BlockInv (fun s => FlagsKept s.placements) _ (fun _ _ h => allocCalcGroup_inv h)
    (fun _ _ h => allocCalcGroup_flags h) (blockInv_tmp std hinv tmps)
    (std.sort startsEarlier (mergeTensorByGroupId std tensors).2.2)
  have htmp := @foldl_iff_eachStep MemReuseState (ℕ × TensorInfo) (allocTmpGroup std) (TmpStepOk std)
    BlockInv (fun s => FlagsKept s.placements) _ (fun _ entry h => allocTmpGroup_inv h entry)
    (fun _ entry h => allocTmpGroup_flags h entry) hinv tmps.entries
  unfold SearchesOk
  exact hcalc.trans (and_congr_left fun _ => htmp.trans (and_iff_right hflags))

theorem tensorsOnly_temp (hgroup : group ∈ tempGroups tensors) : TensorsOnly group := by
  intro info hinfo buff hkey
  have hmem : info ∈ infosOf (tempGroups tensors) := mem_flatMap.mpr ⟨group, hgroup, hinfo⟩
  obtain ⟨entry, -, rfl⟩ := mem_map.mp ((tempGroups_inv tensors).infos.mem_iff.mp hmem)
  exact InfoKey.noConfusion hkey

theorem tmpIds_allocBlocks (std : StdLib) (tensors tmps : InfoMap) (tmpBuffers : ℕ → TmpBufferMem) :
    TmpIds (allocBlocks std tensors tmps tmpBuffers) := by
  have hvisit : ∀ group ∈ std.visit (tempGroups tensors), TensorsOnly group := fun group hgroup =>
    tensorsOnly_temp ((std.visit_perm _).mem_iff.mp hgroup)
  have hque : TmpIds (queState std tensors tmpBuffers) := by
    refine tmpIds_que (fun group hgroup => hvisit group (mem_filter.mp hgroup).1) ?_
    refine tmpIds_que (fun group hgroup => hvisit group (mem_filter.mp hgroup).1) ?_
    exact fun p hp => absurd hp not_mem_nil
  -- so far the queues hold tensors only
  have hfresh : ∀ entry ∈ tmps.entries, TmpFresh (queState std tensors tmpBuffers) entry.1 := by
    intro entry _ p hp info hinfo
    have hplaced : p.group ∈ placedGroups (queState std tensors tmpBuffers) := mem_map_of_mem hp
    unfold queState at hplaced
    rw [placedGroups_que, placedGroups_que] at hplaced
    have hgroup : p.group ∈ std.visit (tempGroups tensors) := by
      rcases mem_append.mp hplaced with hplaced | hplaced
      · rcases mem_append.mp hplaced with hplaced | hplaced
        · exact absurd hplaced not_mem_nil
        · exact (mem_filter.mp ((std.sort_perm _ _).mem_iff.mp hplaced)).1
      · exact (mem_filter.mp ((std.sort_perm _ _).mem_iff.mp hplaced)).1
    exact hvisit p.group hgroup info hinfo entry.1
  have htmp : TmpIds (allocTmpBuff std (queState std tensors tmpBuffers) tmps) :=
    tmpIds_tmp tmps.keys_nodup hfresh hque
  exact tmpIds_calc (fun group hgroup => hvisit group (mem_filter.mp hgroup).1) htmp

theorem mem_typeOrder (std : StdLib) (t : MemoryType) : t ∈ std.typeOrder := by
  rw [std.typeOrder_perm.mem_iff]
  cases t <;> simp

/-! ## A group whose flags disagree -/

theorem pairwise_insertionSort {α : Type} {less : α → α → Bool} (h : StrictWeak less) (l : List α) :
    (l.insertionSort fun a b => less b a = false).Pairwise fun a b => less b a = false := by
  have htotal : Std.Total fun a b => less b a = false := by
    refine ⟨fun a b => ?_⟩
    cases hba : less b a with
    | false => exact .inl rfl
    | true =>
      right
      refine Bool.eq_false_iff.mpr fun hab => ?_
      have hself := h.trans a b a hab hba
      rw [h.irrefl a] at hself
      exact Bool.false_ne_true hself
  have htrans : IsTrans α fun a b => less b a = false := by
    refine ⟨fun a b c hba hcb => Bool.eq_false_iff.mpr fun hca => ?_⟩
    rcases h.cotrans c b a hca with hlt | hlt
    · exact Bool.false_ne_true (hcb.symm.trans hlt)
    · exact Bool.false_ne_true (hba.symm.trans hlt)
  exact List.pairwise_insertionSort _ _

/-- A library that sorts by insertion and visits a map in the order of insertion. -/
def insertionStd : StdLib where
  sort less l := l.insertionSort fun a b => less b a = false
  visit l := l
  typeOrder := [.copyIn, .copyOut, .calc, .tmpBuff, .loopTmpBuff]
  sort_perm _ l := perm_insertionSort _ l
  sort_sorted _ l h := pairwise_insertionSort h l
  visit_perm l := Perm.refl l
  typeOrder_perm := Perm.refl _

/-- Two tensors of one group, of which one cannot reuse others, and a later tensor. -/
def mixedTensors : InfoMap where
  entries := [
    (1, { groupId := 7, lifeStart := 0, lifeEnd := 1, memPosition := .vecCalc }),
    (2, { groupId := 7, lifeStart := 0, lifeEnd := 1, memPosition := .vecCalc, isCanReuseOthers := false }),
    (3, { groupId := 8, lifeStart := 2, lifeEnd := 3, memPosition := .vecCalc })]
  sorted := by decide

def noTmps : InfoMap := ⟨[], List.Pairwise.nil⟩

end GraphAutofusion.Autofuse
