import GraphAutofusion.Autofuse.MemReuseRun

/-!
# Autofuse.MemReuseFlags — when the reuse flags are honoured

Queues honour both flags. The searches for temporary buffers and for the blocks of calc groups test
lifetimes alone, and a temporary buffer that cannot reuse others is not asked. So the flags are
honoured iff none of these searches returns a block that holds a group that is not reusable, and
none returns any to such a buffer.
-/

namespace GraphAutofusion.Autofuse

open Lib

variable {std : StdLib} {s : MemReuseState} {t : MemoryType} {group : TensorGroup}

/-! ## One group of a queue -/

theorem allocQueGroup_cases (std : StdLib) (t : MemoryType) (s : MemReuseState × ℤ)
    (group : TensorGroup) :
    (allocQueGroup std t s group).1 = createMemBlockByType s.1 group t ∨
      ∃ ref grow, ref ∈ blockRefs s.1 ref.memType ∧ group.groupIsCanReuseOthers = true ∧
        (∀ other ∈ ref.block.tensorGroups, other.groupIsReusable = true) ∧
        (allocQueGroup std t s group).1 = joinBlock s.1 ref group grow := by
  unfold allocQueGroup
  split
  · exact .inl rfl
  · next hcan =>
    split
    · next best hbest =>
      obtain ⟨href, hok⟩ := selectBestMemoryBlock_spec hbest
      have hself : best ∈ blockRefs s.1 best.memType := by
        rw [(mem_blockRefs.mp href).1]
        exact href
      refine .inr ⟨best, fun level => maxLevel level group.maxSizeLevel, hself, ?_, ?_, rfl⟩
      · simpa using hcan
      · exact reusable_of_lifetimesOk hok
    · exact .inl rfl

theorem allocQueGroup_kept {s : MemReuseState × ℤ} (h : BlockInv s.1 ∧ FlagsKept s.1.placements) :
    BlockInv (allocQueGroup std t s group).1 ∧
      FlagsKept (allocQueGroup std t s group).1.placements := by
  rcases allocQueGroup_cases std t s group with heq | ⟨ref, grow, href, hcan, hreusable, heq⟩
  · rw [heq]
    exact ⟨h.1.create group t, (flagsKept_create h.1).mpr h.2⟩
  · rw [heq]
    refine ⟨h.1.join href, (flagsKept_join h.1 href).mpr ⟨h.2, fun other hother => ?_⟩⟩
    exact ⟨hreusable other hother, hcan⟩

theorem allocForTQue_kept (h : BlockInv s ∧ FlagsKept s.placements) (groups : List TensorGroup) :
    BlockInv (allocForTQue std t s groups) ∧ FlagsKept (allocForTQue std t s groups).placements :=
  @foldl_inv (MemReuseState × ℤ) TensorGroup (allocQueGroup std t)
    (fun s => BlockInv s.1 ∧ FlagsKept s.1.placements) (s, -1) _ (fun _ _ _ h => allocQueGroup_kept h) h

/-! ## One calc group -/

/-- The block that the search of `AllocForCalc` finds holds reusable groups only. -/
def CalcStepOk (std : StdLib) (s : MemReuseState) (group : TensorGroup) : Prop :=
  group.groupIsCanReuseOthers = true → ∀ ref, (chooseCalcBlock std s group).2 = some ref →
    ∀ other ∈ ref.block.tensorGroups, other.groupIsReusable = true

theorem allocCalcGroup_cases (std : StdLib) (s : MemReuseState) (group : TensorGroup) :
    (group.groupIsCanReuseOthers = false ∧
      allocCalcGroup std s group = createMemBlockByType s group .calc) ∨
    (group.groupIsCanReuseOthers = true ∧ (chooseCalcBlock std s group).2 = none ∧
      allocCalcGroup std s group = createMemBlockByType (chooseCalcBlock std s group).1 group .calc) ∨
    (group.groupIsCanReuseOthers = true ∧ ∃ ref grow, (chooseCalcBlock std s group).2 = some ref ∧
      allocCalcGroup std s group = joinBlock (chooseCalcBlock std s group).1 ref group grow) := by
  unfold allocCalcGroup
  cases hcan : group.groupIsCanReuseOthers with
  | false => exact .inl ⟨rfl, rfl⟩
  | true =>
    right
    cases hchoose : (chooseCalcBlock std s group).2 with
    | none =>
      have hpair : chooseCalcBlock std s group = ((chooseCalcBlock std s group).1, none) :=
        Prod.ext rfl hchoose
      refine .inl ⟨rfl, rfl, ?_⟩
      rw [hpair]
      rfl
    | some ref =>
      have hpair : chooseCalcBlock std s group = ((chooseCalcBlock std s group).1, some ref) :=
        Prod.ext rfl hchoose
      refine .inr ⟨rfl, ref, fun level => maxLevel level group.maxSizeLevel, rfl, ?_⟩
      rw [hpair]
      rfl

theorem allocCalcGroup_inv (h : BlockInv s) : BlockInv (allocCalcGroup std s group) := by
  have hfound : BlockInv (chooseCalcBlock std s group).1 := h.findTmp group
  rcases allocCalcGroup_cases std s group with ⟨-, heq⟩ | ⟨-, -, heq⟩ | ⟨-, ref, grow, href, heq⟩
  · rw [heq]
    exact h.create group .calc
  · rw [heq]
    exact hfound.create group .calc
  · rw [heq]
    exact hfound.join (chooseCalcBlock_spec href)

theorem allocCalcGroup_flags (h : BlockInv s) :
    FlagsKept (allocCalcGroup std s group).placements ↔
      FlagsKept s.placements ∧ CalcStepOk std s group := by
  have hfound : BlockInv (chooseCalcBlock std s group).1 := h.findTmp group
  have hsame : (chooseCalcBlock std s group).1.placements = s.placements := placements_findTmp std s group
  unfold CalcStepOk
  rcases allocCalcGroup_cases std s group with ⟨hcan, heq⟩ | ⟨-, hnone, heq⟩ | ⟨hcan, ref, grow, href, heq⟩
  · rw [heq, flagsKept_create h, hcan]
    exact (and_iff_left fun hcan => absurd hcan (by simp)).symm
  · rw [heq, flagsKept_create hfound, hsame, hnone]
    exact (and_iff_left fun _ ref href => absurd href (by simp)).symm
  · rw [heq, flagsKept_join hfound (chooseCalcBlock_spec href), hsame, href]
    refine and_congr_right fun _ => ⟨fun hall _ ref' href' other hother => ?_, fun hok other hother => ?_⟩
    · rw [← Option.some.inj href'] at hother
      exact (hall other hother).1
    · exact ⟨hok hcan ref rfl other hother, hcan⟩

/-! ## One temporary buffer -/

def tmpGroup (entry : ℕ × TensorInfo) : TensorGroup := groupOf (.tmpBuffer entry.1) entry.2

/-- A block that the search finds for a temporary buffer holds reusable groups only, and the buffer can
reuse others. -/
def TmpStepOk (std : StdLib) (s : MemReuseState) (entry : ℕ × TensorInfo) : Prop :=
  entry.2.groupId = -1 → ∀ ref,
    (findCandidateTmpBuffBlockWithSizeCheck std s (tmpGroup entry)).2.head? = some ref →
      ∀ other ∈ ref.block.tensorGroups,
        other.groupIsReusable = true ∧ entry.2.isCanReuseOthers = true

theorem findCandidateTmpBuffBlock_empty (h : (s.typeBlocks .tmpBuff).isEmpty = true) :
    (findCandidateTmpBuffBlockWithSizeCheck std s group).2 = [] := by
  have hnil : s.typeBlocks .tmpBuff = [] := List.isEmpty_iff.mp h
  unfold findCandidateTmpBuffBlockWithSizeCheck
  split
  · rfl
  · simp [blockRefs, sortTmpBlocks, hnil]

theorem allocTmpGroup_cases (std : StdLib) (s : MemReuseState) (entry : ℕ × TensorInfo) :
    (∃ s' t, (s' = s ∨ s' = (findCandidateTmpBuffBlockWithSizeCheck std s (tmpGroup entry)).1) ∧
      (entry.2.groupId ≠ -1 ∨
        (findCandidateTmpBuffBlockWithSizeCheck std s (tmpGroup entry)).2.head? = none) ∧
      allocTmpGroup std s entry = createTmpBlock s' entry.1 (tmpGroup entry) t ∧ t.isQue = false) ∨
    ∃ ref, entry.2.groupId = -1 ∧
      (findCandidateTmpBuffBlockWithSizeCheck std s (tmpGroup entry)).2.head? = some ref ∧
      allocTmpGroup std s entry =
        joinBlock (setTmpId (findCandidateTmpBuffBlockWithSizeCheck std s (tmpGroup entry)).1 entry.1
          ref.block.id) ref (tmpGroup entry) id := by
  unfold allocTmpGroup
  by_cases hid : entry.2.groupId = -1
  · by_cases hempty : (s.typeBlocks .tmpBuff).isEmpty = true
    · refine .inl ⟨s, .tmpBuff, .inl rfl, .inr ?_, ?_, rfl⟩
      · rw [findCandidateTmpBuffBlock_empty hempty]
        rfl
      · exact (if_neg (not_not.mpr hid)).trans (if_pos hempty)
    · cases hfound : findCandidateTmpBuffBlockWithSizeCheck std s (tmpGroup entry) with
      | mk s' refs =>
        have hgroup : findCandidateTmpBuffBlockWithSizeCheck std s (groupOf (.tmpBuffer entry.1) entry.2)
            = (s', refs) := hfound
        cases refs with
        | nil =>
          refine .inl ⟨s', .tmpBuff, .inr rfl, .inr rfl, ?_, rfl⟩
          refine (if_neg (not_not.mpr hid)).trans ((if_neg hempty).trans ?_)
          rw [hgroup]
          rfl
        | cons ref refs =>
          refine .inr ⟨ref, hid, rfl, ?_⟩
          refine (if_neg (not_not.mpr hid)).trans ((if_neg hempty).trans ?_)
          rw [hgroup]
          rfl
  · exact .inl ⟨s, .loopTmpBuff, .inl rfl, .inl hid, if_pos hid, rfl⟩

theorem allocTmpGroup_inv (h : BlockInv s) (entry : ℕ × TensorInfo) :
    BlockInv (allocTmpGroup std s entry) := by
  have hfound : BlockInv (findCandidateTmpBuffBlockWithSizeCheck std s (tmpGroup entry)).1 := h.findTmp _
  rcases allocTmpGroup_cases std s entry with ⟨s', t, hs', -, heq, -⟩ | ⟨ref, -, href, heq⟩
  · rw [heq]
    rcases hs' with rfl | rfl
    · exact (h.setTmpId _ _).create _ t
    · exact (hfound.setTmpId _ _).create _ t
  · rw [heq]
    have hmem := findCandidateTmpBuffBlock_mem (List.mem_of_head? href)
    refine (hfound.setTmpId _ _).join ?_
    rw [(mem_blockRefs.mp hmem).1]
    exact hmem

theorem allocTmpGroup_flags (h : BlockInv s) (entry : ℕ × TensorInfo) :
    FlagsKept (allocTmpGroup std s entry).placements ↔
      FlagsKept s.placements ∧ TmpStepOk std s entry := by
  have hfound : BlockInv (findCandidateTmpBuffBlockWithSizeCheck std s (tmpGroup entry)).1 := h.findTmp _
  unfold TmpStepOk
  rcases allocTmpGroup_cases std s entry with ⟨s', t, hs', hno, heq, -⟩ | ⟨ref, hid, href, heq⟩
  · have hcreate : FlagsKept (createTmpBlock s' entry.1 (tmpGroup entry) t).placements ↔
        FlagsKept s.placements := by
      rcases hs' with rfl | rfl
      · exact flagsKept_create (h.setTmpId _ _)
      · rw [createTmpBlock, flagsKept_create (hfound.setTmpId _ _)]
        show FlagsKept (findCandidateTmpBuffBlockWithSizeCheck std s (tmpGroup entry)).1.placements ↔ _
        rw [placements_findTmp]
    rw [heq, hcreate]
    refine (and_iff_left fun hid ref href => ?_).symm
    rcases hno with hno | hno
    · exact absurd hid hno
    · rw [hno] at href
      exact absurd href (by simp)
  · have hmem := findCandidateTmpBuffBlock_mem (List.mem_of_head? href)
    have hself : ref ∈ blockRefs (setTmpId (findCandidateTmpBuffBlockWithSizeCheck std s
        (tmpGroup entry)).1 entry.1 ref.block.id) ref.memType := by
      rw [(mem_blockRefs.mp hmem).1]
      exact hmem
    rw [heq, flagsKept_join (hfound.setTmpId _ _) hself, href]
    show FlagsKept (findCandidateTmpBuffBlockWithSizeCheck std s (tmpGroup entry)).1.placements ∧ _ ↔ _
    rw [placements_findTmp]
    refine and_congr_right fun _ => ⟨fun hall _ ref' href' other hother => ?_, fun hok => ?_⟩
    · rw [← Option.some.inj href'] at hother
      exact hall other hother
    · exact hok hid ref rfl

end GraphAutofusion.Autofuse
