import GraphAutofusion.Lib.Fuel
import GraphAutofusion.SuperKernel.JitLaunch
import Mathlib.Tactic.Ring

/-!
# SuperKernel.JitWorkspace — the workspace of the fed synchronisations

With `feed-sync-all` each sub operator has a slot of 64 bytes for its cube cores and one for its
vector cores. The workspace is doubled until it is larger than the slots need, and the generated code
clears it at the start: each core copies blocks of 512 zero bytes to its part. The size of a part is a
`uint32_t` there.
-/

namespace GraphAutofusion.SuperKernel

open Lib

/-- The loop of `get_ws_size`. -/
def growBaseSize (blockNum totalNeedSize : ℕ) : ℕ → ℕ → Option ℕ
  | 0, _ => none
  | fuel + 1, baseSize =>
    if blockNum * baseSize ≤ totalNeedSize then growBaseSize blockNum totalNeedSize fuel (baseSize * 2)
    else some baseSize

/-- `opNum` is the number of sub operators. -/
def getWsSize (opNum blockNum fuel : ℕ) : Option ℕ :=
  (growBaseSize blockNum (opNum * 128) fuel 512).map fun baseSize => blockNum * baseSize

/-- The blocks that `get_ws_size` is asked for. -/
def wsBlockNum (info : LaunchInfo) : ℕ :=
  match info.kernelType with
  | .mixAiv10 | .mixAic10 | .mixAic11 | .aicOnly | .aivOnly => info.blockNum
  | .mixAic12 | .default => info.blockNum * 2

def calcWorkspaceSize (feedSyncAll : Bool) (info : LaunchInfo) (opNum fuel : ℕ) : Option ℕ :=
  if feedSyncAll then getWsSize opNum (wsBlockNum info) fuel else some 0

/-- The first byte of the slot of a sub operator. -/
def slotStart (opNum : ℕ) (isAiv : Bool) (index : ℕ) : ℕ :=
  if isAiv then opNum * 64 + index * 64 else index * 64

/-- The generated code that clears the workspace: how many cores run it, and how many bytes belong to
each of them. -/
structure ClearPlan where
  cores : ℕ
  sizePerCore : ℕ

/-- `get_block_num()` is the number of blocks of the launch. -/
def genClearSyncallWorkspace (info : LaunchInfo) (workspaceSize : ℕ) : ClearPlan :=
  match info.kernelType with
  | .mixAic10 => ⟨info.aicCores, workspaceSize / info.blockNum % 2 ^ 32⟩
  | .mixAiv10 | .mixAic11 => ⟨info.aivCores, workspaceSize / info.blockNum % 2 ^ 32⟩
  | .mixAic12 | .aicOnly | .aivOnly | .default =>
    ⟨info.aivCores, workspaceSize / 2 / info.blockNum % 2 ^ 32⟩

/-- The core clears the byte with one of its copies of 512 bytes. -/
def ClearPlan.Clears (plan : ClearPlan) (core byte : ℕ) : Prop :=
  core < plan.cores ∧ plan.sizePerCore * core ≤ byte ∧
    byte < plan.sizePerCore * core + plan.sizePerCore / 512 * 512

/-- What the launch needs of its workspace. -/
structure FeedSyncSafe (info : LaunchInfo) (opNum workspaceSize : ℕ) : Prop where
  slots : ∀ isAiv, ∀ i < opNum, slotStart opNum isAiv i + 64 ≤ workspaceSize
  disjoint : ∀ isAiv isAiv', ∀ i < opNum, ∀ j < opNum, (isAiv, i) ≠ (isAiv', j) →
    slotStart opNum isAiv i + 64 ≤ slotStart opNum isAiv' j ∨
      slotStart opNum isAiv' j + 64 ≤ slotStart opNum isAiv i
  cleared : ∀ byte < 128 * opNum, ∃ core, (genClearSyncallWorkspace info workspaceSize).Clears core byte
  inside : ∀ core byte, (genClearSyncallWorkspace info workspaceSize).Clears core byte →
    byte < workspaceSize
  once : ∀ core core' byte, (genClearSyncallWorkspace info workspaceSize).Clears core byte →
    (genClearSyncallWorkspace info workspaceSize).Clears core' byte → core = core'

/-- The kinds that a super kernel can get. -/
def IsLaunchType (type : SkKernelType) : Prop :=
  type = .mixAiv10 ∨ type = .mixAic10 ∨ type = .mixAic11 ∨ type = .mixAic12

section Workspace

variable {info : LaunchInfo} {opNum blockNum total : ℕ}

/-- The loop ends at the first doubling that is large enough. -/
theorem growBaseSize_ends (hblock : 0 < blockNum) {baseSize : ℕ} (hbase : 0 < baseSize) :
    ∃ doublings, total < blockNum * (baseSize * 2 ^ doublings) ∧
      (doublings = 0 ∨ blockNum * (baseSize * 2 ^ (doublings - 1)) ≤ total) ∧
      FuelRun (fun fuel => growBaseSize blockNum total fuel baseSize) (total + 1 - baseSize)
        (baseSize * 2 ^ doublings) := by
  induction hsize : total + 1 - baseSize using Nat.strongRecOn generalizing baseSize with
  | ind size ih =>
    subst hsize
    by_cases hgo : blockNum * baseSize ≤ total
    · have hle : baseSize ≤ blockNum * baseSize := Nat.le_mul_of_pos_left baseSize hblock
      obtain ⟨doublings, hlarge, hfirst, hrun⟩ :=
        ih (total + 1 - baseSize * 2) (by omega) (by omega : 0 < baseSize * 2) rfl
      have hshift : baseSize * 2 * 2 ^ doublings = baseSize * 2 ^ (doublings + 1) := by ring
      rw [hshift] at hlarge hrun
      refine ⟨doublings + 1, hlarge, .inr ?_, hrun.round rfl (fun fuel => ?_) (by omega)⟩
      · rw [Nat.add_sub_cancel]
        rcases hfirst with rfl | hfirst
        · rwa [pow_zero, mul_one]
        · cases doublings with
          | zero => rwa [pow_zero, mul_one]
          | succ doublings =>
            rw [Nat.add_sub_cancel] at hfirst
            rwa [show baseSize * 2 ^ (doublings + 1) = baseSize * 2 * 2 ^ doublings by ring]
      · rw [growBaseSize, if_pos hgo]
    · refine ⟨0, ?_, .inl rfl, FuelRun.stop rfl fun fuel => ?_⟩
      · rw [pow_zero, mul_one]
        omega
      · rw [growBaseSize, if_neg hgo, pow_zero, mul_one]

theorem wsBlockNum_pos (hblock : 0 < info.blockNum) : 0 < wsBlockNum info := by
  unfold wsBlockNum
  split
  all_goals omega

/-- As many cores clear the workspace as it has parts, and each part is one base size. -/
theorem genClearSyncallWorkspace_eq (htype : IsLaunchType info.kernelType) (hblock : 0 < info.blockNum)
    (baseSize : ℕ) :
    genClearSyncallWorkspace info (wsBlockNum info * baseSize) =
      ⟨wsBlockNum info, baseSize % 2 ^ 32⟩ := by
  have hpart : info.blockNum * baseSize / info.blockNum = baseSize :=
    Nat.mul_div_cancel_left baseSize hblock
  unfold genClearSyncallWorkspace wsBlockNum LaunchInfo.aicCores LaunchInfo.aivCores
  rcases htype with h | h | h | h
  · simp only [h, hpart]
  · simp only [h, hpart]
  · simp only [h, hpart]
  · -- half of the workspace belongs to the first vector core of each block
    have hhalf : info.blockNum * 2 * baseSize / 2 = info.blockNum * baseSize := by
      rw [Nat.mul_right_comm, Nat.mul_div_cancel _ (by decide)]
    simp only [h, hhalf, hpart, mul_comm 2]

/-- The slots lie one after the other in the first bytes. -/
theorem slotStart_le (isAiv : Bool) {i : ℕ} (hi : i < opNum) :
    slotStart opNum isAiv i + 64 ≤ 128 * opNum := by
  unfold slotStart
  split
  · omega
  · omega

theorem slotStart_disjoint {isAiv isAiv' : Bool} {i j : ℕ} (hi : i < opNum) (hj : j < opNum)
    (hne : (isAiv, i) ≠ (isAiv', j)) :
    slotStart opNum isAiv i + 64 ≤ slotStart opNum isAiv' j ∨
      slotStart opNum isAiv' j + 64 ≤ slotStart opNum isAiv i := by
  unfold slotStart
  have hij : isAiv = isAiv' → i ≠ j := fun hsame hindex => hne (by rw [hsame, hindex])
  cases isAiv with
  | false =>
    cases isAiv' with
    | false =>
      have hne' := hij rfl
      simp only [Bool.false_eq_true, if_false]
      omega
    | true =>
      simp only [Bool.false_eq_true, if_false, if_true]
      omega
  | true =>
    cases isAiv' with
    | false =>
      simp only [Bool.false_eq_true, if_false, if_true]
      omega
    | true =>
      have hne' := hij rfl
      simp only [if_true]
      omega

/-- Parts of the same size cover the workspace without gaps and without overlaps. -/
theorem clears_parts {cores sizePerCore : ℕ} (hsize : 0 < sizePerCore) (hdvd : 512 ∣ sizePerCore) :
    (∀ byte < cores * sizePerCore, ∃ core, (ClearPlan.mk cores sizePerCore).Clears core byte) ∧
      ∀ core byte, (ClearPlan.mk cores sizePerCore).Clears core byte →
        byte < cores * sizePerCore ∧ core = byte / sizePerCore := by
  have hround : sizePerCore / 512 * 512 = sizePerCore := Nat.div_mul_cancel hdvd
  constructor
  · intro byte hbyte
    refine ⟨byte / sizePerCore, ?_, ?_, ?_⟩
    · exact (Nat.div_lt_iff_lt_mul hsize).mpr hbyte
    · exact Nat.mul_div_le byte sizePerCore
    · show byte < sizePerCore * (byte / sizePerCore) + sizePerCore / 512 * 512
      rw [hround]
      have hlt := Nat.lt_mul_div_succ byte hsize
      rwa [mul_add, mul_one] at hlt
  · intro core byte hclears
    obtain ⟨hcore, hlow, hhigh⟩ := hclears
    dsimp only at hcore hlow hhigh
    rw [hround] at hhigh
    have hpart : sizePerCore * core + sizePerCore = sizePerCore * (core + 1) := by ring
    rw [hpart] at hhigh
    constructor
    · have hle := Nat.mul_le_mul_left sizePerCore (Nat.succ_le_of_lt hcore)
      rw [mul_comm cores]
      exact lt_of_lt_of_le hhigh hle
    · refine (Nat.div_eq_of_lt_le ?_ ?_).symm
      · rw [mul_comm]
        exact hlow
      · rw [mul_comm]
        exact hhigh

/-- The workspace of the launch is found, and it is what the launch needs. -/
def FeedSyncSupported (info : LaunchInfo) (opNum : ℕ) : Prop :=
  ∃ size workspaceSize, (∀ fuel, size < fuel →
      calcWorkspaceSize true info opNum fuel = some workspaceSize) ∧
    FeedSyncSafe info opNum workspaceSize

/-- The workspace that is found, and when its parts fit the type of their size. -/
theorem exists_workspace (hblock : 0 < info.blockNum) (opNum : ℕ) :
    ∃ doublings, opNum * 128 < wsBlockNum info * (512 * 2 ^ doublings) ∧
      (512 * 2 ^ doublings < 2 ^ 32 ↔ opNum < 2 ^ 24 * wsBlockNum info) ∧
      FuelRun (calcWorkspaceSize true info opNum) (opNum * 128 + 1 - 512)
        (wsBlockNum info * (512 * 2 ^ doublings)) := by
  obtain ⟨doublings, hlarge, hfirst, hrun⟩ :=
    @growBaseSize_ends _ (opNum * 128) (wsBlockNum_pos hblock) 512 (by decide)
  refine ⟨doublings, hlarge, ?_, hrun.map _⟩
  constructor
  · intro hsmall
    -- at most twenty-two doublings
    have hle : 2 ^ doublings ≤ 2 ^ 22 := by
      refine Nat.pow_le_pow_right (by decide) ?_
      by_contra hmany
      have hpow : 2 ^ 23 ≤ 2 ^ doublings := Nat.pow_le_pow_right (by decide) (by omega)
      omega
    have hmul := Nat.mul_le_mul_left (wsBlockNum info) (Nat.mul_le_mul_left 512 hle)
    omega
  · intro hfew
    by_contra hbig
    have hmany : 23 ≤ doublings := by
      by_contra hlt
      have hpow : 2 ^ doublings ≤ 2 ^ 22 := Nat.pow_le_pow_right (by decide) (by omega)
      omega
    have hbefore : wsBlockNum info * (512 * 2 ^ (doublings - 1)) ≤ opNum * 128 :=
      hfirst.resolve_left (by omega)
    have hpow : 2 ^ 22 ≤ 2 ^ (doublings - 1) := Nat.pow_le_pow_right (by decide) (by omega)
    have hmul := Nat.mul_le_mul_left (wsBlockNum info) (Nat.mul_le_mul_left 512 hpow)
    omega

/-- The workspace is right while its parts fit the type. -/
theorem FeedSyncSupported.of_few (htype : IsLaunchType info.kernelType) (hblock : 0 < info.blockNum)
    (hfew : opNum < 2 ^ 24 * wsBlockNum info) : FeedSyncSupported info opNum := by
  obtain ⟨doublings, hlarge, hfits, hrun⟩ := exists_workspace hblock opNum
  have hsmall := hfits.mpr hfew
  have hbase : 0 < 512 * 2 ^ doublings := mul_pos (by decide) (Nat.pow_pos (by decide))
  refine ⟨_, _, hrun.enough, ?_⟩
  have hplan := genClearSyncallWorkspace_eq htype hblock (512 * 2 ^ doublings)
  rw [Nat.mod_eq_of_lt hsmall] at hplan
  obtain ⟨hcover, hpart⟩ := @clears_parts (wsBlockNum info) _ hbase (dvd_mul_right 512 _)
  refine ⟨fun isAiv i hi => ?_, fun isAiv isAiv' i hi j hj hne => ?_, ?_, ?_, ?_⟩
  · have hle := slotStart_le isAiv hi
    omega
  · exact slotStart_disjoint hi hj hne
  · intro byte hbyte
    rw [hplan]
    exact hcover byte (by omega)
  · intro core byte hclears
    rw [hplan] at hclears
    exact (hpart core byte hclears).1
  · intro core core' byte hclears hclears'
    rw [hplan] at hclears hclears'
    rw [(hpart core byte hclears).2, (hpart core' byte hclears').2]

/-- With more sub operators the size of a part is zero in its type, and nothing is cleared. -/
theorem FeedSyncSupported.few (htype : IsLaunchType info.kernelType) (hblock : 0 < info.blockNum)
    (h : FeedSyncSupported info opNum) : opNum < 2 ^ 24 * wsBlockNum info := by
  obtain ⟨size, workspaceSize, hrun, hsafe⟩ := h
  obtain ⟨doublings, hlarge, hfits, hends⟩ := exists_workspace hblock opNum
  obtain rfl := hends.only _ _ (hrun (size + 1) (by omega))
  refine hfits.mp ?_
  by_contra hbig
  have hmany : 23 ≤ doublings := by
    by_contra hlt
    have hpow : 2 ^ doublings ≤ 2 ^ 22 := Nat.pow_le_pow_right (by decide) (by omega)
    omega
  have hzero : 512 * 2 ^ doublings % 2 ^ 32 = 0 := by
    obtain ⟨more, rfl⟩ : ∃ more, doublings = 23 + more := ⟨doublings - 23, by omega⟩
    rw [pow_add, ← mul_assoc]
    exact Nat.mul_mod_right (512 * 2 ^ 23) _
  have hops : 0 < opNum := by
    have hpos := wsBlockNum_pos hblock
    by_contra hnone
    exact hbig (hfits.mpr (by omega))
  obtain ⟨core, -, -, hbyte⟩ := hsafe.cleared 0 (by omega)
  rw [genClearSyncallWorkspace_eq htype hblock, hzero] at hbyte
  have hnone : 0 < 0 * core + 0 / 512 * 512 := hbyte
  rw [zero_mul] at hnone
  exact absurd hnone (by decide)

/-- The slots lie in cleared workspace exactly while there are fewer than 2^24 sub operators for each
core that clears. -/
theorem feedSyncSupported_iff (htype : IsLaunchType info.kernelType) (hblock : 0 < info.blockNum) :
    FeedSyncSupported info opNum ↔ opNum < 2 ^ 24 * wsBlockNum info :=
  ⟨fun h => h.few htype hblock, fun h => FeedSyncSupported.of_few htype hblock h⟩

theorem feedSyncSupported_iff_mix12 :
    FeedSyncSupported ⟨.mixAic12, 24⟩ 100 ↔ 100 < 2 ^ 24 * wsBlockNum ⟨.mixAic12, 24⟩ :=
  feedSyncSupported_iff (.inr (.inr (.inr rfl))) (by decide)

/-- One block and 2^24 sub operators: the part of the core has 2^32 bytes. -/
theorem not_feedSyncSupported_single : ¬ FeedSyncSupported ⟨.mixAiv10, 1⟩ (2 ^ 24) := fun h => by
  have hfew := h.few (.inl rfl) (by decide)
  revert hfew
  decide

end Workspace

end GraphAutofusion.SuperKernel
