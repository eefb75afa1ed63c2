import GraphAutofusion.SuperKernel.Node
import Mathlib.Data.Nat.Bitwise

/-!
# SuperKernel.JitLaunch — the launch geometry of a compiled super kernel

`get_summary_type_and_options` sums up the kinds of the sub operators in a bit mask and takes the
largest demands of cube and vector cores. The kind and the number of blocks of the super kernel follow
from these, and are replaced by those of the options `debug-aic-num` and `debug-aiv-num` when they are
given. The options are checked against the kind from before.
-/

namespace GraphAutofusion.SuperKernel

open List

/-- A sub operator as the launch sees it. -/
structure LaunchOp where
  kernelType : SkKernelType
  known : kernelType ≠ .default
  blockNum : ℕ
  timestampOption : Bool := false
  debugSize : ℤ := 0
  debugOption : String := ""

/-- The options of the super kernel. A missing option is zero. -/
structure DebugOptions where
  debugAicNum : ℕ := 0
  debugAivNum : ℕ := 0

/-- The core counts of the platform. -/
structure SocSpec where
  aiCoreCnt : ℕ
  vectorCoreCnt : ℕ

structure LaunchInfo where
  kernelType : SkKernelType
  blockNum : ℕ
  deriving DecidableEq

inductive LaunchError where
  | ratio (debugAicNum debugAivNum : ℕ)
  | platform (aicOrAiv : String) (debugNum maxNum : ℕ)
  | subOps (caseStr aicOrAiv : String) (debugNum subOpNum : ℕ)
  | unknownRatio (debugAicNum debugAivNum : ℕ)
  deriving DecidableEq

def LaunchError.text : LaunchError → String
  | .ratio debugAicNum debugAivNum =>
    "[Super Kernel][ERROR]: ratio of super kernel options debug-aic-num " ++ toString debugAicNum ++
      " to debug-aiv-num " ++ toString debugAivNum ++
      " is invalid. Should be 1:0 or 0:1 or 1:1 or 1:2."
  | .platform aicOrAiv debugNum maxNum =>
    "[Super Kernel][ERROR]: super kernel option debug-" ++ aicOrAiv ++ "-num " ++ toString debugNum ++
      " exceeds current platform max " ++ aicOrAiv ++ " num " ++ toString maxNum ++ "."
  | .subOps caseStr aicOrAiv debugNum subOpNum =>
    "[Super Kernel][ERROR]: In super kernel " ++ caseStr ++ " case, option debug-" ++ aicOrAiv ++
      "-num " ++ toString debugNum ++ " should not be less than max sub op " ++ aicOrAiv ++ " num " ++
      toString subOpNum ++ "."
  | .unknownRatio debugAicNum debugAivNum =>
    "ERROR: ratio of super kernel debug-aic-num " ++ toString debugAicNum ++ " to debug-aiv-num " ++
      toString debugAivNum ++ " is invalid."

def checkDebugAicAivNumRatio (opts : DebugOptions) : Except LaunchError Unit :=
  if opts.debugAicNum = 0 ∨ opts.debugAivNum = 0 then .ok ()
  else if opts.debugAicNum = opts.debugAivNum then .ok ()
  else if opts.debugAicNum * 2 = opts.debugAivNum then .ok ()
  else .error (.ratio opts.debugAicNum opts.debugAivNum)

def checkDebugAicAivNumExceedPlatformNumBlocks (soc : SocSpec) (opts : DebugOptions) :
    Except LaunchError Unit :=
  if soc.aiCoreCnt < opts.debugAicNum then
    .error (.platform "aic" opts.debugAicNum soc.aiCoreCnt)
  else if soc.vectorCoreCnt < opts.debugAivNum then
    .error (.platform "aiv" opts.debugAivNum soc.vectorCoreCnt)
  else .ok ()

/-- One comparison of an option with the number that the sub operators need. -/
def checkSubOpNum (caseStr aicOrAiv : String) (debugNum subOpNum : ℕ) : Except LaunchError Unit :=
  if debugNum < subOpNum then .error (.subOps caseStr aicOrAiv debugNum subOpNum) else .ok ()

def checkDebugAicAivNumExceedSubOpAicAivNum (opts : DebugOptions) (info : LaunchInfo) :
    Except LaunchError Unit :=
  if opts.debugAicNum = 0 ∧ opts.debugAivNum = 0 then .ok ()
  else
    match info.kernelType with
    | .aicOnly | .mixAic10 => checkSubOpNum "aic" "aic" opts.debugAicNum info.blockNum
    | .aivOnly | .mixAiv10 => checkSubOpNum "aiv" "aiv" opts.debugAivNum info.blockNum
    | .mixAic11 => do
      checkSubOpNum "mix 1:1" "aic" opts.debugAicNum info.blockNum
      checkSubOpNum "mix 1:1" "aiv" opts.debugAivNum info.blockNum
    | .mixAic12 => do
      checkSubOpNum "mix 1:2" "aic" opts.debugAicNum info.blockNum
      checkSubOpNum "mix 1:2" "aiv" opts.debugAivNum (info.blockNum * 2)
    | .default => .ok ()

/-- The kind and the blocks that the options ask for. -/
def applyDebugOptions (opts : DebugOptions) (info : LaunchInfo) : Except LaunchError LaunchInfo :=
  if opts.debugAicNum = 0 ∧ opts.debugAivNum = 0 then .ok info
  else if 0 < opts.debugAicNum ∧ opts.debugAivNum = 0 then .ok ⟨.mixAic10, opts.debugAicNum⟩
  else if opts.debugAicNum = 0 ∧ 0 < opts.debugAivNum then .ok ⟨.mixAiv10, opts.debugAivNum⟩
  else if opts.debugAicNum = opts.debugAivNum then .ok ⟨.mixAic11, opts.debugAicNum⟩
  else if opts.debugAivNum = 2 * opts.debugAicNum then .ok ⟨.mixAic12, opts.debugAicNum⟩
  else .error (.unknownRatio opts.debugAicNum opts.debugAivNum)

def updateSuperkernelBlocknumByDebugOptions (soc : SocSpec) (opts : DebugOptions)
    (info : LaunchInfo) : Except LaunchError LaunchInfo := do
  checkDebugAicAivNumRatio opts
  checkDebugAicAivNumExceedPlatformNumBlocks soc opts
  checkDebugAicAivNumExceedSubOpAicAivNum opts info
  applyDebugOptions opts info

/-- The kind and the blocks before the options. The mask names the kinds of the sub operators. -/
def finaleTypeAndBlockNum (finalKernelType maxAicNum maxAivNum : ℕ) : LaunchInfo :=
  if finalKernelType = 0b1 then ⟨.mixAiv10, maxAivNum⟩
  else if finalKernelType = 0b10 then ⟨.mixAic10, maxAicNum⟩
  else if finalKernelType = 0b100 ∨ finalKernelType = 0b101 then ⟨.mixAiv10, maxAivNum⟩
  else if finalKernelType = 0b1000 ∨ finalKernelType = 0b1010 then ⟨.mixAic10, maxAicNum⟩
  else if finalKernelType = 0b10000 then ⟨.mixAic11, maxAicNum⟩
  else if maxAivNum ≤ maxAicNum then ⟨.mixAic11, maxAicNum⟩
  else
    -- half of the vector cores, rounded up
    let max12AivBlockNum := (maxAivNum + 1) / 2
    ⟨.mixAic12, if max12AivBlockNum ≤ maxAicNum then maxAicNum else max12AivBlockNum⟩

def getFinaleTypeAndBlockNum (soc : SocSpec) (opts : DebugOptions)
    (finalKernelType maxAicNum maxAivNum : ℕ) : Except LaunchError LaunchInfo :=
  updateSuperkernelBlocknumByDebugOptions soc opts
    (finaleTypeAndBlockNum finalKernelType maxAicNum maxAivNum)

namespace LaunchOp

/-- The cube cores that a sub operator needs. -/
def aicNum (op : LaunchOp) : ℕ :=
  match op.kernelType with
  | .aicOnly | .mixAic10 | .mixAic11 | .mixAic12 => op.blockNum
  | .aivOnly | .mixAiv10 | .default => 0

/-- The vector cores that a sub operator needs. -/
def aivNum (op : LaunchOp) : ℕ :=
  match op.kernelType with
  | .aivOnly | .mixAiv10 | .mixAic11 => op.blockNum
  | .mixAic12 => op.blockNum * 2
  | .aicOnly | .mixAic10 | .default => 0

/-- The bit of the kind in the mask. -/
def typeBit (op : LaunchOp) : ℕ :=
  match op.kernelType with
  | .aivOnly => 0b1
  | .aicOnly => 0b10
  | .mixAiv10 => 0b100
  | .mixAic10 => 0b1000
  | .mixAic11 => 0b10000
  | .mixAic12 => 0b100000
  | .default => 0

end LaunchOp

/-- What the loop over the sub operators collects. -/
structure LaunchSummary where
  finalKernelType : ℕ := 0
  maxAicNum : ℕ := 0
  maxAivNum : ℕ := 0
  timestampOption : Bool := false
  debugSize : ℤ := 0
  debugOption : String := ""

/-- The options of a sub operator are added to those there are. -/
def mergeDebugOption (debugOption subOption : String) : String :=
  if debugOption ≠ "" then
    let optionList := debugOption.splitOn ","
    (subOption.splitOn ",").foldl (fun acc option =>
      if option ∈ optionList then acc else acc ++ "," ++ option) debugOption
  else debugOption ++ subOption

def LaunchSummary.add (s : LaunchSummary) (op : LaunchOp) : LaunchSummary :=
  { finalKernelType := s.finalKernelType ||| op.typeBit
    maxAicNum := if s.maxAicNum < op.aicNum then op.aicNum else s.maxAicNum
    maxAivNum := if s.maxAivNum < op.aivNum then op.aivNum else s.maxAivNum
    timestampOption := s.timestampOption || op.timestampOption
    debugSize := if op.timestampOption && s.debugSize < op.debugSize then op.debugSize else s.debugSize
    debugOption :=
      if op.timestampOption then mergeDebugOption s.debugOption op.debugOption else s.debugOption }

def launchSummary (infoBase : List LaunchOp) : LaunchSummary :=
  infoBase.foldl LaunchSummary.add {}

def getSummaryTypeAndOptions (soc : SocSpec) (opts : DebugOptions) (infoBase : List LaunchOp) :
    Except LaunchError (LaunchInfo × LaunchSummary) := do
  let s := launchSummary infoBase
  let info ← getFinaleTypeAndBlockNum soc opts s.finalKernelType s.maxAicNum s.maxAivNum
  return (info, s)

namespace LaunchInfo

/-- The cube cores that a launch brings up. -/
def aicCores (info : LaunchInfo) : ℕ :=
  match info.kernelType with
  | .aicOnly | .mixAic10 | .mixAic11 | .mixAic12 => info.blockNum
  | .aivOnly | .mixAiv10 | .default => 0

/-- The vector cores that a launch brings up. -/
def aivCores (info : LaunchInfo) : ℕ :=
  match info.kernelType with
  | .aivOnly | .mixAiv10 | .mixAic11 => info.blockNum
  | .mixAic12 => 2 * info.blockNum
  | .aicOnly | .mixAic10 | .default => 0

end LaunchInfo

/-! ## What the loop collects -/

section Summary

variable {infoBase : List LaunchOp} {s : LaunchSummary}

/-- The mask has the bits of all kinds, and the maxima are those of the demands. -/
structure SummarisesOps (infoBase : List LaunchOp) (s : LaunchSummary) : Prop where
  bit : ∀ op ∈ infoBase, s.finalKernelType ||| op.typeBit = s.finalKernelType
  aic : ∀ op ∈ infoBase, op.aicNum ≤ s.maxAicNum
  aiv : ∀ op ∈ infoBase, op.aivNum ≤ s.maxAivNum
  aicMet : s.maxAicNum = 0 ∨ ∃ op ∈ infoBase, op.aicNum = s.maxAicNum
  aivMet : s.maxAivNum = 0 ∨ ∃ op ∈ infoBase, op.aivNum = s.maxAivNum

/-- One more sub operator. -/
theorem SummarisesOps.add (h : SummarisesOps infoBase s) (op : LaunchOp) :
    SummarisesOps (infoBase ++ [op]) (s.add op) := by
  have hsplit : ∀ {x : LaunchOp}, x ∈ infoBase ++ [op] → x ∈ infoBase ∨ x = op := fun hx =>
    (mem_append.mp hx).imp_right mem_singleton.mp
  have hold : ∀ {x}, x ∈ infoBase → x ∈ infoBase ++ [op] := fun hx => mem_append_left _ hx
  have hnew : op ∈ infoBase ++ [op] := mem_append_right _ (mem_singleton_self op)
  refine ⟨fun x hx => ?_, fun x hx => ?_, fun x hx => ?_, ?_, ?_⟩
  · show s.finalKernelType ||| op.typeBit ||| x.typeBit = s.finalKernelType ||| op.typeBit
    rcases hsplit hx with hx | rfl
    · rw [Nat.lor_assoc, Nat.lor_comm op.typeBit, ← Nat.lor_assoc, h.bit x hx]
    · rw [Nat.lor_assoc, Nat.or_self]
  · show x.aicNum ≤ if s.maxAicNum < op.aicNum then op.aicNum else s.maxAicNum
    rcases hsplit hx with hx | rfl
    · have hle := h.aic x hx
      split <;> omega
    · split <;> omega
  · show x.aivNum ≤ if s.maxAivNum < op.aivNum then op.aivNum else s.maxAivNum
    rcases hsplit hx with hx | rfl
    · have hle := h.aiv x hx
      split <;> omega
    · split <;> omega
  · show (if s.maxAicNum < op.aicNum then op.aicNum else s.maxAicNum) = 0 ∨ _
    dsimp only [LaunchSummary.add]
    split
    · exact .inr ⟨op, hnew, rfl⟩
    · exact h.aicMet.imp_right fun ⟨x, hx, hmax⟩ => ⟨x, hold hx, hmax⟩
  · show (if s.maxAivNum < op.aivNum then op.aivNum else s.maxAivNum) = 0 ∨ _
    dsimp only [LaunchSummary.add]
    split
    · exact .inr ⟨op, hnew, rfl⟩
    · exact h.aivMet.imp_right fun ⟨x, hx, hmax⟩ => ⟨x, hold hx, hmax⟩

theorem launchSummary_summarises (infoBase : List LaunchOp) :
    SummarisesOps infoBase (launchSummary infoBase) := by
  have hrun : ∀ (done rest : List LaunchOp) (s : LaunchSummary), SummarisesOps done s →
      SummarisesOps (done ++ rest) (rest.foldl LaunchSummary.add s) := by
    intro done rest
    induction rest generalizing done with
    | nil =>
      intro s h
      rwa [append_nil]
    | cons op rest ih =>
      intro s h
      have hnext := ih (done ++ [op]) (s.add op) (h.add op)
      rwa [append_assoc] at hnext
  exact hrun [] infoBase {} ⟨fun _ h => (not_mem_nil h).elim, fun _ h => (not_mem_nil h).elim,
    fun _ h => (not_mem_nil h).elim, .inl rfl, .inl rfl⟩

end Summary

/-! ## The kind before the options -/

/-- What a kind and its blocks say about the sub operators. -/
inductive LaunchFits (infoBase : List LaunchOp) (s : LaunchSummary) : LaunchInfo → Prop
  | vec : (∀ op ∈ infoBase, op.aicNum = 0 ∧ op.kernelType ≠ .mixAic12) →
    LaunchFits infoBase s ⟨.mixAiv10, s.maxAivNum⟩
  | cube : (∀ op ∈ infoBase, op.aivNum = 0 ∧ op.kernelType ≠ .mixAic12) →
    LaunchFits infoBase s ⟨.mixAic10, s.maxAicNum⟩
  | mix11 : s.maxAivNum ≤ s.maxAicNum → LaunchFits infoBase s ⟨.mixAic11, s.maxAicNum⟩
  | mix12 {blockNum : ℕ} : s.maxAicNum < s.maxAivNum → s.maxAicNum ≤ blockNum →
    s.maxAivNum ≤ 2 * blockNum → LaunchFits infoBase s ⟨.mixAic12, blockNum⟩

section Fits

variable {infoBase : List LaunchOp} {s : LaunchSummary}

/-- A mask of vector kinds only. -/
theorem aicNum_of_vecMask {mask : ℕ} (hmask : mask = 0b1 ∨ mask = 0b100 ∨ mask = 0b101) {op : LaunchOp}
    (hbit : mask ||| op.typeBit = mask) : op.aicNum = 0 ∧ op.kernelType ≠ .mixAic12 := by
  have hknown := op.known
  unfold LaunchOp.typeBit at hbit
  unfold LaunchOp.aicNum
  rcases hmask with rfl | rfl | rfl <;> cases htype : op.kernelType <;> simp_all

theorem aivNum_of_cubeMask {mask : ℕ} (hmask : mask = 0b10 ∨ mask = 0b1000 ∨ mask = 0b1010)
    {op : LaunchOp} (hbit : mask ||| op.typeBit = mask) :
    op.aivNum = 0 ∧ op.kernelType ≠ .mixAic12 := by
  have hknown := op.known
  unfold LaunchOp.typeBit at hbit
  unfold LaunchOp.aivNum
  rcases hmask with rfl | rfl | rfl <;> cases htype : op.kernelType <;> simp_all

theorem aivNum_of_mixMask {op : LaunchOp} (hbit : 0b10000 ||| op.typeBit = 0b10000) :
    op.aivNum = op.aicNum := by
  have hknown := op.known
  unfold LaunchOp.typeBit at hbit
  unfold LaunchOp.aivNum LaunchOp.aicNum
  cases htype : op.kernelType <;> simp_all

/-- The kind before the options fits the sub operators. -/
theorem finaleTypeAndBlockNum_fits (h : SummarisesOps infoBase s) :
    LaunchFits infoBase s (finaleTypeAndBlockNum s.finalKernelType s.maxAicNum s.maxAivNum) := by
  unfold finaleTypeAndBlockNum
  by_cases h1 : s.finalKernelType = 0b1
  · rw [if_pos h1]
    exact .vec fun op hop => aicNum_of_vecMask (.inl rfl) (h1 ▸ h.bit op hop)
  rw [if_neg h1]
  by_cases h2 : s.finalKernelType = 0b10
  · rw [if_pos h2]
    exact .cube fun op hop => aivNum_of_cubeMask (.inl rfl) (h2 ▸ h.bit op hop)
  rw [if_neg h2]
  by_cases h3 : s.finalKernelType = 0b100 ∨ s.finalKernelType = 0b101
  · rw [if_pos h3]
    exact .vec fun op hop => aicNum_of_vecMask (.inr h3) (h.bit op hop)
  rw [if_neg h3]
  by_cases h4 : s.finalKernelType = 0b1000 ∨ s.finalKernelType = 0b1010
  · rw [if_pos h4]
    exact .cube fun op hop => aivNum_of_cubeMask (.inr h4) (h.bit op hop)
  rw [if_neg h4]
  by_cases h5 : s.finalKernelType = 0b10000
  · -- all sub operators have the ratio 1:1, so both maxima agree
    rw [if_pos h5]
    refine .mix11 ?_
    rcases h.aivMet with hzero | ⟨op, hop, hmax⟩
    · omega
    · have hsame := aivNum_of_mixMask (h5 ▸ h.bit op hop)
      have hle := h.aic op hop
      omega
  rw [if_neg h5]
  by_cases h6 : s.maxAivNum ≤ s.maxAicNum
  · rw [if_pos h6]
    exact .mix11 h6
  · rw [if_neg h6]
    dsimp only
    split
    · exact .mix12 (by omega) (le_refl _) (by omega)
    · exact .mix12 (by omega) (by omega) (by omega)

end Fits

/-! ## The options -/

section Options

variable {soc : SocSpec} {opts : DebugOptions} {info info' : LaunchInfo}

/-- What an accepted pair of options does. -/
inductive OptionsApplied (opts : DebugOptions) (info : LaunchInfo) : LaunchInfo → Prop
  | none : opts.debugAicNum = 0 → opts.debugAivNum = 0 → OptionsApplied opts info info
  | cube : 0 < opts.debugAicNum → opts.debugAivNum = 0 →
    OptionsApplied opts info ⟨.mixAic10, opts.debugAicNum⟩
  | vec : opts.debugAicNum = 0 → 0 < opts.debugAivNum →
    OptionsApplied opts info ⟨.mixAiv10, opts.debugAivNum⟩
  | mix11 : 0 < opts.debugAicNum → opts.debugAivNum = opts.debugAicNum →
    OptionsApplied opts info ⟨.mixAic11, opts.debugAicNum⟩
  | mix12 : 0 < opts.debugAicNum → opts.debugAivNum = 2 * opts.debugAicNum →
    OptionsApplied opts info ⟨.mixAic12, opts.debugAicNum⟩

theorem applyDebugOptions_ok (h : applyDebugOptions opts info = .ok info') :
    OptionsApplied opts info info' := by
  unfold applyDebugOptions at h
  split at h
  · next hzero =>
    obtain rfl := Except.ok.inj h
    exact .none hzero.1 hzero.2
  · next hzero =>
    split at h
    · next hcube =>
      obtain rfl := Except.ok.inj h
      exact .cube hcube.1 hcube.2
    · next hcube =>
      split at h
      · next hvec =>
        obtain rfl := Except.ok.inj h
        exact .vec hvec.1 hvec.2
      · next hvec =>
        split at h
        · next heq =>
          obtain rfl := Except.ok.inj h
          exact .mix11 (by omega) heq.symm
        · split at h
          · next heq =>
            obtain rfl := Except.ok.inj h
            exact .mix12 (by omega) heq
          · cases h

theorem checkSubOpNum_ok {caseStr aicOrAiv : String} {debugNum subOpNum : ℕ}
    (h : checkSubOpNum caseStr aicOrAiv debugNum subOpNum = .ok ()) : subOpNum ≤ debugNum := by
  unfold checkSubOpNum at h
  split at h
  · cases h
  · omega

/-- Given options are not below the demands that the kind from before stands for. -/
theorem checkExceed_ok (h : checkDebugAicAivNumExceedSubOpAicAivNum opts info = .ok ())
    (hgiven : ¬ (opts.debugAicNum = 0 ∧ opts.debugAivNum = 0)) :
    info.aicCores ≤ opts.debugAicNum ∧ info.aivCores ≤ opts.debugAivNum := by
  obtain ⟨kernelType, blockNum⟩ := info
  unfold checkDebugAicAivNumExceedSubOpAicAivNum at h
  rw [if_neg hgiven] at h
  cases kernelType with
  | aicOnly => exact ⟨checkSubOpNum_ok h, Nat.zero_le _⟩
  | mixAic10 => exact ⟨checkSubOpNum_ok h, Nat.zero_le _⟩
  | aivOnly => exact ⟨Nat.zero_le _, checkSubOpNum_ok h⟩
  | mixAiv10 => exact ⟨Nat.zero_le _, checkSubOpNum_ok h⟩
  | mixAic11 =>
    dsimp only at h
    cases hfirst : checkSubOpNum "mix 1:1" "aic" opts.debugAicNum blockNum with
    | error e =>
      rw [hfirst] at h
      cases h
    | ok u =>
      rw [hfirst] at h
      exact ⟨checkSubOpNum_ok hfirst, checkSubOpNum_ok h⟩
  | mixAic12 =>
    dsimp only at h
    cases hfirst : checkSubOpNum "mix 1:2" "aic" opts.debugAicNum blockNum with
    | error e =>
      rw [hfirst] at h
      cases h
    | ok u =>
      rw [hfirst] at h
      have hsecond : blockNum * 2 ≤ opts.debugAivNum := checkSubOpNum_ok h
      refine ⟨checkSubOpNum_ok hfirst, ?_⟩
      show 2 * blockNum ≤ opts.debugAivNum
      omega
  | default => exact ⟨Nat.zero_le _, Nat.zero_le _⟩

/-- An accepted run has passed the check and applied the options. -/
theorem update_ok (h : updateSuperkernelBlocknumByDebugOptions soc opts info = .ok info') :
    checkDebugAicAivNumExceedSubOpAicAivNum opts info = .ok () ∧ OptionsApplied opts info info' := by
  unfold updateSuperkernelBlocknumByDebugOptions at h
  cases hratio : checkDebugAicAivNumRatio opts with
  | error e =>
    rw [hratio] at h
    cases h
  | ok u =>
    cases hplatform : checkDebugAicAivNumExceedPlatformNumBlocks soc opts with
    | error e =>
      rw [hratio, hplatform] at h
      cases h
    | ok u' =>
      cases hsub : checkDebugAicAivNumExceedSubOpAicAivNum opts info with
      | error e =>
        rw [hratio, hplatform, hsub] at h
        cases h
      | ok u'' =>
        rw [hratio, hplatform, hsub] at h
        exact ⟨rfl, applyDebugOptions_ok h⟩

end Options

/-! ## The launch -/

/-- What the launch promises to its sub operators. -/
structure SupportsSubOps (infoBase : List LaunchOp) (info : LaunchInfo) : Prop where
  cores : ∀ op ∈ infoBase, op.aicNum ≤ info.aicCores ∧ op.aivNum ≤ info.aivCores
  mixed : (∃ op ∈ infoBase, 0 < op.aicNum) → (∃ op ∈ infoBase, 0 < op.aivNum) →
    info.kernelType = .mixAic11 ∨ info.kernelType = .mixAic12
  wide : (∃ op ∈ infoBase, op.kernelType = .mixAic12) → info.kernelType = .mixAic12

section Launch

variable {soc : SocSpec} {opts : DebugOptions} {infoBase : List LaunchOp} {s : LaunchSummary}
  {info info' : LaunchInfo}

/-- The cores and the mixed kind, whatever the options. -/
theorem launch_cores (hs : SummarisesOps infoBase s) (hfits : LaunchFits infoBase s info)
    (hcheck : checkDebugAicAivNumExceedSubOpAicAivNum opts info = .ok ())
    (happlied : OptionsApplied opts info info') :
    ∀ op ∈ infoBase, op.aicNum ≤ info'.aicCores ∧ op.aivNum ≤ info'.aivCores := by
  intro op hop
  have haic := hs.aic op hop
  have haiv := hs.aiv op hop
  -- the kind from before has enough cores of both kinds
  have hbefore : op.aicNum ≤ info.aicCores ∧ op.aivNum ≤ info.aivCores := by
    cases hfits with
    | vec hvec =>
      have hzero := (hvec op hop).1
      exact ⟨by omega, haiv⟩
    | cube hcube =>
      have hzero := (hcube op hop).1
      exact ⟨haic, by omega⟩
    | mix11 hle => exact ⟨haic, le_trans haiv hle⟩
    | mix12 hlt hle hle' => exact ⟨le_trans haic hle, le_trans haiv hle'⟩
  cases happlied with
  | none _ _ => exact hbefore
  | cube hpos hzero =>
    have hgiven := checkExceed_ok hcheck (by omega)
    exact ⟨le_trans hbefore.1 hgiven.1, by show op.aivNum ≤ 0; omega⟩
  | vec hzero hpos =>
    have hgiven := checkExceed_ok hcheck (by omega)
    exact ⟨by show op.aicNum ≤ 0; omega, le_trans hbefore.2 hgiven.2⟩
  | mix11 hpos heq =>
    have hgiven := checkExceed_ok hcheck (by omega)
    exact ⟨le_trans hbefore.1 hgiven.1, by show op.aivNum ≤ opts.debugAicNum; omega⟩
  | mix12 hpos heq =>
    have hgiven := checkExceed_ok hcheck (by omega)
    exact ⟨le_trans hbefore.1 hgiven.1, by show op.aivNum ≤ 2 * opts.debugAicNum; omega⟩

/-- A launch with cores of both kinds is a mixed one. -/
theorem kernelType_of_cores (haic : 0 < info.aicCores) (haiv : 0 < info.aivCores) :
    info.kernelType = .mixAic11 ∨ info.kernelType = .mixAic12 := by
  unfold LaunchInfo.aicCores at haic
  unfold LaunchInfo.aivCores at haiv
  cases htype : info.kernelType with
  | mixAic11 => exact .inl rfl
  | mixAic12 => exact .inr rfl
  | aicOnly | mixAic10 =>
    rw [htype] at haiv
    exact absurd haiv (lt_irrefl 0)
  | aivOnly | mixAiv10 | default =>
    rw [htype] at haic
    exact absurd haic (lt_irrefl 0)

/-- When the launch has the ratio 1:2: the vector cores ask for it, or the options. -/
def AsksForWide (opts : DebugOptions) (infoBase : List LaunchOp) : Prop :=
  opts.debugAicNum = 0 ∧ opts.debugAivNum = 0 ∧
      (∃ op ∈ infoBase, ∀ other ∈ infoBase, other.aicNum < op.aivNum) ∨
    0 < opts.debugAicNum ∧ opts.debugAivNum = 2 * opts.debugAicNum

theorem maxima_lt_iff (hs : SummarisesOps infoBase s) :
    s.maxAicNum < s.maxAivNum ↔ ∃ op ∈ infoBase, ∀ other ∈ infoBase, other.aicNum < op.aivNum := by
  constructor
  · intro hlt
    rcases hs.aivMet with hzero | ⟨op, hop, hmax⟩
    · omega
    · refine ⟨op, hop, fun other hother => ?_⟩
      have hle := hs.aic other hother
      omega
  · rintro ⟨op, hop, hall⟩
    have hle := hs.aiv op hop
    have hpos := hall op hop
    rcases hs.aicMet with hzero | ⟨other, hother, hmax⟩
    · omega
    · have hlt := hall other hother
      omega

/-- With a sub operator of the ratio 1:2, the launch has this ratio exactly when it is asked for. -/
theorem launch_wide_iff (hs : SummarisesOps infoBase s) (hfits : LaunchFits infoBase s info)
    (hcheck : checkDebugAicAivNumExceedSubOpAicAivNum opts info = .ok ())
    (happlied : OptionsApplied opts info info')
    (hwide : ∃ op ∈ infoBase, op.kernelType = .mixAic12 ∧ 0 < op.blockNum) :
    info'.kernelType = .mixAic12 ↔ AsksForWide opts infoBase := by
  obtain ⟨op, hop, htype, hblock⟩ := hwide
  have haic : op.aicNum = op.blockNum := by
    unfold LaunchOp.aicNum
    rw [htype]
  have haiv : op.aivNum = op.blockNum * 2 := by
    unfold LaunchOp.aivNum
    rw [htype]
  have hcores := launch_cores hs hfits hcheck happlied op hop
  cases happlied with
  | none hzero hzero' =>
    have hasks : AsksForWide opts infoBase ↔ s.maxAicNum < s.maxAivNum := by
      rw [maxima_lt_iff hs]
      constructor
      · rintro (⟨-, -, h⟩ | ⟨h, -⟩)
        · exact h
        · omega
      · intro h
        exact .inl ⟨hzero, hzero', h⟩
    rw [hasks]
    cases hfits with
    | vec hvec => exact absurd htype (hvec op hop).2
    | cube hcube => exact absurd htype (hcube op hop).2
    | mix11 hle =>
      constructor
      · intro h
        cases h
      · intro hlt
        omega
    | mix12 hlt _ _ => exact ⟨fun _ => hlt, fun _ => rfl⟩
  | cube hpos hzero =>
    -- there would be no vector cores
    have hnone : op.aivNum ≤ 0 := hcores.2
    omega
  | vec hzero hpos =>
    have hnone : op.aicNum ≤ 0 := hcores.1
    omega
  | mix11 hpos heq =>
    constructor
    · intro h
      cases h
    · rintro (⟨h, -⟩ | ⟨-, h⟩)
      · omega
      · omega
  | mix12 hpos heq => exact ⟨fun _ => .inr ⟨hpos, heq⟩, fun _ => rfl⟩

/-- The steps of an accepted run. -/
theorem getSummaryTypeAndOptions_ok {r : LaunchInfo × LaunchSummary}
    (h : getSummaryTypeAndOptions soc opts infoBase = .ok r) :
    ∃ s info, SummarisesOps infoBase s ∧ LaunchFits infoBase s info ∧
      checkDebugAicAivNumExceedSubOpAicAivNum opts info = .ok () ∧ OptionsApplied opts info r.1 := by
  have hs := launchSummary_summarises infoBase
  unfold getSummaryTypeAndOptions getFinaleTypeAndBlockNum at h
  dsimp only at h
  generalize launchSummary infoBase = s at h hs
  cases hupdate : updateSuperkernelBlocknumByDebugOptions soc opts
      (finaleTypeAndBlockNum s.finalKernelType s.maxAicNum s.maxAivNum) with
  | error e =>
    rw [hupdate] at h
    cases h
  | ok info' =>
    rw [hupdate] at h
    obtain rfl := Except.ok.inj h
    obtain ⟨hcheck, happlied⟩ := update_ok hupdate
    exact ⟨s, _, hs, finaleTypeAndBlockNum_fits hs, hcheck, happlied⟩

/-- A launch that supports its sub operators has been asked for the ratio 1:2 when one of them has it. -/
theorem SupportsSubOps.asks {r : LaunchInfo × LaunchSummary}
    (h : getSummaryTypeAndOptions soc opts infoBase = .ok r) (hpos : ∀ op ∈ infoBase, 0 < op.blockNum)
    (hsupports : SupportsSubOps infoBase r.1) :
    (∀ op ∈ infoBase, op.kernelType ≠ .mixAic12) ∨ AsksForWide opts infoBase := by
  obtain ⟨s, info, hs, hfits, hcheck, happlied⟩ := getSummaryTypeAndOptions_ok h
  by_cases hwide : ∃ op ∈ infoBase, op.kernelType = .mixAic12
  · obtain ⟨op, hop, htype⟩ := hwide
    exact .inr ((launch_wide_iff hs hfits hcheck happlied ⟨op, hop, htype, hpos op hop⟩).mp
      (hsupports.wide ⟨op, hop, htype⟩))
  · exact .inl fun op hop htype => hwide ⟨op, hop, htype⟩

/-- An accepted launch supports its sub operators exactly when none of them has the ratio 1:2 or the
launch is asked for this ratio. -/
theorem getSummaryTypeAndOptions_supports_iff {r : LaunchInfo × LaunchSummary}
    (h : getSummaryTypeAndOptions soc opts infoBase = .ok r)
    (hpos : ∀ op ∈ infoBase, 0 < op.blockNum) :
    SupportsSubOps infoBase r.1 ↔
      (∀ op ∈ infoBase, op.kernelType ≠ .mixAic12) ∨ AsksForWide opts infoBase := by
  constructor
  · exact SupportsSubOps.asks h hpos
  · intro hcond
    obtain ⟨s, info, hs, hfits, hcheck, happlied⟩ := getSummaryTypeAndOptions_ok h
    have hcores := launch_cores hs hfits hcheck happlied
    refine ⟨hcores, ?_, ?_⟩
    · rintro ⟨cub, hcub, hcubPos⟩ ⟨vec, hvec, hvecPos⟩
      exact kernelType_of_cores (Nat.lt_of_lt_of_le hcubPos (hcores cub hcub).1)
        (Nat.lt_of_lt_of_le hvecPos (hcores vec hvec).2)
    · rintro ⟨op, hop, htype⟩
      refine (launch_wide_iff hs hfits hcheck happlied ⟨op, hop, htype, hpos op hop⟩).mpr ?_
      exact hcond.resolve_left fun hnone => hnone op hop htype

/-- A sub operator of the ratio 1:2 beside one of vector cores. -/
theorem getSummaryTypeAndOptions_supports_iff_vec :
    let infoBase := [⟨.mixAic12, by decide, 4, false, 0, ""⟩, ⟨.aivOnly, by decide, 20, false, 0, ""⟩]
    SupportsSubOps infoBase ⟨.mixAic12, 10⟩ ↔
      (∀ op ∈ infoBase, op.kernelType ≠ .mixAic12) ∨ AsksForWide {} infoBase :=
  @getSummaryTypeAndOptions_supports_iff ⟨24, 48⟩ {} _ (⟨.mixAic12, 10⟩, _) rfl (by decide)

/-- Beside one that needs more cube cores than it has vector cores, its launch has the ratio 1:1. -/
theorem not_supports_cube :
    ∃ r, getSummaryTypeAndOptions ⟨24, 48⟩ {}
        [⟨.mixAic12, by decide, 4, false, 0, ""⟩, ⟨.aicOnly, by decide, 20, false, 0, ""⟩] = .ok r ∧
      ¬ SupportsSubOps
        [⟨.mixAic12, by decide, 4, false, 0, ""⟩, ⟨.aicOnly, by decide, 20, false, 0, ""⟩] r.1 := by
  refine ⟨_, rfl, fun h => ?_⟩
  have hwide : SkKernelType.mixAic11 = .mixAic12 := h.wide ⟨_, List.mem_cons_self, rfl⟩
  cases hwide

end Launch

end GraphAutofusion.SuperKernel
