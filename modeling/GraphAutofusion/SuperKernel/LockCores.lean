import GraphAutofusion.SuperKernel.LockSearch

/-!
# SuperKernel.LockCores — the core accounts of the lock detector

The super kernel and the kernels it may wait for share the device, so their two limits together
stay within its cores, in both dimensions at once. The super kernel's limit is the maximum over
the kernels that were counted: a kernel that was visited when it was asked about is accepted
without being counted.
-/

namespace GraphAutofusion.SuperKernel

open Relation

variable {g : SuperKernelGraph} {dev : DeviceCores} {ls ls' : LockState} {node : SuperKernelBaseNode}
  {valueBreakerBypass fuel : ℕ}

/-- Both limits fit on the device together. -/
structure CoresOk (dev : DeviceCores) (ls : LockState) : Prop where
  cube : ls.superKernelCubeNum + ls.depOpCubeNum ≤ dev.cubeNum
  vec : ls.superKernelVecNum + ls.depOpVecNum ≤ dev.vecNum

/-- A difference that does not underflow is only cut to 32 bits. -/
theorem coresLeft_eq {deviceNum usedNum : ℕ} (h : usedNum ≤ deviceNum) :
    coresLeft deviceNum usedNum = (deviceNum - usedNum) % 2 ^ 32 := by
  have hdiff : (deviceNum : ℤ) - usedNum = ((deviceNum - usedNum : ℕ) : ℤ) := by omega
  rw [coresLeft, hdiff]
  omega

theorem coresLeft_le {deviceNum usedNum : ℕ} (h : usedNum ≤ deviceNum) :
    usedNum + coresLeft deviceNum usedNum ≤ deviceNum := by
  have hle := Nat.mod_le (deviceNum - usedNum) (2 ^ 32)
  rw [coresLeft_eq h]
  omega

/-- A kernel outside changes only the limits of the kernels outside. -/
theorem hasEnoughCores_dep (hok : CoresOk dev ls) :
    CoresOk dev (hasEnoughCores dev ls node false).2 ∧
      (hasEnoughCores dev ls node false).2.superKernelCubeNum = ls.superKernelCubeNum ∧
      (hasEnoughCores dev ls node false).2.superKernelVecNum = ls.superKernelVecNum := by
  have hcube := hok.cube
  have hvec := hok.vec
  have hleftCube := coresLeft_le (by omega : ls.superKernelCubeNum ≤ dev.cubeNum)
  have hleftVec := coresLeft_le (by omega : ls.superKernelVecNum ≤ dev.vecNum)
  unfold hasEnoughCores getAvailableCores
  simp only [Bool.false_eq_true, if_false]
  split
  · exact ⟨hok, rfl, rfl⟩
  · split
    · next hfit =>
      refine ⟨⟨?_, ?_⟩, rfl, rfl⟩
      · show ls.superKernelCubeNum + max ls.depOpCubeNum _ ≤ _
        omega
      · show ls.superKernelVecNum + max ls.depOpVecNum _ ≤ _
        omega
    · exact ⟨hok, rfl, rfl⟩

/-- A kernel of the super kernel is refused, or its limits grow to cover it. -/
theorem hasEnoughCores_superKernel (hok : CoresOk dev ls) :
    CoresOk dev (hasEnoughCores dev ls node true).2 ∧
      if (hasEnoughCores dev ls node true).1 then
        (hasEnoughCores dev ls node true).2.superKernelCubeNum =
          max ls.superKernelCubeNum (ls.getCubeNum node) ∧
        (hasEnoughCores dev ls node true).2.superKernelVecNum =
          max ls.superKernelVecNum (ls.getVecNum node)
      else (hasEnoughCores dev ls node true).2 = ls := by
  have hcube := hok.cube
  have hvec := hok.vec
  have hleftCube := coresLeft_le (by omega : ls.depOpCubeNum ≤ dev.cubeNum)
  have hleftVec := coresLeft_le (by omega : ls.depOpVecNum ≤ dev.vecNum)
  unfold hasEnoughCores getAvailableCores
  simp only [if_true]
  split
  · next hwithin =>
    refine ⟨hok, ?_⟩
    rw [if_pos rfl, max_eq_left hwithin.1, max_eq_left hwithin.2]
    exact ⟨rfl, rfl⟩
  · split
    · next hfit =>
      refine ⟨⟨?_, ?_⟩, ?_⟩
      · show max ls.superKernelCubeNum _ + ls.depOpCubeNum ≤ _
        omega
      · show max ls.superKernelVecNum _ + ls.depOpVecNum ≤ _
        omega
      · rw [if_pos rfl]
        exact ⟨rfl, rfl⟩
    · refine ⟨hok, ?_⟩
      rw [if_neg (by simp)]

theorem SearchRun.cores (h : SearchRun dev ls ls') (hok : CoresOk dev ls) :
    CoresOk dev ls' ∧ ls'.superKernelCubeNum = ls.superKernelCubeNum ∧
      ls'.superKernelVecNum = ls.superKernelVecNum := by
  induction h with
  | refl => exact ⟨hok, rfl, rfl⟩
  | tail _ hstep ih =>
    obtain ⟨hok', hcube, hvec⟩ := ih
    cases hstep with
    | enter nodeId => exact ⟨⟨hok'.cube, hok'.vec⟩, hcube, hvec⟩
    | account node =>
      obtain ⟨hnext, hcube', hvec'⟩ := @hasEnoughCores_dep dev _ node hok'
      exact ⟨hnext, hcube'.trans hcube, hvec'.trans hvec⟩
    | remember nodeId => exact ⟨⟨hok'.cube, hok'.vec⟩, hcube, hvec⟩

/-- A call keeps the limits on the device. The limits of the super kernel grow exactly when a kernel
is accepted that was not visited. -/
theorem isFusible_cores {b : Bool} (hok : CoresOk dev ls)
    (h : isFusible g dev valueBreakerBypass fuel ls node = some (b, ls')) :
    CoresOk dev ls' ∧
      if b = true ∧ node.nodeType = .nodeKernel ∧ node.nodeId ∉ ls.visited then
        ls'.superKernelCubeNum = max ls.superKernelCubeNum node.kernelInfos.cubeNum ∧
        ls'.superKernelVecNum = max ls.superKernelVecNum node.kernelInfos.vecNum
      else ls'.superKernelCubeNum = ls.superKernelCubeNum ∧
        ls'.superKernelVecNum = ls.superKernelVecNum := by
  rcases isFusible_cases h with ⟨hvisited, -, rfl⟩ | ⟨hvisited, mid, hstatus, hls'⟩
  · rw [if_neg fun hnew => hnew.2.2 hvisited]
    exact ⟨hok, rfl, rfl⟩
  -- adding the node leaves the limits alone
  have hsame : ls'.superKernelCubeNum = mid.superKernelCubeNum ∧
      ls'.superKernelVecNum = mid.superKernelVecNum ∧ (CoresOk dev mid → CoresOk dev ls') := by
    rw [hls']
    cases b with
    | true => exact ⟨rfl, rfl, fun hmid => ⟨hmid.cube, hmid.vec⟩⟩
    | false => exact ⟨rfl, rfl, id⟩
  rw [hsame.1, hsame.2.1]
  rcases getFusibleStatus_cases hstatus with ⟨htype, rfl⟩ | ⟨htype, heq⟩ | ⟨htype, found, hrun, hmid⟩
  · rw [if_neg fun hnew => htype hnew.2.1]
    exact ⟨hsame.2.2 hok, rfl, rfl⟩
  · obtain ⟨hok', hlimits⟩ := @hasEnoughCores_superKernel dev ls node hok
    have hcube : ls.getCubeNum node = node.kernelInfos.cubeNum := by
      rw [LockState.getCubeNum, htype]
    have hvec : ls.getVecNum node = node.kernelInfos.vecNum := by
      rw [LockState.getVecNum, htype]
    rw [← heq, hcube, hvec] at hlimits
    rw [← heq] at hok'
    refine ⟨hsame.2.2 hok', ?_⟩
    cases b with
    | true =>
      rw [if_pos rfl] at hlimits
      rw [if_pos ⟨rfl, htype, hvisited⟩]
      exact hlimits
    | false =>
      have hkept : mid = ls := hlimits
      rw [if_neg fun hnew => Bool.false_ne_true hnew.1, hkept]
      exact ⟨rfl, rfl⟩
  · have hne : node.nodeType ≠ .nodeKernel := by simp [htype]
    rw [if_neg fun hnew => hne hnew.2.1]
    obtain ⟨hok', hcube, hvec⟩ := hrun.cores ⟨hok.cube, hok.vec⟩
    -- keeping the marks or taking them back leaves the limits alone, too
    have hmidSame : mid.superKernelCubeNum = found.superKernelCubeNum ∧
        mid.superKernelVecNum = found.superKernelVecNum ∧ CoresOk dev mid := by
      rw [hmid]
      cases b with
      | true => exact ⟨rfl, rfl, hok'.cube, hok'.vec⟩
      | false => exact ⟨rfl, rfl, hok'.cube, hok'.vec⟩
    exact ⟨hsame.2.2 hmidSame.2.2, hmidSame.1.trans hcube, hmidSame.2.1.trans hvec⟩

/-- The states of a detector whose counters start at zero, with the kernels accepted since the last
`Reset`, the last one first, each with its visited flag before the call. -/
inductive LockReached (g : SuperKernelGraph) (dev : DeviceCores) (valueBreakerBypass fuel : ℕ) :
    LockState → List (SuperKernelBaseNode × Bool) → Prop where
  | init (ls : LockState) (hsk : ls.superKernelCubeNum = 0 ∧ ls.superKernelVecNum = 0)
      (hdep : ls.depOpCubeNum = 0 ∧ ls.depOpVecNum = 0) :
      LockReached g dev valueBreakerBypass fuel ls []
  | reset {ls : LockState} {accepted : List (SuperKernelBaseNode × Bool)}
      (h : LockReached g dev valueBreakerBypass fuel ls accepted) :
      LockReached g dev valueBreakerBypass fuel ls.reset []
  | isFusible {ls ls' : LockState} {accepted : List (SuperKernelBaseNode × Bool)}
      {node : SuperKernelBaseNode} {b : Bool} (h : LockReached g dev valueBreakerBypass fuel ls accepted)
      (hcall : isFusible g dev valueBreakerBypass fuel ls node = some (b, ls')) :
      LockReached g dev valueBreakerBypass fuel ls'
        (if b = true ∧ node.nodeType = .nodeKernel then
          (node, decide (node.nodeId ∈ ls.visited)) :: accepted else accepted)

/-- The maximum of a number over the kernels of a log. -/
def maxOver (need : SuperKernelBaseNode → ℕ) (accepted : List (SuperKernelBaseNode × Bool)) : ℕ :=
  (accepted.map fun k => need k.1).foldr max 0

/-- The kernels that were not visited when they were accepted. -/
def counted (accepted : List (SuperKernelBaseNode × Bool)) : List (SuperKernelBaseNode × Bool) :=
  accepted.filter fun k => !k.2

/-- In every state that is reached, the limits fit on the device together, no difference underflows,
and the limits of the super kernel are the maxima over the counted kernels. -/
theorem lockReached_cores {accepted : List (SuperKernelBaseNode × Bool)}
    (h : LockReached g dev valueBreakerBypass fuel ls accepted) :
    CoresOk dev ls ∧
      (getAvailableCores dev ls true = ((dev.cubeNum - ls.depOpCubeNum) % 2 ^ 32,
        (dev.vecNum - ls.depOpVecNum) % 2 ^ 32) ∧
      getAvailableCores dev ls false = ((dev.cubeNum - ls.superKernelCubeNum) % 2 ^ 32,
        (dev.vecNum - ls.superKernelVecNum) % 2 ^ 32)) ∧
      ls.superKernelCubeNum = maxOver (·.kernelInfos.cubeNum) (counted accepted) ∧
      ls.superKernelVecNum = maxOver (·.kernelInfos.vecNum) (counted accepted) := by
  have hinv : CoresOk dev ls ∧
      ls.superKernelCubeNum = maxOver (·.kernelInfos.cubeNum) (counted accepted) ∧
      ls.superKernelVecNum = maxOver (·.kernelInfos.vecNum) (counted accepted) := by
    induction h with
    | init ls hsk hdep => exact ⟨⟨by omega, by omega⟩, hsk⟩
    | reset h ih => exact ⟨⟨Nat.zero_le _, Nat.zero_le _⟩, rfl, rfl⟩
    | @isFusible ls ls' accepted node b h hcall ih =>
      obtain ⟨hok, hcube, hvec⟩ := ih
      obtain ⟨hok', hlimits⟩ := isFusible_cores hok hcall
      refine ⟨hok', ?_⟩
      by_cases hkernel : b = true ∧ node.nodeType = .nodeKernel
      · rw [if_pos hkernel]
        by_cases hvisited : node.nodeId ∈ ls.visited
        · -- a visited kernel is not counted
          rw [if_neg fun hnew => hnew.2.2 hvisited] at hlimits
          rw [counted, List.filter_cons_of_neg (by simp [hvisited]), ← counted, ← hcube, ← hvec]
          exact hlimits
        · rw [if_pos ⟨hkernel.1, hkernel.2, hvisited⟩, Nat.max_comm, Nat.max_comm ls.superKernelVecNum,
            hcube, hvec] at hlimits
          rw [counted, List.filter_cons_of_pos (by simp [hvisited]), ← counted]
          exact hlimits
      · rw [if_neg fun hnew => hkernel ⟨hnew.1, hnew.2.1⟩] at hlimits
        rw [if_neg hkernel, ← hcube, ← hvec]
        exact hlimits
  obtain ⟨hok, hmax⟩ := hinv
  have hcube := hok.cube
  have hvec := hok.vec
  refine ⟨hok, ⟨?_, ?_⟩, hmax⟩
  · show (coresLeft _ _, coresLeft _ _) = _
    rw [coresLeft_eq (by omega), coresLeft_eq (by omega)]
  · show (coresLeft _ _, coresLeft _ _) = _
    rw [coresLeft_eq (by omega), coresLeft_eq (by omega)]

/-- On stream 0 a kernel and a WAIT, on stream 1 a node of some type, a larger kernel and the NOTIFY
of the WAIT. -/
def crossStreams (head : SkNodeType) : SuperKernelGraph where
  nodes := [
    { nodeId := 0, streamIdxInGraph := 0, nodeIdxInStream := 0, nextNodeId := some 1,
      nodeType := .nodeKernel, kernelInfos := { cubeNum := 1 } },
    { nodeId := 1, streamIdxInGraph := 0, nodeIdxInStream := 1, preNodeId := some 0,
      nodeType := .nodeWait, syncInfos := { eventId := some 0, correspondingNotifyNodeId := some 4 } },
    { nodeId := 2, streamIdxInGraph := 1, nodeIdxInStream := 0, nextNodeId := some 3,
      nodeType := head },
    { nodeId := 3, streamIdxInGraph := 1, nodeIdxInStream := 1, preNodeId := some 2,
      nextNodeId := some 4, nodeType := .nodeKernel, kernelInfos := { cubeNum := 3 } },
    { nodeId := 4, streamIdxInGraph := 1, nodeIdxInStream := 2, preNodeId := some 3,
      nodeType := .nodeNotify, syncInfos := { eventId := some 0, correspondingWaitNodeIds := [1] } }]
  eventToNodes := [(0, { notifyNodeId := some 4, waitNodeIdList := [1] })]
  headNodes := [0, 2]
  streamNum := 2

/-- The node of `crossStreams` with an id. -/
def crossNode (head : SkNodeType) (nodeId : NodeId) : SuperKernelBaseNode :=
  ((crossStreams head).getNodeById nodeId).getD
    { nodeId := nodeId, streamIdxInGraph := 0, nodeIdxInStream := 0, nodeType := .nodeDefault }

theorem crossStreams_cores : ∃ ls accepted,
    LockReached (crossStreams .nodeDefault) ⟨8, 8⟩ 0 9 ls accepted ∧ accepted ≠ [] ∧
      CoresOk ⟨8, 8⟩ ls ∧
      (getAvailableCores ⟨8, 8⟩ ls true = ((8 - ls.depOpCubeNum) % 2 ^ 32, (8 - ls.depOpVecNum) % 2 ^ 32) ∧
      getAvailableCores ⟨8, 8⟩ ls false =
        ((8 - ls.superKernelCubeNum) % 2 ^ 32, (8 - ls.superKernelVecNum) % 2 ^ 32)) ∧
      ls.superKernelCubeNum = maxOver (·.kernelInfos.cubeNum) (counted accepted) ∧
      ls.superKernelVecNum = maxOver (·.kernelInfos.vecNum) (counted accepted) := by
  have hstart := @LockReached.init (crossStreams .nodeDefault) ⟨8, 8⟩ 0 9 {} ⟨rfl, rfl⟩ ⟨rfl, rfl⟩
  have hfirst := @LockReached.isFusible _ _ _ _ _ _ _ (crossNode .nodeDefault 0) true hstart rfl
  exact ⟨_, _, hfirst, by simp [crossNode, crossStreams, SuperKernelGraph.getNodeById],
    lockReached_cores hfirst⟩

/-- The search from the WAIT visits the larger kernel, which is then accepted without being
counted. -/
theorem crossStreams_uncounted : ∃ ls accepted,
    LockReached (crossStreams .nodeDefault) ⟨8, 8⟩ 0 9 ls accepted ∧
      ls.superKernelCubeNum ≠ maxOver (·.kernelInfos.cubeNum) accepted := by
  have hstart := @LockReached.init (crossStreams .nodeDefault) ⟨8, 8⟩ 0 9 {} ⟨rfl, rfl⟩ ⟨rfl, rfl⟩
  have hkernel := @LockReached.isFusible _ _ _ _ _ _ _ (crossNode .nodeDefault 0) true hstart rfl
  have hwait := @LockReached.isFusible _ _ _ _ _ _ _ (crossNode .nodeDefault 1) true hkernel rfl
  have hlarge := @LockReached.isFusible _ _ _ _ _ _ _ (crossNode .nodeDefault 3) true hwait rfl
  exact ⟨_, _, hlarge, by decide⟩

end GraphAutofusion.SuperKernel
