import GraphAutofusion.SuperKernel.SplitGraph

/-!
# SuperKernel.ScheModeUniform — the scopes of `ScheModeKernelSplitPass`

A kernel in schedule mode synchronises all cores, so it has to run on as many cores as its super
kernel. The pass compares each kernel with the running maximum only. The invariant of that scan: once
a kernel in schedule mode was accepted, the maximum is its own demand and stays so.
-/

namespace GraphAutofusion.SuperKernel

open List

/-- A kernel in schedule mode that asks for cores. -/
structure IsSyncAll (n : SuperKernelBaseNode) : Prop where
  kernel : n.nodeType = .nodeKernel
  mode : n.kernelInfos.isScheModeOn = true
  cores : n.kernelInfos.cubeNum ≠ 0 ∨ n.kernelInfos.vecNum ≠ 0

/-- Such a kernel has the largest cube and vec demand of the kernels in the list. -/
def UsesAllCores (nodes : List SuperKernelBaseNode) : Prop :=
  ∀ n ∈ nodes, IsSyncAll n → ∀ n' ∈ nodes, n'.nodeType = .nodeKernel →
    (scheModeCores n').1 ≤ (scheModeCores n).1 ∧ (scheModeCores n').2 ≤ (scheModeCores n).2

/-- A kernel among those whose merged demand is `m`. -/
structure Fits (m : MergedCores) (n : SuperKernelBaseNode) : Prop where
  le : (scheModeCores n).1 ≤ m.cubeNum ∧ (scheModeCores n).2 ≤ m.vecNum
  mode : n.kernelInfos.isScheModeOn = true → m.hasScheMode = true
  syncAll : IsSyncAll n → scheModeCores n = (m.cubeNum, m.vecNum)

/-- The nodes scanned so far; there is no merged demand before the first kernel. -/
def Scanned (done : List SuperKernelBaseNode) : Option MergedCores → Prop
  | none => ∀ n ∈ done, n.nodeType ≠ .nodeKernel
  | some m => done ≠ [] ∧ ∀ n ∈ done, n.nodeType = .nodeKernel → Fits m n

variable {done nodes : List SuperKernelBaseNode} {node n : SuperKernelBaseNode} {m : MergedCores}
  {merged : Option MergedCores}

theorem Scanned.usesAllCores (h : Scanned done merged) : UsesAllCores done := by
  intro n hn hsync n' hn' hkernel
  cases merged with
  | none => exact absurd hsync.kernel (h n hn)
  | some m =>
    rw [(h.2 n hn hsync.kernel).syncAll hsync]
    exact (h.2 n' hn' hkernel).le

/-- Normalising leaves neither number zero. -/
theorem IsSyncAll.cores_ne_zero (h : IsSyncAll n) :
    (scheModeCores n).1 ≠ 0 ∧ (scheModeCores n).2 ≠ 0 := by
  have hcores := h.cores
  unfold scheModeCores
  rw [if_pos h.mode]
  dsimp only
  split_ifs <;> omega

/-- No drop: a kernel that syncs all cores asks for the merged demand at least. -/
theorem le_of_not_isCoreDrop (h : isCoreDrop m n = false) (hsync : IsSyncAll n) :
    m.cubeNum ≤ (scheModeCores n).1 ∧ m.vecNum ≤ (scheModeCores n).2 := by
  rcases hsync.cores_ne_zero with ⟨hcube, hvec⟩
  simpa [isCoreDrop, hsync.mode, hcube, hvec] using h

/-- No rise: after a kernel in schedule mode no kernel asks for more. -/
theorem le_of_not_isCoreRise (h : isCoreRise m n = false) (hmode : m.hasScheMode = true) :
    (scheModeCores n).1 ≤ m.cubeNum ∧ (scheModeCores n).2 ≤ m.vecNum := by
  simp only [isCoreRise, hmode, Bool.true_and, Bool.or_eq_false_iff, Bool.and_eq_false_iff,
    decide_eq_false_iff_not] at h
  omega

/-- The merged demand with one more kernel. -/
def MergedCores.merge (m : MergedCores) (n : SuperKernelBaseNode) : MergedCores :=
  ⟨Nat.max m.cubeNum (scheModeCores n).1, Nat.max m.vecNum (scheModeCores n).2,
    m.hasScheMode || n.kernelInfos.isScheModeOn⟩

/-- An accepted kernel in schedule mode keeps the maximum where it is. -/
theorem Fits.merge (h : Fits m n) (hrise : isCoreRise m node = false) : Fits (m.merge node) n := by
  refine ⟨⟨h.le.1.trans (le_max_left _ _), h.le.2.trans (le_max_left _ _)⟩, ?_, ?_⟩
  · intro hmode
    exact Bool.or_eq_true_iff.mpr (.inl (h.mode hmode))
  · intro hsync
    rcases le_of_not_isCoreRise hrise (h.mode hsync.mode) with ⟨hcube, hvec⟩
    rw [h.syncAll hsync]
    exact Prod.ext (max_eq_left hcube).symm (max_eq_left hvec).symm

theorem Fits.self_merge (hdrop : isCoreDrop m n = false) : Fits (m.merge n) n := by
  refine ⟨⟨le_max_right _ _, le_max_right _ _⟩, ?_, ?_⟩
  · intro hmode
    exact Bool.or_eq_true_iff.mpr (.inr hmode)
  · intro hsync
    rcases le_of_not_isCoreDrop hdrop hsync with ⟨hcube, hvec⟩
    exact Prod.ext (max_eq_right hcube).symm (max_eq_right hvec).symm

/-- The kernel that asks for a split is not one of the merged ones. -/
theorem Fits.not_split (h : Fits m n) (hkernel : n.nodeType = .nodeKernel) :
    isCoreDrop m n = false ∧ isCoreRise m n = false := by
  have hle := h.le
  constructor
  · rw [Bool.eq_false_iff]
    intro hdrop
    simp only [isCoreDrop, Bool.and_eq_true, Bool.or_eq_true, decide_eq_true_eq] at hdrop
    have hsync : IsSyncAll n := by
      refine ⟨hkernel, hdrop.1, ?_⟩
      by_contra hno
      rw [not_or, not_not, not_not] at hno
      simp [scheModeCores, hno] at hdrop
    rw [h.syncAll hsync] at hdrop
    dsimp only at hdrop
    omega
  · rw [Bool.eq_false_iff]
    intro hrise
    simp only [isCoreRise, Bool.and_eq_true, Bool.or_eq_true, decide_eq_true_eq] at hrise
    omega

/-- The scan accepts all nodes, or it stops at a new kernel behind a part that it has accepted. -/
theorem findScheModeSplit_spec (h : Scanned done merged) :
    (findScheModeSplit merged nodes = none ∧ UsesAllCores (done ++ nodes)) ∨
      ∃ before node after, findScheModeSplit merged nodes = some node ∧
        nodes = before ++ node :: after ∧ node ∉ done ++ before ∧ done ++ before ≠ [] ∧
        UsesAllCores (done ++ before) := by
  induction nodes generalizing done merged with
  | nil => exact .inl ⟨rfl, by simpa using h.usesAllCores⟩
  | cons node rest ih =>
    rw [findScheModeSplit]
    -- the scan goes on behind `node`
    have hlater : ∀ {merged'}, Scanned (done ++ [node]) merged' →
        (findScheModeSplit merged' rest = none ∧ UsesAllCores (done ++ node :: rest)) ∨
          ∃ before split after, findScheModeSplit merged' rest = some split ∧
            node :: rest = before ++ split :: after ∧ split ∉ done ++ before ∧ done ++ before ≠ [] ∧
            UsesAllCores (done ++ before) := by
      intro merged' hscan
      have hscan' := ih hscan
      simp only [append_assoc, singleton_append] at hscan'
      rcases hscan' with hnone | ⟨before, split, after, hsome, hrest, hsplit⟩
      · exact .inl hnone
      · exact .inr ⟨node :: before, split, after, hsome, by rw [hrest]; rfl, hsplit⟩
    by_cases hkernel : node.nodeType = .nodeKernel
    · rw [if_neg (not_not.mpr hkernel)]
      cases merged with
      | none =>
        refine hlater ⟨by simp, fun n hn hn' => ?_⟩
        rcases mem_append.mp hn with hn | hn
        · exact absurd hn' (h n hn)
        · rw [mem_singleton.mp hn]
          exact ⟨⟨le_rfl, le_rfl⟩, id, fun _ => rfl⟩
      | some m =>
        dsimp only
        split_ifs with hsplit
        · refine .inr ⟨[], node, rest, rfl, rfl, fun hmem => ?_, by simpa using h.1, ?_⟩
          · rw [append_nil] at hmem
            rcases (h.2 node hmem hkernel).not_split hkernel with ⟨hdrop, hrise⟩
            rw [hdrop, hrise] at hsplit
            cases hsplit
          · simpa using h.usesAllCores
        · rcases Bool.or_eq_false_iff.mp (Bool.eq_false_iff.mpr hsplit) with ⟨hdrop, hrise⟩
          refine @hlater (some (m.merge node)) ⟨by simp, fun n hn hn' => ?_⟩
          rcases mem_append.mp hn with hn | hn
          · exact (h.2 n hn hn').merge hrise
          · rw [mem_singleton.mp hn]
            exact Fits.self_merge hdrop
    · rw [if_pos hkernel]
      apply hlater
      have hmem : ∀ n ∈ done ++ [node], n.nodeType = .nodeKernel → n ∈ done := by
        intro n hn hn'
        rcases mem_append.mp hn with hn | hn
        · exact hn
        · exact absurd (mem_singleton.mp hn ▸ hn') hkernel
      cases merged with
      | none => exact fun n hn hn' => h n (hmem n hn hn') hn'
      | some m => exact ⟨by simp, fun n hn hn' => h.2 n (hmem n hn hn') hn'⟩

/-- The nodes of a list are told apart by their ids. -/
def IdsFaithful (nodes : List SuperKernelBaseNode) : Prop :=
  ∀ n ∈ nodes, ∀ n' ∈ nodes, n.nodeId = n'.nodeId → n = n'

/-- What the pieces of one scope are. -/
structure ScheModePieces (scope : SuperKernelScopeInfo) (out : List SuperKernelScopeInfo) : Prop where
  nodes : out.flatMap (·.nodes) = scope.nodes
  ne_nil : ∀ s ∈ out, s.nodes ≠ []
  usesAllCores : ∀ s ∈ out, UsesAllCores s.nodes

theorem scheModeSplitScope_pieces {fuel : ℕ} {scope : SuperKernelScopeInfo}
    (hid : IdsFaithful scope.nodes) (hfuel : scope.nodes.length < fuel) :
    ∃ out, scheModeSplitScope fuel scope = some out ∧ ScheModePieces scope out := by
  induction fuel generalizing scope with
  | zero => omega
  | succ fuel ih =>
    rw [scheModeSplitScope]
    by_cases hnil : scope.nodes = []
    · rw [if_pos (List.isEmpty_iff.mpr hnil)]
      exact ⟨[], rfl, by simp [hnil], by simp, by simp⟩
    rw [if_neg (by simpa using hnil)]
    have hstart : Scanned [] none := by simp [Scanned]
    rcases @findScheModeSplit_spec _ scope.nodes _ hstart with
      ⟨hnone, hall⟩ | ⟨before, node, after, hsome, hsplit, hnew, hbefore, hall⟩
    · rw [hnone]
      exact ⟨[scope], rfl, by simp, by simpa using hnil, by simpa using hall⟩
    rw [hsome]
    rw [nil_append] at hnew hbefore hall
    have hahead : ∀ n ∈ before, decide (n.nodeId ≠ node.nodeId) = true := by
      intro n hn
      apply decide_eq_true
      intro hsame
      have heq := hid n (by simp [hsplit, hn]) node (by simp [hsplit]) hsame
      exact hnew (heq ▸ hn)
    have htake : (splitScopeAtNode scope node).1.nodes = before := by
      show scope.nodes.takeWhile _ = before
      rw [hsplit, takeWhile_append_of_pos hahead, takeWhile_cons_of_neg (by simp),
        append_nil]
    have hdrop : (splitScopeAtNode scope node).2.nodes = node :: after := by
      show scope.nodes.dropWhile _ = node :: after
      rw [hsplit, dropWhile_append_of_pos hahead, dropWhile_cons_of_neg (by simp)]
    have hlen : scope.nodes.length = before.length + (node :: after).length := by
      rw [hsplit, length_append]
    have hpos := length_pos_iff.mpr hbefore
    rcases @ih (splitScopeAtNode scope node).2
      (by
        rw [hdrop]
        exact fun n hn n' hn' => hid n (by rw [hsplit]; exact mem_append_right _ hn) n'
          (by rw [hsplit]; exact mem_append_right _ hn'))
      (by rw [hdrop]; omega) with ⟨out, hout, hpieces⟩
    refine ⟨(splitScopeAtNode scope node).1 :: out, ?_, ?_, ?_, ?_⟩
    · dsimp only
      rw [htake, hdrop, hout]
      simp [hbefore]
    · rw [flatMap_cons, hpieces.nodes, htake, hdrop, hsplit]
    · intro s hs
      rcases mem_cons.mp hs with rfl | hs
      · rwa [htake]
      · exact hpieces.ne_nil s hs
    · intro s hs
      rcases mem_cons.mp hs with rfl | hs
      · rwa [htake]
      · exact hpieces.usesAllCores s hs

/-- The pass ends, cuts every scope into pieces in order, and in every piece the kernels that sync all
cores use as many cores as the piece needs. -/
theorem scheModeKernelSplitPass_usesAllCores (scopes : List SuperKernelScopeInfo) (fuel : ℕ)
    (hid : ∀ scope ∈ scopes, IdsFaithful scope.nodes)
    (hfuel : ∀ scope ∈ scopes, scope.nodes.length < fuel) :
    ∃ pieces, scheModeKernelSplitPass fuel scopes = some pieces.flatten ∧
      Forall₂ ScheModePieces scopes pieces := by
  induction scopes with
  | nil => exact ⟨[], rfl, .nil⟩
  | cons scope rest ih =>
    rcases scheModeSplitScope_pieces (hid scope (by simp)) (hfuel scope (by simp)) with
      ⟨out, hout, hpieces⟩
    rcases ih (fun s hs => hid s (by simp [hs])) fun s hs => hfuel s (by simp [hs]) with
      ⟨pieces, hrun, hall⟩
    exact ⟨out :: pieces, by rw [scheModeKernelSplitPass, hout, hrun]; rfl, .cons hpieces hall⟩

/-- A kernel on 2 cores before one that syncs 4. -/
def risingScope : SuperKernelScopeInfo where
  nodes := [
    { nodeId := 1, streamIdxInGraph := 0, nodeIdxInStream := 0, nodeType := .nodeKernel,
      kernelInfos := { cubeNum := 4, isScheModeOn := true } },
    { nodeId := 2, streamIdxInGraph := 0, nodeIdxInStream := 1, nodeType := .nodeKernel,
      kernelInfos := { cubeNum := 6 } }]

theorem scheModeKernelSplitPass_rising :
    ∃ pieces, scheModeKernelSplitPass 3 [risingScope] = some pieces.flatten ∧
      Forall₂ ScheModePieces [risingScope] pieces :=
  scheModeKernelSplitPass_usesAllCores [risingScope] 3
    (by simp [IdsFaithful, risingScope]) (by simp [risingScope])

end GraphAutofusion.SuperKernel
