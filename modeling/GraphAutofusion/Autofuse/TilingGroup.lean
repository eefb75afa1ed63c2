import GraphAutofusion.Autofuse.VectorAxis
import Mathlib.Data.List.Sort

/-!
# Autofuse.TilingGroup — axis groups and their merge

An `AxisGroup` says along which axes a node may be tiled. `MergeAxesGroup` first takes the n axes of
either group out of both, then a table over the two group types decides. The same function serves the
fusion test, where the order of the axes does not matter yet, and the schedule, where it does.

The source group of a merge is changed in place too; no caller reads it afterwards.
-/

namespace GraphAutofusion.Autofuse

open List

open VectorAxis (AxisId)

structure AxisGroup where
  xGroup : List AxisId := []
  yGroup : List AxisId := []
  rGroup : List AxisId := []
  nGroup : List AxisId := []
  axesOrder : List ℕ := []
deriving DecidableEq, Repr

/-- The flags of `GROUP_X`, `GROUP_Y` and `GROUP_R`; the enumeration has no name for `xr`. -/
inductive GroupType where
  | invalid
  | x
  | y
  | xy
  | r
  | xr
  | yr
  | xyr
deriving DecidableEq, Repr

/-- A `std::set` as its ascending list. -/
def sortedSet (l : List AxisId) : List AxisId := l.dedup.insertionSort (· ≤ ·)

/-- Equality of the two sets. -/
def sameSet (l m : List AxisId) : Bool := l.all m.contains && m.all l.contains

/-- The axes of a list that stay when those of `n` go. -/
def without (n l : List AxisId) : List AxisId := l.filter (!n.contains ·)

/-- The positions of the axes that stay. A read behind the end of `axes_order` is 0 here; which axes
are kept does not depend on it. -/
def keptOrder (n : List AxisId) : List AxisId → List ℕ → List ℕ
  | [], _ => []
  | a :: axes, order =>
    if n.contains a then keptOrder n axes order.tail
    else order.headD 0 :: keptOrder n axes order.tail

namespace AxisGroup

def getGroupType (g : AxisGroup) : GroupType :=
  match g.xGroup.isEmpty, g.yGroup.isEmpty, g.rGroup.isEmpty with
  | true, true, true => .invalid
  | false, true, true => .x
  | true, false, true => .y
  | false, false, true => .xy
  | true, true, false => .r
  | false, true, false => .xr
  | true, false, false => .yr
  | false, false, false => .xyr

def removeNGroupAxisInXYRGroup (n : List AxisId) (g : AxisGroup) : AxisGroup :=
  if n = [] then g
  else {
    xGroup := without n g.xGroup
    yGroup := without n g.yGroup
    rGroup := without n g.rGroup
    nGroup := n
    axesOrder := keptOrder n (g.xGroup ++ g.yGroup ++ g.rGroup) g.axesOrder }

/-- The axes `MergeNGroup` takes out of both groups. -/
def mergedN (lhs rhs : AxisGroup) : List AxisId := sortedSet (lhs.nGroup ++ rhs.nGroup)

end AxisGroup

open AxisGroup

/-- The loops of `CheckYAndYR` over the y and then the r axes; `none` is an index outside the list it
reads. -/
def matchesAt (cur : List AxisId) : List ℕ → List AxisId → Option Bool
  | _, [] => some true
  | [], _ :: _ => none
  | i :: order, a :: axes =>
    match cur[i]? with
    | none => none
    | some b => if b = a then matchesAt cur order axes else some false

section Merge

variable (isCanfuseCall : Bool)

def checkYAndYR (curY newY newR : List AxisId) (newAxesOrder : List ℕ) : Option Bool :=
  if curY.length ≠ newY.length + newR.length then some false
  else if isCanfuseCall then some (sameSet curY (newY ++ newR))
  else matchesAt curY newAxesOrder (newY ++ newR)

def checkYAndR (curY newR : List AxisId) : Bool :=
  if isCanfuseCall then sameSet curY newR else curY = newR

/-- The target takes over the source when the check succeeds. -/
def adopt (lhs rhs : AxisGroup) (ok : Bool) : Bool × AxisGroup := (ok, if ok then rhs else lhs)

variable (lhs rhs : AxisGroup)

def mergeYAndY : Option (Bool × AxisGroup) :=
  if lhs.yGroup.length ≠ rhs.yGroup.length then some (false, lhs)
  else if isCanfuseCall then some (sameSet lhs.yGroup rhs.yGroup, lhs)
  else some (lhs.yGroup = rhs.yGroup, lhs)

def mergeYAndR : Option (Bool × AxisGroup) :=
  some (adopt lhs rhs (checkYAndR isCanfuseCall lhs.yGroup rhs.rGroup))

def mergeRAndY : Option (Bool × AxisGroup) :=
  some (checkYAndR isCanfuseCall rhs.yGroup lhs.rGroup, lhs)

def mergeYAndXY : Option (Bool × AxisGroup) :=
  some (adopt lhs rhs (sameSet lhs.yGroup (rhs.yGroup ++ rhs.xGroup)))

def mergeXYAndY : Option (Bool × AxisGroup) :=
  some (sameSet (lhs.yGroup ++ lhs.xGroup) rhs.yGroup, lhs)

def mergeYAndYR : Option (Bool × AxisGroup) :=
  (checkYAndYR isCanfuseCall lhs.yGroup rhs.yGroup rhs.rGroup rhs.axesOrder).map (adopt lhs rhs)

def mergeYRAndY : Option (Bool × AxisGroup) :=
  (checkYAndYR isCanfuseCall rhs.yGroup lhs.yGroup lhs.rGroup lhs.axesOrder).map (·, lhs)

def mergeYRAndYR : Option (Bool × AxisGroup) :=
  if isCanfuseCall then
    some (sameSet lhs.yGroup rhs.yGroup && sameSet lhs.rGroup rhs.rGroup, lhs)
  else some (lhs = rhs, lhs)

/-- The table `type_to_merge_func`; a pair of types outside it is refused. -/
def mergeByType : Option (Bool × AxisGroup) :=
  match lhs.getGroupType, rhs.getGroupType with
  | .y, .y => mergeYAndY isCanfuseCall lhs rhs
  | .y, .yr => mergeYAndYR isCanfuseCall lhs rhs
  | .yr, .y => mergeYRAndY isCanfuseCall lhs rhs
  | .yr, .yr => mergeYRAndYR isCanfuseCall lhs rhs
  | .y, .xy => mergeYAndXY lhs rhs
  | .xy, .y => mergeXYAndY lhs rhs
  | .y, .r => mergeYAndR isCanfuseCall lhs rhs
  | .r, .y => mergeRAndY isCanfuseCall lhs rhs
  | _, _ => some (false, lhs)

/-- Whether the groups merge, and the target after the call. -/
def mergeAxesGroup (target src : AxisGroup) : Option (Bool × AxisGroup) :=
  let n := mergedN target src
  let target := target.removeNGroupAxisInXYRGroup n
  let src := src.removeNGroupAxisInXYRGroup n
  if target.getGroupType = .invalid then some (true, src) else mergeByType isCanfuseCall target src

end Merge

def canMergeAxisGroup (lhs rhs : AxisGroup) : Option (Bool × AxisGroup) :=
  mergeAxesGroup true lhs rhs

/-! ## What a merge reads -/

@[simp]
theorem mem_without {n l : List AxisId} {c : AxisId} : c ∈ without n l ↔ c ∈ l ∧ c ∉ n := by
  simp [without]

theorem without_eq_self {n l : List AxisId} (h : ∀ c ∈ l, c ∉ n) : without n l = l := by
  simpa [without] using h

@[simp]
theorem mem_sortedSet {l : List AxisId} {c : AxisId} : c ∈ sortedSet l ↔ c ∈ l := by
  rw [sortedSet, mem_insertionSort, mem_dedup]

theorem nodup_sortedSet (l : List AxisId) : (sortedSet l).Nodup :=
  (perm_insertionSort _ _).nodup_iff.mpr l.nodup_dedup

/-- Equal sets have the same ascending list. -/
theorem sortedSet_congr {l m : List AxisId} (h : ∀ c, c ∈ l ↔ c ∈ m) : sortedSet l = sortedSet m := by
  apply Perm.eq_of_sortedLE sortedLE_insertionSort sortedLE_insertionSort
  apply (perm_ext_iff_of_nodup (nodup_sortedSet l) (nodup_sortedSet m)).mpr
  intro c
  rw [mem_sortedSet, mem_sortedSet, h]

theorem sameSet_iff {l m : List AxisId} : sameSet l m = true ↔ ∀ c, c ∈ l ↔ c ∈ m := by
  simp only [sameSet, Bool.and_eq_true, all_eq_true, contains_iff_mem]
  constructor
  · intro h c
    exact ⟨h.1 c, h.2 c⟩
  · intro h
    exact ⟨fun c => (h c).mp, fun c => (h c).mpr⟩

theorem sameSet_comm (l m : List AxisId) : sameSet l m = sameSet m l := Bool.and_comm _ _

variable {g : AxisGroup} {n : List AxisId}

namespace AxisGroup

/-- The axes a group may be tiled along. -/
def tiled (g : AxisGroup) : List AxisId := g.xGroup ++ g.yGroup ++ g.rGroup

/-- No axis stands twice in the four lists of the group. -/
def WellFormed (g : AxisGroup) : Prop := (g.tiled ++ g.nGroup).Nodup

instance (g : AxisGroup) : Decidable g.WellFormed := inferInstanceAs (Decidable (Nodup _))

/-- The groups have the same axes in each of the four lists. -/
structure SameAxes (g g' : AxisGroup) : Prop where
  x : ∀ c, c ∈ g.xGroup ↔ c ∈ g'.xGroup
  y : ∀ c, c ∈ g.yGroup ↔ c ∈ g'.yGroup
  r : ∀ c, c ∈ g.rGroup ↔ c ∈ g'.rGroup
  n : ∀ c, c ∈ g.nGroup ↔ c ∈ g'.nGroup

theorem getGroupType_eq_invalid : g.getGroupType = .invalid ↔ g.tiled = [] := by
  unfold getGroupType tiled
  cases g.xGroup <;> cases g.yGroup <;> cases g.rGroup <;> simp

/-- The lists a type leaves empty. -/
theorem getGroupType_empty (g : AxisGroup) :
    (g.getGroupType = .y → g.xGroup = [] ∧ g.rGroup = []) ∧
      (g.getGroupType = .yr → g.xGroup = []) ∧ (g.getGroupType = .xy → g.rGroup = []) ∧
      (g.getGroupType = .r → g.xGroup = [] ∧ g.yGroup = []) := by
  unfold getGroupType
  cases g.xGroup <;> cases g.yGroup <;> cases g.rGroup <;> simp

/-- Removing the axes of a set that holds the group's own n axes. -/
theorem removeNGroup_lists (hn : ∀ c ∈ g.nGroup, c ∈ n) :
    (g.removeNGroupAxisInXYRGroup n).tiled = without n g.tiled ∧
      (g.removeNGroupAxisInXYRGroup n).nGroup = n := by
  unfold removeNGroupAxisInXYRGroup
  split_ifs with hnil
  · subst hnil
    exact ⟨(without_eq_self fun _ _ => not_mem_nil).symm,
      eq_nil_iff_forall_not_mem.mpr fun c hc => not_mem_nil (hn c hc)⟩
  · exact ⟨by simp only [tiled, without, filter_append], rfl⟩

theorem WellFormed.removeNGroup (h : g.WellFormed) (hnodup : n.Nodup) (hn : ∀ c ∈ g.nGroup, c ∈ n) :
    (g.removeNGroupAxisInXYRGroup n).WellFormed := by
  rcases removeNGroup_lists hn with ⟨htiled, hng⟩
  rw [WellFormed, htiled, hng, nodup_append]
  refine ⟨(nodup_append.mp h).1.filter _, hnodup, ?_⟩
  intro c hc d hd hcd
  exact (mem_without.mp hc).2 (hcd ▸ hd)

end AxisGroup

/-! ## The fusion test -/

section Fusion

variable {a b : AxisGroup}

theorem checkYAndYR_fusion {curY newY newR : List AxisId} {order : List ℕ} :
    ∃ ok, checkYAndYR true curY newY newR order = some ok ∧
      (ok = true → ∀ c, c ∈ curY ↔ c ∈ newY ++ newR) := by
  simp only [checkYAndYR, if_true]
  split_ifs
  · exact ⟨false, rfl, fun h => absurd h Bool.false_ne_true⟩
  · exact ⟨_, rfl, sameSet_iff.mp⟩

theorem mergeYAndY_fusion (a b : AxisGroup) : mergeYAndY true a b =
    some ((a.yGroup.length == b.yGroup.length) && sameSet a.yGroup b.yGroup, a) := by
  unfold mergeYAndY
  by_cases h : a.yGroup.length = b.yGroup.length
  · simp [h]
  · simp [h]

/-- The table is symmetric. An accepted merge gives one of the two groups, which have the same axes, and
the same lists in either order. -/
theorem mergeByType_fusion (hn : a.nGroup = b.nGroup) : ∃ ok m m',
    mergeByType true a b = some (ok, m) ∧ mergeByType true b a = some (ok, m') ∧
      (ok = true → (m = a ∨ m = b) ∧ (∀ c, c ∈ a.tiled ↔ c ∈ b.tiled) ∧ SameAxes m m') := by
  have hsame : ∀ g : AxisGroup, SameAxes g g := fun g =>
    ⟨fun _ => Iff.rfl, fun _ => Iff.rfl, fun _ => Iff.rfl, fun _ => Iff.rfl⟩
  rcases a.getGroupType_empty with ⟨hay, hayr, haxy, har⟩
  rcases b.getGroupType_empty with ⟨hby, hbyr, hbxy, hbr⟩
  unfold mergeByType
  split
  case h_1 ha hb =>
    rw [ha, hb, mergeYAndY_fusion, mergeYAndY_fusion]
    refine ⟨_, a, b, rfl, by rw [sameSet_comm, BEq.comm], fun h => ?_⟩
    have hy := sameSet_iff.mp (Bool.and_eq_true _ _ ▸ h).2
    refine ⟨.inl rfl, fun c => by simp [tiled, hay ha, hby hb, hy c], ?_, hy, ?_, fun c => by rw [hn]⟩
    · simp [(hay ha).1, (hby hb).1]
    · simp [(hay ha).2, (hby hb).2]
  case h_2 ha hb =>
    rw [ha, hb]
    rcases @checkYAndYR_fusion a.yGroup b.yGroup b.rGroup b.axesOrder with ⟨ok, hok, hset⟩
    refine ⟨ok, _, b, by rw [mergeYAndYR, hok]; rfl, by rw [mergeYRAndY, hok]; rfl, fun h => ?_⟩
    rw [if_pos h]
    exact ⟨.inr rfl, fun c => by simpa [tiled, hay ha, hbyr hb] using hset h c, hsame b⟩
  case h_3 ha hb =>
    rw [ha, hb]
    rcases @checkYAndYR_fusion b.yGroup a.yGroup a.rGroup a.axesOrder with ⟨ok, hok, hset⟩
    refine ⟨ok, a, _, by rw [mergeYRAndY, hok]; rfl, by rw [mergeYAndYR, hok]; rfl, fun h => ?_⟩
    rw [if_pos h]
    exact ⟨.inl rfl, fun c => by simpa [tiled, hayr ha, hby hb] using (hset h c).symm, hsame a⟩
  case h_4 ha hb =>
    rw [ha, hb]
    refine ⟨_, a, b, rfl, by rw [sameSet_comm a.yGroup, sameSet_comm a.rGroup]; rfl, fun h => ?_⟩
    rw [Bool.and_eq_true, sameSet_iff, sameSet_iff] at h
    refine ⟨.inl rfl, fun c => ?_, fun c => ?_, h.1, h.2, fun c => by rw [hn]⟩
    · simp [tiled, hayr ha, hbyr hb, h.1 c, h.2 c]
    · simp [hayr ha, hbyr hb]
  case h_5 ha hb =>
    rw [ha, hb]
    refine ⟨_, _, b, rfl, by rw [mergeXYAndY, sameSet_comm], fun h => ?_⟩
    rw [if_pos h]
    have hset := sameSet_iff.mp h
    exact ⟨.inr rfl, fun c => by simpa [tiled, hay ha, hbxy hb, or_comm] using hset c, hsame b⟩
  case h_6 ha hb =>
    rw [ha, hb]
    refine ⟨_, a, _, rfl, by rw [mergeYAndXY, sameSet_comm]; rfl, fun h => ?_⟩
    rw [if_pos h]
    have hset := sameSet_iff.mp h
    exact ⟨.inl rfl, fun c => by simpa [tiled, haxy ha, hby hb, or_comm] using hset c, hsame a⟩
  case h_7 ha hb =>
    rw [ha, hb]
    refine ⟨_, _, b, rfl, rfl, fun h => ?_⟩
    rw [if_pos h]
    have hset := sameSet_iff.mp h
    exact ⟨.inr rfl, fun c => by simpa [tiled, hay ha, hbr hb] using hset c, hsame b⟩
  case h_8 ha hb =>
    rw [ha, hb]
    refine ⟨_, a, _, rfl, rfl, fun h => ?_⟩
    rw [if_pos h]
    have hset := sameSet_iff.mp h
    exact ⟨.inl rfl, fun c => by simpa [tiled, har ha, hby hb] using (hset c).symm, hsame a⟩
  case h_9 =>
    refine ⟨false, a, b, rfl, ?_, fun h => absurd h Bool.false_ne_true⟩
    split <;> simp_all

/-- Nothing is left to tile in the group once the n axes of either group are gone. -/
def Bare (n : List AxisId) (g : AxisGroup) : Prop := ∀ c ∈ g.tiled, c ∈ n

theorem removeNGroup_invalid (hn : ∀ c ∈ g.nGroup, c ∈ n) :
    (g.removeNGroupAxisInXYRGroup n).getGroupType = .invalid ↔ Bare n g := by
  rw [getGroupType_eq_invalid, (removeNGroup_lists hn).1, without, filter_eq_nil_iff]
  simp [Bare]

theorem mergeByType_invalid (a : AxisGroup) {b : AxisGroup} (h : b.getGroupType = .invalid) :
    mergeByType true a b = some (false, a) := by
  rw [mergeByType, h]
  cases a.getGroupType <;> rfl

theorem mergedN_comm (a b : AxisGroup) : mergedN b a = mergedN a b :=
  sortedSet_congr fun c => by rw [mem_append, mem_append, or_comm]

theorem bare_mergedN : Bare (mergedN a b) g ↔ Bare (a.nGroup ++ b.nGroup) g := by
  simp only [Bare, mergedN, mem_sortedSet]

/-- The fusion test is symmetric as long as not exactly one of the groups is left bare, an empty source
being refused. What it accepts has the axes of both groups, each once. -/
theorem canMergeAxisGroup_comm (a b : AxisGroup) (ha : a.WellFormed) (hb : b.WellFormed) :
    ∃ ok m ok' m', canMergeAxisGroup a b = some (ok, m) ∧ canMergeAxisGroup b a = some (ok', m') ∧
      ((Bare (a.nGroup ++ b.nGroup) a ↔ Bare (a.nGroup ++ b.nGroup) b) → ok = ok') ∧
      (Bare (a.nGroup ++ b.nGroup) a → ok = true) ∧
      (Bare (a.nGroup ++ b.nGroup) a → ¬ Bare (a.nGroup ++ b.nGroup) b → ok' = false) ∧
      (ok = true → m.WellFormed ∧
        ∀ c, c ∈ m.tiled ++ m.nGroup ↔ c ∈ a.tiled ++ a.nGroup ∨ c ∈ b.tiled ++ b.nGroup) ∧
      (ok = true → ok' = true → SameAxes m m') := by
  have hna : ∀ c ∈ a.nGroup, c ∈ mergedN a b := fun c hc => by simp [mergedN, hc]
  have hnb : ∀ c ∈ b.nGroup, c ∈ mergedN a b := fun c hc => by simp [mergedN, hc]
  rcases removeNGroup_lists hna with ⟨htila, hngra⟩
  rcases removeNGroup_lists hnb with ⟨htilb, hngrb⟩
  have hwa := ha.removeNGroup (nodup_sortedSet _) hna
  have hwb := hb.removeNGroup (nodup_sortedSet _) hnb
  have hba := (removeNGroup_invalid hna).trans bare_mergedN
  have hbb := (removeNGroup_invalid hnb).trans bare_mergedN
  simp only [canMergeAxisGroup, mergeAxesGroup, mergedN_comm a b]
  -- the axes of a group after the removal, together with the removed ones
  have hunion : ∀ m : AxisGroup, m.nGroup = mergedN a b →
      (∀ c, c ∈ m.tiled ↔ c ∈ without (mergedN a b) a.tiled ∨ c ∈ without (mergedN a b) b.tiled) →
      ∀ c, c ∈ m.tiled ++ m.nGroup ↔ c ∈ a.tiled ++ a.nGroup ∨ c ∈ b.tiled ++ b.nGroup := by
    intro m hmn hm c
    rw [mem_append, hm, hmn, mem_without, mem_without, mergedN, mem_sortedSet]
    simp only [mem_append]
    by_cases hca : c ∈ a.nGroup
    · simp [hca]
    · by_cases hcb : c ∈ b.nGroup
      · simp [hcb]
      · simp [hca, hcb]
  set a' := a.removeNGroupAxisInXYRGroup (mergedN a b)
  set b' := b.removeNGroupAxisInXYRGroup (mergedN a b)
  have hnil : ∀ g : AxisGroup, g.getGroupType = .invalid → ∀ c, c ∉ g.tiled := fun g hg =>
    eq_nil_iff_forall_not_mem.mp (getGroupType_eq_invalid.mp hg)
  by_cases hA : a'.getGroupType = .invalid
  · rw [if_pos hA]
    have hleft : ∀ c, c ∉ without (mergedN a b) a.tiled := htila ▸ hnil a' hA
    by_cases hB : b'.getGroupType = .invalid
    · rw [if_pos hB]
      refine ⟨true, b', true, a', rfl, rfl, fun _ => rfl, fun _ => rfl,
        fun _ h => absurd (hbb.mp hB) h, fun _ => ⟨hwb, hunion b' hngrb fun c => ?_⟩, fun _ _ => ?_⟩
      · rw [htilb, or_iff_right (hleft c)]
      · have hempty := hnil a' hA
        have hempty' := hnil b' hB
        simp only [tiled, mem_append, not_or] at hempty hempty'
        exact ⟨fun c => iff_of_false (hempty' c).1.1 (hempty c).1.1,
          fun c => iff_of_false (hempty' c).1.2 (hempty c).1.2,
          fun c => iff_of_false (hempty' c).2 (hempty c).2, fun c => by rw [hngra, hngrb]⟩
    · rw [if_neg hB, mergeByType_invalid b' hA]
      refine ⟨true, b', false, b', rfl, rfl, fun h => absurd (hbb.mpr (h.mp (hba.mp hA))) hB,
        fun _ => rfl, fun _ _ => rfl, fun _ => ⟨hwb, hunion b' hngrb fun c => ?_⟩,
        fun _ h => absurd h Bool.false_ne_true⟩
      rw [htilb, or_iff_right (hleft c)]
  · rw [if_neg hA]
    by_cases hB : b'.getGroupType = .invalid
    · rw [if_pos hB, mergeByType_invalid a' hB]
      exact ⟨false, a', true, a', rfl, rfl, fun h => absurd (hba.mpr (h.mpr (hbb.mp hB))) hA,
        fun h => absurd (hba.mpr h) hA, fun h => absurd (hba.mpr h) hA,
        fun h => absurd h Bool.false_ne_true, fun h => absurd h Bool.false_ne_true⟩
    · rw [if_neg hB]
      rcases mergeByType_fusion (hngra.trans hngrb.symm) with ⟨ok, m, m', hm, hm', hspec⟩
      refine ⟨ok, m, ok, m', hm, hm', fun _ => rfl, fun h => absurd (hba.mpr h) hA,
        fun h => absurd (hba.mpr h) hA, fun h => ?_, fun h _ => (hspec h).2.2⟩
      rcases hspec h with ⟨hmem, htil, -⟩
      rw [htila, htilb] at htil
      rcases hmem with rfl | rfl
      · exact ⟨hwa, hunion a' hngra fun c => by rw [htila, ← htil c, or_self]⟩
      · exact ⟨hwb, hunion b' hngrb fun c => by rw [htilb, htil c, or_self]⟩

/-- A y group against an x/y group, which share the axis 7 with the n axes of the second one. -/
theorem canMergeAxisGroup_comm_xy :
    ∃ ok m ok' m', canMergeAxisGroup { yGroup := [1, 2, 7] }
        { xGroup := [2], yGroup := [1], nGroup := [7] } = some (ok, m) ∧
      canMergeAxisGroup { xGroup := [2], yGroup := [1], nGroup := [7] } { yGroup := [1, 2, 7] } =
        some (ok', m') ∧ ok = ok' ∧ (ok = true → ok' = true → SameAxes m m') := by
  rcases canMergeAxisGroup_comm { yGroup := [1, 2, 7] } { xGroup := [2], yGroup := [1], nGroup := [7] }
    (by decide) (by decide) with ⟨ok, m, ok', m', h, h', hcomm, -, -, -, hsame⟩
  exact ⟨ok, m, ok', m', h, h', hcomm (by simp [Bare, tiled]), hsame⟩

/-- A group whose only axis must not be tiled takes any other group as a target, and none takes it. -/
theorem canMergeAxisGroup_bare :
    canMergeAxisGroup { nGroup := [1] } { yGroup := [2], axesOrder := [0] } =
        some (true, { yGroup := [2], nGroup := [1], axesOrder := [0] }) ∧
      canMergeAxisGroup { yGroup := [2], axesOrder := [0] } { nGroup := [1] } =
        some (false, { yGroup := [2], nGroup := [1], axesOrder := [0] }) := by
  decide

end Fusion

end GraphAutofusion.Autofuse
