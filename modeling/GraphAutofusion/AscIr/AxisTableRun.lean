import GraphAutofusion.AscIr.AxisTable
import GraphAutofusion.Lib.Ring
import Mathlib.Data.List.TakeWhile

/-!
# AscIr.AxisTableRun — the axis table and the schedules over the calls

The table stays numbered by its places. A call on a node does what it is to do exactly where the axes it is
given fit the schedule of the node, which the calls check in part only.
-/

namespace GraphAutofusion.AscIr.AxisTable

open List

open Autofuse.VectorAxis (AxisId)
open Autofuse.LoopAxes (AxisType Tensor mergeSched mergeSchedStep SchedState mergeTensor valid_ofDims)
open Views Lib

variable {ι ε σ : Type} [DecidableEq ι] {E : SplitSymbols ε σ} {axis : List (Axis ε)} {a m : AxisId}
  {original sched sched' : List AxisId} {n : Node ε} {outterId innerId originalId axisId : AxisId}
  {splitSize : ε} {t : Tensor ε} {outputs : List (Tensor ε)}

/-! ## The table -/

section

variable (h : WellNumbered axis)
include h

theorem createAxis_wellNumbered {name : String} {type : AxisType} {size : ε} {fromIds : List AxisId}
    {splitPeer : AxisId} : WellNumbered (createAxis axis name type size fromIds splitPeer) := by
  intro i a ha
  rw [createAxis, getElem?_append] at ha
  split at ha
  · exact h i a ha
  · next hi =>
    -- the new axis is the last one
    rw [getElem?_singleton] at ha
    split at ha
    · next hlast =>
      cases ha
      have hlen : i = axis.length := by omega
      rw [hlen]
    · cases ha

theorem doSplit_wellNumbered {outerName innerName : String} {isTileSplit : Bool}
    {axis' : List (Axis ε)} (hrun : doSplit E axis axisId outerName innerName isTileSplit = some axis') :
    WellNumbered axis' := by
  rw [doSplit] at hrun
  split at hrun
  · cases hrun
  · cases hrun
    exact createAxis_wellNumbered (createAxis_wellNumbered h)

theorem mergeAxis_wellNumbered {axisIds : List AxisId} {name : String}
    {axis' : List (Axis ε)} (hrun : mergeAxis E axis axisIds name = some axis') : WellNumbered axis' := by
  rw [mergeAxis] at hrun
  split at hrun
  · cases hrun
  · cases hrun
    exact createAxis_wellNumbered h

theorem getD_wellNumbered {result : Option (List (Axis ε))}
    (hsome : ∀ axis', result = some axis' → WellNumbered axis') : WellNumbered (result.getD axis) := by
  cases result with
  | none => exact h
  | some axis' => exact hsome axis' rfl

theorem TableCall.run_wellNumbered (call : TableCall ε) : WellNumbered (call.run E axis) := by
  cases call with
  | createAxis name type size fromIds splitPeer => exact createAxis_wellNumbered h
  | blockSplit axisId outerName innerName =>
    exact getD_wellNumbered h fun _ hrun => doSplit_wellNumbered h hrun
  | tileSplit axisId outerName innerName =>
    exact getD_wellNumbered h fun _ hrun => doSplit_wellNumbered h hrun
  | mergeAxis axisIds name => exact getD_wellNumbered h fun _ hrun => mergeAxis_wellNumbered h hrun

end

/-- Only the id behind the last axis is looked up out of range. -/
theorem findsAxis_iff : FindsAxis axis axisId ↔ axisId ≠ axis.length := by
  rw [FindsAxis, findAxis, axisAt]
  by_cases hneg : axisId < 0
  · rw [if_pos (.inl hneg), if_neg (not_le.mpr hneg)]
    refine iff_of_true rfl fun heq => ?_
    rw [heq] at hneg
    exact absurd (Int.natCast_nonneg axis.length) (not_le.mpr hneg)
  rw [if_pos (not_lt.mp hneg)]
  have hcast : ((axisId.toNat : ℕ) : ℤ) = axisId := Int.toNat_of_nonneg (not_lt.mp hneg)
  by_cases hlarge : (axis.length : AxisId) < axisId
  · rw [if_pos (.inr hlarge), getElem?_eq_none]
    · exact iff_of_true rfl (ne_of_gt hlarge)
    · exact Int.ofNat_le.mp (hcast.symm ▸ le_of_lt hlarge)
  rw [if_neg fun h => h.elim hneg hlarge]
  by_cases hlen : axisId = axis.length
  · rw [getElem?_eq_none (Int.ofNat_le.mp (hcast.symm ▸ hlen.symm.le))]
    exact iff_of_false (fun h => by cases h) fun h => h hlen
  · have hlt : axisId.toNat < axis.length := by
      have hle := not_lt.mp hlarge
      exact Int.ofNat_lt.mp (hcast.symm ▸ Int.lt_iff_le_and_ne.mpr ⟨hle, hlen⟩)
    rw [getElem?_eq_getElem hlt]
    exact iff_of_true rfl hlen

/-! ## Merging the schedule -/

theorem filter_eq_takeWhile (p : AxisId → Bool) (l : List AxisId) :
    l.filter p = l.takeWhile p ++ (l.dropWhile p).filter p := by
  have hfront : (l.takeWhile p).filter p = l.takeWhile p :=
    filter_eq_self.mpr fun a ha => mem_takeWhile_imp ha
  calc l.filter p = (l.takeWhile p ++ l.dropWhile p).filter p := by rw [takeWhile_append_dropWhile]
    _ = l.takeWhile p ++ (l.dropWhile p).filter p := by rw [filter_append, hfront]

theorem insertIdx_filter (m : AxisId) (original sched : List AxisId) :
    (sched.filter fun a => !original.contains a).insertIdx
      (sched.takeWhile fun a => !original.contains a).length m = replaceAtFirst m original sched := by
  rw [filter_eq_takeWhile, insertIdx_length]
  rfl

/-- The state of the loop after a part of the schedule. -/
def schedState (m : AxisId) (original sched : List AxisId) : SchedState where
  axis := if original ≠ [] ∧ ∀ a ∈ original, a ∈ sched then replaceAtFirst m original sched
    else sched.filter fun a => !original.contains a
  mergeAxisSet := (sched.filter fun a => original.contains a).toFinset
  firstMergeAxisIndex := if ∃ a ∈ original, a ∈ sched then
    some (sched.takeWhile fun a => !original.contains a).length else none

theorem not_outside {a : AxisId} (ha : a ∈ original) : (!original.contains a) = false := by
  rw [contains_iff_mem.mpr ha]
  rfl

theorem outside {a : AxisId} (ha : a ∉ original) : (!original.contains a) = true := by
  rw [Bool.not_eq_true', ← Bool.not_eq_true, contains_iff_mem]
  exact ha

/-- The part in front of the first listed axis. -/
theorem takeWhile_concat (h : ∃ a ∈ original, a ∈ sched) (b : AxisId) :
    (sched ++ [b]).takeWhile (fun a => !original.contains a) =
      sched.takeWhile fun a => !original.contains a := by
  rcases h with ⟨a, ha, hmem⟩
  rw [takeWhile_append, if_neg]
  intro hlen
  have hall := takeWhile_eq_self_iff.mp (List.takeWhile_prefix _ |>.eq_of_length hlen) a hmem
  rw [not_outside ha] at hall
  cases hall

theorem takeWhile_eq_self_of_outside (h : ¬ ∃ a ∈ original, a ∈ sched) :
    sched.takeWhile (fun a => !original.contains a) = sched :=
  takeWhile_eq_self_iff.mpr fun a ha => outside fun hmem => h ⟨a, hmem, ha⟩

theorem replaceAtFirst_concat (h : ∃ a ∈ original, a ∈ sched) {b : AxisId} (hb : b ∉ original) :
    replaceAtFirst m original (sched ++ [b]) = replaceAtFirst m original sched ++ [b] := by
  rw [← insertIdx_filter, ← insertIdx_filter, takeWhile_concat h, filter_append,
    filter_eq_takeWhile _ sched, insertIdx_length, append_assoc, insertIdx_length,
    filter_singleton, outside hb]
  simp

/-- All listed axes were met when there are as many. -/
theorem card_schedState_iff (horiginal : original.Nodup) :
    (schedState m original sched).mergeAxisSet.card = original.length ↔ ∀ a ∈ original, a ∈ sched := by
  have hsub : (schedState m original sched).mergeAxisSet ⊆ original.toFinset := by
    intro a ha
    rw [schedState] at ha
    exact mem_toFinset.mpr (contains_iff_mem.mp (mem_filter.mp (mem_toFinset.mp ha)).2)
  rw [← toFinset_card_of_nodup horiginal]
  constructor
  · intro hcard a ha
    have heq := Finset.eq_of_subset_of_card_le hsub hcard.ge
    have ha' := mem_toFinset.mpr ha
    rw [← heq, schedState] at ha'
    exact (mem_filter.mp (mem_toFinset.mp ha')).1
  · intro hall
    refine congrArg Finset.card (Finset.Subset.antisymm hsub fun a ha => ?_)
    have ha' := mem_toFinset.mp ha
    rw [schedState]
    exact mem_toFinset.mpr (mem_filter.mpr ⟨hall a ha', contains_iff_mem.mpr ha'⟩)

/-- One iteration of the loop. -/
theorem mergeSchedStep_concat (horiginal : original.Nodup) {b : AxisId} (hb : b ∉ sched) :
    mergeSchedStep m original (schedState m original sched) (b, sched.length) =
      schedState m original (sched ++ [b]) := by
  rw [mergeSchedStep]
  by_cases hmem : b ∈ original
  · rw [if_pos hmem]
    have hset : insert b (schedState m original sched).mergeAxisSet =
        (schedState m original (sched ++ [b])).mergeAxisSet := by
      rw [schedState, schedState]
      dsimp only
      rw [filter_append, filter_singleton, contains_iff_mem.mpr hmem]
      rw [cond_true, toFinset_append, toFinset_cons, toFinset_nil, Finset.insert_eq,
        Finset.union_comm]
      rfl
    have hsome : ∃ a ∈ original, a ∈ sched ++ [b] :=
      ⟨b, hmem, mem_append_right _ (mem_singleton_self b)⟩
    have hfirst : (schedState m original sched).firstMergeAxisIndex.getD sched.length =
        ((sched ++ [b]).takeWhile fun a => !original.contains a).length := by
      rw [schedState]
      dsimp only
      split
      · next h => rw [takeWhile_concat h]; rfl
      · next h =>
        rw [takeWhile_append, if_pos (by rw [takeWhile_eq_self_of_outside h]),
          takeWhile_cons_of_neg (by rw [not_outside hmem]; exact Bool.false_ne_true)]
        simp
    -- the new axis was missing before
    have hbefore : (schedState m original sched).axis =
        (sched ++ [b]).filter fun a => !original.contains a := by
      rw [schedState]
      dsimp only
      rw [if_neg fun h => hb (h.2 b hmem), filter_append, filter_singleton, not_outside hmem]
      simp
    have hcard := @card_schedState_iff m original (sched ++ [b]) horiginal
    dsimp only
    rw [hset, hfirst, hbefore, insertIdx_filter]
    have hne : original ≠ [] := fun hnil => by
      rw [hnil] at hmem
      cases hmem
    rw [schedState] at hcard ⊢
    dsimp only at hcard ⊢
    rw [if_pos hsome]
    by_cases hall : ∀ a ∈ original, a ∈ sched ++ [b]
    · rw [if_pos (hcard.mpr hall), if_pos ⟨hne, hall⟩]
    · rw [if_neg fun h => hall (hcard.mp h), if_neg fun h => hall h.2]
  · rw [if_neg hmem]
    have hall : (∀ a ∈ original, a ∈ sched ++ [b]) ↔ ∀ a ∈ original, a ∈ sched := by
      refine forall₂_congr fun a ha => ?_
      rw [mem_append, mem_singleton]
      refine ⟨fun h => h.resolve_right fun heq => hmem (heq ▸ ha), .inl⟩
    have hsome : (∃ a ∈ original, a ∈ sched ++ [b]) ↔ ∃ a ∈ original, a ∈ sched := by
      refine exists_congr fun a => and_congr_right fun ha => ?_
      rw [mem_append, mem_singleton]
      refine ⟨fun h => h.resolve_right fun heq => hmem (heq ▸ ha), .inl⟩
    have hfilter : (sched ++ [b]).filter (fun a => original.contains a) =
        sched.filter fun a => original.contains a := by
      rw [filter_append, filter_singleton]
      have hcontains : original.contains b = false := by
        rw [← Bool.not_eq_true, contains_iff_mem]
        exact hmem
      rw [hcontains]
      simp
    rw [schedState, schedState]
    dsimp only
    rw [hfilter]
    simp only [hall, hsome]
    congr 1
    · split
      · next h =>
        rcases exists_mem_of_ne_nil original h.1 with ⟨a, ha⟩
        rw [replaceAtFirst_concat ⟨a, ha, h.2 a ha⟩ hmem]
      · rw [filter_append, filter_singleton, outside hmem]
        simp
    · split
      · next h => rw [takeWhile_concat h]
      · rfl

/-- A schedule without repetitions is merged where it has all listed axes, stays where it has none, and is
refused otherwise. -/
theorem mergeSched_spec (hsched : sched.Nodup) : mergeSched m original sched =
    if original.Nodup then
      if ∀ a ∈ original, a ∉ sched then some sched
      else if ∀ a ∈ original, a ∈ sched then some (replaceAtFirst m original sched) else none
    else none := by
  have hcard : original.toFinset.card = original.length ↔ original.Nodup :=
    ⟨fun h => Multiset.coe_nodup.mp (Multiset.toFinset_card_eq_card_iff_nodup.mp h),
      fun h => toFinset_card_of_nodup h⟩
  rw [mergeSched]
  by_cases horiginal : original.Nodup
  · rw [if_pos horiginal, if_pos (hcard.mpr horiginal)]
    have hfold : ∀ l : List AxisId, l.Nodup →
        l.zipIdx.foldl (mergeSchedStep m original) {} = schedState m original l := by
      intro l
      induction l using reverseRecOn with
      | nil =>
        intro _
        have hnot : ¬ (original ≠ [] ∧ ∀ a ∈ original, a ∈ ([] : List AxisId)) := by
          rintro ⟨hne, hall⟩
          rcases exists_mem_of_ne_nil original hne with ⟨a, ha⟩
          exact absurd (hall a ha) not_mem_nil
        have hno : ¬ ∃ a ∈ original, a ∈ ([] : List AxisId) := by simp
        rw [schedState, if_neg hnot, if_neg hno]
        rfl
      | append_singleton l b ih =>
        intro hl
        rw [nodup_append] at hl
        have hb : b ∉ l := fun hmem => hl.2.2 b hmem b (mem_singleton_self b) rfl
        rw [zipIdx_append, foldl_append, ih hl.1, zipIdx_singleton, foldl_cons,
          foldl_nil, zero_add, mergeSchedStep_concat horiginal hb]
    have hset : (schedState m original sched).mergeAxisSet = ∅ ↔ ∀ a ∈ original, a ∉ sched := by
      rw [schedState, toFinset_eq_empty_iff, filter_eq_nil_iff]
      constructor
      · exact fun h a ha hmem => h a hmem (contains_iff_mem.mpr ha)
      · exact fun h a hmem ha => h a (contains_iff_mem.mp ha) hmem
    rw [hfold sched hsched]
    dsimp only
    by_cases hnone : ∀ a ∈ original, a ∉ sched
    · rw [if_pos hnone, if_pos (.inr (hset.mpr hnone)), schedState]
      dsimp only
      rw [if_neg, filter_eq_self.mpr]
      · exact fun a ha => outside fun hmem => hnone a hmem ha
      · rintro ⟨hne, hall⟩
        rcases exists_mem_of_ne_nil original hne with ⟨a, ha⟩
        exact hnone a ha (hall a ha)
    · have hne : original ≠ [] := by
        rintro rfl
        exact hnone fun a ha => absurd ha not_mem_nil
      rw [if_neg hnone]
      have hfull := @card_schedState_iff m original sched horiginal
      by_cases hall : ∀ a ∈ original, a ∈ sched
      · rw [if_pos hall, if_pos (.inl (hfull.mpr hall)), schedState]
        dsimp only
        rw [if_pos ⟨hne, hall⟩]
      · rw [if_neg hall, if_neg fun h => h.elim (fun h => hall (hfull.mp h)) fun h => hnone (hset.mp h)]
  · rw [if_neg horiginal, if_neg (mt hcard.mp horiginal)]

theorem nodup_replaceAtFirst (hsched : sched.Nodup) :
    (replaceAtFirst m original sched).Nodup ↔ (m ∈ sched → m ∈ original) := by
  have hperm : (replaceAtFirst m original sched).Perm
      (m :: sched.filter fun a => !original.contains a) := by
    rw [filter_eq_takeWhile]
    exact perm_middle
  rw [hperm.nodup_iff, nodup_cons]
  constructor
  · intro h hm
    by_contra hmem
    exact h.1 (mem_filter.mpr ⟨hm, outside hmem⟩)
  · intro h
    refine ⟨fun hmem => ?_, hsched.filter _⟩
    rcases mem_filter.mp hmem with ⟨hm, hout⟩
    rw [not_outside (h hm)] at hout
    cases hout

/-- A merge of a schedule does what it is to do where the new axis fits. -/
theorem mergeResult_iff (hsched : sched.Nodup) :
    (∀ sched', mergeSched m original sched = some sched' → MergeResult axis m original sched sched') ↔
      MergeMeets axis sched m original := by
  rw [mergeSched_spec hsched]
  by_cases horiginal : original.Nodup
  · rw [if_pos horiginal]
    by_cases hnone : ∀ a ∈ original, a ∉ sched
    · rw [if_pos hnone]
      refine iff_of_true ?_ fun _ _ hne hall => ?_
      · intro _ h
        cases h
        exact ⟨hsched, .inl ⟨hnone, rfl⟩⟩
      · rcases exists_mem_of_ne_nil original hne with ⟨a, ha⟩
        exact absurd (hall a ha) (hnone a ha)
    · have hne : original ≠ [] := by
        rintro rfl
        exact hnone fun a ha => absurd ha not_mem_nil
      rw [if_neg hnone]
      by_cases hall : ∀ a ∈ original, a ∈ sched
      · rw [if_pos hall]
        constructor
        · intro h _ _ _ _
          rcases h _ rfl with ⟨hnodup, ⟨hno, -⟩ | ⟨-, -, hmerge⟩⟩
          · exact absurd hno hnone
          · exact ⟨(nodup_replaceAtFirst hsched).mp hnodup, hmerge⟩
        · intro h _ hsome
          cases hsome
          rcases h hsched horiginal hne hall with ⟨hfresh, hmerge⟩
          exact ⟨(nodup_replaceAtFirst hsched).mpr hfresh, .inr ⟨hall, rfl, hmerge⟩⟩
      · rw [if_neg hall]
        exact iff_of_true (fun _ h => by cases h) fun _ _ _ h => absurd h hall
  · rw [if_neg horiginal]
    exact iff_of_true (fun _ h => by cases h) fun _ h => absurd h horiginal

/-! ## Splitting -/

theorem splitSched_of_not_mem (h : originalId ∉ sched) :
    splitSched outterId innerId originalId sched = sched := by
  induction sched with
  | nil => rfl
  | cons a sched ih =>
    rw [mem_cons, not_or] at h
    rw [splitSched, flatMap_cons, if_neg (Ne.symm h.1)]
    exact congrArg (a :: ·) (ih h.2)

theorem splitSched_length : (splitSched outterId innerId originalId sched).length =
    sched.length + sched.count originalId := by
  induction sched with
  | nil => rfl
  | cons a sched ih =>
    rw [splitSched, flatMap_cons, length_append, length_cons, count_cons]
    rw [splitSched] at ih
    rw [ih]
    by_cases ha : a = originalId
    · simp [ha]
      omega
    · simp [ha]
      omega

/-- A split changes every list that has the axis. -/
theorem splitSched_eq_self_iff :
    splitSched outterId innerId originalId sched = sched ↔ originalId ∉ sched := by
  constructor
  · intro h hmem
    have hlen : (splitSched outterId innerId originalId sched).length = _ := splitSched_length
    have hpos := count_pos_iff.mpr hmem
    rw [h] at hlen
    omega
  · exact splitSched_of_not_mem

theorem nodup_splitSched (hsched : sched.Nodup) (hmem : originalId ∈ sched) (hne : outterId ≠ innerId) :
    (splitSched outterId innerId originalId sched).Nodup ↔
      ∀ a ∈ sched, a ≠ originalId → a ≠ outterId ∧ a ≠ innerId := by
  rcases append_of_mem hmem with ⟨l, r, rfl⟩
  rw [nodup_append, nodup_cons] at hsched
  have hl : originalId ∉ l := fun h => hsched.2.2 _ h _ mem_cons_self rfl
  have hsplit : splitSched outterId innerId originalId (l ++ originalId :: r) =
      l ++ outterId :: innerId :: r := by
    rw [splitSched, flatMap_append, flatMap_cons, if_pos rfl]
    exact congrArg₂ (fun x y => x ++ ([outterId, innerId] ++ y)) (splitSched_of_not_mem hl)
      (splitSched_of_not_mem hsched.2.1.1)
  have hperm : (l ++ outterId :: innerId :: r).Perm (outterId :: innerId :: (l ++ r)) :=
    perm_middle.trans (Perm.cons _ perm_middle)
  have hrest : (l ++ r).Nodup := by
    refine nodup_append.mpr ⟨hsched.1, hsched.2.1.2, fun a ha b hb => ?_⟩
    exact hsched.2.2 a ha b (mem_cons_of_mem _ hb)
  rw [hsplit, hperm.nodup_iff, nodup_cons, nodup_cons, mem_cons, not_or]
  constructor
  · rintro ⟨⟨-, houter⟩, hinner, -⟩ a ha hao
    have hmem : a ∈ l ++ r := by
      rcases mem_append.mp ha with h | h
      · exact mem_append_left _ h
      · exact mem_append_right _ ((mem_cons.mp h).resolve_left hao)
    exact ⟨fun h => houter (h ▸ hmem), fun h => hinner (h ▸ hmem)⟩
  · intro h
    have hkeep : ∀ a ∈ l ++ r, a ≠ outterId ∧ a ≠ innerId := by
      intro a ha
      rcases mem_append.mp ha with ha | ha
      · exact h a (mem_append_left _ ha) fun heq => hl (heq ▸ ha)
      · exact h a (mem_append_right _ (mem_cons_of_mem _ ha)) fun heq =>
          hsched.2.1.1 (heq ▸ ha)
    exact ⟨⟨hne, fun hmem => (hkeep _ hmem).1 rfl⟩, fun hmem => (hkeep _ hmem).2 rfl, hrest⟩

theorem splitView_axis (h : t.Valid) :
    (splitView E splitSize outterId innerId originalId t).axis =
      splitSched outterId innerId originalId t.axis := by
  rw [splitView, if_pos h, Tensor.ofDims, ← h.axis, splitSched, map_flatMap, flatMap_map]
  dsimp only
  congr 1
  funext d
  rw [splitDim]
  split
  · split <;> rfl
  · rfl

theorem splitView_isEmpty :
    (splitView E splitSize outterId innerId originalId t).axis.isEmpty = false ↔ Splittable t := by
  by_cases h : t.Valid
  · rw [splitView_axis h, Splittable, and_iff_right h]
    cases t.axis with
    | nil => exact iff_of_false (by simp [splitSched]) (by simp)
    | cons a l =>
      refine iff_of_true ?_ (cons_ne_nil a l)
      rw [splitSched, flatMap_cons]
      split <;> rfl
  · rw [splitView, if_neg h]
    exact iff_of_false (by simp) fun hsplit => h hsplit.1

theorem splitView_eq_self_iff (h : Splittable t) :
    splitView E splitSize outterId innerId originalId t = t ↔ originalId ∉ t.axis := by
  have hsched : splitSched outterId innerId originalId t.axis = t.axis ↔ originalId ∉ t.axis :=
    splitSched_eq_self_iff
  have hview : (splitView E splitSize outterId innerId originalId t).axis = _ := splitView_axis h.1
  rw [← hsched, ← hview]
  constructor
  · exact fun heq => congrArg Tensor.axis heq
  · intro haxis
    rw [splitView_axis h.1, splitSched_eq_self_iff] at haxis
    -- no dimension is split
    have hdims : t.dims.flatMap (splitDim E splitSize outterId innerId originalId) = t.dims := by
      have hall : ∀ d ∈ t.dims, d.axis ≠ originalId := by
        intro d hd heq
        apply haxis
        rw [← h.1.axis, ← heq]
        exact mem_map_of_mem hd
      have hone : ∀ dims : List (Autofuse.LoopAxes.Dim ε), (∀ d ∈ dims, d.axis ≠ originalId) →
          dims.flatMap (splitDim E splitSize outterId innerId originalId) = dims := by
        intro dims
        induction dims with
        | nil => exact fun _ => rfl
        | cons d dims ih =>
          intro hne
          rw [flatMap_cons, splitDim, if_neg (hne d mem_cons_self),
            ih fun d' hd' => hne d' (mem_cons_of_mem _ hd')]
          rfl
      exact hone _ hall
    rw [splitView, if_pos h.1, hdims, ofDims_dims h.1]

/-- The outputs in front of the first that cannot be split are split. -/
theorem splitOutputs_spec : splitOutputs E splitSize outterId innerId originalId outputs =
    (decide (∀ t ∈ outputs, Splittable t),
      (outputs.takeWhile fun t => decide (Splittable t)).map
        (splitView E splitSize outterId innerId originalId) ++
          outputs.dropWhile fun t => decide (Splittable t)) := by
  induction outputs with
  | nil => simp [splitOutputs]
  | cons t outputs ih =>
    rw [splitOutputs]
    dsimp only
    by_cases h : Splittable t
    · rw [splitView_isEmpty.mpr h, ih]
      simp [h]
    · have hempty : (splitView E splitSize outterId innerId originalId t).axis.isEmpty = true := by
        rw [← Bool.not_eq_false, splitView_isEmpty]
        exact h
      rw [hempty]
      simp [h]

theorem splitOutputs_eq_self_iff :
    (splitOutputs E splitSize outterId innerId originalId outputs).2 = outputs ↔
      ∀ t ∈ outputs.takeWhile fun t => decide (Splittable t), originalId ∉ t.axis := by
  rw [splitOutputs_spec]
  dsimp only
  conv_lhs => rhs; rw [← takeWhile_append_dropWhile (p := fun t => decide (Splittable t)) (l := outputs)]
  rw [append_cancel_right_eq, ← map_id (outputs.takeWhile _), map_map, map_inj_left,
    map_id]
  refine forall₂_congr fun t ht => ?_
  exact splitView_eq_self_iff (of_decide_eq_true (mem_takeWhile_imp
    (p := fun t => decide (Splittable t)) ht))

/-! ## The calls on a node -/

theorem axisAt_of_splitOf {result : AxisId × ε} (h : splitOf axis outterId innerId = some result) :
    outterId ≠ innerId := by
  rw [splitOf] at h
  split at h
  · next outAxis inAxis hout hin =>
    split at h
    · next htype =>
      -- an outer and an inner axis have different types
      rintro rfl
      rw [hout] at hin
      cases hin
      rcases htype with ⟨h1, h2⟩ | ⟨h1, h2⟩
      · rw [h1] at h2
        cases h2
      · rw [h1] at h2
        cases h2
    · cases h
  · cases h

theorem doApplySplit_iff (hne : outterId ≠ innerId) :
    (((doApplySplit E splitSize outterId innerId originalId n).1 = false →
        (doApplySplit E splitSize outterId innerId originalId n).2 = n) ∧
      ((doApplySplit E splitSize outterId innerId originalId n).1 = true → n.sched.Nodup →
        SplitResult axis outterId innerId originalId n.sched
          (doApplySplit E splitSize outterId innerId originalId n).2.sched)) ↔
      SplitMeets axis n outterId innerId originalId := by
  have hok : (doApplySplit E splitSize outterId innerId originalId n).1 = true ↔
      ∀ t ∈ n.outputs, Splittable t := by
    rw [doApplySplit, splitOutputs_spec]
    exact decide_eq_true_iff
  have hfail : (doApplySplit E splitSize outterId innerId originalId n).1 = false ↔
      ∃ t ∈ n.outputs, ¬ Splittable t := by
    rw [← Bool.not_eq_true, hok]
    simp
  have hsame : (doApplySplit E splitSize outterId innerId originalId n).2 = n ↔
      originalId ∉ n.sched ∧
        ∀ t ∈ n.outputs.takeWhile fun t => decide (Splittable t), originalId ∉ t.axis := by
    have hkeep : splitSched outterId innerId originalId n.sched = n.sched ↔ originalId ∉ n.sched :=
      splitSched_eq_self_iff
    have hviews : (splitOutputs E splitSize outterId innerId originalId n.outputs).2 = n.outputs ↔ _ :=
      splitOutputs_eq_self_iff
    rw [← hkeep, ← hviews]
    constructor
    · exact fun h => ⟨congrArg Node.sched h, congrArg Node.outputs h⟩
    · rintro ⟨hsched, houtputs⟩
      rw [doApplySplit]
      dsimp only
      rw [hsched, houtputs]
  rw [hok, hfail, hsame, SplitMeets, and_comm]
  refine and_congr_left fun _ => imp_congr_right fun _ => imp_congr_right fun hsched => ?_
  rw [SplitResult]
  constructor
  · rintro ⟨hnodup, -, hpair⟩ hmem
    exact ⟨(nodup_splitSched hsched hmem hne).mp hnodup, hpair hmem⟩
  · intro h
    refine ⟨?_, rfl, fun hmem => (h hmem).2⟩
    by_cases hmem : originalId ∈ n.sched
    · exact (nodup_splitSched hsched hmem hne).mpr (h hmem).1
    · have hkeep : (doApplySplit E splitSize outterId innerId originalId n).2.sched = n.sched :=
        splitSched_of_not_mem hmem
      rw [hkeep]
      exact hsched

variable {r : Bool × Node ε}

/-- What both calls that merge do to the schedule. -/
theorem merge_iff (hnone : mergeSched m original n.sched = none → r = (false, n))
    (hsome : ∀ sched, mergeSched m original n.sched = some sched → r.1 = true ∧ r.2.sched = sched) :
    ((r.1 = false → r.2 = n) ∧
      (r.1 = true → n.sched.Nodup → MergeResult axis m original n.sched r.2.sched)) ↔
      MergeMeets axis n.sched m original := by
  cases hmerge : mergeSched m original n.sched with
  | none =>
    rw [hnone hmerge]
    refine iff_of_true ⟨fun _ => rfl, fun h => by cases h⟩ fun hsched => ?_
    refine (mergeResult_iff hsched).mp (fun sched' h => ?_) hsched
    rw [hmerge] at h
    cases h
  | some sched' =>
    rcases hsome sched' hmerge with ⟨hok, hsched'⟩
    rw [hok, hsched']
    constructor
    · rintro ⟨-, h⟩ hsched
      refine (mergeResult_iff hsched).mp (fun sched'' heq => ?_) hsched
      rw [hmerge] at heq
      cases heq
      exact h rfl hsched
    · intro h
      refine ⟨fun hn => (Bool.false_ne_true hn.symm).elim, fun _ hsched => ?_⟩
      exact (mergeResult_iff hsched).mpr h sched' hmerge

theorem doApplySchedAxisMerge_iff : (((doApplySchedAxisMerge m original n).1 = false →
        (doApplySchedAxisMerge m original n).2 = n) ∧
      ((doApplySchedAxisMerge m original n).1 = true → n.sched.Nodup →
        MergeResult axis m original n.sched (doApplySchedAxisMerge m original n).2.sched)) ↔
      MergeMeets axis n.sched m original := by
  refine merge_iff (fun h => ?_) fun sched h => ?_
  · rw [doApplySchedAxisMerge, h]
  · rw [doApplySchedAxisMerge, h]
    exact ⟨rfl, rfl⟩

theorem doApplyMerge_iff : (((doApplyMerge E m original n).1 = false → (doApplyMerge E m original n).2 = n) ∧
      ((doApplyMerge E m original n).1 = true → n.sched.Nodup →
        MergeResult axis m original n.sched (doApplyMerge E m original n).2.sched)) ↔
      MergeMeets axis n.sched m original := by
  refine merge_iff (fun h => ?_) fun sched h => ?_
  · rw [doApplyMerge, doApplySchedAxisMerge, h]
  · rw [doApplyMerge, doApplySchedAxisMerge, h]
    exact ⟨rfl, rfl⟩

variable {reorderedAxis : List AxisId}

/-- What both calls that reorder do to the schedule. -/
theorem reorder_iff (hno : ¬ (∀ a ∈ reorderedAxis, a ∈ n.sched) → r = (false, n))
    (hyes : (∀ a ∈ reorderedAxis, a ∈ n.sched) → r.1 = true ∧ r.2.sched = reorderedAxis) :
    ((r.1 = false → r.2 = n) ∧ (r.1 = true → n.sched.Nodup → r.2.sched.Perm n.sched)) ↔
      ReorderMeets n.sched reorderedAxis := by
  by_cases h : ∀ a ∈ reorderedAxis, a ∈ n.sched
  · rcases hyes h with ⟨hok, hsched⟩
    rw [hok, hsched]
    constructor
    · exact fun hr hnodup _ => hr.2 rfl hnodup
    · exact fun hr => ⟨fun hn => (Bool.false_ne_true hn.symm).elim, fun _ hnodup => hr hnodup h⟩
  · rw [hno h]
    exact iff_of_true ⟨fun _ => rfl, fun hn => (Bool.false_ne_true hn).elim⟩ fun _ h' => absurd h' h

theorem all_contains :
    reorderedAxis.all n.sched.contains = true ↔ ∀ a ∈ reorderedAxis, a ∈ n.sched := by
  rw [all_eq_true]
  exact forall₂_congr fun a _ => contains_iff_mem

theorem doApplySchedAxisReorder_iff :
    (((doApplySchedAxisReorder reorderedAxis n).1 = false → (doApplySchedAxisReorder reorderedAxis n).2 = n) ∧
      ((doApplySchedAxisReorder reorderedAxis n).1 = true → n.sched.Nodup →
        (doApplySchedAxisReorder reorderedAxis n).2.sched.Perm n.sched)) ↔
      ReorderMeets n.sched reorderedAxis := by
  refine reorder_iff (fun h => ?_) fun h => ?_
  · rw [doApplySchedAxisReorder, if_neg (mt all_contains.mp h)]
  · rw [doApplySchedAxisReorder, if_pos (all_contains.mpr h)]
    exact ⟨rfl, rfl⟩

theorem applyReorder_iff :
    (((applyReorder reorderedAxis n).1 = false → (applyReorder reorderedAxis n).2 = n) ∧
      ((applyReorder reorderedAxis n).1 = true → n.sched.Nodup →
        (applyReorder reorderedAxis n).2.sched.Perm n.sched)) ↔ ReorderMeets n.sched reorderedAxis := by
  refine reorder_iff (fun h => ?_) fun h => ?_
  · rw [applyReorder, doApplySchedAxisReorder, if_neg (mt all_contains.mp h)]
  · have hagain : reorderedAxis.all reorderedAxis.contains = true :=
      all_eq_true.mpr fun a ha => contains_iff_mem.mpr ha
    rw [applyReorder, doApplySchedAxisReorder, if_pos (all_contains.mpr h)]
    dsimp only
    rw [doApplyTensorAxisReorder, if_pos hagain]
    exact ⟨rfl, rfl⟩

/-- A refused call leaves the node, and nothing is asked of its axes. -/
theorem refused_iff {P Q : Prop} (hr : r = (false, n)) (hP : P) :
    (r.1 = false → r.2 = n) ∧ (r.1 = true → Q) ↔ P := by
  rw [hr]
  exact iff_of_true ⟨fun _ => rfl, fun h => (Bool.false_ne_true h).elim⟩ hP

theorem serves_iff_meets (axis : List (Axis ε)) (n : Node ε) (call : NodeCall) :
    Serves E axis n call ↔ Meets axis n call := by
  cases call with
  | applySplit outterId innerId =>
    simp only [Serves, Meets, NodeCall.Result, NodeCall.run, applySplit]
    cases hsplit : splitOf axis outterId innerId with
    | none => exact refused_iff rfl fun _ h => by cases h
    | some original =>
      simp only [Option.some.injEq, forall_eq']
      exact doApplySplit_iff (axisAt_of_splitOf hsplit)
  | applyMerge mergedAxisId =>
    simp only [Serves, Meets, NodeCall.Result, NodeCall.run, applyMerge]
    cases hmerge : mergeOf axis mergedAxisId with
    | none => exact refused_iff rfl fun _ h => by cases h
    | some original =>
      simp only [Option.some.injEq, forall_eq']
      exact doApplyMerge_iff
  | applySchedAxisMerge mergedAxisId explicit =>
    simp only [Serves, Meets, NodeCall.Result, NodeCall.run, applySchedAxisMerge]
    cases explicit with
    | some original =>
      simp only [Option.some_or, Option.some.injEq, forall_eq']
      exact doApplySchedAxisMerge_iff
    | none =>
      simp only [Option.none_or]
      cases hmerge : mergeOf axis mergedAxisId with
      | none => exact refused_iff rfl fun _ h => by cases h
      | some original =>
        simp only [Option.some.injEq, forall_eq']
        exact doApplySchedAxisMerge_iff
  | applyReorder reorderedAxis => exact applyReorder_iff
  | applySchedAxisReorder reorderedAxis =>
    simp only [Serves, Meets, NodeCall.Result, NodeCall.run, applySchedAxisReorder]
    by_cases hlen : n.sched.length = reorderedAxis.length
    · rw [if_pos hlen, imp_iff_right hlen]
      exact doApplySchedAxisReorder_iff
    · rw [if_neg hlen]
      exact refused_iff rfl fun h => absurd h hlen

/-! ## Runs -/

variable {g : Graph ι ε}

theorem Call.run_wellNumbered (h : WellNumbered g.axis) (call : Call ι ε) :
    WellNumbered (call.run E g).axis := by
  cases call with
  | table call => exact call.run_wellNumbered h
  | node i call => exact h

theorem runCalls_wellNumbered (h : WellNumbered g.axis) (calls : List (Call ι ε)) :
    WellNumbered (runCalls E g calls).axis := by
  induction calls generalizing g with
  | nil => exact h
  | cons call calls ih => exact ih (call.run_wellNumbered h)

theorem atNodeCalls_congr {P Q : List (Axis ε) → Node ε → NodeCall → Prop}
    (h : ∀ axis n call, P axis n call ↔ Q axis n call) (g : Graph ι ε) (calls : List (Call ι ε)) :
    AtNodeCalls E P g calls ↔ AtNodeCalls E Q g calls := by
  induction calls generalizing g with
  | nil => exact Iff.rfl
  | cons call calls ih =>
    exact and_congr (forall₂_congr fun i nodeCall => imp_congr_right fun _ => h ..) (ih _)

/-- A call that does what it is to do repeats no axis in a schedule. -/
theorem Serves.nodup {call : NodeCall} (h : Serves E axis n call) (hsched : n.sched.Nodup) :
    (call.run E axis n).2.sched.Nodup := by
  cases hok : (call.run E axis n).1 with
  | false => exact (h.1 hok).symm ▸ hsched
  | true =>
    have hresult := h.2 hok hsched
    cases call with
    | applySplit outterId innerId =>
      cases hsplit : splitOf axis outterId innerId with
      | none =>
        rw [NodeCall.run, applySplit, hsplit] at hok
        cases hok
      | some original => exact (hresult original hsplit).1
    | applyMerge mergedAxisId =>
      cases hmerge : mergeOf axis mergedAxisId with
      | none =>
        rw [NodeCall.run, applyMerge, hmerge] at hok
        cases hok
      | some original => exact (hresult original hmerge).1
    | applySchedAxisMerge mergedAxisId explicit =>
      cases hmerge : explicit.or (mergeOf axis mergedAxisId) with
      | none =>
        rcases Option.or_eq_none_iff.mp hmerge with ⟨rfl, hnone⟩
        rw [NodeCall.run, applySchedAxisMerge] at hok
        rw [hnone] at hok
        cases hok
      | some original => exact (hresult original hmerge).1
    | applyReorder reorderedAxis => exact hresult.nodup_iff.mpr hsched
    | applySchedAxisReorder reorderedAxis => exact hresult.nodup_iff.mpr hsched

theorem runCalls_nodup {calls : List (Call ι ε)} (hmeets : AtNodeCalls E Meets g calls)
    (hsched : ∀ i, (g.nodes i).sched.Nodup) : ∀ i, ((runCalls E g calls).nodes i).sched.Nodup := by
  induction calls generalizing g with
  | nil => exact hsched
  | cons call calls ih =>
    refine ih hmeets.2 fun i => ?_
    cases call with
    | table call => exact hsched i
    | node j call =>
      rw [Call.run]
      dsimp only
      rw [Function.update_apply]
      split
      · exact ((serves_iff_meets ..).mpr (hmeets.1 j call rfl)).nodup (hsched j)
      · exact hsched i

/-- In every run the table stays numbered by its places and finds every id but the one behind the last, and
the calls on nodes all do what they are to do exactly when they all meet their conditions. -/
theorem axisTable_consistent {g : Graph ι ε} (h : WellNumbered g.axis) (calls : List (Call ι ε)) :
    WellNumbered (runCalls E g calls).axis ∧
      (∀ axisId, FindsAxis (runCalls E g calls).axis axisId ↔
        axisId ≠ (runCalls E g calls).axis.length) ∧
      (AtNodeCalls E (Serves E) g calls ↔ AtNodeCalls E Meets g calls) ∧
      (AtNodeCalls E Meets g calls → (∀ i, (g.nodes i).sched.Nodup) →
        ∀ i, ((runCalls E g calls).nodes i).sched.Nodup) :=
  ⟨runCalls_wellNumbered h calls, fun _ => findsAxis_iff, atNodeCalls_congr serves_iff_meets g calls,
    runCalls_nodup⟩

theorem axisTable_consistent_oneAxis :
    let g : Graph Unit ℤ := ⟨[], fun _ => ⟨[0], []⟩⟩
    let calls : List (Call Unit ℤ) := [.table (.createAxis "z" .original 4 [] 0),
      .table (.mergeAxis [0, 0] ""), .node () (.applySchedAxisReorder [0])]
    WellNumbered (runCalls constants g calls).axis ∧
      (∀ axisId, FindsAxis (runCalls constants g calls).axis axisId ↔
        axisId ≠ (runCalls constants g calls).axis.length) ∧
      (AtNodeCalls constants (Serves constants) g calls ↔ AtNodeCalls constants Meets g calls) ∧
      (AtNodeCalls constants Meets g calls → (∀ i, (g.nodes i).sched.Nodup) →
        ∀ i, ((runCalls constants g calls).nodes i).sched.Nodup) :=
  axisTable_consistent (fun _ _ h => by cases h) _

/-- The id behind the last axis is looked up out of range, and a reorder drops the axes it does not list. -/
theorem not_axisTable_consistent :
    ∃ g : Graph Unit ℤ, WellNumbered g.axis ∧ ¬ FindsAxis g.axis 2 ∧
      ¬ AtNodeCalls constants (Serves constants) g [.node () (.applyReorder [0])] := by
  refine ⟨⟨[⟨0, "z0", .original, 4, [], 0⟩, ⟨1, "z1", .original, 8, [], 0⟩], fun _ => ⟨[0, 1], []⟩⟩,
    ?_, fun h => ?_, fun h => ?_⟩
  · intro i a ha
    match i, ha with
    | 0, ha =>
      cases ha
      rfl
    | 1, ha =>
      cases ha
      rfl
  · exact absurd (findsAxis_iff.mp h) (by decide)
  · have hperm : [(0 : ℤ)].Perm [0, 1] := (h.1 () _ rfl).2 rfl (by decide)
    exact absurd hperm.length_eq (by decide)

end GraphAutofusion.AscIr.AxisTable
