import GraphAutofusion.AscIr.Views
import GraphAutofusion.Lib.MixedRadix

/-!
# AscIr.ViewOffsets — the offsets of a view before and after

A point gives every axis an index, and a view gives it an offset. A split keeps the offset of every point.
A merge reads the merged index in the order of the merged axes, while the test for gaps reads the strides
in the order of the tensor.
-/

namespace GraphAutofusion.AscIr.Views

open Function List

open Autofuse.VectorAxis (AxisId)
open Autofuse.LoopAxes
open Lib

variable {ε σ : Type}

def offset (E : Symbols ε σ) (v : σ) (dims : List (Dim ε)) (idx : AxisId → ℤ) : ℤ :=
  (dims.map fun d => idx d.axis * E.eval d.stride v).sum

/-- The point is in the iteration space. -/
def InSpace (E : Symbols ε σ) (v : σ) (dims : List (Dim ε)) (idx : AxisId → ℤ) : Prop :=
  ∀ d ∈ dims, 0 ≤ idx d.axis ∧ idx d.axis < E.eval d.repeats v

/-- The number of iterations along an axis. -/
def repeatAt (E : Symbols ε σ) (v : σ) (dims : List (Dim ε)) (a : AxisId) : ℤ :=
  ((dims.find? fun d => decide (d.axis = a)).map fun d => E.eval d.repeats v).getD 1

/-- The index along an axis that was split, in mixed radix over the two new ones. -/
def joined (splitSize : ℤ) (outterId innerId originalId : AxisId) (idx : AxisId → ℤ) : AxisId → ℤ :=
  update idx originalId (idx outterId * splitSize + idx innerId)

/-- The points of the split view and those of the view are the same, with the same offsets. -/
def SplitKeeps (E : SplitSymbols ε σ) (v : σ) (splitSize : ε) (outterId innerId originalId : AxisId)
    (t : Tensor ε) : Prop :=
  let after := (splitView E splitSize outterId innerId originalId t).dims
  let join := joined (E.eval splitSize v) outterId innerId originalId
  (∀ idx, InSpace E.toSymbols v after idx → InSpace E.toSymbols v t.dims (join idx) ∧
      offset E.toSymbols v after idx = offset E.toSymbols v t.dims (join idx)) ∧
    ∀ idx, InSpace E.toSymbols v t.dims idx →
      ∃ idx', InSpace E.toSymbols v after idx' ∧ ∀ d ∈ t.dims, join idx' d.axis = idx d.axis

/-- Every point has its offset after the merge, at the index in mixed radix over the merged axes. -/
def MergeKeeps (E : Symbols ε σ) (v : σ) (mergedAxisId : AxisId) (original : List AxisId) (t : Tensor ε) :
    Prop :=
  ∀ idx, InSpace E v t.dims idx →
    let idx' := update idx mergedAxisId (mixedRadix (repeatAt E v t.dims) idx original)
    InSpace E v (mergeTensor E mergedAxisId original t).dims idx' ∧
      offset E v (mergeTensor E mergedAxisId original t).dims idx' = offset E v t.dims idx

/-- There is no point, or the tensor does not move along the merged axes, or those that can move stand in the
order of the list. -/
def MergeOrdered (E : Symbols ε σ) (v : σ) (original : List AxisId) (t : Tensor ε) : Prop :=
  (∃ d ∈ t.dims, E.eval d.repeats v ≤ 0) ∨
    (∀ z, (t.dims.filter fun d => original.contains d.axis).getLast? = some z → E.eval z.stride v = 0) ∨
    (t.axis.filter fun a => original.contains a).filter (fun a => decide (repeatAt E v t.dims a ≠ 1)) =
      original.filter fun a => decide (repeatAt E v t.dims a ≠ 1)

def ReorderKeeps (E : Symbols ε σ) (v : σ) (reorderedAxis : List AxisId) (t : Tensor ε) : Prop :=
  ∀ idx, InSpace E v t.dims idx →
    offset E v (reorderTensor reorderedAxis t).dims idx = offset E v t.dims idx

/-- There is no point, or every axis along which the tensor moves is listed once. -/
def ReorderOnce (E : Symbols ε σ) (v : σ) (reorderedAxis : List AxisId) (t : Tensor ε) : Prop :=
  (∃ d ∈ t.dims, E.eval d.repeats v ≤ 0) ∨
    ∀ d ∈ t.dims, E.eval d.repeats v = 1 ∨ E.eval d.stride v = 0 ∨ reorderedAxis.count d.axis = 1

/-- The same axes with the same values. -/
def SameAt (E : Symbols ε σ) (v : σ) (t t' : Tensor ε) : Prop :=
  t.dims.map (fun d => (d.axis, E.eval d.repeats v, E.eval d.stride v)) =
    t'.dims.map fun d => (d.axis, E.eval d.repeats v, E.eval d.stride v)

section Proofs

variable {E : Symbols ε σ} {v : σ} {t : Tensor ε} {dims pre post : List (Dim ε)} {d z : Dim ε}
  {idx idx' : AxisId → ℤ} {a m : AxisId} {original : List AxisId}

/-! ## Points -/

theorem offset_nil : offset E v [] idx = 0 := rfl

theorem offset_append : offset E v (pre ++ post) idx = offset E v pre idx + offset E v post idx := by
  rw [offset, map_append, sum_append]
  rfl

theorem offset_cons : offset E v (d :: dims) idx = idx d.axis * E.eval d.stride v + offset E v dims idx := by
  rw [offset, map_cons, sum_cons]
  rfl

theorem offset_congr (h : ∀ d ∈ dims, idx d.axis = idx' d.axis) : offset E v dims idx = offset E v dims idx' := by
  rw [offset, offset, map_congr_left fun d hd => by rw [h d hd]]

theorem inSpace_append : InSpace E v (pre ++ post) idx ↔ InSpace E v pre idx ∧ InSpace E v post idx :=
  forall_mem_append

theorem inSpace_cons : InSpace E v (d :: dims) idx ↔
    (0 ≤ idx d.axis ∧ idx d.axis < E.eval d.repeats v) ∧ InSpace E v dims idx := forall_mem_cons

theorem inSpace_congr (h : ∀ d ∈ dims, idx d.axis = idx' d.axis) (hidx : InSpace E v dims idx) :
    InSpace E v dims idx' := fun d hd => h d hd ▸ hidx d hd

theorem find?_axis (hnodup : (dims.map Dim.axis).Nodup) (hd : d ∈ dims) :
    (dims.find? fun d' => decide (d'.axis = d.axis)) = some d := by
  induction dims with
  | nil => cases hd
  | cons d' dims ih =>
    rw [map_cons, nodup_cons] at hnodup
    rw [find?_cons]
    rcases mem_cons.mp hd with rfl | hd
    · rw [decide_eq_true rfl]
    · have hne : d'.axis ≠ d.axis := fun heq => hnodup.1 (heq ▸ mem_map_of_mem hd)
      rw [decide_eq_false hne]
      exact ih hnodup.2 hd

theorem repeatAt_eq (hnodup : (dims.map Dim.axis).Nodup) (hd : d ∈ dims) :
    repeatAt E v dims d.axis = E.eval d.repeats v := by
  rw [repeatAt, find?_axis hnodup hd]
  rfl

/-! ## Splitting -/

section Split

variable {E : SplitSymbols ε σ} {splitSize : ε} {outterId innerId originalId : AxisId}

/-- One dimension of a split view. -/
theorem splitDim_offset (hpos : 0 < E.eval splitSize v)
    (hdvd : d.axis = originalId → E.eval splitSize v ∣ E.eval d.repeats v)
    (hidx : InSpace E.toSymbols v (splitDim E splitSize outterId innerId originalId d) idx) :
    InSpace E.toSymbols v [d] (joined (E.eval splitSize v) outterId innerId originalId idx) ∧
      offset E.toSymbols v (splitDim E splitSize outterId innerId originalId d) idx =
        offset E.toSymbols v [d] (joined (E.eval splitSize v) outterId innerId originalId idx) := by
  have hnil : InSpace E.toSymbols v ([] : List (Dim ε))
      (joined (E.eval splitSize v) outterId innerId originalId idx) := fun _ h => absurd h not_mem_nil
  rw [inSpace_cons, and_iff_left hnil, offset_cons]
  rw [splitDim] at hidx ⊢
  by_cases ha : d.axis = originalId
  · rcases hdvd ha with ⟨q, hq⟩
    rw [if_pos ha] at hidx ⊢
    have hjoin : joined (E.eval splitSize v) outterId innerId originalId idx d.axis =
        idx outterId * E.eval splitSize v + idx innerId := by
      rw [ha]
      exact update_self ..
    rw [hjoin]
    by_cases hone : E.isOne d.repeats = true
    · rw [if_pos hone] at hidx ⊢
      rw [inSpace_cons, inSpace_cons] at hidx
      rcases hidx with ⟨⟨houtlo, houthi⟩, ⟨hinlo, hinhi⟩, -⟩
      dsimp only at houtlo houthi hinlo hinhi
      rw [E.eval_one] at houthi hinhi
      -- a unit dimension has the index zero only
      have hout : idx outterId = 0 := by omega
      rw [E.eval_of_isOne d.repeats v hone, hout, zero_mul, zero_add]
      refine ⟨⟨hinlo, hinhi⟩, ?_⟩
      rw [offset_cons, offset_cons, offset_nil, offset_nil]
      dsimp only
      rw [hout, zero_mul, zero_add]
    · rw [if_neg hone] at hidx ⊢
      rw [inSpace_cons, inSpace_cons] at hidx
      rcases hidx with ⟨⟨houtlo, houthi⟩, ⟨hinlo, hinhi⟩, -⟩
      dsimp only at houtlo houthi hinlo hinhi
      rw [E.eval_div d.repeats splitSize v q hpos.ne' (hq.trans (mul_comm _ _))] at houthi
      refine ⟨⟨Int.add_nonneg (Int.mul_nonneg houtlo hpos.le) hinlo, ?_⟩, ?_⟩
      · calc idx outterId * E.eval splitSize v + idx innerId
            < (idx outterId + 1) * E.eval splitSize v := by linarith only [hinhi]
          _ ≤ q * E.eval splitSize v := mul_le_mul_of_nonneg_right houthi hpos.le
          _ = E.eval d.repeats v := (hq.trans (mul_comm _ _)).symm
      · rw [offset_cons, offset_cons, offset_nil, offset_nil]
        dsimp only
        rw [E.eval_mul]
        ring
  · rw [if_neg ha] at hidx ⊢
    have hjoin : joined (E.eval splitSize v) outterId innerId originalId idx d.axis = idx d.axis :=
      update_of_ne ha ..
    rw [hjoin, offset_cons, offset_nil, offset_nil]
    exact ⟨hidx d (mem_singleton_self d), rfl⟩

theorem flatMap_splitDim_offset (hpos : 0 < E.eval splitSize v)
    (hdvd : ∀ d ∈ dims, d.axis = originalId → E.eval splitSize v ∣ E.eval d.repeats v)
    (hidx : InSpace E.toSymbols v (dims.flatMap (splitDim E splitSize outterId innerId originalId)) idx) :
    InSpace E.toSymbols v dims (joined (E.eval splitSize v) outterId innerId originalId idx) ∧
      offset E.toSymbols v (dims.flatMap (splitDim E splitSize outterId innerId originalId)) idx =
        offset E.toSymbols v dims (joined (E.eval splitSize v) outterId innerId originalId idx) := by
  induction dims with
  | nil => exact ⟨fun _ h => absurd h not_mem_nil, rfl⟩
  | cons d dims ih =>
    rw [flatMap_cons, inSpace_append] at hidx
    rcases splitDim_offset hpos (hdvd d mem_cons_self) hidx.1 with ⟨hspace, hoffset⟩
    rcases ih (fun d' hd' => hdvd d' (mem_cons_of_mem _ hd')) hidx.2 with ⟨hspace', hoffset'⟩
    have hsplit : d :: dims = [d] ++ dims := rfl
    rw [flatMap_cons, offset_append, hoffset, hoffset', hsplit, inSpace_append, offset_append]
    exact ⟨⟨hspace, hspace'⟩, rfl⟩

/-- A point of a view is a point of its split view. -/
theorem exists_split_point (hpos : 0 < E.eval splitSize v) (hne : outterId ≠ innerId)
    (hdvd : ∀ d ∈ dims, d.axis = originalId → E.eval splitSize v ∣ E.eval d.repeats v)
    (hfresh : ∀ d ∈ dims, d.axis ≠ outterId ∧ d.axis ≠ innerId) (hidx : InSpace E.toSymbols v dims idx) :
    ∃ idx', InSpace E.toSymbols v (dims.flatMap (splitDim E splitSize outterId innerId originalId)) idx' ∧
      ∀ d ∈ dims, joined (E.eval splitSize v) outterId innerId originalId idx' d.axis = idx d.axis := by
  let idx' := update (update idx outterId (idx originalId / E.eval splitSize v)) innerId
    (idx originalId % E.eval splitSize v)
  have hout : idx' outterId = idx originalId / E.eval splitSize v :=
    (update_of_ne hne ..).trans (update_self ..)
  have hin : idx' innerId = idx originalId % E.eval splitSize v := update_self ..
  have hkeep : ∀ d ∈ dims, idx' d.axis = idx d.axis := by
    intro d hd
    exact (update_of_ne (hfresh d hd).2 ..).trans (update_of_ne (hfresh d hd).1 ..)
  have hjoin : ∀ d ∈ dims, joined (E.eval splitSize v) outterId innerId originalId idx' d.axis =
      idx d.axis := by
    intro d hd
    by_cases ha : d.axis = originalId
    · rw [ha, joined, update_self, hout, hin, mul_comm, Int.mul_ediv_add_emod]
    · rw [joined, update_of_ne ha, hkeep d hd]
  refine ⟨idx', fun d' hd' => ?_, hjoin⟩
  rcases mem_flatMap.mp hd' with ⟨d, hd, hmem⟩
  rw [splitDim] at hmem
  have hd₀ := hidx d hd
  split at hmem
  · next ha =>
    rw [ha] at hd₀
    rcases hdvd d hd ha with ⟨q, hq⟩
    have hmod := Int.emod_nonneg (idx originalId) hpos.ne'
    have hmod' := Int.emod_lt_of_pos (idx originalId) hpos
    split at hmem
    · next hone =>
      rw [E.eval_of_isOne d.repeats v hone] at hd₀ hq
      have hzero : idx originalId = 0 := by omega
      rcases mem_cons.mp hmem with rfl | hmem
      · dsimp only
        rw [hout, hzero, Int.zero_ediv, E.eval_one]
        exact ⟨le_refl 0, Int.one_pos⟩
      · rw [mem_singleton.mp hmem]
        dsimp only
        rw [hin, hzero, Int.zero_emod, E.eval_one]
        exact ⟨le_refl 0, Int.one_pos⟩
    · rcases mem_cons.mp hmem with rfl | hmem
      · dsimp only
        rw [hout, E.eval_div d.repeats splitSize v q hpos.ne' (hq.trans (mul_comm _ _))]
        refine ⟨Int.ediv_nonneg hd₀.1 hpos.le, Int.ediv_lt_of_lt_mul hpos ?_⟩
        rw [mul_comm, ← hq]
        exact hd₀.2
      · rw [mem_singleton.mp hmem]
        dsimp only
        rw [hin]
        exact ⟨hmod, hmod'⟩
  · rw [mem_singleton.mp hmem, hkeep d hd]
    exact hd₀

theorem splitKeeps (hvalid : t.Valid) (hpos : 0 < E.eval splitSize v) (hne : outterId ≠ innerId)
    (hout : outterId ∉ t.axis) (hin : innerId ∉ t.axis)
    (hdvd : ∀ d ∈ t.dims, d.axis = originalId → E.eval splitSize v ∣ E.eval d.repeats v) :
    SplitKeeps E v splitSize outterId innerId originalId t := by
  have hdims : (splitView E splitSize outterId innerId originalId t).dims =
      t.dims.flatMap (splitDim E splitSize outterId innerId originalId) := by
    rw [splitView, if_pos hvalid, dims_ofDims]
  have hfresh : ∀ d ∈ t.dims, d.axis ≠ outterId ∧ d.axis ≠ innerId := by
    intro d hd
    have hmem : d.axis ∈ t.axis := hvalid.axis ▸ mem_map_of_mem hd
    exact ⟨fun heq => hout (heq ▸ hmem), fun heq => hin (heq ▸ hmem)⟩
  rw [SplitKeeps, hdims]
  constructor
  · exact fun idx hidx => flatMap_splitDim_offset hpos hdvd hidx
  · exact fun idx hidx => exists_split_point hpos hne hdvd hfresh hidx

end Split

/-! ## Merging -/

def inside (original : List AxisId) (dims : List (Dim ε)) : List (Dim ε) :=
  dims.filter fun d => original.contains d.axis

def outside (original : List AxisId) (dims : List (Dim ε)) : List (Dim ε) :=
  dims.filter fun d => !original.contains d.axis

theorem inside_cons_of_mem (h : d.axis ∈ original) : inside original (d :: dims) = d :: inside original dims :=
  filter_cons_of_pos (contains_iff_mem.mpr h)

theorem outside_cons_of_mem (h : d.axis ∈ original) : outside original (d :: dims) = outside original dims :=
  filter_cons_of_neg (by simp [h])

theorem inside_cons_of_notMem (h : d.axis ∉ original) : inside original (d :: dims) = inside original dims :=
  filter_cons_of_neg (by simp [h])

theorem outside_cons_of_notMem (h : d.axis ∉ original) :
    outside original (d :: dims) = d :: outside original dims :=
  filter_cons_of_pos (by simp [h])

theorem offset_inside_outside (original : List AxisId) : offset E v dims idx =
    offset E v (inside original dims) idx + offset E v (outside original dims) idx := by
  induction dims with
  | nil => rfl
  | cons d dims ih =>
    rw [offset_cons, ih]
    by_cases hd : d.axis ∈ original
    · rw [inside_cons_of_mem hd, outside_cons_of_mem hd, offset_cons, add_assoc]
    · rw [inside_cons_of_notMem hd, outside_cons_of_notMem hd, offset_cons, add_left_comm]

/-- The loop of the merge as long as some axes are missing. -/
theorem mergeView_front {s : ViewState ε} (hcard : (s.mergeAxisSet ∪
      ((inside original dims).map Dim.axis).toFinset).card < original.toFinset.card) :
    dims.foldl (mergeViewStep E m original.toFinset) s =
      ⟨s.view ++ outside original dims, s.mergeAxisSet ∪ ((inside original dims).map Dim.axis).toFinset,
        repeatProduct E s.mergeRepeat (inside original dims)⟩ := by
  induction dims generalizing s with
  | nil =>
    rw [outside, inside, filter_nil, filter_nil, append_nil, map_nil,
      toFinset_nil, Finset.union_empty]
    rfl
  | cons d dims ih =>
    rw [foldl_cons, mergeViewStep]
    by_cases hd : d.axis ∈ original
    · have hcons : inside original (d :: dims) = d :: inside original dims := inside_cons_of_mem hd
      have hunion : insert d.axis s.mergeAxisSet ∪ ((inside original dims).map Dim.axis).toFinset =
          s.mergeAxisSet ∪ ((inside original (d :: dims)).map Dim.axis).toFinset := by
        rw [hcons, map_cons, toFinset_cons, Finset.insert_union, Finset.union_insert]
      have hne : (insert d.axis s.mergeAxisSet).card ≠ original.toFinset.card := by
        have hsub : insert d.axis s.mergeAxisSet ⊆
            insert d.axis s.mergeAxisSet ∪ ((inside original dims).map Dim.axis).toFinset :=
          Finset.subset_union_left
        have hle := Finset.card_le_card hsub
        rw [hunion] at hle
        omega
      rw [if_pos (mem_toFinset.mpr hd)]
      dsimp only
      rw [if_neg hne, ih (hunion ▸ hcard)]
      simp only [hunion, outside_cons_of_mem hd, hcons]
      rfl
    · rw [inside_cons_of_notMem hd] at hcard
      rw [if_neg fun h => hd (mem_toFinset.mp h), ih, inside_cons_of_notMem hd,
        outside_cons_of_notMem hd]
      · simp [append_assoc]
      · exact hcard

/-- Strides without a gap are products of the repeats behind them. -/
theorem stride_eq {rest : List (Dim ε)} (h : consecutiveContinuous E (d :: rest) = true) (v : σ) :
    E.eval d.stride v =
      (rest.map fun d => E.eval d.repeats v).prod * E.eval ((rest.getLast?.getD d).stride) v := by
  induction rest generalizing d with
  | nil => exact (one_mul _).symm
  | cons d' rest ih =>
    rw [consecutiveContinuous, Bool.and_eq_true] at h
    have hlast : (d' :: rest).getLast?.getD d = rest.getLast?.getD d' := by
      rw [getLast?_cons]
      rfl
    rw [(E.staticCheckEq_iff _ _).mp h.1 v, E.eval_mul, ih h.2, map_cons, prod_cons, hlast,
      mul_assoc]

/-- A tensor without gaps moves by the number of the point. -/
theorem offset_of_continuous {r : AxisId → ℤ} (h : consecutiveContinuous E (dims ++ [z]) = true)
    (hr : ∀ d ∈ dims ++ [z], r d.axis = E.eval d.repeats v) :
    offset E v (dims ++ [z]) idx =
      E.eval z.stride v * mixedRadix r idx ((dims ++ [z]).map Dim.axis) := by
  induction dims with
  | nil =>
    rw [nil_append, offset_cons, offset_nil, map_singleton, mixedRadix, mixedRadix,
      map_nil, prod_nil]
    ring
  | cons d dims ih =>
    rw [cons_append] at h
    have hstride := stride_eq h v
    have hcont : consecutiveContinuous E (dims ++ [z]) = true := by
      cases dims with
      | nil => rfl
      | cons d' dims =>
        rw [cons_append, consecutiveContinuous, Bool.and_eq_true] at h
        exact h.2
    have hr' : ∀ d ∈ dims ++ [z], r d.axis = E.eval d.repeats v := fun d' hd' =>
      hr d' (mem_cons_of_mem _ hd')
    have hprod : ((dims ++ [z]).map Dim.axis).map r = (dims ++ [z]).map fun d => E.eval d.repeats v := by
      rw [map_map]
      exact map_congr_left hr'
    rw [getLast?_concat] at hstride
    rw [cons_append, offset_cons, ih hcont hr', map_cons, mixedRadix, hprod, hstride]
    dsimp only [Option.getD_some]
    ring

/-- The merged dimension takes the place of the last of the merged ones. -/
theorem mergeView_full (hvalid : t.Valid) (hdims : t.dims = pre ++ z :: post) (hz : z.axis ∈ original)
    (hpost : ∀ d ∈ post, d.axis ∉ original) (horiginal : original.Nodup)
    (hperm : ((inside original pre ++ [z]).map Dim.axis).Perm original) :
    (mergeView E m original t).dims =
      outside original pre ++ mergedDim E m (inside original pre) z :: post := by
  have haxes : (inside original pre ++ [z]).map Dim.axis = (inside original pre).map Dim.axis ++ [z.axis] := by
    rw [map_append, map_singleton]
  have hnodup := hperm.nodup_iff.mpr horiginal
  have hset : ((inside original pre ++ [z]).map Dim.axis).toFinset = original.toFinset :=
    toFinset_eq_of_perm _ _ hperm
  have hcard : (∅ ∪ ((inside original pre).map Dim.axis).toFinset).card < original.toFinset.card := by
    rw [← hset, toFinset_card_of_nodup hnodup, haxes]
    exact card_lt_of_nodup (haxes ▸ hnodup)
  have hfold : t.dims.foldl (mergeViewStep E m original.toFinset) { mergeRepeat := E.kSymbolOne } =
      ⟨outside original pre ++ [mergedDim E m (inside original pre) z] ++ post, original.toFinset,
        repeatProduct E E.kSymbolOne (inside original pre ++ [z])⟩ := by
    have hfront := mergeView_front (E := E) (m := m) (s := { mergeRepeat := E.kSymbolOne }) hcard
    rw [hdims, foldl_append, hfront, foldl_cons, mergeViewStep,
      if_pos (mem_toFinset.mpr hz)]
    dsimp only
    rw [insert_toFinset, ← haxes, hset, if_pos rfl,
      mergeView_outside fun d hd hmem => hpost d hd (mem_toFinset.mp hmem)]
    have hproduct : E.mul (repeatProduct E E.kSymbolOne (inside original pre)) z.repeats =
        repeatProduct E E.kSymbolOne (inside original pre ++ [z]) := by
      rw [repeatProduct, repeatProduct, foldl_append]
      rfl
    rw [hproduct]
    rfl
  rw [mergeView, if_pos hvalid, hfold]
  dsimp only
  rw [if_pos (.inl rfl), dims_ofDims, append_assoc]
  rfl

/-- The last of the merged dimensions of a tensor. -/
theorem exists_last (hne : inside original dims ≠ []) : ∃ pre z post, dims = pre ++ z :: post ∧
    z.axis ∈ original ∧ (∀ d ∈ post, d.axis ∉ original) ∧
      inside original dims = inside original pre ++ [z] := by
  induction dims using reverseRecOn with
  | nil => exact absurd rfl hne
  | append_singleton dims d ih =>
    by_cases hd : d.axis ∈ original
    · refine ⟨dims, d, [], rfl, hd, fun _ h => absurd h not_mem_nil, ?_⟩
      rw [inside, filter_append, filter_singleton, contains_iff_mem.mpr hd]
      rfl
    have hsame : inside original (dims ++ [d]) = inside original dims := by
      rw [inside, filter_append, filter_singleton]
      simp [hd, inside]
    rcases ih (hsame ▸ hne) with ⟨pre, z, post, rfl, hz, hpost, hinside⟩
    refine ⟨pre, z, post ++ [d], by simp, hz, fun d' hd' => ?_, hsame.trans hinside⟩
    rcases mem_append.mp hd' with hd' | hd'
    · exact hpost d' hd'
    · rw [mem_singleton.mp hd']
      exact hd

theorem map_axis_inside : (inside original dims).map Dim.axis =
    (dims.map Dim.axis).filter fun a => original.contains a := by
  rw [filter_map]
  rfl

theorem consecutive_of_checkContinuous (h : checkContinuous E original t = true) :
    consecutiveContinuous E (inside original t.dims) = true := by
  unfold checkContinuous at h
  dsimp only at h
  split at h
  · exact h
  · cases h

/-- What the test for gaps finds out about a tensor that has the axes. -/
theorem checkContinuous_spec (horiginal : original.Nodup) (hnodup : (t.dims.map Dim.axis).Nodup)
    (h : checkContinuous E original t = true) (hne : inside original t.dims ≠ []) :
    ((inside original t.dims).map Dim.axis).Perm original ∧
      consecutiveContinuous E (inside original t.dims) = true := by
  refine ⟨?_, consecutive_of_checkContinuous h⟩
  unfold checkContinuous at h
  dsimp only at h
  split at h
  · next hset =>
    have hnd : ((inside original t.dims).map Dim.axis).Nodup := by
      rw [map_axis_inside]
      exact hnodup.filter _
    rcases hset with hcard | hempty
    · have hcard' : ((inside original t.dims).map Dim.axis).toFinset.card = original.toFinset.card := hcard
      have hsub : ((inside original t.dims).map Dim.axis).toFinset ⊆ original.toFinset := by
        intro a ha
        rw [map_axis_inside] at ha
        exact mem_toFinset.mpr (contains_iff_mem.mp (mem_filter.mp (mem_toFinset.mp ha)).2)
      exact perm_of_nodup_nodup_toFinset_eq hnd horiginal
        (Finset.eq_of_subset_of_card_le hsub hcard'.ge)
    · exfalso
      apply hne
      have hempty' : ((inside original t.dims).map Dim.axis).toFinset = ∅ := hempty
      rw [toFinset_eq_empty_iff, map_eq_nil_iff] at hempty'
      exact hempty'
  · cases h

/-- A tensor without the axes is left as it is. -/
theorem mergeTensor_of_inside_nil (hvalid : t.Valid) (hnil : inside original t.dims = []) :
    mergeTensor E m original t = t := by
  rw [mergeTensor]
  split
  · have hout : ∀ d ∈ t.dims, d.axis ∉ original.toFinset := by
      intro d hd hmem
      have hd' : d ∈ inside original t.dims :=
        mem_filter.mpr ⟨hd, contains_iff_mem.mpr (mem_toFinset.mp hmem)⟩
      rw [hnil] at hd'
      cases hd'
    rw [mergeView, if_pos hvalid, mergeView_outside hout]
    dsimp only
    rw [if_pos (.inr rfl), nil_append]
    exact ofDims_dims hvalid
  · rfl

theorem not_fresh_index (hm : m ∉ dims.map Dim.axis) (n : ℤ) :
    ∀ d ∈ dims, update idx m n d.axis = idx d.axis := by
  intro d hd
  have hmem : d.axis ∈ dims.map Dim.axis := mem_map_of_mem hd
  exact update_of_ne (fun heq : d.axis = m => hm (heq ▸ hmem)) ..

/-- Where nothing is merged the offsets stay. -/
theorem mergeKeeps_of_same (hm : m ∉ t.dims.map Dim.axis) (h : mergeTensor E m original t = t) :
    MergeKeeps E v m original t := by
  intro idx hidx
  have hsame : ∀ d ∈ t.dims, update idx m (mixedRadix (repeatAt E v t.dims) idx original) d.axis =
      idx d.axis := not_fresh_index hm _
  rw [h]
  exact ⟨inSpace_congr (fun d hd => (hsame d hd).symm) hidx, offset_congr hsame⟩

/-- What a merge does to a point. -/
theorem merge_point (hvalid : t.Valid) (hnodup : t.axis.Nodup) (horiginal : original.Nodup) (hm : m ∉ t.axis)
    (hcheck : checkContinuous E original t = true) (hne : inside original t.dims ≠ []) :
    ∃ z, (inside original t.dims).getLast? = some z ∧
      ((inside original t.dims).map Dim.axis).Perm original ∧ ∀ idx, InSpace E v t.dims idx →
        InSpace E v (mergeTensor E m original t).dims
            (update idx m (mixedRadix (repeatAt E v t.dims) idx original)) ∧
          offset E v (mergeTensor E m original t).dims
              (update idx m (mixedRadix (repeatAt E v t.dims) idx original)) =
            E.eval z.stride v * mixedRadix (repeatAt E v t.dims) idx original +
              offset E v (outside original t.dims) idx ∧
          offset E v t.dims idx = E.eval z.stride v *
              mixedRadix (repeatAt E v t.dims) idx ((inside original t.dims).map Dim.axis) +
            offset E v (outside original t.dims) idx := by
  rw [← hvalid.axis] at hnodup hm
  rcases checkContinuous_spec horiginal hnodup hcheck hne with ⟨hperm, hcont⟩
  rcases exists_last hne with ⟨pre, z, post, hdims, hz, hpost, hinside⟩
  rw [hinside] at hperm hcont
  have hmerged : (mergeTensor E m original t).dims =
      outside original pre ++ mergedDim E m (inside original pre) z :: post := by
    rw [mergeTensor, if_pos hcheck]
    exact mergeView_full hvalid hdims hz hpost horiginal hperm
  have hout : outside original t.dims = outside original pre ++ post := by
    have hall : outside original post = post := filter_eq_self.mpr fun d hd => by simp [hpost d hd]
    rw [hdims, outside, filter_append]
    show outside original pre ++ outside original (z :: post) = _
    rw [outside_cons_of_mem hz, hall]
  have hmem : ∀ d ∈ inside original pre ++ [z], d ∈ t.dims := by
    intro d hd
    rw [← hinside] at hd
    exact (mem_filter.mp hd).1
  have hradix : ∀ d ∈ inside original pre ++ [z], repeatAt E v t.dims d.axis = E.eval d.repeats v :=
    fun d hd => repeatAt_eq hnodup (hmem d hd)
  refine ⟨z, by rw [hinside, getLast?_concat], hinside ▸ hperm, fun idx hidx => ⟨?_, ?_, ?_⟩⟩
  · have hother : ∀ d ∈ outside original t.dims, d ∈ t.dims := fun d hd => (mem_filter.mp hd).1
    have hkeep : InSpace E v (outside original pre ++ post)
        (update idx m (mixedRadix (repeatAt E v t.dims) idx original)) := by
      rw [← hout]
      intro d hd
      rw [not_fresh_index hm _ d (hother d hd)]
      exact hidx d (hother d hd)
    -- the merged index is in the range of the product
    have hbox : InBox (repeatAt E v t.dims) idx original := by
      intro a ha
      rcases mem_map.mp (hperm.mem_iff.mpr ha) with ⟨d, hd, rfl⟩
      rw [hradix d hd]
      exact hidx d (hmem d hd)
    have hprod : (original.map (repeatAt E v t.dims)).prod = E.eval (mergedDim E m (inside original pre) z).repeats v := by
      rw [← (hperm.map _).prod_eq, map_map, mergedDim, eval_repeatProduct, E.eval_one, one_mul]
      exact congrArg prod (map_congr_left hradix)
    have hrange := mixedRadix_range hbox
    rw [hprod] at hrange
    rw [hmerged, inSpace_append, inSpace_cons]
    rw [inSpace_append] at hkeep
    refine ⟨hkeep.1, ?_, hkeep.2⟩
    have hself : update idx m (mixedRadix (repeatAt E v t.dims) idx original)
        (mergedDim E m (inside original pre) z).axis = mixedRadix (repeatAt E v t.dims) idx original :=
      update_self ..
    rw [hself]
    exact hrange
  · have hself : update idx m (mixedRadix (repeatAt E v t.dims) idx original)
        (mergedDim E m (inside original pre) z).axis = mixedRadix (repeatAt E v t.dims) idx original :=
      update_self ..
    have hsame : offset E v (outside original t.dims)
        (update idx m (mixedRadix (repeatAt E v t.dims) idx original)) =
          offset E v (outside original t.dims) idx :=
      offset_congr fun d hd => not_fresh_index hm _ d (mem_filter.mp hd).1
    rw [hout, offset_append, offset_append] at hsame
    rw [hmerged, offset_append, offset_cons, hself, hout, offset_append, ← hsame, mergedDim]
    ring
  · rw [offset_inside_outside original, hinside, offset_of_continuous hcont hradix]

/-- A merge keeps the offsets exactly where the order of the tensor is that of the merged axes. -/
theorem mergeKeeps_iff (hvalid : t.Valid) (hnodup : t.axis.Nodup) (horiginal : original.Nodup)
    (hm : m ∉ t.axis) : MergeKeeps E v m original t ↔
      (checkContinuous E original t = true → MergeOrdered E v original t) := by
  have hm' : m ∉ t.dims.map Dim.axis := hvalid.axis.symm ▸ hm
  by_cases hcheck : checkContinuous E original t = true
  · rw [imp_iff_right hcheck]
    by_cases hne : inside original t.dims = []
    · refine iff_of_true (mergeKeeps_of_same hm' (mergeTensor_of_inside_nil hvalid hne)) ?_
      refine .inr (.inl fun z hz => ?_)
      have hz' : (inside original t.dims).getLast? = some z := hz
      rw [hne] at hz'
      cases hz'
    rcases merge_point (E := E) (v := v) (m := m) hvalid hnodup horiginal hm hcheck hne with
      ⟨z, hz, hperm, hpoint⟩
    by_cases hempty : ∃ d ∈ t.dims, E.eval d.repeats v ≤ 0
    · refine iff_of_true (fun idx hidx => ?_) (.inl hempty)
      rcases hempty with ⟨d, hd, hle⟩
      have hd' := hidx d hd
      omega
    have hdims : (t.dims.map Dim.axis).Nodup := hvalid.axis.symm ▸ hnodup
    have hsizes : ∀ a ∈ (inside original t.dims).map Dim.axis, 1 ≤ repeatAt E v t.dims a := by
      intro a ha
      rcases mem_map.mp ha with ⟨d, hd, rfl⟩
      have hmem := (mem_filter.mp hd).1
      rw [repeatAt_eq hdims hmem]
      by_contra hlt
      exact hempty ⟨d, hmem, by omega⟩
    have hiff := mul_mixedRadix_eq_iff (k := E.eval z.stride v) hperm
      (hperm.nodup_iff.mpr horiginal) hsizes
    have hordered : MergeOrdered E v original t ↔ E.eval z.stride v = 0 ∨
        ((inside original t.dims).map Dim.axis).filter (fun a => decide (repeatAt E v t.dims a ≠ 1)) =
          original.filter fun a => decide (repeatAt E v t.dims a ≠ 1) := by
      rw [MergeOrdered, or_iff_right hempty, map_axis_inside, hvalid.axis]
      refine or_congr_left ⟨fun h => h z hz, fun h z' hz' => ?_⟩
      rw [Option.some.inj (hz'.symm.trans hz)]
      exact h
    rw [hordered, ← hiff]
    constructor
    · intro h idx hidx
      -- the point with the other indices zero
      let idx' : AxisId → ℤ := fun a => if a ∈ original then idx a else 0
      have hidx' : InSpace E v t.dims idx' := by
        intro d hd
        by_cases hmem : d.axis ∈ original
        · have hd' := hidx d.axis (hperm.mem_iff.mpr hmem)
          rw [repeatAt_eq hdims hd] at hd'
          have hvalue : idx' d.axis = idx d.axis := if_pos hmem
          rw [hvalue]
          exact hd'
        · have hvalue : idx' d.axis = 0 := if_neg hmem
          rw [hvalue]
          refine ⟨le_refl 0, ?_⟩
          by_contra hlt
          exact hempty ⟨d, hd, by omega⟩
      have hsame : ∀ a ∈ original, idx' a = idx a := fun a ha => if_pos ha
      rcases hpoint idx' hidx' with ⟨-, hafter, hbefore⟩
      have hoffset := (h idx' hidx').2
      rw [hafter, hbefore] at hoffset
      rw [← mixedRadix_congr fun a ha => hsame a (hperm.mem_iff.mp ha), ← mixedRadix_congr hsame]
      exact (add_right_cancel hoffset).symm
    · intro h idx hidx
      rcases hpoint idx hidx with ⟨hspace, hafter, hbefore⟩
      refine ⟨hspace, ?_⟩
      rw [hafter, hbefore, h idx]
      intro a ha
      rcases mem_map.mp ha with ⟨d, hd, rfl⟩
      have hmem := (mem_filter.mp hd).1
      rw [repeatAt_eq hdims hmem]
      exact hidx d hmem
  · refine iff_of_true (mergeKeeps_of_same hm' ?_) fun h => absurd h hcheck
    rw [mergeTensor, if_neg hcheck]

/-! ## Reordering -/

/-- At most one dimension of an axis counts in a sum. -/
theorem sum_ite_axis (hnodup : (dims.map Dim.axis).Nodup) (a : AxisId) (f : Dim ε → ℤ) :
    (dims.map fun d => if d.axis = a then f d else 0).sum =
      ((dims.find? fun d => decide (d.axis = a)).map f).getD 0 := by
  induction dims with
  | nil => rfl
  | cons d dims ih =>
    rw [map_cons, nodup_cons] at hnodup
    rw [map_cons, sum_cons, find?_cons]
    by_cases hd : d.axis = a
    · -- no other dimension has the axis
      have hrest : ∀ d' ∈ dims, (if d'.axis = a then f d' else 0) = 0 := by
        intro d' hd'
        have hmem : d'.axis ∈ dims.map Dim.axis := mem_map_of_mem hd'
        exact if_neg fun heq : d'.axis = a => hnodup.1 ((hd.trans heq.symm) ▸ hmem)
      rw [if_pos hd, map_congr_left hrest, decide_eq_true hd]
      simp
    · rw [if_neg hd, zero_add, ih hnodup.2, decide_eq_false hd]

/-- A dimension counts as often as its axis is listed. -/
theorem offset_reordered (hnodup : (dims.map Dim.axis).Nodup) (reorderedAxis : List AxisId) :
    offset E v (reorderedAxis.filterMap fun axisId => dims.find? fun d => decide (d.axis = axisId)) idx =
      (dims.map fun d => (reorderedAxis.count d.axis : ℤ) * (idx d.axis * E.eval d.stride v)).sum := by
  induction reorderedAxis with
  | nil => simp [offset]
  | cons a reorderedAxis ih =>
    have hstep : (dims.map fun d =>
        ((a :: reorderedAxis).count d.axis : ℤ) * (idx d.axis * E.eval d.stride v)).sum =
          (dims.map fun d => (reorderedAxis.count d.axis : ℤ) * (idx d.axis * E.eval d.stride v)).sum +
            (dims.map fun d => if d.axis = a then idx d.axis * E.eval d.stride v else 0).sum := by
      rw [← sum_map_add]
      refine congrArg sum (map_congr_left fun d _ => ?_)
      rw [count_cons]
      by_cases hd : d.axis = a
      · rw [if_pos hd, if_pos (by rw [hd]; exact beq_self_eq_true a)]
        push_cast
        ring
      · rw [if_neg hd, if_neg (by simpa using Ne.symm hd)]
        simp
    rw [hstep, sum_ite_axis hnodup, ← ih, filterMap_cons]
    cases dims.find? fun d => decide (d.axis = a) with
    | none => simp
    | some d =>
      dsimp only
      rw [offset_cons, add_comm]
      rfl

theorem reorderKeeps_iff (hvalid : t.Valid) (hnodup : t.axis.Nodup) (reorderedAxis : List AxisId) :
    ReorderKeeps E v reorderedAxis t ↔ ReorderOnce E v reorderedAxis t := by
  have hdims : (t.dims.map Dim.axis).Nodup := hvalid.axis.symm ▸ hnodup
  rw [ReorderKeeps, reorderTensor, dims_ofDims]
  simp only [offset_reordered hdims]
  constructor
  · intro h
    by_cases hempty : ∃ d ∈ t.dims, E.eval d.repeats v ≤ 0
    · exact .inl hempty
    refine .inr fun d hd => ?_
    by_cases hone : E.eval d.repeats v = 1
    · exact .inl hone
    -- one step along the axis
    have hspace : InSpace E v t.dims fun a => if a = d.axis then 1 else 0 := by
      intro d' hd'
      dsimp only
      by_cases hax : d'.axis = d.axis
      · have hsize : E.eval d'.repeats v = E.eval d.repeats v := by
          rw [← repeatAt_eq hdims hd', hax, repeatAt_eq hdims hd]
        have hpos : ¬ E.eval d.repeats v ≤ 0 := fun hle => hempty ⟨d, hd, hle⟩
        rw [if_pos hax, hsize]
        omega
      · have hpos : ¬ E.eval d'.repeats v ≤ 0 := fun hle => hempty ⟨d', hd', hle⟩
        rw [if_neg hax]
        omega
    have hself := find?_axis hdims hd
    have hkeep := h _ hspace
    have hleft : (t.dims.map fun d' => (reorderedAxis.count d'.axis : ℤ) *
        ((if d'.axis = d.axis then 1 else 0) * E.eval d'.stride v)).sum =
          reorderedAxis.count d.axis * E.eval d.stride v := by
      have hsum := sum_ite_axis hdims d.axis fun d' =>
        (reorderedAxis.count d'.axis : ℤ) * E.eval d'.stride v
      rw [hself] at hsum
      refine Eq.trans (congrArg sum (map_congr_left fun d' _ => ?_)) hsum
      rw [ite_mul, one_mul, zero_mul, mul_ite, mul_zero]
    have hright : offset E v t.dims (fun a => if a = d.axis then 1 else 0) = E.eval d.stride v := by
      have hsum := sum_ite_axis hdims d.axis fun d' => E.eval d'.stride v
      rw [hself] at hsum
      refine Eq.trans (congrArg sum (map_congr_left fun d' _ => ?_)) hsum
      dsimp only
      rw [ite_mul, one_mul, zero_mul]
    rw [hleft, hright] at hkeep
    by_cases hstride : E.eval d.stride v = 0
    · exact .inr (.inl hstride)
    · refine .inr (.inr ?_)
      have hcount : (reorderedAxis.count d.axis : ℤ) = 1 :=
        Int.eq_of_mul_eq_mul_right hstride (hkeep.trans (one_mul _).symm)
      exact Int.ofNat_inj.mp hcount
  · rintro (⟨d, hd, hle⟩ | honce) idx hidx
    · have hd' := hidx d hd
      omega
    · refine congrArg sum (map_congr_left fun d hd => ?_)
      rcases honce d hd with hone | hstride | hcount
      · have hd' := hidx d hd
        have hzero : idx d.axis = 0 := by omega
        rw [hzero, zero_mul, mul_zero]
      · rw [hstride, mul_zero, mul_zero]
      · rw [hcount]
        exact one_mul _

/-! ## Splitting and merging back -/

section MergeBack

variable {E : SplitSymbols ε σ} {splitSize : ε} {outterId innerId originalId : AxisId}

/-- A unit dimension that moves cannot be merged again: its outer half has the stride zero. -/
def MergesBack (E : SplitSymbols ε σ) (originalId : AxisId) (t : Tensor ε) : Prop :=
  ∀ d ∈ t.dims, d.axis = originalId → E.isOne d.repeats = true → ∀ v, E.eval d.stride v = 0

theorem flatMap_splitDim_of_ne (h : ∀ d ∈ dims, d.axis ≠ originalId) :
    dims.flatMap (splitDim E splitSize outterId innerId originalId) = dims := by
  induction dims with
  | nil => rfl
  | cons d dims ih =>
    rw [flatMap_cons, splitDim, if_neg (h d mem_cons_self),
      ih fun d' hd' => h d' (mem_cons_of_mem _ hd')]
    rfl

/-- The two halves of a dimension. -/
theorem splitDim_halves (hd : d.axis = originalId) :
    ∃ outter inner : Dim ε, splitDim E splitSize outterId innerId originalId d = [outter, inner] ∧
      outter.axis = outterId ∧ inner.axis = innerId ∧ inner.stride = d.stride ∧
      (E.isOne d.repeats = true → outter = ⟨outterId, E.kSymbolOne, E.kSymbolZero⟩ ∧
        inner = ⟨innerId, E.kSymbolOne, d.stride⟩) ∧
      (¬ E.isOne d.repeats = true → outter = ⟨outterId, E.div d.repeats splitSize,
        E.mul d.stride splitSize⟩ ∧ inner = ⟨innerId, splitSize, d.stride⟩) := by
  rw [splitDim, if_pos hd]
  by_cases hone : E.isOne d.repeats = true
  · rw [if_pos hone]
    exact ⟨_, _, rfl, rfl, rfl, rfl, fun _ => ⟨rfl, rfl⟩, fun h => absurd hone h⟩
  · rw [if_neg hone]
    exact ⟨_, _, rfl, rfl, rfl, rfl, fun h => absurd h hone, fun _ => ⟨rfl, rfl⟩⟩

theorem mergeBack_iff (hvalid : t.Valid) (hnodup : t.axis.Nodup) (hpos : 0 < E.eval splitSize v)
    (hne : outterId ≠ innerId) (hout : outterId ∉ t.axis) (hin : innerId ∉ t.axis)
    (hdvd : ∀ d ∈ t.dims, d.axis = originalId → E.eval splitSize v ∣ E.eval d.repeats v) :
    SameAt E.toSymbols v (mergeTensor E.toSymbols originalId [outterId, innerId]
        (splitView E splitSize outterId innerId originalId t)) t ↔ MergesBack E originalId t := by
  have hdims : (t.dims.map Dim.axis).Nodup := hvalid.axis.symm ▸ hnodup
  have hfresh : ∀ d ∈ t.dims, d.axis ∉ [outterId, innerId] := by
    intro d hd hmem
    have hd' : d.axis ∈ t.axis := hvalid.axis ▸ mem_map_of_mem hd
    rcases mem_cons.mp hmem with heq | hmem
    · exact hout (heq ▸ hd')
    · exact hin (mem_singleton.mp hmem ▸ hd')
  have hsplit : splitView E splitSize outterId innerId originalId t =
      .ofDims (t.dims.flatMap (splitDim E splitSize outterId innerId originalId)) := if_pos hvalid
  by_cases hmem : originalId ∈ t.dims.map Dim.axis
  · rcases mem_map.mp hmem with ⟨d, hd, haxis⟩
    rcases append_of_mem hd with ⟨pre, post, hparts⟩
    have hothers : (∀ d' ∈ pre, d'.axis ≠ originalId) ∧ ∀ d' ∈ post, d'.axis ≠ originalId := by
      rw [hparts, map_append, map_cons, nodup_append, nodup_cons, haxis] at hdims
      constructor
      · exact fun d' hd' => hdims.2.2 _ (mem_map_of_mem hd') _ mem_cons_self
      · exact fun d' hd' heq => hdims.2.1.1 (heq ▸ mem_map_of_mem hd')
    rcases @splitDim_halves ε σ d E splitSize outterId innerId originalId haxis with
      ⟨outter, inner, hhalves, houtter, hinner, hstride, hunit, hother⟩
    have hafter : t.dims.flatMap (splitDim E splitSize outterId innerId originalId) =
        pre ++ ([outter] ++ [inner]) ++ post := by
      rw [hparts, flatMap_append, flatMap_cons, flatMap_splitDim_of_ne hothers.1,
        flatMap_splitDim_of_ne hothers.2, hhalves, append_assoc]
      rfl
    have haxes : ([outter] ++ [inner]).map Dim.axis = [outterId, innerId] := by
      rw [← houtter, ← hinner]
      rfl
    have hpre : ∀ d' ∈ pre, d'.axis ∉ ([outter] ++ [inner]).map Dim.axis := by
      intro d' hd'
      rw [haxes]
      exact hfresh d' (hparts ▸ mem_append_left _ hd')
    have hpost : ∀ d' ∈ post, d'.axis ∉ ([outter] ++ [inner]).map Dim.axis := by
      intro d' hd'
      rw [haxes]
      exact hfresh d' (hparts ▸ mem_append_right _ (mem_cons_of_mem _ hd'))
    have hpair : ([outterId, innerId] : List AxisId).Nodup := by simp [hne]
    rw [hsplit, hafter]
    by_cases hback : MergesBack E originalId t
    · refine iff_of_true ?_ hback
      have hchain : ([outter] ++ [inner]).IsChain (Dim.Covers E.toSymbols) := by
        refine isChain_cons_cons.mpr ⟨fun v' => ?_, .singleton _⟩
        by_cases hone : E.isOne d.repeats = true
        · rw [(hunit hone).1, (hunit hone).2]
          dsimp only
          rw [E.eval_zero, hback d hd haxis hone v', zero_mul]
        · rw [(hother hone).1, (hother hone).2]
          exact E.eval_mul ..
      have hmerge := mergeTensor_eq (m := originalId) (valid_ofDims _) (dims_ofDims (pre ++ ([outter] ++ [inner]) ++ post))
        hchain (haxes ▸ hpair) hpre hpost
      rw [haxes] at hmerge
      have hsize : E.eval outter.repeats v * E.eval inner.repeats v = E.eval d.repeats v := by
        by_cases hone : E.isOne d.repeats = true
        · rw [(hunit hone).1, (hunit hone).2, E.eval_of_isOne d.repeats v hone]
          dsimp only
          rw [E.eval_one, one_mul]
        · rcases hdvd d hd haxis with ⟨q, hq⟩
          rw [(hother hone).1, (hother hone).2]
          dsimp only
          rw [E.eval_div d.repeats splitSize v q hpos.ne' (hq.trans (mul_comm _ _)), hq, mul_comm]
      rw [hmerge, SameAt, dims_ofDims, hparts]
      simp only [map_append, map_cons, append_assoc, cons_append, nil_append]
      have hvalue : E.eval (mergedDim E.toSymbols originalId [outter] inner).repeats v = E.eval d.repeats v := by
        rw [← hsize, mergedDim, eval_repeatProduct, E.eval_one, one_mul]
        simp
      rw [hvalue]
      show _ ++ (originalId, _, E.eval inner.stride v) :: _ = _
      rw [hstride, haxis]
    · refine iff_of_false (fun hsame => ?_) hback
      -- the halves stay as they are
      have hgap : checkContinuous E.toSymbols [outterId, innerId]
          (.ofDims (pre ++ ([outter] ++ [inner]) ++ post)) ≠ true := by
        intro hcheck
        apply hback
        intro d' hd' haxis' hone v'
        have hsame' : d' = d := by
          have hfind := find?_axis hdims hd'
          have hfind' := find?_axis hdims hd
          rw [haxis'] at hfind
          rw [haxis, hfind] at hfind'
          exact Option.some.inj hfind'
        subst hsame'
        have hinside : inside [outterId, innerId] (Tensor.ofDims (pre ++ ([outter] ++ [inner]) ++ post)).dims =
            [outter, inner] := by
          have hnone : ∀ l : List (Dim ε), (∀ d ∈ l, d.axis ∉ ([outter] ++ [inner]).map Dim.axis) →
              inside [outterId, innerId] l = [] := by
            intro l hl
            rw [haxes] at hl
            exact filter_eq_nil_iff.mpr fun d hd hc => hl d hd (contains_iff_mem.mp hc)
          have hboth : inside [outterId, innerId] ([outter] ++ [inner]) = [outter, inner] :=
            filter_eq_self.mpr fun d hd =>
              contains_iff_mem.mpr (haxes ▸ mem_map_of_mem (f := Dim.axis) hd)
          rw [dims_ofDims, inside, filter_append, filter_append]
          show inside _ pre ++ inside _ ([outter] ++ [inner]) ++ inside _ post = _
          rw [hnone pre hpre, hnone post hpost, hboth]
          rfl
        have hcont := consecutive_of_checkContinuous hcheck
        rw [hinside, (hunit hone).1, (hunit hone).2] at hcont
        have heq := (E.staticCheckEq_iff _ _).mp (Bool.and_eq_true _ _ ▸ hcont : _ ∧ _).1 v'
        dsimp only at heq
        rw [E.eval_zero, E.eval_mul, E.eval_one, one_mul] at heq
        exact heq.symm
      rw [mergeTensor, if_neg hgap, SameAt, dims_ofDims, hparts] at hsame
      have hlen := congrArg length hsame
      simp at hlen
  · have hno : ∀ d ∈ t.dims, d.axis ≠ originalId := fun d hd heq => hmem (heq ▸ mem_map_of_mem hd)
    have hinside : inside [outterId, innerId] t.dims = [] :=
      filter_eq_nil_iff.mpr fun d hd hc => hfresh d hd (contains_iff_mem.mp hc)
    rw [hsplit, flatMap_splitDim_of_ne hno, ofDims_dims hvalid, mergeTensor_of_inside_nil hvalid hinside]
    exact iff_of_true rfl fun d hd haxis => absurd haxis (hno d hd)

end MergeBack

/-- A split keeps the offset of every point, and merging its halves again gives the view back unless it is a
unit dimension that moves; a merge keeps the offsets exactly where the order of the tensor is that of the
merged axes, and leaves a tensor with a gap; a reorder keeps them exactly where it lists every axis once. -/
theorem views_keepOffsets {E : SplitSymbols ε σ} (hvalid : t.Valid) (hnodup : t.axis.Nodup) (v : σ) :
    (∀ splitSize outterId innerId originalId, outterId ≠ innerId → outterId ∉ t.axis → innerId ∉ t.axis →
        0 < E.eval splitSize v →
        (∀ d ∈ t.dims, d.axis = originalId → E.eval splitSize v ∣ E.eval d.repeats v) →
        SplitKeeps E v splitSize outterId innerId originalId t ∧
          (SameAt E.toSymbols v (mergeTensor E.toSymbols originalId [outterId, innerId]
            (splitView E splitSize outterId innerId originalId t)) t ↔ MergesBack E originalId t)) ∧
      (∀ m original, original.Nodup → m ∉ t.axis →
        (MergeKeeps E.toSymbols v m original t ↔
          (checkContinuous E.toSymbols original t = true → MergeOrdered E.toSymbols v original t)) ∧
        (checkContinuous E.toSymbols original t = false → mergeTensor E.toSymbols m original t = t)) ∧
      ∀ reorderedAxis, ReorderKeeps E.toSymbols v reorderedAxis t ↔
        ReorderOnce E.toSymbols v reorderedAxis t := by
  refine ⟨fun splitSize outterId innerId originalId hne hout hin hpos hdvd => ⟨?_, ?_⟩,
    fun m original horiginal hm => ⟨mergeKeeps_iff hvalid hnodup horiginal hm, fun hgap => ?_⟩,
    reorderKeeps_iff hvalid hnodup⟩
  · exact splitKeeps hvalid hpos hne hout hin hdvd
  · exact mergeBack_iff hvalid hnodup hpos hne hout hin hdvd
  · rw [mergeTensor, hgap]
    rfl

end Proofs

/-- A view of two axes in the order that is not that of the merged axis. -/
def transposed : Tensor ℤ := ⟨[1, 0], [3, 2], [2, 1]⟩

theorem views_keepOffsets_transposed :
    MergeKeeps constants.toSymbols () 5 [1, 0] transposed ↔
      (checkContinuous constants.toSymbols [1, 0] transposed = true →
        MergeOrdered constants.toSymbols () [1, 0] transposed) :=
  ((views_keepOffsets (E := constants) (t := transposed) (by decide) (by decide) ()).2.1 5 [1, 0]
    (by decide) (by decide)).1

/-- The point with the index one along the first of the merged axes has the offset one before and three
after; and a unit dimension that was split is not merged again. -/
theorem not_views_keepOffsets :
    ¬ MergeKeeps constants.toSymbols () 5 [0, 1] transposed ∧
      ¬ SameAt constants.toSymbols () (mergeTensor constants.toSymbols 0 [1, 2]
        (splitView constants 1 1 2 0 ⟨[0], [1], [4]⟩)) ⟨[0], [1], [4]⟩ := by
  constructor
  · intro h
    have hpoint := (h (fun a => if a = 0 then 1 else 0) (by unfold InSpace; decide)).2
    revert hpoint
    decide
  · unfold SameAt
    decide

end GraphAutofusion.AscIr.Views
