import GraphAutofusion.Autofuse.LoopAxes
import GraphAutofusion.Lib.Blocks

/-!
# Autofuse.LoopAxesMerge — merging one group of axes

A group of axes that stand next to each other in a list is replaced by the merged axis. In a tensor the
neighbours of the group lie without a gap, so that the merged dimension visits the same offsets.
-/

namespace GraphAutofusion.Autofuse.LoopAxes

open Lib List
open VectorAxis (AxisId)

variable {ε σ : Type}

/-- One step along the first dimension is a whole round of the second, for all values. -/
def Dim.Covers (E : Symbols ε σ) (d d' : Dim ε) : Prop :=
  ∀ v, E.eval d.stride v = E.eval d'.stride v * E.eval d'.repeats v

def Dim.loop (E : Symbols ε σ) (v : σ) (d : Dim ε) : Loop :=
  ⟨(E.eval d.repeats v).toNat, E.eval d.stride v⟩

def loops (E : Symbols ε σ) (v : σ) (dims : List (Dim ε)) : List Loop := dims.map (Dim.loop E v)

/-- The repeats are numbers of iterations. -/
def SizesAt (E : Symbols ε σ) (v : σ) (dims : List (Dim ε)) : Prop :=
  ∀ d ∈ dims, 0 ≤ E.eval d.repeats v

section Proofs

variable {E : Symbols ε σ} {t : Tensor ε} {pre post B dims : List (Dim ε)} {d z : Dim ε}
  {c : List AxisId} {a b m : AxisId} {v : σ}

/-! ## The dimensions of a tensor -/

theorem dims_ofDims (dims : List (Dim ε)) : (Tensor.ofDims dims).dims = dims := by
  induction dims with
  | nil => rfl
  | cons d dims ih => exact congrArg (d :: ·) ih

theorem valid_ofDims (dims : List (Dim ε)) : (Tensor.ofDims dims).Valid := by
  constructor
  · rw [Tensor.ofDims, length_map, length_map]
  · rw [Tensor.ofDims, length_map, length_map]

theorem Tensor.Valid.axis (h : t.Valid) : t.dims.map Dim.axis = t.axis := by
  rw [Tensor.dims, map_map]
  refine map_fst_zip ?_
  rw [length_zip, ← h.2, Nat.min_self]
  exact le_of_eq h.1

/-- The dimension at a place. -/
theorem dims_get {i : ℕ} (hd : t.dims[i]? = some d) :
    t.axis[i]? = some d.axis ∧ t.repeats[i]? = some d.repeats ∧ t.strides[i]? = some d.stride := by
  rw [Tensor.dims, getElem?_map, Option.map_eq_some_iff] at hd
  rcases hd with ⟨p, hp, rfl⟩
  rw [getElem?_zip_eq_some] at hp
  exact ⟨hp.1, getElem?_zip_eq_some.mp hp.2⟩

theorem Tensor.Valid.length_dims (h : t.Valid) : t.dims.length = t.axis.length := by
  rw [← h.axis, length_map]

/-- Neighbours without a gap are neighbours among the dimensions. -/
theorem continuousIn_spec (hvalid : t.Valid) (h : continuousIn E a b t = true) :
    ∃ d d' : Dim ε, t.dims[t.axis.idxOf a]? = some d ∧ t.dims[t.axis.idxOf a + 1]? = some d' ∧
      d.axis = a ∧ d'.axis = b ∧ t.axis.idxOf b = t.axis.idxOf a + 1 ∧ d.Covers E d' := by
  unfold continuousIn at h
  dsimp only at h
  split at h
  · next hlt =>
    rw [Bool.and_eq_true, decide_eq_true_eq, decide_eq_true_eq] at hlt
    split at h
    · next preStride postStride postRepeat hpre hpost hrepeat =>
      rw [Bool.and_eq_true, beq_iff_eq] at h
      -- the dimensions at the two places
      have hlta : t.axis.idxOf a < t.dims.length := hvalid.length_dims.symm ▸ hlt.1
      have hltb : t.axis.idxOf b < t.dims.length := hvalid.length_dims.symm ▸ hlt.2
      have hd := getElem?_eq_getElem hlta
      have hd' := getElem?_eq_getElem hltb
      rcases dims_get hd with ⟨haxis, _, hstride⟩
      rcases dims_get hd' with ⟨haxis', hrepeat', hstride'⟩
      rw [getElem?_eq_getElem hlt.1, getElem_idxOf] at haxis
      rw [getElem?_eq_getElem hlt.2, getElem_idxOf] at haxis'
      rw [hpre] at hstride
      rw [hpost] at hstride'
      rw [hrepeat] at hrepeat'
      have hnext := (congrArg (t.dims[·]?) h.1).trans hd'
      refine ⟨_, _, hd, hnext, (Option.some.inj haxis).symm, (Option.some.inj haxis').symm,
        h.1.symm, fun v => ?_⟩
      rw [← Option.some.inj hstride, ← Option.some.inj hstride', ← Option.some.inj hrepeat',
        ← E.eval_mul]
      exact (E.staticCheckEq_iff _ _).mp h.2 v
    · cases h
  · cases h

/-- A tensor holds the group as a block without gaps. -/
def HasBlock (E : Symbols ε σ) (c : List AxisId) (dims : List (Dim ε)) : Prop :=
  ∃ B : List (Dim ε), B <:+: dims ∧ B.map Dim.axis = c ∧ B.IsChain (Dim.Covers E)

theorem prefix_of_chain (hvalid : t.Valid) (ha : a ∈ t.axis)
    (h : (a :: c).IsChain fun a b => continuousIn E a b t = true) :
    ∃ B rest : List (Dim ε), t.dims.drop (t.axis.idxOf a) = B ++ rest ∧
      B.map Dim.axis = a :: c ∧ B.IsChain (Dim.Covers E) := by
  induction c generalizing a with
  | nil =>
    have hlt : t.axis.idxOf a < t.dims.length := hvalid.length_dims.symm ▸ idxOf_lt_length_iff.mpr ha
    have hget := getElem?_eq_getElem hlt
    have haxis := (dims_get hget).1
    rw [getElem?_eq_getElem (idxOf_lt_length_iff.mpr ha), getElem_idxOf] at haxis
    refine ⟨[t.dims[t.axis.idxOf a]], t.dims.drop (t.axis.idxOf a + 1), ?_, ?_, .singleton _⟩
    · exact drop_eq_getElem_cons hlt
    · rw [map_singleton, ← Option.some.inj haxis]
  | cons b c ih =>
    rcases isChain_cons_cons.mp h with ⟨hab, hchain⟩
    rcases continuousIn_spec hvalid hab with ⟨d, d', hd, hd', hda, hdb, hidx, hcovers⟩
    have hb : b ∈ t.axis := by
      rw [← hdb]
      exact mem_of_getElem? (dims_get hd').1
    rcases ih hb hchain with ⟨B, rest, hdrop, haxes, hB⟩
    rcases List.getElem?_eq_some_iff.mp hd with ⟨hlt, rfl⟩
    refine ⟨t.dims[t.axis.idxOf a] :: B, rest, ?_, ?_, ?_⟩
    · rw [drop_eq_getElem_cons hlt, ← hidx, hdrop]
      rfl
    · rw [map_cons, haxes, hda]
    · cases B with
      | nil => cases haxes
      | cons x B =>
        -- the block of the rest starts with the second dimension
        have hx : x = d' := by
          have hhead := congrArg head? hdrop
          rw [head?_drop, hidx, hd'] at hhead
          exact (Option.some.inj hhead).symm
        exact isChain_cons_cons.mpr ⟨hx ▸ hcovers, hB⟩

theorem hasBlock_of_chain (hvalid : t.Valid)
    (h : (a :: b :: c).IsChain fun a b => continuousIn E a b t = true) :
    HasBlock E (a :: b :: c) t.dims := by
  rcases continuousIn_spec hvalid (isChain_cons_cons.mp h).1 with ⟨d, _, hd, _, hda, _⟩
  have ha : a ∈ t.axis := hda ▸ mem_of_getElem? (dims_get hd).1
  rcases prefix_of_chain hvalid ha h with ⟨B, rest, hdrop, haxes, hB⟩
  refine ⟨B, ⟨t.dims.take (t.axis.idxOf a), rest, ?_⟩, haxes, hB⟩
  rw [append_assoc, ← hdrop, take_append_drop]

/-! ## The schedule list -/

theorem mergeSched_outside {l : List AxisId} {k : ℕ} {s : SchedState} (h : ∀ a ∈ l, a ∉ c) :
    (l.zipIdx k).foldl (mergeSchedStep m c) s = { s with axis := s.axis ++ l } := by
  induction l generalizing s k with
  | nil => rw [zipIdx_nil, foldl_nil, append_nil]
  | cons a l ih =>
    rw [zipIdx_cons, foldl_cons, mergeSchedStep, if_neg (h a mem_cons_self),
      ih fun b hb => h b (mem_cons_of_mem _ hb)]
    dsimp only
    rw [append_assoc, singleton_append]

/-- Nothing is written until the last axis of the group. -/
theorem mergeSched_inside {original axis : List AxisId} {set : Finset AxisId} {first : Option ℕ} {k : ℕ}
    (hmem : ∀ a ∈ c, a ∈ original) (hcard : (set ∪ c.toFinset).card < original.length) :
    (c.zipIdx k).foldl (mergeSchedStep m original) ⟨axis, set, first⟩ =
      ⟨axis, set ∪ c.toFinset, if c = [] then first else some (first.getD k)⟩ := by
  induction c generalizing set first k with
  | nil => simp
  | cons a c ih =>
    have hunion : insert a set ∪ c.toFinset = set ∪ (a :: c).toFinset := by
      rw [toFinset_cons, Finset.insert_union, Finset.union_insert]
    have hne : (insert a set).card ≠ original.length := by
      have hsub : insert a set ⊆ insert a set ∪ c.toFinset := Finset.subset_union_left
      have hle := Finset.card_le_card hsub
      rw [hunion] at hle
      omega
    rw [zipIdx_cons, foldl_cons, mergeSchedStep, if_pos (hmem a mem_cons_self)]
    dsimp only
    rw [if_neg hne, ih (fun b hb => hmem b (mem_cons_of_mem _ hb)) (hunion ▸ hcard), hunion,
      if_neg (cons_ne_nil a c)]
    split <;> rfl

/-- The members of a list before its last one are fewer. -/
theorem card_lt_of_nodup {c₀ : List AxisId} (hnodup : (c₀ ++ [a]).Nodup) :
    (∅ ∪ c₀.toFinset).card < (c₀ ++ [a]).length := by
  have hlen := toFinset_card_of_nodup (hnodup.sublist (sublist_append_left c₀ [a]))
  rw [Finset.empty_union, hlen, length_append]
  exact Nat.lt_succ_self _

theorem insert_toFinset {c₀ : List AxisId} : insert a (∅ ∪ c₀.toFinset) = (c₀ ++ [a]).toFinset := by
  rw [Finset.empty_union, toFinset_append, Finset.union_comm]
  rfl

theorem mergeSched_eq {A C : List AxisId} (hne : c ≠ []) (hnodup : c.Nodup) (hA : ∀ a ∈ A, a ∉ c)
    (hC : ∀ a ∈ C, a ∉ c) : mergeSched m c (A ++ c ++ C) = some (A ++ [m] ++ C) := by
  rcases eq_nil_or_concat' c with hnil | ⟨c₀, z, hz⟩
  · exact absurd hnil hne
  subst hz
  have hcard : (c₀ ++ [z]).toFinset.card = (c₀ ++ [z]).length := toFinset_card_of_nodup hnodup
  have hfold : (A ++ (c₀ ++ [z]) ++ C).zipIdx.foldl (mergeSchedStep m (c₀ ++ [z])) {} =
      ⟨A ++ [m] ++ C, (c₀ ++ [z]).toFinset, some A.length⟩ := by
    rw [zipIdx_append, zipIdx_append, zipIdx_append, foldl_append,
      foldl_append, foldl_append, mergeSched_outside hA,
      mergeSched_inside (fun a ha => mem_append_left _ ha) (card_lt_of_nodup hnodup),
      zipIdx_singleton, foldl_cons, foldl_nil, mergeSchedStep,
      if_pos (mem_append_right _ mem_cons_self)]
    dsimp only
    rw [insert_toFinset, if_pos hcard, mergeSched_outside hC]
    -- the place of the first axis of the group
    have hfirst : (if c₀ = [] then none else some (Option.getD none (0 + A.length))).getD
        (0 + A.length + c₀.length) = A.length := by
      split
      · next hnil =>
        rw [hnil]
        simp
      · simp
    rw [hfirst, nil_append, insertIdx_length_self]
  rw [mergeSched, if_pos hcard, hfold]
  exact if_pos (.inl hcard)

/-! ## The tensors -/

theorem mergeView_outside {original : Finset AxisId} {l : List (Dim ε)} {s : ViewState ε}
    (h : ∀ d ∈ l, d.axis ∉ original) :
    l.foldl (mergeViewStep E m original) s = { s with view := s.view ++ l } := by
  induction l generalizing s with
  | nil => rw [foldl_nil, append_nil]
  | cons d l ih =>
    rw [foldl_cons, mergeViewStep, if_neg (h d mem_cons_self),
      ih fun d' hd' => h d' (mem_cons_of_mem _ hd')]
    dsimp only
    rw [append_assoc, singleton_append]

/-- The product of the repeats, behind one that is there before. -/
def repeatProduct (E : Symbols ε σ) (r : ε) (dims : List (Dim ε)) : ε :=
  dims.foldl (fun r d => E.mul r d.repeats) r

theorem eval_repeatProduct (r : ε) (dims : List (Dim ε)) (v : σ) :
    E.eval (repeatProduct E r dims) v =
      E.eval r v * (dims.map fun d => E.eval d.repeats v).prod := by
  induction dims generalizing r with
  | nil => rw [map_nil, prod_nil, mul_one, repeatProduct, foldl_nil]
  | cons d dims ih =>
    rw [map_cons, prod_cons, ← mul_assoc, ← E.eval_mul]
    exact ih _

theorem mergeView_inside {original : Finset AxisId} {s : ViewState ε}
    (hmem : ∀ d ∈ B, d.axis ∈ original)
    (hcard : (s.mergeAxisSet ∪ (B.map Dim.axis).toFinset).card < original.card) :
    B.foldl (mergeViewStep E m original) s =
      ⟨s.view, s.mergeAxisSet ∪ (B.map Dim.axis).toFinset, repeatProduct E s.mergeRepeat B⟩ := by
  induction B generalizing s with
  | nil =>
    rw [map_nil, toFinset_nil, Finset.union_empty]
    rfl
  | cons d B ih =>
    have hunion : insert d.axis s.mergeAxisSet ∪ (B.map Dim.axis).toFinset =
        s.mergeAxisSet ∪ ((d :: B).map Dim.axis).toFinset := by
      rw [map_cons, toFinset_cons, Finset.insert_union, Finset.union_insert]
    have hne : (insert d.axis s.mergeAxisSet).card ≠ original.card := by
      have hsub : insert d.axis s.mergeAxisSet ⊆ insert d.axis s.mergeAxisSet ∪ (B.map Dim.axis).toFinset :=
        Finset.subset_union_left
      have hle := Finset.card_le_card hsub
      rw [hunion] at hle
      omega
    rw [foldl_cons, mergeViewStep, if_pos (hmem d mem_cons_self)]
    dsimp only
    rw [if_neg hne, ih (fun d' hd' => hmem d' (mem_cons_of_mem _ hd')) (hunion ▸ hcard)]
    simp only [hunion]
    rfl

/-- The dimension of the merged axis: all repeats, and the stride of the last. -/
def mergedDim (E : Symbols ε σ) (m : AxisId) (B : List (Dim ε)) (z : Dim ε) : Dim ε :=
  ⟨m, repeatProduct E E.kSymbolOne (B ++ [z]), z.stride⟩

theorem mergeView_eq (hvalid : t.Valid) (hdims : t.dims = pre ++ (B ++ [z]) ++ post)
    (hnodup : ((B ++ [z]).map Dim.axis).Nodup) (hpre : ∀ d ∈ pre, d.axis ∉ (B ++ [z]).map Dim.axis)
    (hpost : ∀ d ∈ post, d.axis ∉ (B ++ [z]).map Dim.axis) :
    mergeView E m ((B ++ [z]).map Dim.axis) t = .ofDims (pre ++ [mergedDim E m B z] ++ post) := by
  have haxes : (B ++ [z]).map Dim.axis = B.map Dim.axis ++ [z.axis] := by
    rw [map_append, map_singleton]
  have hcard : (∅ ∪ (B.map Dim.axis).toFinset).card < ((B ++ [z]).map Dim.axis).toFinset.card := by
    rw [toFinset_card_of_nodup hnodup, haxes]
    exact card_lt_of_nodup (haxes ▸ hnodup)
  have hfold : t.dims.foldl (mergeViewStep E m ((B ++ [z]).map Dim.axis).toFinset)
      { mergeRepeat := E.kSymbolOne } =
        ⟨pre ++ [mergedDim E m B z] ++ post, ((B ++ [z]).map Dim.axis).toFinset,
          repeatProduct E E.kSymbolOne (B ++ [z])⟩ := by
    rw [hdims, foldl_append, foldl_append, foldl_append,
      mergeView_outside fun d hd hmem => hpre d hd (mem_toFinset.mp hmem),
      mergeView_inside (B := B)
        (fun d hd => mem_toFinset.mpr (mem_map_of_mem (mem_append_left _ hd))) hcard,
      foldl_cons, foldl_nil, mergeViewStep,
      if_pos (mem_toFinset.mpr (mem_map_of_mem (mem_append_right _ mem_cons_self)))]
    dsimp only
    rw [insert_toFinset, ← haxes, if_pos rfl,
      mergeView_outside fun d hd hmem => hpost d hd (mem_toFinset.mp hmem)]
    have hproduct : E.mul (repeatProduct E E.kSymbolOne B) z.repeats =
        repeatProduct E E.kSymbolOne (B ++ [z]) := by
      rw [repeatProduct, repeatProduct, foldl_append]
      rfl
    rw [hproduct]
    rfl
  rw [mergeView, if_pos hvalid, hfold]
  exact if_pos (.inl rfl)

/-- A chain of dimensions passes the test for gaps. -/
theorem consecutiveContinuous_of_chain (h : B.IsChain (Dim.Covers E)) :
    consecutiveContinuous E B = true := by
  induction B with
  | nil => rfl
  | cons d B ih =>
    cases B with
    | nil => rfl
    | cons d' B =>
      rcases isChain_cons_cons.mp h with ⟨hcovers, hrest⟩
      rw [consecutiveContinuous, Bool.and_eq_true]
      refine ⟨(E.staticCheckEq_iff _ _).mpr fun v => ?_, ih hrest⟩
      rw [E.eval_mul, hcovers v, mul_comm]

theorem checkContinuous_of_block (hdims : t.dims = pre ++ B ++ post) (hB : B.IsChain (Dim.Covers E))
    (hpre : ∀ d ∈ pre, d.axis ∉ B.map Dim.axis) (hpost : ∀ d ∈ post, d.axis ∉ B.map Dim.axis) :
    checkContinuous E (B.map Dim.axis) t = true := by
  have hinside : (t.dims.filter fun d => (B.map Dim.axis).contains d.axis) = B := by
    rw [hdims, filter_append, filter_append, filter_eq_nil_iff.mpr, nil_append,
      filter_eq_self.mpr, filter_eq_nil_iff.mpr, append_nil]
    · exact fun d hd hmem => hpost d hd (contains_iff_mem.mp hmem)
    · exact fun d hd => contains_iff_mem.mpr (mem_map_of_mem hd)
    · exact fun d hd hmem => hpre d hd (contains_iff_mem.mp hmem)
  unfold checkContinuous
  dsimp only
  rw [hinside, if_pos (.inl rfl)]
  exact consecutiveContinuous_of_chain hB

/-- A block becomes the merged dimension. -/
theorem mergeTensor_eq (hvalid : t.Valid) (hdims : t.dims = pre ++ (B ++ [z]) ++ post)
    (hB : (B ++ [z]).IsChain (Dim.Covers E)) (hnodup : ((B ++ [z]).map Dim.axis).Nodup)
    (hpre : ∀ d ∈ pre, d.axis ∉ (B ++ [z]).map Dim.axis)
    (hpost : ∀ d ∈ post, d.axis ∉ (B ++ [z]).map Dim.axis) :
    mergeTensor E m ((B ++ [z]).map Dim.axis) t = .ofDims (pre ++ [mergedDim E m B z] ++ post) := by
  rw [mergeTensor, if_pos (checkContinuous_of_block hdims hB hpre hpost)]
  exact mergeView_eq hvalid hdims hnodup hpre hpost

/-! ## The offsets -/

theorem prod_nonneg {l : List ℤ} (h : ∀ x ∈ l, 0 ≤ x) : 0 ≤ l.prod := by
  induction l with
  | nil => exact Int.one_nonneg
  | cons x l ih =>
    rw [prod_cons]
    exact Int.mul_nonneg (h x mem_cons_self) (ih fun y hy => h y (mem_cons_of_mem _ hy))

theorem toNat_prod {l : List ℤ} (h : ∀ x ∈ l, 0 ≤ x) : l.prod.toNat = (l.map Int.toNat).prod := by
  induction l with
  | nil => rfl
  | cons x l ih =>
    have hl : ∀ y ∈ l, 0 ≤ y := fun y hy => h y (mem_cons_of_mem _ hy)
    rw [prod_cons, map_cons, prod_cons,
      Int.toNat_mul (h x mem_cons_self) (prod_nonneg hl), ih hl]

theorem loop_mergedDim (hsizes : SizesAt E v (d :: B ++ [z])) :
    (mergedDim E m (d :: B) z).loop E v = (d.loop E v).merged (loops E v (B ++ [z])) := by
  have hnonneg : ∀ x ∈ (d :: B ++ [z]).map fun d => E.eval d.repeats v, 0 ≤ x := by
    intro x hx
    rcases mem_map.mp hx with ⟨d', hd', rfl⟩
    exact hsizes d' hd'
  have hlast : ((loops E v (B ++ [z])).getLast?.getD (d.loop E v)).stride = E.eval z.stride v := by
    rw [loops, map_append, map_singleton, getLast?_concat]
    rfl
  rw [Loop.merged, hlast, Dim.loop, mergedDim]
  dsimp only
  rw [eval_repeatProduct, E.eval_one, one_mul, toNat_prod hnonneg, map_map, cons_append,
    map_cons, prod_cons, loops, map_map]
  rfl

/-- The merged dimension visits what the block visits. -/
theorem offsets_mergedDim (hB : (d :: B ++ [z]).IsChain (Dim.Covers E))
    (hsizes : SizesAt E v (d :: B ++ [z])) :
    offsets (loops E v (pre ++ [mergedDim E m (d :: B) z] ++ post)) =
      offsets (loops E v (pre ++ (d :: B ++ [z]) ++ post)) := by
  have hcovers : (d.loop E v :: loops E v (B ++ [z])).IsChain Loop.Covers := by
    show (loops E v (d :: B ++ [z])).IsChain Loop.Covers
    rw [loops, isChain_map]
    refine hB.imp_of_mem_imp fun d d' _ hd' hcov => ?_
    show E.eval d.stride v = ((E.eval d'.repeats v).toNat : ℤ) * E.eval d'.stride v
    rw [Int.toNat_of_nonneg (hsizes d' hd'), hcov v, mul_comm]
  have hchain : offsets (d.loop E v :: loops E v (B ++ [z]) ++ loops E v post) =
      offsets ((d.loop E v).merged (loops E v (B ++ [z])) :: loops E v post) := offsets_chain hcovers
  rw [← loop_mergedDim (m := m) hsizes] at hchain
  have hcongr := offsets_append_congr (loops E v pre) hchain.symm
  simpa [loops] using hcongr

end Proofs

end GraphAutofusion.Autofuse.LoopAxes
