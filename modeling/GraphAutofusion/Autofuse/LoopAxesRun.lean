import GraphAutofusion.Autofuse.LoopAxesMerge

/-!
# Autofuse.LoopAxesRun — merging all groups in all nodes

Each node replaces the ids it has at the positions of a group. The merged axes are kept in a table; what
an axis was made of, and its size, can be read there.
-/

namespace GraphAutofusion.Autofuse.LoopAxes

open Lib List
open VectorAxis (AxisId)

variable {ε σ : Type}

/-- The axes an id stands for, where the first `n` axes are not merged. -/
def sources (n : ℕ) (axes : List (Axis ε)) (id : AxisId) : List AxisId :=
  if id < n then [id] else axes[id.toNat]?.elim [] (·.fromIds)

def sizeAt (E : Symbols ε σ) (axes : List (Axis ε)) (v : σ) (id : AxisId) : ℤ :=
  axes[id.toNat]?.elim 0 fun axis => E.eval axis.size v

/-- The ids that stand in a node and its outputs. -/
def Node.ids (n : Node ε) : List AxisId := n.sched ++ n.outputs.flatMap Tensor.axis

/-- The tensor visits the same offsets over the axes that stand for its axes. -/
structure TensorMerged (E : Symbols ε σ) (src : AxisId → List AxisId) (t t' : Tensor ε) : Prop where
  valid : t.Valid → t'.Valid
  axis : t'.axis.flatMap src = t.axis
  sizes : ∀ v, SizesAt E v t.dims → SizesAt E v t'.dims
  offsets : ∀ v, SizesAt E v t.dims → offsets (loops E v t'.dims) = offsets (loops E v t.dims)

structure NodeMerged (E : Symbols ε σ) (src : AxisId → List AxisId) (n n' : Node ε) : Prop where
  rest : n' = { n with sched := n'.sched, outputs := n'.outputs }
  sched : n'.sched.flatMap src = n.sched
  outputs : Forall₂ (TensorMerged E src) n.outputs n'.outputs

/-- A compute node names an axis once, and so do its outputs. -/
structure Node.Ok (n : Node ε) : Prop where
  sched_nodup : n.sched.Nodup
  valid : ∀ t ∈ n.outputs, t.Valid
  axis_nodup : ∀ t ∈ n.outputs, t.axis.Nodup

/-- A merged axis in the table. -/
def IsMerged (n : ℕ) (axes : List (Axis ε)) (m : AxisId) (c : List AxisId) : Prop :=
  (n : ℤ) ≤ m ∧ ∃ size, axes[m.toNat]? = some ⟨.merged, size, c⟩

/-- A group stands as a block in the schedule list and, without gaps, in all outputs. -/
structure Pending (E : Symbols ε σ) (n : Node ε) (c : List AxisId) : Prop where
  two_le : 2 ≤ c.length
  sched : c <:+: n.sched
  outputs : ∀ t ∈ n.outputs, HasBlock E c t.dims

section Proofs

variable {E : Symbols ε σ} {src : AxisId → List AxisId} {t t' : Tensor ε} {n cur : Node ε}
  {N : ℕ} {axes T : List (Axis ε)} {c : List AxisId} {a m : AxisId} {v : σ}

theorem TensorMerged.refl (h : ∀ a ∈ t.axis, src a = [a]) : TensorMerged E src t t where
  valid := id
  axis := by
    rw [flatMap_congr h]
    exact flatMap_singleton' _
  sizes _ := id
  offsets _ _ := rfl

theorem NodeMerged.refl (h : ∀ a ∈ n.ids, src a = [a]) : NodeMerged E src n n where
  rest := rfl
  sched := by
    rw [flatMap_congr fun a ha => h a (mem_append_left _ ha)]
    exact flatMap_singleton' _
  outputs := forall₂_same.mpr fun t ht => .refl fun a ha =>
    h a (mem_append_right _ (mem_flatMap.mpr ⟨t, ht, ha⟩))

theorem NodeMerged.isBuffer {n' : Node ε} (h : NodeMerged E src n n') : n'.isBuffer = n.isBuffer := by
  rw [h.rest]

/-- A group of single axes has no member outside of its block. -/
theorem avoid_of_nodup {A C : List AxisId} (hnodup : ((A ++ c ++ C).flatMap src).Nodup)
    (hc : ∀ a ∈ c, src a = [a]) : c.Nodup ∧ (∀ a ∈ A, a ∉ c) ∧ ∀ a ∈ C, a ∉ c := by
  have hself : c.flatMap src = c := by
    rw [flatMap_congr hc]
    exact flatMap_singleton' _
  have hmem : ∀ a ∈ c, ∀ l : List AxisId, a ∈ l → a ∈ l.flatMap src := by
    intro a ha l hl
    rw [mem_flatMap]
    refine ⟨a, hl, ?_⟩
    rw [hc a ha]
    exact mem_singleton_self a
  rw [flatMap_append, flatMap_append, hself] at hnodup
  rcases nodup_append.mp hnodup with ⟨hleft, _, hright⟩
  rcases nodup_append.mp hleft with ⟨_, hcn, hmid⟩
  refine ⟨hcn, fun a haA hac => ?_, fun a haC hac => ?_⟩
  · exact hmid a (hmem a hac A haA) a hac rfl
  · exact hright a (mem_append_right _ hac) a (hmem a hac C haC) rfl

/-! ## One group -/

/-- What merging a group makes of a tensor. -/
theorem mergeTensor_spec (hmerged : TensorMerged E src t t') (hvalid : t.Valid) (hnodup : t.axis.Nodup)
    (hm : src m = c) (hc : ∀ a ∈ c, src a = [a]) (htwo : 2 ≤ c.length) (hblock : HasBlock E c t'.dims) :
    TensorMerged E src t (mergeTensor E m c t') ∧
      (∀ c' : List AxisId, c'.Disjoint c → c' ≠ [] → HasBlock E c' t'.dims →
        HasBlock E c' (mergeTensor E m c t').dims) ∧
      ∀ a ∈ (mergeTensor E m c t').axis, a = m ∨ a ∈ t'.axis := by
  rcases hblock with ⟨B, ⟨pre, post, hdims⟩, haxes, hB⟩
  have hvalid' := hmerged.valid hvalid
  have hnodup' : ((pre.map Dim.axis ++ c ++ post.map Dim.axis).flatMap src).Nodup := by
    rw [← haxes, ← map_append, ← map_append, hdims, hvalid'.axis, hmerged.axis]
    exact hnodup
  rcases avoid_of_nodup hnodup' hc with ⟨hcn, hpre, hpost⟩
  -- the block is written as its first dimension, the middle and the last dimension
  have hshape : ∃ (d : Dim ε) (B₀ : List (Dim ε)) (z : Dim ε), B = d :: B₀ ++ [z] := by
    cases B with
    | nil =>
      rw [← haxes] at htwo
      cases htwo
    | cons d B =>
      rcases eq_nil_or_concat' B with rfl | ⟨B₀, z, rfl⟩
      · rw [← haxes, length_map, length_singleton] at htwo
        omega
      · exact ⟨d, B₀, z, rfl⟩
  rcases hshape with ⟨d, B₀, z, rfl⟩
  subst haxes
  have heq : mergeTensor E m ((d :: B₀ ++ [z]).map Dim.axis) t' =
      .ofDims (pre ++ [mergedDim E m (d :: B₀) z] ++ post) :=
    mergeTensor_eq hvalid' hdims.symm hB hcn
      (fun d' hd' => hpre _ (mem_map_of_mem hd')) (fun d' hd' => hpost _ (mem_map_of_mem hd'))
  have haxis : (mergeTensor E m ((d :: B₀ ++ [z]).map Dim.axis) t').axis =
      pre.map Dim.axis ++ [m] ++ post.map Dim.axis := by
    rw [heq, Tensor.ofDims, map_append, map_append]
    rfl
  have hold : t'.axis = pre.map Dim.axis ++ (d :: B₀ ++ [z]).map Dim.axis ++ post.map Dim.axis := by
    rw [← hvalid'.axis, ← hdims, map_append, map_append]
  have hdims' : (mergeTensor E m ((d :: B₀ ++ [z]).map Dim.axis) t').dims =
      pre ++ [mergedDim E m (d :: B₀) z] ++ post := by
    rw [heq, dims_ofDims]
  have hsizes : ∀ v, SizesAt E v t.dims → SizesAt E v (pre ++ (d :: B₀ ++ [z]) ++ post) := by
    intro v hv
    rw [hdims]
    exact hmerged.sizes v hv
  refine ⟨⟨fun _ => heq ▸ valid_ofDims _, ?_, ?_, ?_⟩, ?_, ?_⟩
  · rw [haxis, ← hmerged.axis, hold]
    apply flatMap_replace
    rw [hm, flatMap_congr hc]
    exact (flatMap_singleton' _).symm
  · intro v hv d' hd'
    rw [hdims'] at hd'
    rcases mem_append.mp hd' with hd' | hd'
    · rcases mem_append.mp hd' with hd' | hd'
      · exact hsizes v hv d' (mem_append_left _ (mem_append_left _ hd'))
      · -- the merged dimension has a product of sizes
        rw [mem_singleton.mp hd', mergedDim]
        dsimp only
        rw [eval_repeatProduct, E.eval_one, one_mul]
        apply prod_nonneg
        intro x hx
        rcases mem_map.mp hx with ⟨d'', hd'', rfl⟩
        exact hsizes v hv d'' (mem_append_left _ (mem_append_right _ hd''))
    · exact hsizes v hv d' (mem_append_right _ hd')
  · intro v hv
    rw [hdims', ← hmerged.offsets v hv, ← hdims]
    refine offsets_mergedDim hB fun d' hd' => ?_
    exact hsizes v hv d' (mem_append_left _ (mem_append_right _ hd'))
  · intro c' hdisj hne hblock'
    rcases hblock' with ⟨B', hinfix, rfl, hB'⟩
    refine ⟨B', ?_, rfl, hB'⟩
    rw [hdims']
    rw [← hdims] at hinfix
    refine infix_replace hinfix ?_ (by simp) ?_
    · intro d' hd' hmem
      exact hdisj (mem_map_of_mem hd') (mem_map_of_mem hmem)
    · rintro rfl
      exact hne rfl
  · intro a ha
    rw [haxis, append_assoc, mem_append, mem_append, mem_singleton] at ha
    rw [hold, append_assoc, mem_append, mem_append]
    tauto

/-- What merging a group makes of a node. -/
theorem doApplyMerge_spec (hok : n.Ok) (hmerged : NodeMerged E src n cur) (hm : src m = c)
    (hc : ∀ a ∈ c, src a = [a]) (hpending : Pending E cur c) :
    ∃ next, doApplyMerge E m c cur = some next ∧ NodeMerged E src n next ∧
      next.sched.length + c.length = cur.sched.length + 1 ∧
      (∀ c' : List AxisId, c'.Disjoint c → Pending E cur c' → Pending E next c') ∧
      ∀ a ∈ next.ids, a = m ∨ a ∈ cur.ids := by
  rcases hpending with ⟨htwo, ⟨A, C, hsched⟩, houtputs⟩
  have hne : c ≠ [] := by
    rintro rfl
    cases htwo
  have hnodup : ((A ++ c ++ C).flatMap src).Nodup := by
    rw [hsched, hmerged.sched]
    exact hok.sched_nodup
  rcases avoid_of_nodup hnodup hc with ⟨hcn, hA, hC⟩
  have hstep : ∀ t t', t ∈ n.outputs → t' ∈ cur.outputs → TensorMerged E src t t' → _ :=
    fun t t' ht ht' hrel => mergeTensor_spec hrel (hok.valid t ht) (hok.axis_nodup t ht) hm hc htwo
      (houtputs t' ht')
  refine ⟨{ cur with sched := A ++ [m] ++ C, outputs := cur.outputs.map (mergeTensor E m c) },
    ?_, ⟨?_, ?_, ?_⟩, ?_, ?_, ?_⟩
  · rw [doApplyMerge, ← hsched, mergeSched_eq hne hcn hA hC]
  · rw [hmerged.rest]
  · dsimp only
    rw [← hmerged.sched, ← hsched]
    apply flatMap_replace
    rw [hm, flatMap_congr hc]
    exact (flatMap_singleton' _).symm
  · dsimp only
    rw [forall₂_map_right_iff]
    have hboth := hmerged.outputs
    rw [forall₂_iff_get] at hboth ⊢
    refine ⟨hboth.1, fun i h₁ h₂ => ?_⟩
    exact (hstep _ _ (get_mem _ _) (get_mem _ _) (hboth.2 i h₁ h₂)).1
  · dsimp only
    rw [← hsched]
    simp only [length_append, length_singleton]
    omega
  · intro c' hdisj hpend
    have hne' : c' ≠ [] := by
      rintro rfl
      cases hpend.two_le
    refine ⟨hpend.two_le, ?_, ?_⟩
    · have hinfix := hpend.sched
      rw [← hsched] at hinfix
      exact infix_replace hinfix hdisj hne hne'
    · intro t'' ht''
      rcases mem_map.mp ht'' with ⟨t', ht', rfl⟩
      rcases forall₂_iff_get.mp hmerged.outputs with ⟨hlen, hget⟩
      rcases mem_iff_get.mp ht' with ⟨i, rfl⟩
      have hrel := hget i (Nat.lt_of_lt_of_eq i.2 hlen.symm) i.2
      exact (hstep _ _ (get_mem _ _) (get_mem _ _) hrel).2.1 c' hdisj hne'
        (hpend.outputs _ (get_mem _ _))
  · intro a ha
    rw [Node.ids, mem_append] at ha ⊢
    rcases ha with ha | ha
    · rw [← hsched]
      dsimp only at ha
      rw [append_assoc, mem_append, mem_append, mem_singleton] at ha
      simp only [mem_append]
      tauto
    · dsimp only at ha
      rw [mem_flatMap] at ha
      rcases ha with ⟨t'', ht'', ha⟩
      rcases mem_map.mp ht'' with ⟨t', ht', rfl⟩
      rcases forall₂_iff_get.mp hmerged.outputs with ⟨hlen, hget⟩
      rcases mem_iff_get.mp ht' with ⟨i, rfl⟩
      have hrel := hget i (Nat.lt_of_lt_of_eq i.2 hlen.symm) i.2
      rcases (hstep _ _ (get_mem _ _) (get_mem _ _) hrel).2.2 a ha with ha | ha
      · exact .inl ha
      · exact .inr (.inr (mem_flatMap.mpr ⟨_, get_mem _ _, ha⟩))

/-! ## All groups of a node -/

theorem sources_lt (h : a < N) : sources N axes a = [a] := if_pos h

theorem IsMerged.mono (h : IsMerged N axes m c) (hpre : axes <+: T) : IsMerged N T m c := by
  rcases h with ⟨hle, size, hm⟩
  refine ⟨hle, size, ?_⟩
  rcases hpre with ⟨rest, rfl⟩
  rw [getElem?_append_left (List.getElem?_eq_some_iff.mp hm).1, hm]

theorem IsMerged.sources (h : IsMerged N axes m c) : sources N axes m = c := by
  rcases h with ⟨hle, size, hm⟩
  rw [LoopAxes.sources, if_neg (not_lt.mpr hle), hm]
  rfl

/-- A merged axis of the table can be applied. -/
theorem applyMerge_eq (h : IsMerged N axes m c) (htwo : 2 ≤ c.length) :
    applyMerge E axes m n = doApplyMerge E m c n := by
  rcases h with ⟨hle, size, hm⟩
  rw [applyMerge, if_pos (le_trans (Int.natCast_nonneg N) hle), hm]
  exact if_pos ⟨rfl, htwo⟩

/-- The groups are merged one after the other, and each leaves the blocks of those that follow. -/
theorem applyMerges_spec {ids : List AxisId} {cs : List (List AxisId)} (hok : n.Ok)
    (hmerged : NodeMerged E (sources N T) n cur) (hpre : axes <+: T)
    (hids : Forall₂ (IsMerged N axes) ids cs) (hlt : ∀ c ∈ cs, ∀ a ∈ c, a < N)
    (hpending : ∀ c ∈ cs, Pending E cur c) (hdisj : cs.Pairwise List.Disjoint) :
    ∃ last, applyMerges E axes ids cur = some last ∧ NodeMerged E (sources N T) n last ∧
      last.sched.length + (cs.map List.length).sum = cur.sched.length + cs.length ∧
      ∀ a ∈ last.ids, a ∈ ids ∨ a ∈ cur.ids := by
  induction hids generalizing cur with
  | nil => exact ⟨cur, rfl, hmerged, rfl, fun a ha => .inr ha⟩
  | @cons m c ids cs hm hids ih =>
    rw [pairwise_cons] at hdisj
    have hc : ∀ a ∈ c, sources N T a = [a] := fun a ha => sources_lt (hlt c mem_cons_self a ha)
    have hpend := hpending c mem_cons_self
    rcases doApplyMerge_spec hok hmerged (hm.mono hpre).sources hc hpend with
      ⟨next, hrun, hnext, hlen, hkeep, hmem⟩
    rcases ih hnext (fun c' hc' => hlt c' (mem_cons_of_mem _ hc'))
      (fun c' hc' => hkeep c' (fun a ha ha' => hdisj.1 c' hc' ha' ha)
        (hpending c' (mem_cons_of_mem _ hc'))) hdisj.2 with ⟨last, hruns, hlast, hlens, hmems⟩
    refine ⟨last, ?_, hlast, ?_, fun a ha => ?_⟩
    · rw [applyMerges, applyMerge_eq hm hpend.two_le, hrun]
      exact hruns
    · rw [map_cons, sum_cons, length_cons]
      omega
    · rcases hmems a ha with ha | ha
      · exact .inl (mem_cons_of_mem _ ha)
      · rcases hmem a ha with rfl | ha
        · exact .inl mem_cons_self
        · exact .inr ha

/-! ## The table of axes -/

/-- The table begins with the axes of the graph, and every other axis is made of some of them. -/
structure TableOk (E : Symbols ε σ) (axes₀ : List (Axis ε)) (st : Merger ε) : Prop where
  prefix_axes : axes₀ <+: st.axes
  size : ∀ (i : ℕ) (axis : Axis ε), axes₀.length ≤ i → st.axes[i]? = some axis →
    ∀ v, E.eval axis.size v = (axis.fromIds.map (sizeAt E axes₀ v)).prod
  cache : ∀ (c : List AxisId) (m : AxisId), st.fromIdToMergedId.lookup c = some m →
    IsMerged axes₀.length st.axes m c

variable {axes₀ : List (Axis ε)} {st : Merger ε}

theorem sizeAt_prefix (hpre : axes <+: T) (h : a.toNat < axes.length) :
    sizeAt E T v a = sizeAt E axes v a := by
  rcases hpre with ⟨rest, rfl⟩
  rw [sizeAt, sizeAt, getElem?_append_left h]

theorem mergedSize_spec {ids : List AxisId} {s : ε} (h : ∀ a ∈ ids, 0 ≤ a ∧ a < axes.length) :
    ∃ size, mergedSize E axes s ids = some size ∧
      ∀ v, E.eval size v = E.eval s v * (ids.map (sizeAt E axes v)).prod := by
  induction ids generalizing s with
  | nil => exact ⟨s, rfl, fun v => (mul_one _).symm⟩
  | cons a ids ih =>
    have ha := h a mem_cons_self
    have hlt : a.toNat < axes.length := (Int.toNat_lt ha.1).mpr ha.2
    have hget := getElem?_eq_getElem hlt
    rcases ih (s := E.mul s axes[a.toNat].size) fun b hb => h b (mem_cons_of_mem _ hb) with
      ⟨size, hsize, heval⟩
    refine ⟨size, ?_, fun v => ?_⟩
    · rw [mergedSize, if_pos ha.1, hget]
      exact hsize
    · have hat : sizeAt E axes v a = E.eval axes[a.toNat].size v := by
        rw [sizeAt, hget]
        rfl
      rw [heval v, map_cons, prod_cons, E.eval_mul, hat, mul_assoc]

/-- The axis of a list of ids is found or created. -/
theorem mergedId_spec (h : TableOk E axes₀ st) (hc : ∀ a ∈ c, 0 ≤ a ∧ a < axes₀.length) :
    ∃ (m : AxisId) (st' : Merger ε), st.mergedId E c = some (m, st') ∧ TableOk E axes₀ st' ∧
      st.axes <+: st'.axes ∧ IsMerged axes₀.length st'.axes m c := by
  unfold Merger.mergedId
  cases hlookup : st.fromIdToMergedId.lookup c with
  | some m => exact ⟨m, st, rfl, h, prefix_refl _, h.cache c m hlookup⟩
  | none =>
    have hle := h.prefix_axes.length_le
    have hrange : ∀ a ∈ c, 0 ≤ a ∧ a < st.axes.length := by
      intro a ha
      exact ⟨(hc a ha).1, lt_of_lt_of_le (hc a ha).2 (Int.ofNat_le.mpr hle)⟩
    rcases mergedSize_spec (E := E) (s := E.kSymbolOne) hrange with ⟨size, hsize, heval⟩
    have hnew : IsMerged axes₀.length (st.axes ++ [⟨.merged, size, c⟩]) st.axes.length c := by
      refine ⟨Int.ofNat_le.mpr hle, size, ?_⟩
      rw [Int.toNat_natCast, getElem?_concat_length]
    dsimp only
    rw [mergeAxis, hsize]
    refine ⟨_, _, rfl, ⟨?_, ?_, ?_⟩, prefix_append .., hnew⟩
    · exact h.prefix_axes.trans (prefix_append ..)
    · intro i axis hi haxis v
      dsimp only at haxis
      rcases lt_or_ge i st.axes.length with hlt | hge
      · rw [getElem?_append_left hlt] at haxis
        exact h.size i axis hi haxis v
      -- the new axis
      have hi' : i = st.axes.length := by
        have hlt := (List.getElem?_eq_some_iff.mp haxis).1
        rw [length_append, length_singleton] at hlt
        omega
      rw [hi', getElem?_concat_length] at haxis
      rw [← Option.some.inj haxis, heval v, E.eval_one, one_mul]
      congr 1
      apply map_congr_left
      intro a ha
      exact sizeAt_prefix h.prefix_axes ((Int.toNat_lt (hc a ha).1).mpr (hc a ha).2)
    · intro c' m hm
      dsimp only at hm ⊢
      rw [lookup_cons] at hm
      by_cases heq : c' = c
      · subst heq
        rw [beq_self_eq_true] at hm
        rw [← Option.some.inj hm]
        exact hnew
      · rw [beq_eq_false_iff_ne.mpr heq] at hm
        exact (h.cache c' m hm).mono (prefix_append ..)

/-- The ids a node has at some positions. -/
def groupIds (sched : List AxisId) (fromIdx : List ℤ) : List AxisId :=
  fromIdx.map fun index => sched[index.toNat]?.getD 0

theorem fromIds_eq {sched : List AxisId} {fromIdx : List ℤ}
    (h : ∀ i ∈ fromIdx, i.toNat < sched.length) : fromIds sched fromIdx = some (groupIds sched fromIdx) := by
  induction fromIdx with
  | nil => rfl
  | cons i fromIdx ih =>
    have hget := getElem?_eq_getElem (h i mem_cons_self)
    rw [fromIds] at ih ⊢
    rw [mapM_cons, ih fun j hj => h j (mem_cons_of_mem _ hj), groupIds, groupIds,
      map_cons, hget]
    rfl

variable {groups : List (List ℤ)}

theorem nodeMergedIds_spec {sched : List AxisId} (h : TableOk E axes₀ st)
    (hidx : ∀ G ∈ groups, ∀ i ∈ G, i.toNat < sched.length)
    (hsched : ∀ a ∈ sched, 0 ≤ a ∧ a < axes₀.length) :
    ∃ (ids : List AxisId) (st' : Merger ε), st.nodeMergedIds E sched groups = some (ids, st') ∧
      TableOk E axes₀ st' ∧ st.axes <+: st'.axes ∧
      Forall₂ (IsMerged axes₀.length st'.axes) ids (groups.map (groupIds sched)) := by
  induction groups generalizing st with
  | nil => exact ⟨[], st, rfl, h, prefix_refl _, .nil⟩
  | cons G groups ih =>
    have hG := hidx G mem_cons_self
    have hrange : ∀ a ∈ groupIds sched G, 0 ≤ a ∧ a < axes₀.length := by
      intro a ha
      rcases mem_map.mp ha with ⟨i, hi, rfl⟩
      rw [getElem?_eq_getElem (hG i hi)]
      exact hsched _ (getElem_mem _)
    rcases mergedId_spec h hrange with ⟨m, st₁, hm, hst₁, hpre₁, hmerged⟩
    rcases ih hst₁ (fun G' hG' => hidx G' (mem_cons_of_mem _ hG')) with
      ⟨ids, st₂, hids, hst₂, hpre₂, hall⟩
    refine ⟨m :: ids, st₂, ?_, hst₂, hpre₁.trans hpre₂, .cons (hmerged.mono hpre₂) hall⟩
    rw [Merger.nodeMergedIds, fromIds_eq hG]
    dsimp only
    rw [hm]
    dsimp only
    rw [hids]

/-! ## All nodes -/

/-- The groups of positions, each a block of gapless neighbours in a node. -/
structure Groups (E : Symbols ε σ) (groups : List (List ℤ)) (n : Node ε) : Prop where
  idx : ∀ G ∈ groups, ∀ i ∈ G, i.toNat < n.sched.length
  pending : ∀ G ∈ groups, Pending E n (groupIds n.sched G)
  disjoint : (groups.map (groupIds n.sched)).Pairwise List.Disjoint

/-- What the run makes of a node, read in any later table. -/
structure NodeResult (E : Symbols ε σ) (axes₀ T : List (Axis ε)) (groups : List (List ℤ))
    (n n' : Node ε) : Prop where
  merged : NodeMerged E (sources axes₀.length T) n n'
  length : n.isBuffer = false →
    n'.sched.length + (groups.map List.length).sum = n.sched.length + groups.length
  range : ∀ a ∈ n'.ids, 0 ≤ a ∧ a < T.length
  ids : ∀ a ∈ n'.ids, a < axes₀.length ∨
    n.isBuffer = false ∧ ∃ G ∈ groups, sources axes₀.length T a = groupIds n.sched G

theorem IsMerged.range (h : IsMerged N axes m c) : 0 ≤ m ∧ m < axes.length := by
  rcases h with ⟨hle, size, hm⟩
  have hnonneg : 0 ≤ m := le_trans (Int.natCast_nonneg N) hle
  exact ⟨hnonneg, (Int.toNat_lt hnonneg).mp (List.getElem?_eq_some_iff.mp hm).1⟩

theorem mergeNode_spec (h : TableOk E axes₀ st) (hrange : ∀ a ∈ n.ids, 0 ≤ a ∧ a < axes₀.length)
    (hok : n.isBuffer = false → n.Ok ∧ Groups E groups n) :
    ∃ (n' : Node ε) (st' : Merger ε), st.mergeNode E groups n = some (n', st') ∧ TableOk E axes₀ st' ∧
      st.axes <+: st'.axes ∧ ∀ T, st'.axes <+: T → NodeResult E axes₀ T groups n n' := by
  have hself : ∀ T : List (Axis ε), NodeMerged E (sources axes₀.length T) n n :=
    fun T => .refl fun a ha => sources_lt (hrange a ha).2
  have hmono : ∀ T : List (Axis ε), axes₀ <+: T → ∀ a ∈ n.ids, 0 ≤ a ∧ a < T.length := by
    intro T hT a ha
    exact ⟨(hrange a ha).1, lt_of_lt_of_le (hrange a ha).2 (Int.ofNat_le.mpr hT.length_le)⟩
  rw [Merger.mergeNode]
  cases hbuffer : n.isBuffer with
  | true =>
    refine ⟨n, st, rfl, h, prefix_refl _, fun T hT => ⟨hself T, ?_, ?_, ?_⟩⟩
    · intro hfalse
      rw [hbuffer] at hfalse
      cases hfalse
    · exact hmono T (h.prefix_axes.trans hT)
    · exact fun a ha => .inl (hrange a ha).2
  | false =>
    rcases hok hbuffer with ⟨hnode, hgroups⟩
    have hsched : ∀ a ∈ n.sched, 0 ≤ a ∧ a < axes₀.length :=
      fun a ha => hrange a (mem_append_left _ ha)
    rcases nodeMergedIds_spec h hgroups.idx hsched with ⟨ids, st', hids, hst', hpre, hall⟩
    have hlt : ∀ c ∈ groups.map (groupIds n.sched), ∀ a ∈ c, a < axes₀.length := by
      intro c hc a ha
      rcases mem_map.mp hc with ⟨G, hG, rfl⟩
      exact (hsched a ((hgroups.pending G hG).sched.subset ha)).2
    have hpending : ∀ c ∈ groups.map (groupIds n.sched), Pending E n c := by
      intro c hc
      rcases mem_map.mp hc with ⟨G, hG, rfl⟩
      exact hgroups.pending G hG
    have hrun : ∀ T : List (Axis ε), st'.axes <+: T → _ := fun T hT =>
      applyMerges_spec hnode (hself T) hT hall hlt hpending hgroups.disjoint
    rcases hrun st'.axes (prefix_refl _) with ⟨n', heq, _, _, _⟩
    refine ⟨n', st', ?_, hst', hpre, fun T hT => ?_⟩
    · rw [if_neg Bool.false_ne_true, hids]
      dsimp only
      rw [heq]
    · rcases hrun T hT with ⟨last, hlast, hmerged, hlength, hmem⟩
      rw [heq] at hlast
      cases hlast
      have hmergedId : ∀ a ∈ ids, ∃ c ∈ groups.map (groupIds n.sched),
          IsMerged axes₀.length T a c := by
        intro a ha
        rcases forall₂_iff_get.mp hall with ⟨hlen, hget⟩
        rcases mem_iff_get.mp ha with ⟨i, rfl⟩
        have hi := Nat.lt_of_lt_of_eq i.2 hlen
        exact ⟨_, get_mem _ ⟨i, hi⟩, (hget i i.2 hi).mono hT⟩
      refine ⟨hmerged, fun _ => ?_, fun a ha => ?_, fun a ha => ?_⟩
      · have hlens : ((groups.map (groupIds n.sched)).map List.length).sum =
            (groups.map List.length).sum := by
          rw [map_map]
          congr 1
          apply map_congr_left
          intro G _
          exact length_map _
        rw [← hlens, hlength, length_map]
      · rcases hmem a ha with ha | ha
        · rcases hmergedId a ha with ⟨c, _, hm⟩
          exact hm.range
        · exact hmono T (h.prefix_axes.trans (hpre.trans hT)) a ha
      · rcases hmem a ha with ha | ha
        · rcases hmergedId a ha with ⟨c, hc, hm⟩
          rcases mem_map.mp hc with ⟨G, hG, rfl⟩
          exact .inr ⟨hbuffer, G, hG, hm.sources⟩
        · exact .inl (hrange a ha).2

theorem mergeNodes_spec {nodes : List (Node ε)} (h : TableOk E axes₀ st)
    (hrange : ∀ n ∈ nodes, ∀ a ∈ n.ids, 0 ≤ a ∧ a < axes₀.length)
    (hok : ∀ n ∈ nodes, n.isBuffer = false → n.Ok ∧ Groups E groups n) :
    ∃ (nodes' : List (Node ε)) (st' : Merger ε), st.mergeNodes E groups nodes = some (nodes', st') ∧
      TableOk E axes₀ st' ∧ st.axes <+: st'.axes ∧
      ∀ T, st'.axes <+: T → Forall₂ (NodeResult E axes₀ T groups) nodes nodes' := by
  induction nodes generalizing st with
  | nil => exact ⟨[], st, rfl, h, prefix_refl _, fun _ _ => .nil⟩
  | cons n nodes ih =>
    rcases mergeNode_spec h (hrange n mem_cons_self) (hok n mem_cons_self) with
      ⟨n', st₁, hrun, hst₁, hpre₁, hresult⟩
    rcases ih hst₁ (fun n' hn' => hrange n' (mem_cons_of_mem _ hn'))
      (fun n' hn' => hok n' (mem_cons_of_mem _ hn')) with ⟨nodes', st₂, hruns, hst₂, hpre₂, hresults⟩
    refine ⟨n' :: nodes', st₂, ?_, hst₂, hpre₁.trans hpre₂, fun T hT => ?_⟩
    · rw [Merger.mergeNodes, hrun]
      dsimp only
      rw [hruns]
    · exact .cons (hresult T (hpre₂.trans hT)) (hresults T hT)

end Proofs

end GraphAutofusion.Autofuse.LoopAxes
