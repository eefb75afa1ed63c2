import GraphAutofusion.Autofuse.LoopAxesRun

/-!
# Autofuse.LoopAxesPasses — what is around the merging

Dropping positions keeps the axes at all other positions of a compute node and of its outputs. Numbering
the axes anew is a renaming, whatever the order in which the ids are met.
-/

namespace GraphAutofusion.Autofuse.LoopAxes

open Lib List
open VectorAxis (AxisId)

variable {ε σ : Type}

/-- The axes a compute node has at some positions. -/
def Node.dropped (n : Node ε) (removed : List ℕ) : List AxisId :=
  if n.isBuffer then [] else removed.filterMap (n.sched[·]?)

structure TensorRemoved (dropped : List AxisId) (t t' : Tensor ε) : Prop where
  valid : t.Valid → t'.Valid
  axis : t'.axis = t.axis.filter (!dropped.contains ·)
  dims : t'.dims = t.dims.filter (!dropped.contains ·.axis)

/-- What the removal of positions makes of a node. -/
structure NodeRemoved (removed : List ℕ) (n n' : Node ε) : Prop where
  rest : n' = { n with sched := n'.sched, outputs := n'.outputs }
  sched : n'.sched = n.sched.filter (!(n.dropped removed).contains ·)
  length : n.isBuffer = false →
    n'.sched.length = ((range n.sched.length).filter (!removed.contains ·)).length
  outputs : Forall₂ (TensorRemoved (n.dropped removed)) n.outputs n'.outputs

/-- The graphs the passes are for: the schedule lists of the compute nodes have one length and name an
axis once, and the outputs of a compute node range over its axes. -/
structure Graph.WellFormed (g : Graph ε) : Prop where
  length : ∃ k, 0 < k ∧ ∀ n ∈ g.computeNodes, n.sched.length = k
  ok : ∀ n ∈ g.computeNodes, n.Ok
  scheduled : ∀ n ∈ g.computeNodes, ∀ t ∈ n.outputs, t.axis ⊆ n.sched
  ids : ∀ n ∈ g.nodes, ∀ a ∈ n.ids, 0 ≤ a ∧ a < g.axes.length

section Proofs

variable {E : Symbols ε σ} {g : Graph ε} {n : Node ε} {t : Tensor ε} {removed : List ℕ} {a : AxisId}

theorem mem_computeNodes : n ∈ g.computeNodes ↔ n ∈ g.nodes ∧ n.isBuffer = false := by
  rw [Graph.computeNodes, mem_filter, Bool.not_eq_true']

/-! ## The removal -/

theorem dropped_eq (h : n.isBuffer = false) : n.dropped removed = removed.filterMap (n.sched[·]?) := by
  rw [Node.dropped, h]
  rfl

theorem not_contains_iff {α : Type} [DecidableEq α] {l : List α} {a : α} :
    (!l.contains a) = true ↔ a ∉ l := by
  rw [Bool.not_eq_true', ← Bool.not_eq_true, contains_iff_mem]

/-- An axis is dropped with its position. -/
theorem mem_dropped (hbuffer : n.isBuffer = false) (hnodup : n.sched.Nodup) {i : ℕ}
    (hi : n.sched[i]? = some a) : a ∈ n.dropped removed ↔ i ∈ removed := by
  rw [dropped_eq hbuffer, mem_filterMap]
  constructor
  · rintro ⟨j, hj, hja⟩
    have hlt := (List.getElem?_eq_some_iff.mp hi).1
    rwa [(getElem?_inj hlt hnodup).mp (hi.trans hja.symm)]
  · intro hmem
    exact ⟨i, hmem, hi⟩

theorem validAxisIds_eq (hbuffer : n.isBuffer = false) (hnodup : n.sched.Nodup) :
    validAxisIds removed n.sched = n.sched.filter (!(n.dropped removed).contains ·) := by
  have hfilter : (n.sched.zipIdx.filter fun p => !removed.contains p.2) =
      n.sched.zipIdx.filter ((fun a => !(n.dropped removed).contains a) ∘ Prod.fst) := by
    apply filter_congr
    intro p hp
    have hmem : p.1 ∈ n.dropped removed ↔ p.2 ∈ removed :=
      mem_dropped hbuffer hnodup (mem_zipIdx_iff_getElem?.mp hp)
    show (!removed.contains p.2) = !(n.dropped removed).contains p.1
    rw [Bool.eq_iff_iff, not_contains_iff, not_contains_iff, hmem]
  rw [validAxisIds, hfilter, ← filter_map, zipIdx_map_fst]

theorem validAxisIds_length (removed : List ℕ) (sched : List AxisId) :
    (validAxisIds removed sched).length =
      ((range sched.length).filter (!removed.contains ·)).length := by
  have hsnd : sched.zipIdx.map Prod.snd = range sched.length := by
    rw [zipIdx_map_snd, range_eq_range']
  rw [validAxisIds, length_map, ← hsnd, filter_map, length_map]
  rfl

theorem keepAxes_spec {valid dropped : List AxisId} (hvalid : t.Valid)
    (h : ∀ a ∈ t.axis, valid.contains a = !dropped.contains a) :
    ∃ t', keepAxes valid t = some t' ∧ TensorRemoved dropped t t' := by
  have hdims : (t.dims.filter fun d => valid.contains d.axis) =
      t.dims.filter (!dropped.contains ·.axis) := by
    apply filter_congr
    intro d hd
    apply h
    rw [← hvalid.axis]
    exact mem_map_of_mem hd
  have hbound : ((t.axis.zipIdx.filter fun p => valid.contains p.1).all fun p =>
      decide (p.2 < t.strides.length) && decide (p.2 < t.repeats.length)) = true := by
    rw [all_eq_true]
    intro p hp
    have hget := mem_zipIdx_iff_getElem?.mp (mem_of_mem_filter hp)
    have hlt := (List.getElem?_eq_some_iff.mp hget).1
    rw [Bool.and_eq_true, decide_eq_true_eq, decide_eq_true_eq, ← hvalid.2, ← hvalid.1]
    exact ⟨hlt, hlt⟩
  refine ⟨_, if_pos hbound, fun _ => valid_ofDims _, ?_, ?_⟩
  · rw [Tensor.ofDims, hdims, ← hvalid.axis, filter_map]
    rfl
  · rw [dims_ofDims, hdims]

theorem forall₂_of_mapM {α β : Type} {f : α → Option β} {r : α → β → Prop} {l : List α}
    (h : ∀ a ∈ l, ∃ b, f a = some b ∧ r a b) : ∃ l', l.mapM f = some l' ∧ Forall₂ r l l' := by
  induction l with
  | nil => exact ⟨[], rfl, .nil⟩
  | cons a l ih =>
    rcases h a mem_cons_self with ⟨b, hb, hr⟩
    rcases ih fun a' ha' => h a' (mem_cons_of_mem _ ha') with ⟨l', hl', hrs⟩
    refine ⟨b :: l', ?_, .cons hr hrs⟩
    rw [mapM_cons, hb, hl']
    rfl

theorem removeFromNode_spec (hok : n.isBuffer = false → n.Ok ∧ ∀ t ∈ n.outputs, t.axis ⊆ n.sched) :
    ∃ n', removeFromNode removed n = some n' ∧ NodeRemoved removed n n' := by
  rw [removeFromNode]
  cases hbuffer : n.isBuffer with
  | true =>
    have hnil : n.dropped removed = [] := by
      rw [Node.dropped, hbuffer]
      rfl
    refine ⟨n, rfl, rfl, ?_, ?_, ?_⟩
    · rw [hnil]
      exact (filter_eq_self.mpr fun _ _ => rfl).symm
    · intro hfalse
      rw [hbuffer] at hfalse
      cases hfalse
    · rw [hnil]
      refine forall₂_same.mpr fun t _ => ⟨id, ?_, ?_⟩
      · exact (filter_eq_self.mpr fun _ _ => rfl).symm
      · exact (filter_eq_self.mpr fun _ _ => rfl).symm
  | false =>
    rcases hok hbuffer with ⟨hnode, hscheduled⟩
    have hvalid : validAxisIds removed n.sched = n.sched.filter (!(n.dropped removed).contains ·) :=
      validAxisIds_eq hbuffer hnode.sched_nodup
    have houtputs : ∀ t ∈ n.outputs, ∃ t', keepAxes (validAxisIds removed n.sched) t = some t' ∧
        TensorRemoved (n.dropped removed) t t' := by
      intro t ht
      refine keepAxes_spec (hnode.valid t ht) fun a ha => ?_
      have hmem := hscheduled t ht ha
      rw [hvalid, Bool.eq_iff_iff, contains_iff_mem, mem_filter]
      exact and_iff_right hmem
    rcases forall₂_of_mapM houtputs with ⟨outputs, hrun, hall⟩
    refine ⟨{ n with sched := validAxisIds removed n.sched, outputs := outputs }, ?_, rfl, hvalid, ?_,
      hall⟩
    · rw [if_neg Bool.false_ne_true]
      dsimp only
      rw [hrun, hbuffer]
    · exact fun _ => validAxisIds_length removed n.sched

/-- A position that is dropped has stride zero in every output. -/
theorem hasNonZeroStride_false {keepFirstAxis : Bool} {outputs : List (Tensor ε)}
    (h : hasNonZeroStride E keepFirstAxis a outputs = some false) :
    ∀ t ∈ outputs, ∃ stride, t.strides[t.axis.idxOf a]? = some stride ∧
      E.staticCheckEq stride E.kSymbolZero = true := by
  induction outputs with
  | nil => exact fun t ht => (not_mem_nil ht).elim
  | cons t outputs ih =>
    rw [hasNonZeroStride] at h
    split at h
    · split at h
      · cases h
      · next stride hstride =>
        split at h
        · cases h
        · next hzero =>
          rw [Bool.or_eq_true, not_or, Bool.not_eq_true', Bool.not_eq_false] at hzero
          intro t' ht'
          rcases mem_cons.mp ht' with rfl | ht'
          · exact ⟨stride, hstride, hzero.1⟩
          · exact ih h t' ht'
    · cases h

/-- The dimension of an axis, in a tensor that names it once. -/
theorem stride_of_mem (hnodup : t.axis.Nodup) {d : Dim ε} (hd : d ∈ t.dims)
    {stride : ε} (hstride : t.strides[t.axis.idxOf d.axis]? = some stride) : d.stride = stride := by
  rcases mem_iff_getElem?.mp hd with ⟨i, hi⟩
  rcases dims_get hi with ⟨haxis, _, hget⟩
  rcases List.getElem?_eq_some_iff.mp haxis with ⟨hlt, hai⟩
  rw [← hai, hnodup.idxOf_getElem, hget] at hstride
  exact Option.some.inj hstride

/-- No output moves along the positions, which are not all. -/
structure ZeroPositions (E : Symbols ε σ) (g : Graph ε) (removed : List ℕ) : Prop where
  zero : ∀ i ∈ removed, ∀ n ∈ g.computeNodes, ∀ t ∈ n.outputs, ∀ d ∈ t.dims,
    n.sched[i]? = some d.axis → ∀ v, E.eval d.stride v = 0
  some_left : ∀ n ∈ g.computeNodes,
    0 < ((range n.sched.length).filter (!removed.contains ·)).length

theorem ZeroPositions.nil (h : g.WellFormed) : ZeroPositions E g [] where
  zero := fun i hi => (not_mem_nil hi).elim
  some_left := by
    intro n hn
    rcases h.length with ⟨k, hk, hlen⟩
    have hall : (range n.sched.length).filter (!([] : List ℕ).contains ·) =
        range n.sched.length := filter_eq_self.mpr fun _ _ => rfl
    rw [hall, length_range, hlen n hn]
    exact hk

theorem identify_zeroPositions (h : g.WellFormed) :
    ZeroPositions E g (identifyZeroStrideAxisIndices E g) := by
  unfold identifyZeroStrideAxisIndices
  dsimp only
  split
  · exact .nil h
  · next hnone =>
    split
    · exact .nil h
    · next hne =>
      rcases h.length with ⟨k, hk, hlen⟩
      constructor
      · intro i hi n hn t ht d hd hsched v
        have hmoves := all_eq_true.mp (mem_filter.mp hi).2 n hn
        rw [bne_iff_ne] at hmoves
        -- no check has failed in this node
        have hchecked : none ∉ nodeMoves E (hasComputeType g .reduce) n := by
          intro hmem
          apply hnone
          rw [any_eq_true]
          exact ⟨n, hn, contains_iff_mem.mpr hmem⟩
        rw [nodeMoves] at hmoves hchecked
        rw [getElem?_map, hsched] at hmoves
        have hat := mem_map_of_mem
          (f := fun axisId => hasNonZeroStride E (n.keepFirstAxis || hasComputeType g .reduce) axisId
            n.outputs) (mem_of_getElem? hsched)
        have hfalse : hasNonZeroStride E (n.keepFirstAxis || hasComputeType g .reduce) d.axis n.outputs =
            some false := by
          cases hcase : hasNonZeroStride E (n.keepFirstAxis || hasComputeType g .reduce) d.axis
              n.outputs with
          | none => exact absurd (hcase ▸ hat) hchecked
          | some b =>
            cases b with
            | false => rfl
            | true =>
              rw [Option.map_some, hcase] at hmoves
              exact absurd rfl hmoves
        rcases hasNonZeroStride_false hfalse t ht with ⟨stride, hstride, hzero⟩
        have hnode := h.ok n hn
        rw [stride_of_mem (hnode.axis_nodup t ht) hd hstride, ← E.eval_zero v]
        exact (E.staticCheckEq_iff _ _).mp hzero v
      · intro n hn
        -- the first compute node gives the number of positions
        have hsize : (g.computeNodes.find? (!·.sched.isEmpty)).elim 0 (·.sched.length) = k := by
          cases hfind : g.computeNodes.find? (!·.sched.isEmpty) with
          | none =>
            have hempty := find?_eq_none.mp hfind n hn
            rw [Bool.not_eq_true, Bool.not_eq_false', List.isEmpty_iff] at hempty
            have hzero := hlen n hn
            rw [hempty] at hzero
            exact hzero
          | some first => exact hlen first (mem_of_find?_eq_some hfind)
        rw [hsize] at hne ⊢
        rw [hlen n hn]
        have hsplit := length_eq_length_filter_add (l := range k)
          (fun i => g.computeNodes.all fun n =>
            (nodeMoves E (hasComputeType g .reduce) n)[i]? != some (some true))
        rw [length_range] at hsplit
        have hsame : ((range k).filter fun i => !((range k).filter fun i =>
            g.computeNodes.all fun n =>
              (nodeMoves E (hasComputeType g .reduce) n)[i]? != some (some true)).contains i) =
            (range k).filter fun i => !(g.computeNodes.all fun n =>
              (nodeMoves E (hasComputeType g .reduce) n)[i]? != some (some true)) := by
          apply filter_congr
          intro i hi
          rw [Bool.eq_iff_iff, not_contains_iff, mem_filter, Bool.not_eq_true', not_and,
            Bool.not_eq_true]
          exact ⟨fun himp => himp hi, fun hf _ => hf⟩
        rw [hsame]
        omega

theorem removeAll_spec (h : g.WellFormed) : ∃ (removed : List ℕ) (g₁ : Graph ε),
    removeAllZeroStrideLoopAxis E g = some g₁ ∧ ZeroPositions E g removed ∧ g₁.axes = g.axes ∧
      Forall₂ (NodeRemoved removed) g.nodes g₁.nodes := by
  have hnodes : ∀ removed : List ℕ, ∀ n ∈ g.nodes,
      ∃ n', removeFromNode removed n = some n' ∧ NodeRemoved removed n n' := by
    intro removed n hn
    refine removeFromNode_spec fun hbuffer => ?_
    have hmem := mem_computeNodes.mpr ⟨hn, hbuffer⟩
    exact ⟨h.ok n hmem, h.scheduled n hmem⟩
  -- nothing is removed
  have hnothing : Forall₂ (NodeRemoved []) g.nodes g.nodes := by
    refine forall₂_same.mpr fun n hn => ?_
    have hnil : n.dropped [] = [] := by
      rw [Node.dropped]
      split <;> rfl
    refine ⟨rfl, ?_, ?_, ?_⟩
    · rw [hnil]
      exact (filter_eq_self.mpr fun _ _ => rfl).symm
    · intro _
      have hall : (range n.sched.length).filter (!([] : List ℕ).contains ·) =
          range n.sched.length := filter_eq_self.mpr fun _ _ => rfl
      rw [hall, length_range]
    · rw [hnil]
      refine forall₂_same.mpr fun t _ => ⟨id, ?_, ?_⟩
      · exact (filter_eq_self.mpr fun _ _ => rfl).symm
      · exact (filter_eq_self.mpr fun _ _ => rfl).symm
  rw [removeAllZeroStrideLoopAxis]
  split
  · exact ⟨[], g, rfl, .nil h, rfl, hnothing⟩
  · dsimp only
    split
    · exact ⟨[], g, rfl, .nil h, rfl, hnothing⟩
    · rcases forall₂_of_mapM (hnodes (identifyZeroStrideAxisIndices E g)) with ⟨nodes, hrun, hall⟩
      refine ⟨_, { g with nodes := nodes }, ?_, identify_zeroPositions h, rfl, hall⟩
      rw [hrun]

/-! ## The new numbers -/

/-- The new number of an id. -/
def number (prevIds : PrevIds) (a : AxisId) : AxisId := prevIds.idxOf a

def Tensor.rename (f : AxisId → AxisId) (t : Tensor ε) : Tensor ε := { t with axis := t.axis.map f }

def Node.rename (f : AxisId → AxisId) (n : Node ε) : Node ε :=
  { n with sched := n.sched.map f, outputs := n.outputs.map (Tensor.rename f) }

variable {prevIds last : PrevIds}

theorem number_eq_of_extends (h : prevIds <+: last) (ha : a ∈ prevIds) : number last a = number prevIds a := by
  rcases h with ⟨rest, rfl⟩
  rw [number, number, idxOf_append_of_mem ha]

/-- The ids that have numbers after a part of the graph with ids `l`. -/
structure Numbered (prevIds last : PrevIds) (l : List AxisId) : Prop where
  prefix_last : prevIds <+: last
  mem : ∀ a ∈ l, a ∈ last
  of_mem : ∀ a ∈ last, a ∈ prevIds ∨ a ∈ l

theorem Numbered.append {mid : PrevIds} {l l' : List AxisId} (h : Numbered prevIds mid l)
    (h' : Numbered mid last l') : Numbered prevIds last (l ++ l') where
  prefix_last := h.prefix_last.trans h'.prefix_last
  mem := by
    intro a ha
    rcases mem_append.mp ha with ha | ha
    · exact h'.prefix_last.subset (h.mem a ha)
    · exact h'.mem a ha
  of_mem := by
    intro a ha
    rcases h'.of_mem a ha with ha | ha
    · rcases h.of_mem a ha with ha | ha
      · exact .inl ha
      · exact .inr (mem_append_left _ ha)
    · exact .inr (mem_append_right _ ha)

theorem numbered_single (prevIds : PrevIds) (a : AxisId) :
    Numbered prevIds (if prevIds.contains a then prevIds else prevIds ++ [a]) [a] := by
  split
  · next hmem =>
    refine ⟨prefix_refl _, fun b hb => ?_, fun b hb => .inl hb⟩
    rw [mem_singleton.mp hb]
    exact contains_iff_mem.mp hmem
  · exact ⟨prefix_append .., fun b hb => mem_append_right _ hb,
      fun b hb => mem_append.mp hb⟩

theorem renumberAxes_spec (prevIds : PrevIds) (l : List AxisId) :
    Numbered prevIds (renumberAxes prevIds l).1 l ∧
      ∀ last, (renumberAxes prevIds l).1 <+: last → (renumberAxes prevIds l).2 = l.map (number last) := by
  induction l generalizing prevIds with
  | nil => exact ⟨⟨prefix_refl _, fun a ha => (not_mem_nil ha).elim, fun a ha => .inl ha⟩, fun _ _ => rfl⟩
  | cons a l ih =>
    rcases ih (if prevIds.contains a then prevIds else prevIds ++ [a]) with ⟨hnum, hids⟩
    have hone := numbered_single prevIds a
    refine ⟨hone.append hnum, fun last hlast => ?_⟩
    rw [renumberAxes]
    dsimp only
    rw [hids last hlast, map_cons]
    congr 1
    exact (number_eq_of_extends (hnum.prefix_last.trans hlast) (hone.mem a mem_cons_self)).symm

theorem renumberTensors_spec (prevIds : PrevIds) (outputs : List (Tensor ε)) :
    Numbered prevIds (renumberTensors prevIds outputs).1 (outputs.flatMap Tensor.axis) ∧
      ∀ last, (renumberTensors prevIds outputs).1 <+: last →
        (renumberTensors prevIds outputs).2 = outputs.map (Tensor.rename (number last)) := by
  induction outputs generalizing prevIds with
  | nil => exact ⟨⟨prefix_refl _, fun a ha => (not_mem_nil ha).elim, fun a ha => .inl ha⟩, fun _ _ => rfl⟩
  | cons t outputs ih =>
    rcases renumberAxes_spec prevIds t.axis with ⟨hnum, hids⟩
    rcases ih (renumberAxes prevIds t.axis).1 with ⟨hnums, houtputs⟩
    refine ⟨hnum.append hnums, fun last hlast => ?_⟩
    rw [renumberTensors]
    dsimp only
    rw [houtputs last hlast, hids last (hnums.prefix_last.trans hlast), map_cons]
    rfl

theorem renumberNodes_spec (prevIds : PrevIds) (nodes : List (Node ε)) :
    Numbered prevIds (renumberNodes prevIds nodes).1 (nodes.flatMap Node.ids) ∧
      ∀ last, (renumberNodes prevIds nodes).1 <+: last →
        (renumberNodes prevIds nodes).2 = nodes.map (Node.rename (number last)) := by
  induction nodes generalizing prevIds with
  | nil => exact ⟨⟨prefix_refl _, fun a ha => (not_mem_nil ha).elim, fun a ha => .inl ha⟩, fun _ _ => rfl⟩
  | cons n nodes ih =>
    rcases renumberAxes_spec prevIds n.sched with ⟨hnum, hids⟩
    rcases renumberTensors_spec (renumberAxes prevIds n.sched).1 n.outputs with ⟨hnums, houtputs⟩
    rcases ih (renumberTensors (renumberAxes prevIds n.sched).1 n.outputs).1 with ⟨hrest, hnodes⟩
    refine ⟨(hnum.append hnums).append hrest, fun last hlast => ?_⟩
    rw [renumberNodes]
    dsimp only
    rw [hnodes last hlast, houtputs last (hrest.prefix_last.trans hlast),
      hids last (hnums.prefix_last.trans (hrest.prefix_last.trans hlast)), map_cons]
    rfl

/-- A renaming does not touch the loops. -/
theorem loops_rename (f : AxisId → AxisId) (t : Tensor ε) (v : σ) :
    loops E v (t.rename f).dims = loops E v t.dims := by
  have hdims : (t.rename f).dims = t.dims.map fun d => { d with axis := f d.axis } := by
    rw [Tensor.dims, Tensor.dims, Tensor.rename, map_map, zip_map_left, map_map]
    rfl
  rw [hdims, loops, map_map]
  rfl

/-- The axes get their new numbers where all ids denote axes. -/
theorem removeUnusedAxes_spec (hids : ∀ n ∈ g.nodes, ∀ a ∈ n.ids, 0 ≤ a ∧ a < g.axes.length) :
    ∃ (last : PrevIds) (axes : List (Axis ε)),
      removeUnusedAxes g = some ⟨g.nodes.map (Node.rename (number last)), axes⟩ ∧
      (∀ n ∈ g.nodes, ∀ a ∈ n.ids, a ∈ last) ∧ axes.length = last.length ∧
      ∀ a ∈ last, ∀ v, sizeAt E axes v (number last a) = sizeAt E g.axes v a := by
  rcases renumberNodes_spec [] g.nodes with ⟨hnum, hnodes⟩
  have hsrc : ∀ a ∈ (renumberNodes [] g.nodes).1, ∃ axis, srcAxis g.axes a = some axis ∧
      ∀ v, E.eval axis.size v = sizeAt E g.axes v a := by
    intro a ha
    rcases (hnum.of_mem a ha).resolve_left not_mem_nil |> mem_flatMap.mp with ⟨n, hn, ha⟩
    have hrange := hids n hn a ha
    have hget := getElem?_eq_getElem ((Int.toNat_lt hrange.1).mpr hrange.2)
    refine ⟨{ g.axes.get ⟨a.toNat, (Int.toNat_lt hrange.1).mpr hrange.2⟩ with fromIds := [] }, ?_, fun v => ?_⟩
    · rw [srcAxis, if_pos hrange.1, hget]
      rfl
    · rw [sizeAt, hget]
      rfl
  rcases forall₂_of_mapM hsrc with ⟨axes, hrun, hall⟩
  rcases forall₂_iff_get.mp hall with ⟨hlen, hget⟩
  refine ⟨(renumberNodes [] g.nodes).1, axes, ?_, ?_, hlen.symm, ?_⟩
  · rw [removeUnusedAxes]
    dsimp only
    rw [hnodes _ (prefix_refl _), hrun]
  · intro n hn a ha
    exact hnum.mem a (mem_flatMap.mpr ⟨n, hn, ha⟩)
  · intro a ha v
    have hlt := idxOf_lt_length_iff.mpr ha
    have hsize := hget _ hlt (hlen ▸ hlt) v
    rw [get_eq_getElem, get_eq_getElem, getElem_idxOf] at hsize
    rw [← hsize, sizeAt, number, Int.toNat_natCast, getElem?_eq_getElem (hlen ▸ hlt)]
    rfl

end Proofs

end GraphAutofusion.Autofuse.LoopAxes
