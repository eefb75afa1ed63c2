import GraphAutofusion.Lib.LoopNest
import Mathlib.Data.Finset.Card
import Mathlib.Data.List.Chain
import Mathlib.Data.List.Zip

/-!
# Autofuse.VectorAxis — merging the vectorized axes of a vector function

All tensors of a subgraph are iterated over one list of vectorized axes. Axes along which no tensor
moves are dropped, unless there are no others. Then neighbours that lie without a gap in every tensor
are replaced by one axis of the implementation graph, the same one in all subgraphs.

The symbolic engine is a parameter: expressions have values, and its static comparison is equality
of the values.
-/

namespace GraphAutofusion.Autofuse.VectorAxis

open Lib List

abbrev AxisId := ℤ

/-- The symbolic engine. `ε` stands for expressions and `σ` for the values of the symbols. -/
structure SymbolicUtils (ε σ : Type) where
  eval : ε → σ → ℤ
  kSymbolZero : ε
  mul : ε → ε → ε
  staticCheckEq : ε → ε → Bool
  eval_zero : ∀ v, eval kSymbolZero v = 0
  eval_mul : ∀ a b v, eval (mul a b) v = eval a v * eval b v
  staticCheckEq_iff : ∀ a b, staticCheckEq a b = true ↔ ∀ v, eval a v = eval b v

/-- An output tensor: its axes with their repeats, and its vectorized axes with their strides. -/
structure Tensor (ε : Type) where
  axis : List (AxisId × ε)
  vectorized : List (AxisId × ε)
deriving DecidableEq, Repr

structure VfNode (ε : Type) where
  isBuffer : Bool := false
  outputs : List (Tensor ε)
deriving DecidableEq, Repr

abbrev VfGraph (ε : Type) := List (VfNode ε)

/-- An axis of the implementation graph, with the axes it was made of. -/
structure Axis where
  fromIds : List AxisId := []
deriving DecidableEq, Repr

/-- The axes of the implementation graph, and `from_id_to_merged_axis_`. -/
structure Partitioner where
  axes : List Axis
  fromIdToMergedAxis : List (List AxisId × AxisId) := []
deriving DecidableEq, Repr

variable {ε σ : Type} (E : SymbolicUtils ε σ)

/-- A change of the outputs of the nodes that are not buffers. -/
def VfNode.mapOutputs (f : Tensor ε → Tensor ε) (n : VfNode ε) : VfNode ε :=
  if n.isBuffer then n else { n with outputs := n.outputs.map f }

/-- Whether all outputs of the nodes that are not buffers pass a test. -/
def allOutputs (g : VfGraph ε) (test : Tensor ε → Bool) : Bool :=
  g.all fun n => n.isBuffer || n.outputs.all test

/-! ## RemoveAllZeroStrideVectorizedAxis -/

def hasZeroStride (t : Tensor ε) (axisIndex : ℕ) : Bool :=
  (t.vectorized[axisIndex]?).elim false fun p => E.staticCheckEq p.2 E.kSymbolZero

/-- The number of axes is read off the first node that is not a buffer. -/
def identifyZeroStrideVectorAxisIndices (g : VfGraph ε) : Option (List ℕ) :=
  match g.find? (!·.isBuffer) with
  | none => some []
  | some n =>
    match n.outputs with
    | [] => none
    | t :: _ =>
      let indices := (range t.vectorized.length).filter fun i =>
        allOutputs g (hasZeroStride E · i)
      -- when the strides are all zero, nothing has to be removed
      some (if indices.length = t.vectorized.length then [] else indices)

def removeAxes (indices : List ℕ) (t : Tensor ε) : Tensor ε :=
  { t with vectorized := (t.vectorized.zipIdx.filter fun p => p.2 ∉ indices).map (·.1) }

def removeAllZeroStrideVectorizedAxis (g : VfGraph ε) : Option (VfGraph ε) :=
  match identifyZeroStrideVectorAxisIndices E g with
  | none => none
  | some indices => some (if indices.isEmpty then g else g.map (·.mapOutputs (removeAxes indices)))

/-! ## MergeContinuousVectorAxis -/

/-- One step along the first axis is a whole round of the second. -/
def continuousIn (preId postId : AxisId) (t : Tensor ε) : Bool :=
  match t.vectorized.lookup preId, t.vectorized.lookup postId, t.axis.lookup postId with
  | some preStride, some postStride, some postRepeat =>
    E.staticCheckEq preStride (E.mul postStride postRepeat)
  | _, _, _ => false

def isVectorizedAxisContinuous (g : VfGraph ε) (preId postId : AxisId) : Bool :=
  allOutputs g (continuousIn E preId postId)

/-- The loop that goes backwards and erases the pairs with a gap. -/
def eraseDiscontinuous (g : VfGraph ε) (potentialAxisIds : List (AxisId × AxisId)) :
    List (AxisId × AxisId) :=
  potentialAxisIds.foldr
    (fun p kept => if isVectorizedAxisContinuous E g p.1 p.2 then p :: kept else kept) []

/-- The loop of `MergeContinuousPairs`, with the current chain. -/
def chainPairs (currentChain : List AxisId) : List (AxisId × AxisId) → List (List AxisId)
  | [] => [currentChain]
  | curPair :: pairs =>
    if currentChain.getLast? = some curPair.1 then chainPairs (currentChain ++ [curPair.2]) pairs
    else currentChain :: chainPairs [curPair.1, curPair.2] pairs

def mergeContinuousPairs : List (AxisId × AxisId) → List (List AxisId)
  | [] => []
  | p :: pairs => chainPairs [p.1, p.2] pairs

structure ViewState (ε : Type) where
  view : List (AxisId × ε) := []
  mergeAxisSet : Finset AxisId := ∅

/-- One iteration of `MergeView`. -/
def mergeViewStep (mergedAxisId : AxisId) (originalSet : Finset AxisId) (s : ViewState ε)
    (p : AxisId × ε) : ViewState ε :=
  if p.1 ∈ originalSet then
    let mergeAxisSet := insert p.1 s.mergeAxisSet
    if mergeAxisSet.card = originalSet.card then ⟨s.view ++ [(mergedAxisId, p.2)], mergeAxisSet⟩
    else ⟨s.view, mergeAxisSet⟩
  else { s with view := s.view ++ [p] }

/-- A view that holds only some of the axes becomes empty. -/
def mergeView (srcView : List (AxisId × ε)) (mergedAxisId : AxisId) (original : List AxisId) :
    List (AxisId × ε) :=
  let s := srcView.foldl (mergeViewStep mergedAxisId original.toFinset) {}
  if s.mergeAxisSet.card = original.toFinset.card ∨ s.mergeAxisSet = ∅ then s.view else []

def mergeTensor (mergedAxisId : AxisId) (fromIds : List AxisId) (t : Tensor ε) : Tensor ε :=
  { t with vectorized := mergeView t.vectorized mergedAxisId fromIds }

def applyMerge (mergedAxisId : AxisId) (fromIds : List AxisId) (n : VfNode ε) : VfNode ε :=
  n.mapOutputs (mergeTensor mergedAxisId fromIds)

/-- `AscGraph::MergeAxis`: the new axis goes to the end of the list. -/
def Partitioner.mergeAxis (st : Partitioner) (axisIds : List AxisId) : Option (AxisId × Partitioner) :=
  if axisIds.all fun id => 0 ≤ id && id.toNat < st.axes.length then
    some (st.axes.length, { st with axes := st.axes ++ [⟨axisIds⟩] })
  else none

/-- The merged axis of a group, which is created when no subgraph has asked for it before. -/
def Partitioner.nodeMergeAxis (st : Partitioner) (fromIds : List AxisId) :
    Option (AxisId × Partitioner) :=
  match st.fromIdToMergedAxis.lookup fromIds with
  | some mergedAxis => some (mergedAxis, st)
  | none =>
    match st.mergeAxis fromIds with
    | none => none
    | some (mergedAxis, st) =>
      some (mergedAxis,
        { st with fromIdToMergedAxis := (fromIds, mergedAxis) :: st.fromIdToMergedAxis })

def mergeGroups (st : Partitioner) (g : VfGraph ε) :
    List (List AxisId) → Option (Partitioner × VfGraph ε)
  | [] => some (st, g)
  | fromIds :: mergedAxisIds =>
    match st.nodeMergeAxis fromIds with
    | none => none
    | some (mergedAxis, st) => mergeGroups st (g.map (applyMerge mergedAxis fromIds)) mergedAxisIds

def mergeContinuousVectorAxis (st : Partitioner) (g : VfGraph ε) : Option (Partitioner × VfGraph ε) :=
  match g.find? (!·.isBuffer) with
  | none => some (st, g)
  | some n =>
    match n.outputs with
    | [] => none
    | t :: _ =>
      let axisIds := t.vectorized.map (·.1)
      if axisIds.length ≤ 1 then some (st, g)
      else mergeGroups st g
        (mergeContinuousPairs (eraseDiscontinuous E g (axisIds.zip axisIds.tail)))

/-- The first two steps of `ModifySubgraphAttrs`. -/
def mergeSubgraphAxes (st : Partitioner) (g : VfGraph ε) : Option (Partitioner × VfGraph ε) :=
  match removeAllZeroStrideVectorizedAxis E g with
  | none => none
  | some g => mergeContinuousVectorAxis E st g

/-- The subgraphs of `BuildSubgraphs`, one after the other. -/
def mergeSubgraphsAxes (st : Partitioner) : List (VfGraph ε) → Option (Partitioner × List (VfGraph ε))
  | [] => some (st, [])
  | g :: graphs =>
    match mergeSubgraphAxes E st g with
    | none => none
    | some (st, g) =>
      match mergeSubgraphsAxes st graphs with
      | none => none
      | some (st, graphs) => some (st, g :: graphs)

/-! ## The addresses of a tensor -/

/-- The output of a node that is not a buffer. -/
def Output (g : VfGraph ε) (t : Tensor ε) : Prop := ∃ n ∈ g, n.isBuffer = false ∧ t ∈ n.outputs

def SharesAxes (g : VfGraph ε) (ids : List AxisId) : Prop :=
  ∀ t, Output g t → t.vectorized.map (·.1) = ids

/-- A subgraph of an implementation graph with `n` axes. -/
structure WellFormed (n : ℕ) (g : VfGraph ε) : Prop where
  outputs : ∀ node ∈ g, node.isBuffer = false → node.outputs ≠ []
  shares : ∃ ids, SharesAxes g ids ∧ ids.Nodup ∧ ∀ a ∈ ids, 0 ≤ a ∧ a < n

def loops (size : AxisId → ℕ) (v : σ) (l : List (AxisId × ε)) : List Loop :=
  l.map fun p => ⟨size p.1, E.eval p.2 v⟩

/-- The sizes are the repeats of the tensor, but for axes it does not move along. -/
def SizesOf (size : AxisId → ℕ) (v : σ) (t : Tensor ε) : Prop :=
  ∀ p ∈ t.vectorized, ∀ r, t.axis.lookup p.1 = some r → E.eval r v = size p.1 ∨ E.eval p.2 v = 0

/-- The size of an axis once axes were added to the first `n`: the product of the sizes it was
made of. -/
def mergedSize (n : ℕ) (axes : List Axis) (size : AxisId → ℕ) (id : AxisId) : ℕ :=
  if id < n then size id else ((axes[id.toNat]?.elim [] (·.fromIds)).map size).prod

/-- No tensor moves along the axis. -/
def zeroStrideAxis (g : VfGraph ε) (id : AxisId) : Bool :=
  allOutputs g fun t => t.vectorized.all fun p => p.1 ≠ id || E.staticCheckEq p.2 E.kSymbolZero

/-- No tensor moves at all. -/
def allZeroStrides (g : VfGraph ε) : Bool :=
  allOutputs g fun t => t.vectorized.all fun p => E.staticCheckEq p.2 E.kSymbolZero

/-- The axes along which some tensor moves, or all of them. -/
def keptAxis (g : VfGraph ε) (id : AxisId) : Bool := !zeroStrideAxis E g id || allZeroStrides E g

/-- Every tensor visits the offsets that it visited over the axes to keep, and all tensors are
iterated over the same axes. -/
def KeepsAddresses (n : ℕ) (axes : List Axis) (keeps : AxisId → Bool) (g g' : VfGraph ε) : Prop :=
  ∃ (f : Tensor ε → Tensor ε) (ids : List AxisId), g' = g.map (·.mapOutputs f) ∧
    ∀ t, Output g t → (f t).axis = t.axis ∧ (f t).vectorized.map (·.1) = ids ∧
      ∀ (size : AxisId → ℕ) (v : σ), SizesOf E size v t →
        offsets (loops E (mergedSize n axes size) v (f t).vectorized) =
          offsets (loops E size v (t.vectorized.filter (keeps ·.1)))

section Proofs

variable {E} {n : ℕ} {g : VfGraph ε} {t : Tensor ε} {f : Tensor ε → Tensor ε} {st : Partitioner}
  {ids todo c : List AxisId} {a b m : AxisId} {size : AxisId → ℕ} {v : σ}

theorem allOutputs_iff {test : Tensor ε → Bool} :
    allOutputs g test = true ↔ ∀ t, Output g t → test t = true := by
  simp only [allOutputs, Output, all_eq_true, Bool.or_eq_true]
  constructor
  · intro h t ht
    rcases ht with ⟨n, hn, hbuffer, hmem⟩
    exact (h n hn).resolve_left (by simp [hbuffer]) t hmem
  · intro h n hn
    cases hbuffer : n.isBuffer with
    | true => exact .inl rfl
    | false => exact .inr fun t ht => h t ⟨n, hn, hbuffer, ht⟩

theorem mapOutputs_isBuffer (f : Tensor ε → Tensor ε) (n : VfNode ε) :
    (n.mapOutputs f).isBuffer = n.isBuffer := by
  unfold VfNode.mapOutputs
  split <;> rfl

theorem mapOutputs_outputs {n : VfNode ε} (h : n.isBuffer = false) (f : Tensor ε → Tensor ε) :
    (n.mapOutputs f).outputs = n.outputs.map f := by
  simp [VfNode.mapOutputs, h]

theorem mapOutputs_id (g : VfGraph ε) : g.map (·.mapOutputs id) = g := by
  have h : (fun n : VfNode ε => n.mapOutputs id) = id := by
    funext n
    simp [VfNode.mapOutputs]
  rw [h, map_id]

theorem mapOutputs_comp (g : VfGraph ε) (f f' : Tensor ε → Tensor ε) :
    (g.map (·.mapOutputs f)).map (·.mapOutputs f') = g.map (·.mapOutputs (f' ∘ f)) := by
  rw [map_map]
  apply map_congr_left
  intro n _
  show (n.mapOutputs f).mapOutputs f' = _
  cases hbuffer : n.isBuffer <;> simp [VfNode.mapOutputs, hbuffer]

/-- The outputs of a changed graph. -/
theorem output_map {t' : Tensor ε} : Output (g.map (·.mapOutputs f)) t' ↔ ∃ t, Output g t ∧ f t = t' := by
  constructor
  · intro h
    rcases h with ⟨n', hn', hbuffer, ht'⟩
    rcases mem_map.mp hn' with ⟨n, hn, rfl⟩
    rw [mapOutputs_isBuffer] at hbuffer
    rw [mapOutputs_outputs hbuffer] at ht'
    rcases mem_map.mp ht' with ⟨t, ht, rfl⟩
    exact ⟨t, ⟨n, hn, hbuffer, ht⟩, rfl⟩
  · intro h
    rcases h with ⟨t, ⟨n, hn, hbuffer, ht⟩, rfl⟩
    refine ⟨n.mapOutputs f, mem_map_of_mem hn, (mapOutputs_isBuffer f n).trans hbuffer, ?_⟩
    rw [mapOutputs_outputs hbuffer]
    exact mem_map_of_mem ht

/-! ## The groups of axes -/

/-- The groups stand one after the other in the list, each a chain for the relation. -/
inductive Segments (r : AxisId → AxisId → Prop) : List AxisId → List (List AxisId) → Prop
  | nil (ids : List AxisId) : Segments r ids []
  | skip {ids groups} (a : AxisId) : Segments r ids groups → Segments r (a :: ids) groups
  | group {ids groups} (a : AxisId) (c : List AxisId) : (a :: c).IsChain r → Segments r ids groups →
      Segments r (a :: c ++ ids) ((a :: c) :: groups)

/-- The neighbours that have no gap. -/
def pairsOf (E : SymbolicUtils ε σ) (g : VfGraph ε) (ids : List AxisId) : List (AxisId × AxisId) :=
  eraseDiscontinuous E g (ids.zip ids.tail)

/-- The loop that erases pairs is a filter. -/
theorem foldr_eq_filter {r : AxisId → AxisId → Bool} (pairs : List (AxisId × AxisId)) :
    pairs.foldr (fun p kept => if r p.1 p.2 then p :: kept else kept) [] =
      pairs.filter fun p => r p.1 p.2 := by
  induction pairs with
  | nil => rfl
  | cons p pairs ih => rw [foldr_cons, filter_cons, ih]

theorem fst_mem_of_mem_neighbours {p : AxisId × AxisId} (h : p ∈ ids.zip ids.tail) : p.1 ∈ ids :=
  (of_mem_zip h).1

/-- A chain that the following pairs do not continue is done. -/
theorem chainPairs_eq {pairs : List (AxisId × AxisId)}
    (h : ∀ p ∈ pairs, c.getLast? ≠ some p.1) : chainPairs c pairs = c :: mergeContinuousPairs pairs := by
  cases pairs with
  | nil => rfl
  | cons p pairs => rw [chainPairs, if_neg (h p (mem_cons_self ..)), mergeContinuousPairs]

/-- Both loops split the list: the one over chains, which has a chain that ends in front of the list,
and the one that has none. -/
theorem segments_neighbours {r : AxisId → AxisId → Bool} (hnodup : ids.Nodup) :
    Segments (fun a b => r a b = true) ids
      (mergeContinuousPairs ((ids.zip ids.tail).filter fun p => r p.1 p.2)) ∧
    ∀ a ids' c b, ids = a :: ids' → (b :: c).getLast? = some a →
      (b :: c).IsChain (fun a b => r a b = true) →
      Segments (fun a b => r a b = true) (b :: c ++ ids')
        (chainPairs (b :: c) ((ids.zip ids.tail).filter fun p => r p.1 p.2)) := by
  induction ids with
  | nil => exact ⟨.nil _, fun a ids' c b h => by cases h⟩
  | cons a ids ih =>
    rcases ih (nodup_cons.mp hnodup).2 with ⟨hplain, hchain⟩
    cases ids with
    | nil =>
      refine ⟨.skip a (.nil _), fun a' ids' c b h hlast hc => ?_⟩
      cases h
      exact .group b c hc (.nil _)
    | cons x ids =>
      have hcons : ((a :: x :: ids).zip (a :: x :: ids).tail).filter (fun p => r p.1 p.2) =
          if r a x then (a, x) :: ((x :: ids).zip (x :: ids).tail).filter fun p => r p.1 p.2
          else ((x :: ids).zip (x :: ids).tail).filter fun p => r p.1 p.2 := by
        rw [tail_cons, zip_cons_cons, filter_cons]
        rfl
      rw [hcons]
      constructor
      · split
        · next hcont =>
          have h := hchain x ids [x] a rfl rfl (isChain_cons_cons.mpr ⟨hcont, .singleton _⟩)
          exact h
        · exact .skip a hplain
      · intro a' ids' c b h hlast hc
        cases h
        split
        · next hcont =>
          -- the next axis continues the chain
          rw [chainPairs, if_pos hlast, cons_append]
          have hlast' : (b :: (c ++ [x])).getLast? = some x := by
            rw [← cons_append, getLast?_concat]
          have hchain' : (b :: (c ++ [x])).IsChain (fun a b => r a b = true) := by
            rw [← cons_append, isChain_append]
            refine ⟨hc, .singleton _, ?_⟩
            intro y hy z hz
            rw [hlast] at hy
            cases hy
            cases hz
            exact hcont
          simpa using hchain x ids (c ++ [x]) b rfl hlast' hchain'
        · rw [chainPairs_eq]
          · exact .group b c hc hplain
          · intro p hp heq
            rw [hlast] at heq
            cases heq
            exact (nodup_cons.mp hnodup).1 (fst_mem_of_mem_neighbours (mem_filter.mp hp).1)

/-- The groups of the vectorized axes. -/
theorem segments_pairsOf (hnodup : ids.Nodup) :
    Segments (fun a b => isVectorizedAxisContinuous E g a b = true) ids
      (mergeContinuousPairs (pairsOf E g ids)) := by
  rw [pairsOf, eraseDiscontinuous, foldr_eq_filter]
  exact (segments_neighbours hnodup).1

/-! ## Dropping the axes without a stride -/

theorem removeAxes_vectorized {indices : List ℕ} {q : AxisId × ε → Bool}
    (h : ∀ i p, t.vectorized[i]? = some p → (i ∉ indices ↔ q p = true)) :
    (removeAxes indices t).vectorized = t.vectorized.filter q := by
  have hfilter : (t.vectorized.zipIdx.filter fun p => p.2 ∉ indices) =
      t.vectorized.zipIdx.filter (q ∘ Prod.fst) := by
    apply filter_congr
    intro p hp
    rw [Bool.eq_iff_iff, decide_eq_true_iff]
    exact h p.2 p.1 (mem_zipIdx_iff_getElem?.mp hp)
  rw [removeAxes, hfilter, ← filter_map, zipIdx_map_fst]

theorem removeAll_eq {indices : List ℕ} (h : identifyZeroStrideVectorAxisIndices E g = some indices) :
    removeAllZeroStrideVectorizedAxis E g = some (g.map (·.mapOutputs (removeAxes indices))) := by
  rw [removeAllZeroStrideVectorizedAxis, h]
  cases indices with
  | cons _ _ => rfl
  | nil =>
    have hnil : (removeAxes [] : Tensor ε → Tensor ε) = id := by
      funext t
      simp [removeAxes]
    rw [hnil, mapOutputs_id]
    rfl

/-- An index is found when no tensor moves along its axis. -/
theorem hasZeroStride_iff (hshares : SharesAxes g ids) (hnodup : ids.Nodup) {i : ℕ}
    (hi : ids[i]? = some a) :
    (∀ t, Output g t → hasZeroStride E t i = true) ↔ zeroStrideAxis E g a = true := by
  rw [zeroStrideAxis, allOutputs_iff]
  refine forall₂_congr fun t ht => ?_
  have hids := hshares t ht
  rw [← hids, getElem?_map, Option.map_eq_some_iff] at hi
  rcases hi with ⟨p, hp, rfl⟩
  rw [← hids] at hnodup
  simp only [hasZeroStride, hp, Option.elim_some, all_eq_true, Bool.or_eq_true,
    decide_eq_true_eq]
  constructor
  · intro h q hq
    by_cases hqp : q.1 = p.1
    · have heq : q = p := inj_on_of_nodup_map hnodup hq (mem_of_getElem? hp) hqp
      exact .inr (heq ▸ h)
    · exact .inl hqp
  · intro h
    exact (h p (mem_of_getElem? hp)).resolve_left (not_not_intro rfl)

theorem exists_output {node : VfNode ε} {ts : List (Tensor ε)}
    (hfind : g.find? (!·.isBuffer) = some node) (houtputs : node.outputs = t :: ts) : Output g t := by
  refine ⟨node, mem_of_find?_eq_some hfind, ?_, houtputs ▸ mem_cons_self ..⟩
  simpa using find?_some hfind

theorem not_output (hfind : g.find? (!·.isBuffer) = none) : ¬ Output g t := by
  intro h
  rcases h with ⟨node, hnode, hbuffer, _⟩
  have hnot := find?_eq_none.mp hfind node hnode
  simp [hbuffer] at hnot

/-- The first node that is not a buffer has an output. -/
theorem WellFormed.first (h : WellFormed n g) {node : VfNode ε}
    (hfind : g.find? (!·.isBuffer) = some node) : ∃ t ts, node.outputs = t :: ts := by
  have hne := h.outputs node (mem_of_find?_eq_some hfind) (by simpa using find?_some hfind)
  cases houtputs : node.outputs with
  | nil => exact absurd houtputs hne
  | cons t ts => exact ⟨t, ts, rfl⟩

/-- All strides are zero when every index is found. -/
theorem allZeroStrides_iff (hshares : SharesAxes g ids) : allZeroStrides E g = true ↔
    ∀ i ∈ range ids.length, allOutputs g (hasZeroStride E · i) = true := by
  simp only [allZeroStrides, allOutputs_iff, all_eq_true]
  constructor
  · intro h i hi t ht
    rw [mem_range, ← hshares t ht, length_map] at hi
    rw [hasZeroStride, getElem?_eq_getElem hi]
    exact h t ht _ (getElem_mem hi)
  · intro h t ht p hp
    rcases mem_iff_getElem?.mp hp with ⟨i, hi⟩
    have hlt := (List.getElem?_eq_some_iff.mp hi).1
    rw [← length_map (·.1), hshares t ht] at hlt
    have hzero := h i (mem_range.mpr hlt) t ht
    rw [hasZeroStride, hi] at hzero
    exact hzero

/-- The indices that are found are those of the axes to drop. -/
theorem identify_spec (h : WellFormed n g) (hshares : SharesAxes g ids) (hnodup : ids.Nodup) :
    ∃ indices, identifyZeroStrideVectorAxisIndices E g = some indices ∧
      ∀ t, Output g t → ∀ i p, t.vectorized[i]? = some p →
        (i ∉ indices ↔ keptAxis E g p.1 = true) := by
  rw [identifyZeroStrideVectorAxisIndices]
  cases hfind : g.find? (!·.isBuffer) with
  | none => exact ⟨[], rfl, fun t ht => absurd ht (not_output hfind)⟩
  | some node =>
    rcases h.first hfind with ⟨t₀, ts, houtputs⟩
    have hlength : t₀.vectorized.length = ids.length := by
      rw [← hshares t₀ (exists_output hfind houtputs), length_map]
    dsimp only
    rw [houtputs]
    refine ⟨_, rfl, fun t ht i p hp => ?_⟩
    have hi : ids[i]? = some p.1 := by
      rw [← hshares t ht, getElem?_map, hp]
      rfl
    have hlt : i < ids.length := (List.getElem?_eq_some_iff.mp hi).1
    have hall := allZeroStrides_iff (E := E) hshares
    have hzero : allOutputs g (hasZeroStride E · i) = true ↔ zeroStrideAxis E g p.1 = true :=
      allOutputs_iff.trans (hasZeroStride_iff hshares hnodup hi)
    have hlen := length_filter_eq_length_iff (p := fun i => allOutputs g (hasZeroStride E · i))
      (l := range ids.length)
    rw [length_range] at hlen
    rw [hlength, keptAxis, Bool.or_eq_true, Bool.not_eq_true', hall, ← hlen]
    split
    · next heq => simp [heq]
    · next hne =>
      rw [or_iff_left hne, mem_filter, mem_range, hzero]
      simp [hlt]

/-- What the first pass keeps of every tensor. -/
theorem removeAll_spec (h : WellFormed n g) : ∃ f,
    removeAllZeroStrideVectorizedAxis E g = some (g.map (·.mapOutputs f)) ∧
      ∀ t, Output g t → (f t).axis = t.axis ∧
        (f t).vectorized = t.vectorized.filter (keptAxis E g ·.1) := by
  rcases h.shares with ⟨ids, hshares, hnodup, _⟩
  rcases identify_spec (E := E) h hshares hnodup with ⟨indices, hindices, hkept⟩
  exact ⟨removeAxes indices, removeAll_eq hindices,
    fun t ht => ⟨rfl, removeAxes_vectorized (hkept t ht)⟩⟩

/-! ## Merging one group -/

theorem mergeView_outside {original : Finset AxisId} {l : List (AxisId × ε)} {s : ViewState ε}
    (h : ∀ p ∈ l, p.1 ∉ original) : l.foldl (mergeViewStep m original) s =
      { s with view := s.view ++ l } := by
  induction l generalizing s with
  | nil => simp
  | cons p l ih =>
    rw [foldl_cons, mergeViewStep, if_neg (h p (mem_cons_self ..)),
      ih fun q hq => h q (mem_cons_of_mem _ hq)]
    simp

/-- Nothing is written until the last axis of the group. -/
theorem mergeView_inside {original : Finset AxisId} {stride : AxisId → ε} {s : ViewState ε}
    (hmem : ∀ a ∈ c, a ∈ original) (hcard : (s.mergeAxisSet ∪ c.toFinset).card < original.card) :
    (c.map fun a => (a, stride a)).foldl (mergeViewStep m original) s =
      { s with mergeAxisSet := s.mergeAxisSet ∪ c.toFinset } := by
  induction c generalizing s with
  | nil => simp
  | cons a c ih =>
    have hunion : insert a s.mergeAxisSet ∪ c.toFinset = s.mergeAxisSet ∪ (a :: c).toFinset := by
      rw [toFinset_cons, Finset.insert_union, Finset.union_insert]
    have hne : (insert a s.mergeAxisSet).card ≠ original.card := by
      have hsub : insert a s.mergeAxisSet ⊆ insert a s.mergeAxisSet ∪ c.toFinset :=
        Finset.subset_union_left
      have hle := Finset.card_le_card hsub
      rw [hunion] at hle
      omega
    rw [map_cons, foldl_cons, mergeViewStep, if_pos (hmem a (mem_cons_self ..))]
    dsimp only
    rw [if_neg hne, ih (fun b hb => hmem b (mem_cons_of_mem _ hb)) (hunion ▸ hcard)]
    simp only [hunion]

/-- A group of a view becomes one axis with the stride of the last one. -/
theorem mergeView_eq {A B : List (AxisId × ε)} {stride : AxisId → ε}
    (hnodup : (c ++ [a]).Nodup) (hA : ∀ p ∈ A, p.1 ∉ c ++ [a]) (hB : ∀ p ∈ B, p.1 ∉ c ++ [a]) :
    mergeView (A ++ ((c ++ [a]).map fun a => (a, stride a)) ++ B) m (c ++ [a]) =
      A ++ (m, stride a) :: B := by
  have hlast : a ∉ c := by
    intro ha
    exact (nodup_append.mp hnodup).2.2 a ha a (mem_singleton_self a) rfl
  have hinsert : insert a c.toFinset = (c ++ [a]).toFinset := by
    rw [toFinset_append, Finset.union_comm]
    rfl
  have hcard : (∅ ∪ c.toFinset).card < (c ++ [a]).toFinset.card := by
    rw [Finset.empty_union, ← hinsert, Finset.card_insert_of_notMem (by simpa using hlast)]
    exact Nat.lt_succ_self _
  have hfold : (A ++ ((c ++ [a]).map fun a => (a, stride a)) ++ B).foldl
      (mergeViewStep m (c ++ [a]).toFinset) {} =
        (⟨A ++ (m, stride a) :: B, (c ++ [a]).toFinset⟩ : ViewState ε) := by
    rw [foldl_append, foldl_append, map_append, foldl_append,
      mergeView_outside (l := A) fun p hp hmem => hA p hp (mem_toFinset.mp hmem),
      mergeView_inside (c := c) (fun b hb => by simp [hb]) hcard, map_singleton, foldl_cons,
      foldl_nil, mergeViewStep, if_pos (by simp)]
    dsimp only
    rw [Finset.empty_union, if_pos (by rw [hinsert]), hinsert,
      mergeView_outside fun p hp hmem => hB p hp (mem_toFinset.mp hmem)]
    simp
  rw [mergeView, hfold]
  exact if_pos (.inl rfl)

/-- The merged axes are new and are made of the axes they are kept for. -/
structure CacheOk (n : ℕ) (st : Partitioner) : Prop where
  le : n ≤ st.axes.length
  merged : ∀ c m, st.fromIdToMergedAxis.lookup c = some m →
    (n : ℤ) ≤ m ∧ st.axes[m.toNat]? = some ⟨c⟩

theorem nodeMergeAxis_spec (h : CacheOk n st) (hc : ∀ a ∈ c, 0 ≤ a ∧ a < n) :
    ∃ m st', st.nodeMergeAxis c = some (m, st') ∧ CacheOk n st' ∧ st.axes <+: st'.axes ∧
      (n : ℤ) ≤ m ∧ st'.axes[m.toNat]? = some ⟨c⟩ := by
  unfold Partitioner.nodeMergeAxis
  cases hlookup : st.fromIdToMergedAxis.lookup c with
  | some m => exact ⟨m, st, rfl, h, prefix_refl _, h.merged c m hlookup⟩
  | none =>
    have hrange : (c.all fun id => 0 ≤ id && id.toNat < st.axes.length) = true := by
      rw [all_eq_true]
      intro a ha
      have hlt : 0 ≤ a ∧ a.toNat < n := ⟨(hc a ha).1, (Int.toNat_lt (hc a ha).1).mpr (hc a ha).2⟩
      rw [Bool.and_eq_true, decide_eq_true_eq, decide_eq_true_eq]
      exact ⟨hlt.1, lt_of_lt_of_le hlt.2 h.le⟩
    have hnew : (st.axes ++ [⟨c⟩])[((st.axes.length : ℤ)).toNat]? = some ⟨c⟩ := by
      rw [Int.toNat_natCast, getElem?_concat_length]
    rw [Partitioner.mergeAxis, if_pos hrange]
    refine ⟨_, _, rfl, ⟨?_, ?_⟩, prefix_append .., ?_, hnew⟩
    · have hle := h.le
      simp only [length_append, length_singleton]
      omega
    · intro c' m hm
      dsimp only at hm ⊢
      rw [lookup_cons] at hm
      by_cases heq : c' = c
      · subst heq
        rw [beq_self_eq_true] at hm
        cases hm
        exact ⟨Int.ofNat_le.mpr h.le, hnew⟩
      · rw [beq_eq_false_iff_ne.mpr heq] at hm
        have hold := h.merged c' m hm
        have hlt := (List.getElem?_eq_some_iff.mp hold.2).1
        exact ⟨hold.1, by rw [getElem?_append_left hlt, hold.2]⟩
    · exact Int.ofNat_le.mpr h.le

theorem mergedSize_lt {axes : List Axis} (h : a < n) : mergedSize n axes size a = size a := if_pos h

theorem mergedSize_merged {axes : List Axis} (h : (n : ℤ) ≤ m) (hm : axes[m.toNat]? = some ⟨c⟩) :
    mergedSize n axes size m = (c.map size).prod := by
  rw [mergedSize, if_neg (not_lt.mpr h), hm]
  rfl

/-! ## Merging all groups -/

section Groups

variable {r : AxisId → AxisId → Prop} {stride : Tensor ε → AxisId → ε} {groups : List (List AxisId)}

/-- The related axes have no gap in any tensor. -/
def Gapless (E : SymbolicUtils ε σ) (g : VfGraph ε) (stride : Tensor ε → AxisId → ε)
    (r : AxisId → AxisId → Prop) : Prop :=
  ∀ a b, r a b → ∀ t, Output g t → ∃ rep, t.axis.lookup b = some rep ∧
    ∀ v, E.eval (stride t a) v = E.eval (stride t b) v * E.eval rep v

/-- The loops over axes of a tensor before anything is merged. -/
def plainLoops (E : SymbolicUtils ε σ) (stride : AxisId → ε) (size : AxisId → ℕ) (v : σ)
    (ids : List AxisId) : List Loop :=
  ids.map fun a => ⟨size a, E.eval (stride a) v⟩

/-- A chain of axes is a chain of loops. -/
theorem Gapless.covers (h : Gapless E g stride r) (ht : Output g t) (hc : c.IsChain r)
    (hsizes : ∀ a ∈ c, ∀ rep, t.axis.lookup a = some rep →
      E.eval rep v = size a ∨ E.eval (stride t a) v = 0) :
    (plainLoops E (stride t) size v c).IsChain Loop.Covers := by
  rw [plainLoops, isChain_map]
  refine hc.imp_of_mem_imp fun a b _ hb hab => ?_
  rcases h a b hab t ht with ⟨rep, hrep, heval⟩
  show E.eval (stride t a) v = size b * E.eval (stride t b) v
  rcases hsizes b hb rep hrep with hsize | hzero
  · rw [heval, hsize, mul_comm]
  · rw [heval, hzero, zero_mul, mul_zero]

/-- One loop for a group, with the stride of its last axis. -/
theorem merged_plainLoops {stride : AxisId → ε} {c₀ : List AxisId} {z : AxisId}
    (h : a :: c = c₀ ++ [z]) :
    Loop.merged ⟨size a, E.eval (stride a) v⟩ (plainLoops E stride size v c) =
      ⟨((a :: c).map size).prod, E.eval (stride z) v⟩ := by
  have hlast : (c.getLast?.getD a) = z := by
    have hz := congrArg getLast? h
    rw [getLast?_cons, getLast?_concat] at hz
    exact Option.some.inj hz
  rw [Loop.merged, plainLoops, getLast?_map, map_map, map_cons, prod_cons, ← hlast]
  congr 1
  cases c.getLast? <;> rfl

/-- What merging the groups of `todo` makes of the tensors, behind the axes `A` that are done. -/
theorem mergeGroups_spec (hgap : Gapless E g stride r) (hseg : Segments r todo groups)
    (hnodup : todo.Nodup) (hrange : ∀ a ∈ todo, 0 ≤ a ∧ a < n) (hst : CacheOk n st)
    {A : Tensor ε → List (AxisId × ε)} (hA : ∀ t, Output g t → ∀ p ∈ A t, p.1 ∉ todo)
    (hf : ∀ t, Output g t → (f t).axis = t.axis ∧
      (f t).vectorized = A t ++ todo.map fun a => (a, stride t a)) :
    ∃ (st' : Partitioner) (f' : Tensor ε → Tensor ε) (B : Tensor ε → List (AxisId × ε))
        (ids' : List AxisId),
      mergeGroups st (g.map (·.mapOutputs f)) groups = some (st', g.map (·.mapOutputs f')) ∧
      CacheOk n st' ∧ st.axes <+: st'.axes ∧ ∀ t, Output g t → (f' t).axis = t.axis ∧
        (f' t).vectorized = A t ++ B t ∧ (B t).map Prod.fst = ids' ∧
        ∀ axes (size : AxisId → ℕ) v, st'.axes <+: axes →
          (∀ a ∈ todo, ∀ rep, t.axis.lookup a = some rep →
            E.eval rep v = size a ∨ E.eval (stride t a) v = 0) →
          offsets (loops E (mergedSize n axes size) v (B t)) =
            offsets (plainLoops E (stride t) size v todo) := by
  induction hseg generalizing st f A with
  | nil ids =>
    refine ⟨st, f, fun t => ids.map fun a => (a, stride t a), ids, rfl, hst, prefix_refl _, ?_⟩
    intro t ht
    refine ⟨(hf t ht).1, (hf t ht).2, ?_, ?_⟩
    · rw [map_map]
      exact map_id _
    · intro axes size v _ _
      rw [loops, plainLoops, map_map]
      congr 1
      apply map_congr_left
      intro a ha
      show (⟨mergedSize n axes size a, _⟩ : Loop) = _
      rw [mergedSize_lt (hrange a ha).2]
  | @skip ids groups a hseg ih =>
    rcases nodup_cons.mp hnodup with ⟨hnot, hnodup⟩
    have hA' : ∀ t, Output g t → ∀ p ∈ A t ++ [(a, stride t a)], p.1 ∉ ids := by
      intro t ht p hp
      rcases mem_append.mp hp with hp | hp
      · exact fun hmem => hA t ht p hp (mem_cons_of_mem _ hmem)
      · rw [mem_singleton.mp hp]
        exact hnot
    have hf' : ∀ t, Output g t → (f t).axis = t.axis ∧ (f t).vectorized =
        (A t ++ [(a, stride t a)]) ++ ids.map fun a => (a, stride t a) := by
      intro t ht
      rw [append_assoc]
      exact hf t ht
    rcases ih hnodup (fun b hb => hrange b (mem_cons_of_mem _ hb)) hst hA' hf' with
      ⟨st', f', B, ids', hrun, hst', hpre, hkeep⟩
    refine ⟨st', f', fun t => (a, stride t a) :: B t, a :: ids', hrun, hst', hpre, ?_⟩
    intro t ht
    rcases hkeep t ht with ⟨haxis, hvec, hids, hoff⟩
    refine ⟨haxis, ?_, ?_, ?_⟩
    · rw [hvec, append_assoc, singleton_append]
    · rw [map_cons, hids]
    · intro axes size v haxes hsizes
      have h := hoff axes size v haxes fun b hb => hsizes b (mem_cons_of_mem _ hb)
      have hcons := offsets_append_congr [⟨size a, E.eval (stride t a) v⟩] h
      rw [loops, map_cons, mergedSize_lt (hrange a (mem_cons_self ..)).2]
      exact hcons
  | @group ids groups a c hchain hseg ih =>
    rcases nodup_append.mp hnodup with ⟨hnodupc, hnodupids, hdisj⟩
    have hrangec : ∀ b ∈ a :: c, 0 ≤ b ∧ b < n := fun b hb => hrange b (mem_append_left _ hb)
    rcases nodeMergeAxis_spec hst hrangec with ⟨m, st₁, hm, hst₁, hpre₁, hle, hfrom⟩
    -- the group is written as all but the last axis and the last one
    rcases eq_nil_or_concat' (a :: c) with hnil | ⟨c₀, z, hz⟩
    · cases hnil
    have hA' : ∀ t, Output g t → ∀ p ∈ A t ++ [(m, stride t z)], p.1 ∉ ids := by
      intro t ht p hp
      rcases mem_append.mp hp with hp | hp
      · exact fun hmem => hA t ht p hp (mem_append_right _ hmem)
      · rw [mem_singleton.mp hp]
        intro hmem
        exact not_lt.mpr hle (hrange m (mem_append_right _ hmem)).2
    have hmerge : ∀ t, Output g t → mergeView (f t).vectorized m (a :: c) =
        (A t ++ [(m, stride t z)]) ++ ids.map fun a => (a, stride t a) := by
      intro t ht
      rw [(hf t ht).2, map_append, ← append_assoc, hz, mergeView_eq (hz ▸ hnodupc),
        append_assoc, singleton_append]
      · intro p hp hmem
        exact hA t ht p hp (mem_append_left _ (hz ▸ hmem))
      · intro p hp hmem
        rcases mem_map.mp hp with ⟨b, hb, rfl⟩
        exact hdisj b (hz ▸ hmem) b hb rfl
    rcases ih hnodupids (fun b hb => hrange b (mem_append_right _ hb)) hst₁
      (f := mergeTensor m (a :: c) ∘ f) hA'
      (fun t ht => ⟨(hf t ht).1, hmerge t ht⟩) with ⟨st', f', B, ids', hrun, hst', hpre, hkeep⟩
    refine ⟨st', f', fun t => (m, stride t z) :: B t, m :: ids', ?_, hst', hpre₁.trans hpre, ?_⟩
    · rw [mergeGroups, hm, ← hrun, ← mapOutputs_comp]
      rfl
    intro t ht
    rcases hkeep t ht with ⟨haxis, hvec, hids, hoff⟩
    refine ⟨haxis, ?_, ?_, ?_⟩
    · rw [hvec, append_assoc, singleton_append]
    · rw [map_cons, hids]
    · intro axes size v haxes hsizes
      have h := hoff axes size v haxes fun b hb => hsizes b (mem_append_right _ hb)
      have hsize : mergedSize n axes size m = ((a :: c).map size).prod := by
        apply mergedSize_merged hle
        have hlt := (List.getElem?_eq_some_iff.mp hfrom).1
        rcases hpre.trans haxes with ⟨rest, hrest⟩
        rw [← hrest, getElem?_append_left hlt, hfrom]
      have hcovers : (plainLoops E (stride t) size v (a :: c)).IsChain Loop.Covers :=
        hgap.covers ht hchain fun b hb => hsizes b (mem_append_left _ hb)
      calc offsets (loops E (mergedSize n axes size) v ((m, stride t z) :: B t))
          = offsets (⟨mergedSize n axes size m, E.eval (stride t z) v⟩ ::
              plainLoops E (stride t) size v ids) := offsets_append_congr [⟨_, _⟩] h
        _ = offsets (plainLoops E (stride t) size v (a :: c) ++
              plainLoops E (stride t) size v ids) := by
            rw [hsize, ← merged_plainLoops hz]
            exact (offsets_chain hcovers).symm
        _ = offsets (plainLoops E (stride t) size v (a :: c ++ ids)) := by
            rw [plainLoops, plainLoops, plainLoops, map_append]

end Groups

/-! ## The passes -/

/-- The stride of a vectorized axis of a tensor. -/
def strideOf (E : SymbolicUtils ε σ) (t : Tensor ε) (a : AxisId) : ε :=
  (t.vectorized.lookup a).getD E.kSymbolZero

theorem lookup_of_nodup {l : List (AxisId × ε)} (hnodup : (l.map (·.1)).Nodup) {p : AxisId × ε}
    (hp : p ∈ l) : l.lookup p.1 = some p.2 := by
  induction l with
  | nil => cases hp
  | cons q l ih =>
    rw [map_cons, nodup_cons] at hnodup
    rw [lookup_cons]
    rcases mem_cons.mp hp with rfl | hp
    · rw [beq_self_eq_true]
    · have hne : p.1 ≠ q.1 := by
        intro heq
        exact hnodup.1 (heq ▸ mem_map_of_mem hp)
      rw [beq_eq_false_iff_ne.mpr hne]
      exact ih hnodup.2 hp

theorem vectorized_eq (hids : t.vectorized.map (·.1) = ids) (hnodup : ids.Nodup) :
    t.vectorized = ids.map fun a => (a, strideOf E t a) := by
  rw [← hids, map_map]
  rw [← hids] at hnodup
  refine (map_id _).symm.trans (map_congr_left fun p hp => ?_)
  show p = (p.1, strideOf E t p.1)
  rw [strideOf, lookup_of_nodup hnodup hp]
  rfl

theorem gapless_continuous :
    Gapless E g (strideOf E) fun a b => isVectorizedAxisContinuous E g a b = true := by
  intro a b hab t ht
  have h := allOutputs_iff.mp hab t ht
  unfold continuousIn at h
  split at h
  · next pre post rep hpre hpost hrep =>
    refine ⟨rep, hrep, fun v => ?_⟩
    rw [strideOf, strideOf, hpre, hpost, ← E.eval_mul]
    exact (E.staticCheckEq_iff _ _).mp h v
  · cases h

/-- The second pass merges groups of the shared axes. -/
theorem mergeContinuous_eq (st : Partitioner) (h : WellFormed n g) (hshares : SharesAxes g ids) (hnodup : ids.Nodup) :
    ∃ groups, Segments (fun a b => isVectorizedAxisContinuous E g a b = true) ids groups ∧
      mergeContinuousVectorAxis E st g = mergeGroups st g groups := by
  rw [mergeContinuousVectorAxis]
  cases hfind : g.find? (!·.isBuffer) with
  | none => exact ⟨[], .nil _, rfl⟩
  | some node =>
    rcases h.first hfind with ⟨t₀, ts, houtputs⟩
    dsimp only
    rw [houtputs]
    dsimp only
    rw [hshares t₀ (exists_output hfind houtputs)]
    split
    · exact ⟨[], .nil _, rfl⟩
    · exact ⟨_, segments_pairsOf hnodup, rfl⟩

theorem mergeContinuous_spec (h : WellFormed n g) (hst : CacheOk n st) :
    ∃ (st' : Partitioner) (f : Tensor ε → Tensor ε) (ids' : List AxisId),
      mergeContinuousVectorAxis E st g = some (st', g.map (·.mapOutputs f)) ∧
      CacheOk n st' ∧ st.axes <+: st'.axes ∧ ∀ t, Output g t → (f t).axis = t.axis ∧
        (f t).vectorized.map Prod.fst = ids' ∧
        ∀ axes (size : AxisId → ℕ) v, st'.axes <+: axes → SizesOf E size v t →
          offsets (loops E (mergedSize n axes size) v (f t).vectorized) =
            offsets (loops E size v t.vectorized) := by
  rcases h.shares with ⟨ids, hshares, hnodup, hrange⟩
  rcases mergeContinuous_eq (E := E) st h hshares hnodup with ⟨groups, hseg, heq⟩
  have hvec : ∀ t, Output g t → t.vectorized = ids.map fun a => (a, strideOf E t a) :=
    fun t ht => vectorized_eq (hshares t ht) hnodup
  rcases mergeGroups_spec gapless_continuous hseg hnodup hrange hst (f := id) (A := fun _ => [])
    (fun t ht p hp => (not_mem_nil hp).elim) (fun t ht => ⟨rfl, hvec t ht⟩) with
    ⟨st', f, B, ids', hrun, hst', hpre, hkeep⟩
  rw [mapOutputs_id] at hrun
  refine ⟨st', f, ids', heq.trans hrun, hst', hpre, fun t ht => ?_⟩
  rcases hkeep t ht with ⟨haxis, hvec', hids, hoff⟩
  rw [nil_append] at hvec'
  refine ⟨haxis, hvec' ▸ hids, fun axes size v haxes hsizes => ?_⟩
  have hloops : loops E size v t.vectorized = plainLoops E (strideOf E t) size v ids := by
    rw [hvec t ht, loops, plainLoops, map_map]
    rfl
  rw [hvec', hloops]
  refine hoff axes size v haxes fun a ha rep hrep => ?_
  refine hsizes (a, strideOf E t a) ?_ rep hrep
  rw [hvec t ht]
  exact mem_map_of_mem ha

/-- The first pass leaves a subgraph that shares the axes that stay. -/
theorem WellFormed.map_filter (h : WellFormed n g) {q : AxisId → Bool}
    (hf : ∀ t, Output g t → (f t).vectorized = t.vectorized.filter (q ·.1)) :
    WellFormed n (g.map (·.mapOutputs f)) := by
  rcases h.shares with ⟨ids, hshares, hnodup, hrange⟩
  constructor
  · intro node hnode hbuffer
    rcases mem_map.mp hnode with ⟨node, hmem, rfl⟩
    rw [mapOutputs_isBuffer] at hbuffer
    rw [mapOutputs_outputs hbuffer, ne_eq, map_eq_nil_iff]
    exact h.outputs node hmem hbuffer
  · refine ⟨ids.filter q, ?_, hnodup.filter _, fun a ha => hrange a (mem_of_mem_filter ha)⟩
    intro t' ht'
    rcases output_map.mp ht' with ⟨t, ht, rfl⟩
    rw [hf t ht, ← hshares t ht, filter_map]
    rfl

/-- The two passes over one subgraph. -/
theorem mergeSubgraphAxes_spec (h : WellFormed n g) (hst : CacheOk n st) :
    ∃ st' g', mergeSubgraphAxes E st g = some (st', g') ∧ CacheOk n st' ∧ st.axes <+: st'.axes ∧
      ∀ axes, st'.axes <+: axes → KeepsAddresses E n axes (keptAxis E g) g g' := by
  rcases removeAll_spec (E := E) h with ⟨f₁, hremove, hkept⟩
  have h₁ := h.map_filter fun t ht => (hkept t ht).2
  rcases mergeContinuous_spec (E := E) h₁ hst with ⟨st', f₂, ids', hmerge, hst', hpre, hkeep⟩
  refine ⟨st', _, ?_, hst', hpre, fun axes haxes => ⟨f₂ ∘ f₁, ids', mapOutputs_comp g f₁ f₂, ?_⟩⟩
  · rw [mergeSubgraphAxes, hremove]
    exact hmerge
  · intro t ht
    rcases hkept t ht with ⟨haxis₁, hvec₁⟩
    rcases hkeep (f₁ t) (output_map.mpr ⟨t, ht, rfl⟩) with ⟨haxis₂, hids, hoff⟩
    refine ⟨haxis₂.trans haxis₁, hids, fun size v hsizes => ?_⟩
    rw [← hvec₁]
    refine hoff axes size v haxes fun p hp rep hrep => ?_
    rw [hvec₁] at hp
    rw [haxis₁] at hrep
    exact hsizes p (mem_of_mem_filter hp) rep hrep

theorem mergeSubgraphsAxes_spec (graphs : List (VfGraph ε)) (h : ∀ g ∈ graphs, WellFormed n g)
    (hst : CacheOk n st) : ∃ st' graphs', mergeSubgraphsAxes E st graphs = some (st', graphs') ∧
      st.axes <+: st'.axes ∧ ∀ axes, st'.axes <+: axes →
        Forall₂ (fun g g' => KeepsAddresses E n axes (keptAxis E g) g g') graphs graphs' := by
  induction graphs generalizing st with
  | nil => exact ⟨st, [], rfl, prefix_refl _, fun _ _ => .nil⟩
  | cons g graphs ih =>
    rcases mergeSubgraphAxes_spec (E := E) (h g (mem_cons_self ..)) hst with
      ⟨st₁, g', hrun, hst₁, hpre, hkeep⟩
    rcases ih (fun g' hg' => h g' (mem_cons_of_mem _ hg')) hst₁ with
      ⟨st₂, graphs', hruns, hpres, hkeeps⟩
    refine ⟨st₂, g' :: graphs', ?_, hpre.trans hpres, fun axes haxes => ?_⟩
    · rw [mergeSubgraphsAxes, hrun]
      dsimp only
      rw [hruns]
    · exact .cons (hkeep axes (hpres.trans haxes)) (hkeeps axes haxes)

end Proofs

/-! ## The result -/

/-- The subgraphs of an implementation graph keep the addresses of all their tensors over the axes
along which some tensor moves, and over all axes where no tensor moves. -/
theorem mergeSubgraphsAxes_keepsAddresses (E : SymbolicUtils ε σ) (axes : List Axis)
    (graphs : List (VfGraph ε)) (h : ∀ g ∈ graphs, WellFormed axes.length g) :
    ∃ st' graphs', mergeSubgraphsAxes E { axes := axes } graphs = some (st', graphs') ∧
      Forall₂ (fun g g' => KeepsAddresses E axes.length st'.axes (keptAxis E g) g g')
        graphs graphs' := by
  have hst : CacheOk axes.length { axes := axes } := ⟨le_refl _, fun c m hm => by cases hm⟩
  rcases mergeSubgraphsAxes_spec (E := E) graphs h hst with ⟨st', graphs', hrun, _, hkeep⟩
  exact ⟨st', graphs', hrun, hkeep st'.axes (prefix_refl _)⟩

/-- Expressions without symbols. -/
def constants : SymbolicUtils ℤ Unit where
  eval a _ := a
  kSymbolZero := 0
  mul a b := a * b
  staticCheckEq a b := decide (a = b)
  eval_zero _ := rfl
  eval_mul _ _ _ := rfl
  staticCheckEq_iff _ _ := decide_eq_true_iff.trans ⟨fun h _ => h, fun h => h ()⟩

/-- A tensor of two by three by four and one that is the same along the first axis. -/
def broadcastPair : VfGraph ℤ :=
  [{ isBuffer := true, outputs := [] },
   { outputs := [⟨[(0, 2), (1, 3), (2, 4)], [(0, 12), (1, 4), (2, 1)]⟩] },
   { outputs := [⟨[(0, 1), (1, 3), (2, 4)], [(0, 0), (1, 4), (2, 1)]⟩] }]

theorem broadcastPair_wellFormed : WellFormed 3 broadcastPair where
  outputs := by decide
  shares := by
    refine ⟨[0, 1, 2], ?_, by decide, by decide⟩
    intro t ht
    rcases ht with ⟨n, hn, hbuffer, hmem⟩
    simp only [broadcastPair, mem_cons, not_mem_nil, or_false] at hn
    rcases hn with rfl | rfl | rfl
    · cases hbuffer
    · rw [mem_singleton.mp hmem]
      rfl
    · rw [mem_singleton.mp hmem]
      rfl

theorem mergeSubgraphsAxes_keepsAddresses_broadcastPair :
    ∃ st' graphs', mergeSubgraphsAxes constants { axes := [{}, {}, {}] } [broadcastPair] =
        some (st', graphs') ∧
      Forall₂ (fun g g' => KeepsAddresses constants 3 st'.axes (keptAxis constants g) g g')
        [broadcastPair] graphs' :=
  mergeSubgraphsAxes_keepsAddresses constants [{}, {}, {}] [broadcastPair]
    (forall_mem_singleton.mpr broadcastPair_wellFormed)

/-- The last two axes become one axis of size twelve. -/
example : mergeSubgraphsAxes constants { axes := [{}, {}, {}] } [broadcastPair] = some
    ({ axes := [{}, {}, {}, ⟨[1, 2]⟩], fromIdToMergedAxis := [([1, 2], 3)] },
      [[{ isBuffer := true, outputs := [] },
        { outputs := [⟨[(0, 2), (1, 3), (2, 4)], [(0, 12), (3, 1)]⟩] },
        { outputs := [⟨[(0, 1), (1, 3), (2, 4)], [(0, 0), (3, 1)]⟩] }]]) := by
  decide

/-- One tensor of four elements that are the same. -/
def still : VfGraph ℤ := [{ outputs := [⟨[(0, 4)], [(0, 0)]⟩] }]

/-- The only axis stays although no tensor moves along it, so the offset is visited four times. -/
theorem not_keepsAddresses_still :
    mergeSubgraphsAxes constants { axes := [{}] } [still] = some ({ axes := [{}] }, [still]) ∧
      ¬ KeepsAddresses constants 1 [{}] (fun id => !zeroStrideAxis constants still id) still still := by
  refine ⟨by decide, fun h => ?_⟩
  rcases h with ⟨f, ids, heq, hkeep⟩
  have hf : f ⟨[(0, 4)], [(0, 0)]⟩ = ⟨[(0, 4)], [(0, 0)]⟩ := by
    have hhead := congrArg (fun g : VfGraph ℤ => g.map fun n => n.outputs) heq
    simpa [still, VfNode.mapOutputs] using hhead.symm
  have hoff := (hkeep ⟨[(0, 4)], [(0, 0)]⟩ ⟨_, mem_singleton_self _, rfl,
    mem_singleton_self _⟩).2.2 (fun _ => 4) () ?_
  · rw [hf] at hoff
    have hlength := congrArg length hoff
    revert hlength
    decide
  · intro p hp rep hrep
    rw [mem_singleton.mp hp]
    exact .inr rfl

end GraphAutofusion.Autofuse.VectorAxis
