import GraphAutofusion.Autofuse.LoopAxesPasses

/-!
# Autofuse.LoopAxesResult — every tensor keeps its offsets

The two passes together drop only positions along which nothing moves, merge no pair the special rule
keeps apart, leave schedule lists of one length, and every axis that is left has the product of the
sizes it stands for.
-/

namespace GraphAutofusion.Autofuse.LoopAxes

open Lib List Option
open VectorAxis (AxisId mergeContinuousPairs Segments segments_neighbours foldr_eq_filter chainPairs)

variable {ε σ : Type}

/-- The tensor visits the offsets that it visited over the axes that were not dropped. -/
structure TensorKept (E : Symbols ε σ) (replaced : AxisId → List AxisId) (dropped : List AxisId)
    (t t' : Tensor ε) : Prop where
  axis : t'.axis.flatMap replaced = t.axis.filter (!dropped.contains ·)
  offsets : ∀ v, SizesAt E v t.dims →
    offsets (loops E v t'.dims) = offsets (loops E v (t.dims.filter (!dropped.contains ·.axis)))

structure NodeKept (E : Symbols ε σ) (removed : List ℕ) (replaced : AxisId → List AxisId)
    (n n' : Node ε) : Prop where
  rest : n' = { n with sched := n'.sched, outputs := n'.outputs }
  sched : n'.sched.flatMap replaced = n.sched.filter (!(n.dropped removed).contains ·)
  outputs : Forall₂ (TensorKept E replaced (n.dropped removed)) n.outputs n'.outputs

/-- No axis stands for both axes of a node at the two positions. -/
def Apart (replaced : AxisId → List AxisId) (i : ℕ) (n n' : Node ε) : Prop :=
  n.isBuffer = false → ∀ a b : AxisId, n.sched[i]? = some a → n.sched[i + 1]? = some b →
    ∀ id ∈ n'.sched, ¬ (a ∈ replaced id ∧ b ∈ replaced id)

/-- What holds of the graph `g`, the graph `g₁` after the first pass and the result `g₂`, when positions
were removed and every axis stands for a list of axes. -/
structure KeepsLoops (E : Symbols ε σ) (g g₁ g₂ : Graph ε) (removed : List ℕ)
    (replaced : AxisId → List AxisId) : Prop where
  zero : ∀ i ∈ removed, ∀ n ∈ g.computeNodes, ∀ t ∈ n.outputs, ∀ d ∈ t.dims,
    n.sched[i]? = some d.axis → ∀ v, E.eval d.stride v = 0
  nodes : Forall₂ (NodeKept E removed replaced) g.nodes g₂.nodes
  length : ∃ k, ∀ n ∈ g₂.computeNodes, n.sched.length = k
  apart : ∀ pairs, getNonContinuousAxisPairBySpecialRule E g₁ = some pairs →
    ∀ i : ℕ, ((i : ℤ), (i : ℤ) + 1) ∈ pairs → Forall₂ (Apart replaced i) g₁.nodes g₂.nodes
  size : ∀ n ∈ g₂.nodes, ∀ a ∈ n.ids, 0 ≤ a ∧ a < g₂.axes.length ∧
    ∀ v, sizeAt E g₂.axes v a = ((replaced a).map (sizeAt E g.axes v)).prod

section Proofs

variable {E : Symbols ε σ} {g g₁ : Graph ε} {n n' n₁ : Node ε} {t : Tensor ε} {removed : List ℕ}
  {replaced : AxisId → List AxisId} {groups : List (List ℤ)} {G : List ℤ} {a b : AxisId} {k : ℕ}
  {r : AxisId → AxisId → Prop}

/-! ## The groups of positions -/

theorem Segments.mem {ids : List AxisId} (h : Segments r ids groups) :
    ∀ G ∈ groups, G <:+: ids ∧ G.IsChain r := by
  induction h with
  | nil ids => exact fun G hG => (not_mem_nil hG).elim
  | skip a _ ih => exact fun G hG => ⟨infix_cons (ih G hG).1, (ih G hG).2⟩
  | @group ids groups a c hchain _ ih =>
    intro G hG
    rcases mem_cons.mp hG with rfl | hG
    · exact ⟨(prefix_append ..).isInfix, hchain⟩
    · exact ⟨(ih G hG).1.trans (suffix_append ..).isInfix, (ih G hG).2⟩

theorem Segments.disjoint {ids : List AxisId} (h : Segments r ids groups) (hnodup : ids.Nodup) :
    groups.Pairwise List.Disjoint := by
  induction h with
  | nil ids => exact .nil
  | skip a _ ih => exact ih (nodup_cons.mp hnodup).2
  | @group ids groups a c _ hseg ih =>
    rcases nodup_append.mp hnodup with ⟨_, hrest, hdisj⟩
    refine pairwise_cons.mpr ⟨fun G hG x hx hx' => ?_, ih hrest⟩
    exact hdisj x hx x ((Segments.mem hseg G hG).1.subset hx') rfl

/-- A group has two positions at least. -/
theorem two_le_of_mem_chainPairs {c : List AxisId} (hc : 2 ≤ c.length) (pairs : List (AxisId × AxisId)) :
    ∀ G ∈ chainPairs c pairs, 2 ≤ G.length := by
  induction pairs generalizing c with
  | nil =>
    intro G hG
    rw [chainPairs] at hG
    rwa [mem_singleton.mp hG]
  | cons p pairs ih =>
    rw [chainPairs]
    split
    · apply ih
      rw [length_append]
      omega
    · intro G hG
      rcases mem_cons.mp hG with rfl | hG
      · exact hc
      · exact ih (c := [p.1, p.2]) (le_refl 2) G hG

theorem two_le_of_mem_groups {pairs : List (AxisId × AxisId)} (hG : G ∈ mergeContinuousPairs pairs) :
    2 ≤ G.length := by
  cases pairs with
  | nil => cases hG
  | cons p pairs => exact two_le_of_mem_chainPairs (c := [p.1, p.2]) (le_refl 2) pairs G hG

/-- The positions of the schedule lists. -/
def positions (k : ℕ) : List ℤ := (range k).map Nat.cast

theorem positions_get {i : ℕ} (hi : i < k) : (positions k)[i]? = some (i : ℤ) := by
  rw [positions, getElem?_map, getElem?_range hi]
  rfl

theorem positions_nodup (k : ℕ) : (positions k).Nodup :=
  Nodup.map (fun _ _ h => Int.ofNat.inj h) nodup_range

theorem neighbours_eq (k : ℕ) : (range (k - 1)).map (fun i : ℕ => ((i : ℤ), (i : ℤ) + 1)) =
    (positions k).zip (positions k).tail := by
  apply ext_getElem?
  intro i
  rw [getElem?_map, zip, getElem?_zipWith, getElem?_tail]
  rcases lt_or_ge i (k - 1) with hlt | hge
  · rw [getElem?_range hlt, positions_get (by omega), positions_get (by omega)]
    rfl
  · have hout : k ≤ i + 1 := by omega
    have hnone : (positions k)[i + 1]? = none := by
      rw [getElem?_eq_none]
      rw [positions, length_map, length_range]
      exact hout
    rw [getElem?_eq_none (by rwa [length_range]), hnone]
    cases (positions k)[i]? <;> rfl

/-- Neighbours that are merged: without a gap in any output, and not kept apart. -/
def joined (E : Symbols ε σ) (g : Graph ε) (pairs : List (ℤ × ℤ)) (a b : ℤ) : Bool :=
  isAxisContinuous E g a b && !pairs.contains (a, b)

theorem continuousPairs_eq (pairs : List (ℤ × ℤ)) (k : ℕ) :
    continuousPairs E g pairs ((range (k - 1)).map fun i : ℕ => ((i : ℤ), (i : ℤ) + 1)) =
      ((positions k).zip (positions k).tail).filter fun p => joined E g pairs p.1 p.2 := by
  rw [continuousPairs, foldr_eq_filter, List.filter_filter, neighbours_eq]
  rfl

/-- The groups that the second pass finds. -/
structure GroupsOf (E : Symbols ε σ) (g : Graph ε) (pairs : List (ℤ × ℤ)) (k : ℕ)
    (groups : List (List ℤ)) : Prop where
  two_le : ∀ G ∈ groups, 2 ≤ G.length
  infix_positions : ∀ G ∈ groups, G <:+: positions k
  chain : ∀ G ∈ groups, G.IsChain fun a b => joined E g pairs a b = true
  disjoint : groups.Pairwise List.Disjoint

theorem groupsOf_pairs (pairs : List (ℤ × ℤ)) (k : ℕ) :
    GroupsOf E g pairs k (mergeContinuousPairs
      (continuousPairs E g pairs ((range (k - 1)).map fun i : ℕ => ((i : ℤ), (i : ℤ) + 1)))) := by
  rw [continuousPairs_eq]
  have hseg := (segments_neighbours (r := joined E g pairs) (positions_nodup k)).1
  exact ⟨fun G hG => two_le_of_mem_groups hG, fun G hG => (Segments.mem hseg G hG).1,
    fun G hG => (Segments.mem hseg G hG).2, Segments.disjoint hseg (positions_nodup k)⟩

theorem GroupsOf.nil (pairs : List (ℤ × ℤ)) : GroupsOf E g pairs k [] where
  two_le := fun _ h => (not_mem_nil h).elim
  infix_positions := fun _ h => (not_mem_nil h).elim
  chain := fun _ h => (not_mem_nil h).elim
  disjoint := .nil

theorem mem_positions {i : ℤ} (h : i ∈ positions k) : ∃ j : ℕ, j < k ∧ i = j := by
  rcases List.mem_map.mp h with ⟨j, hj, rfl⟩
  exact ⟨j, mem_range.mp hj, rfl⟩

theorem groupIds_positions (sched : List AxisId) : groupIds sched (positions sched.length) = sched := by
  apply ext_getElem?
  intro i
  rw [groupIds, getElem?_map]
  rcases lt_or_ge i sched.length with hlt | hge
  · rw [positions_get hlt, map_some, Int.toNat_natCast, getElem?_eq_getElem hlt,
      getD_some]
  · have hnone : (positions sched.length)[i]? = none := by
      rw [getElem?_eq_none]
      rwa [positions, length_map, length_range]
    rw [hnone, getElem?_eq_none hge]
    rfl

variable {pairs : List (ℤ × ℤ)}

/-- The groups are blocks of gapless neighbours in every compute node. -/
theorem GroupsOf.inNode (h : GroupsOf E g pairs k groups)
    (hn : n ∈ g.computeNodes) (hok : n.Ok) (hlen : n.sched.length = k) : Groups E groups n := by
  have hidx : ∀ G ∈ groups, ∀ i ∈ G, ∃ j : ℕ, j < n.sched.length ∧ i = j := by
    intro G hG i hi
    rcases mem_positions ((h.infix_positions G hG).subset hi) with ⟨j, hj, rfl⟩
    exact ⟨j, hlen ▸ hj, rfl⟩
  constructor
  · intro G hG i hi
    rcases hidx G hG i hi with ⟨j, hj, rfl⟩
    exact hj
  · intro G hG
    have htwo := h.two_le G hG
    refine ⟨?_, ?_, ?_⟩
    · rwa [groupIds, length_map]
    · have hinfix := (h.infix_positions G hG).map fun index : ℤ => n.sched[index.toNat]?.getD 0
      rw [← hlen] at hinfix
      have hall := groupIds_positions n.sched
      rw [groupIds] at hall
      rwa [hall] at hinfix
    · intro t ht
      have hchain : (groupIds n.sched G).IsChain fun a b => continuousIn E a b t = true := by
        rw [groupIds, isChain_map]
        refine (h.chain G hG).imp_of_mem_imp fun i j hi hj hij => ?_
        rcases hidx G hG i hi with ⟨i, hilt, rfl⟩
        rcases hidx G hG j hj with ⟨j, hjlt, rfl⟩
        have hcont := List.all_eq_true.mp (Bool.and_eq_true_iff.mp hij).1 n hn
        rw [Int.toNat_natCast, Int.toNat_natCast, getElem?_eq_getElem hilt,
          getElem?_eq_getElem hjlt] at hcont
        rw [Int.toNat_natCast, Int.toNat_natCast, getElem?_eq_getElem hilt,
          getElem?_eq_getElem hjlt]
        exact List.all_eq_true.mp hcont t ht
      -- a group is not shorter than two
      cases G with
      | nil => cases htwo
      | cons i G =>
        cases G with
        | nil => exact absurd htwo (Nat.not_succ_le_self 1)
        | cons j G => exact hasBlock_of_chain (hok.valid t ht) hchain
  · rw [pairwise_map]
    refine h.disjoint.imp_of_mem fun {G G'} hG hG' hdisj a ha ha' => ?_
    rcases List.mem_map.mp ha with ⟨i, hi, hia⟩
    rcases List.mem_map.mp ha' with ⟨j, hj, hja⟩
    rcases hidx G hG i hi with ⟨i, hilt, rfl⟩
    rcases hidx G' hG' j hj with ⟨j, hjlt, rfl⟩
    rw [Int.toNat_natCast, getElem?_eq_getElem hilt, getD_some] at hia
    rw [Int.toNat_natCast, getElem?_eq_getElem hjlt, getD_some] at hja
    have hij := (Nodup.getElem_inj_iff hok.sched_nodup).mp (hia.trans hja.symm)
    subst hij
    exact hdisj hi hj

/-- Neighbours in one group are joined. -/
theorem GroupsOf.joined_of_mem (h : GroupsOf E g pairs k groups) (hG : G ∈ groups)
    {i : ℕ} (hi : (i : ℤ) ∈ G) (hi' : (i : ℤ) + 1 ∈ G) : joined E g pairs i (i + 1) = true := by
  rcases h.infix_positions G hG with ⟨pre, post, hsplit⟩
  -- the members of the group count up from the length of what is in front of it
  have hget : ∀ p (hp : p < G.length), G[p] = ((pre.length + p : ℕ) : ℤ) := by
    intro p hp
    have hlt : pre.length + p < k := by
      have hlen := congrArg List.length hsplit
      rw [length_append, length_append, positions, length_map, length_range] at hlen
      omega
    have hpos := positions_get hlt
    rw [← hsplit, append_assoc, getElem?_append_right (Nat.le_add_right ..),
      Nat.add_sub_cancel_left, getElem?_append_left hp, getElem?_eq_getElem hp] at hpos
    exact Option.some.inj hpos
  rcases mem_iff_getElem.mp hi with ⟨p, hp, hpi⟩
  rcases mem_iff_getElem.mp hi' with ⟨q, hq, hqi⟩
  have hpq : q = p + 1 := by
    have hpi' := (hget p hp).symm.trans hpi
    have hqi' := (hget q hq).symm.trans hqi
    omega
  subst hpq
  have hchain := isChain_iff_getElem.mp (h.chain G hG) p hq
  rwa [hpi, hqi] at hchain

/-! ## Both passes -/

theorem ok_of_removed (h : n.Ok) (hrem : NodeRemoved removed n n₁) : n₁.Ok := by
  have hout : ∀ t₁ ∈ n₁.outputs, ∃ t ∈ n.outputs, TensorRemoved (n.dropped removed) t t₁ := by
    intro t₁ ht₁
    rcases forall₂_iff_get.mp hrem.outputs with ⟨hlen, hget⟩
    rcases mem_iff_get.mp ht₁ with ⟨i, rfl⟩
    have hi := Nat.lt_of_lt_of_eq i.2 hlen.symm
    exact ⟨_, List.get_mem _ ⟨i, hi⟩, hget i hi i.2⟩
  constructor
  · rw [hrem.sched]
    exact h.sched_nodup.filter _
  · intro t₁ ht₁
    rcases hout t₁ ht₁ with ⟨t, ht, hrel⟩
    exact hrel.valid (h.valid t ht)
  · intro t₁ ht₁
    rcases hout t₁ ht₁ with ⟨t, ht, hrel⟩
    rw [hrel.axis]
    exact (h.axis_nodup t ht).filter _

theorem NodeRemoved.ids_subset (h : NodeRemoved removed n n₁) : n₁.ids ⊆ n.ids := by
  intro a ha
  rcases mem_append.mp ha with ha | ha
  · rw [h.sched] at ha
    exact mem_append_left _ (mem_of_mem_filter ha)
  · rcases mem_flatMap.mp ha with ⟨t₁, ht₁, ha⟩
    rcases forall₂_iff_get.mp h.outputs with ⟨hlen, hget⟩
    rcases mem_iff_get.mp ht₁ with ⟨i, rfl⟩
    have hi := Nat.lt_of_lt_of_eq i.2 hlen.symm
    rw [(hget i hi i.2).axis] at ha
    exact mem_append_right _
      (mem_flatMap.mpr ⟨_, List.get_mem _ ⟨i, hi⟩, mem_of_mem_filter ha⟩)

variable {f : AxisId → AxisId}

/-- Every tensor of the second graph is one of the first without the dropped axes, merged and renamed. -/
theorem TensorMerged.kept {src : AxisId → List AxisId} {dropped : List AxisId} {t t₁ t₂ : Tensor ε}
    (hrem : TensorRemoved dropped t t₁) (hmerged : TensorMerged E src t₁ t₂)
    (hf : ∀ a ∈ t₂.axis, replaced (f a) = src a) : TensorKept E replaced dropped t (t₂.rename f) where
  axis := by
    rw [Tensor.rename]
    dsimp only
    rw [flatMap_map, ← hrem.axis, ← hmerged.axis]
    exact flatMap_congr hf
  offsets := by
    intro v hv
    rw [loops_rename, ← hrem.dims]
    apply hmerged.offsets
    intro d hd
    rw [hrem.dims] at hd
    exact hv d (mem_of_mem_filter hd)

theorem forall₂_trans {α β γ : Type} {p : α → β → Prop} {q : β → γ → Prop} {s : α → γ → Prop}
    {l : List α} {l' : List β} {l'' : List γ} (h : Forall₂ p l l') (h' : Forall₂ q l' l'')
    (hs : ∀ a b c, a ∈ l → b ∈ l' → c ∈ l'' → p a b → q b c → s a c) : Forall₂ s l l'' := by
  induction h generalizing l'' with
  | nil =>
    cases h'
    exact .nil
  | cons hp hps ih =>
    cases h' with
    | cons hq hqs =>
      refine .cons (hs _ _ _ mem_cons_self mem_cons_self mem_cons_self hp hq)
        (ih hqs fun a b c ha hb hc => hs a b c (mem_cons_of_mem _ ha) (mem_cons_of_mem _ hb)
          (mem_cons_of_mem _ hc))

theorem NodeResult.kept {axes₀ T : List (Axis ε)} {n₂ : Node ε}
    (hrem : NodeRemoved removed n n₁) (hres : NodeResult E axes₀ T groups n₁ n₂)
    (hf : ∀ a ∈ n₂.ids, replaced (f a) = sources axes₀.length T a) :
    NodeKept E removed replaced n (n₂.rename f) where
  rest := by
    rw [Node.rename, hres.merged.rest, hrem.rest]
  sched := by
    rw [Node.rename]
    dsimp only
    rw [flatMap_map, ← hrem.sched, ← hres.merged.sched]
    exact flatMap_congr fun a ha => hf a (mem_append_left _ ha)
  outputs := by
    rw [Node.rename]
    dsimp only
    rw [forall₂_map_right_iff]
    refine forall₂_trans hrem.outputs hres.merged.outputs fun t t₁ t₂ _ _ ht₂ htr htm => ?_
    exact htm.kept htr fun a ha =>
      hf a (mem_append_right _ (mem_flatMap.mpr ⟨t₂, ht₂, ha⟩))

/-- An axis that stands for two neighbours is a group they are joined in. -/
theorem NodeResult.apart {axes₀ T : List (Axis ε)} {n₂ : Node ε}
    (hgroups : GroupsOf E g₁ pairs k groups) (hok : n₁.isBuffer = false → n₁.Ok)
    (hres : NodeResult E axes₀ T groups n₁ n₂) (hlen : n₁.isBuffer = false → n₁.sched.length = k)
    (hf : ∀ a ∈ n₂.ids, replaced (f a) = sources axes₀.length T a) {i : ℕ}
    (hi : ((i : ℤ), (i : ℤ) + 1) ∈ pairs) : Apart replaced i n₁ (n₂.rename f) := by
  intro hbuffer a b ha hb newId hnewId hboth
  have hnodup := (hok hbuffer).sched_nodup
  have hne : ∀ j j' : ℕ, n₁.sched[j]? = n₁.sched[j']? → j < n₁.sched.length → j = j' :=
    fun j j' heq hj => (getElem?_inj hj hnodup).mp heq
  have hilt := (List.getElem?_eq_some_iff.mp ha).1
  rcases List.mem_map.mp hnewId with ⟨id, hid, rfl⟩
  have hmem : id ∈ n₂.ids := mem_append_left _ hid
  rw [hf id hmem] at hboth
  rcases hres.ids id hmem with hlt | ⟨_, G, hG, hsrc⟩
  · -- an axis that is not merged stands for itself
    rw [sources_lt hlt, mem_singleton, mem_singleton] at hboth
    have heq := hne i (i + 1) (ha.trans ((congrArg some (hboth.1.trans hboth.2.symm)).trans hb.symm)) hilt
    omega
  rw [hsrc] at hboth
  have hback : ∀ (j : ℕ) (c : AxisId), n₁.sched[j]? = some c → c ∈ groupIds n₁.sched G → (j : ℤ) ∈ G := by
    intro j c hc hmemc
    rcases List.mem_map.mp hmemc with ⟨x, hx, hxc⟩
    rcases mem_positions ((hgroups.infix_positions G hG).subset hx) with ⟨j', hj', rfl⟩
    rw [← hlen hbuffer] at hj'
    rw [Int.toNat_natCast, getElem?_eq_getElem hj', getD_some] at hxc
    have hjj' := hne j j' (by rw [hc, getElem?_eq_getElem hj', hxc])
      (List.getElem?_eq_some_iff.mp hc).1
    rwa [hjj']
  have hjoin := hgroups.joined_of_mem hG (hback i a ha hboth.1)
    (by exact_mod_cast hback (i + 1) b hb hboth.2)
  rw [joined, Bool.and_eq_true, Bool.not_eq_true', ← Bool.not_eq_true, contains_iff_mem] at hjoin
  exact hjoin.2 hi

/-- The sizes after the merging, where all ids denote axes. -/
theorem sizeAt_sources {axes₀ : List (Axis ε)} {st : Merger ε} (h : TableOk E axes₀ st) (v : σ)
    (ha : 0 ≤ a ∧ a < st.axes.length) :
    sizeAt E st.axes v a = ((sources axes₀.length st.axes a).map (sizeAt E axes₀ v)).prod := by
  have hlt : a.toNat < st.axes.length := (Int.toNat_lt ha.1).mpr ha.2
  by_cases hold : a < axes₀.length
  · rw [sources_lt hold, map_singleton, prod_singleton]
    exact sizeAt_prefix h.prefix_axes ((Int.toNat_lt ha.1).mpr hold)
  · have hge : axes₀.length ≤ a.toNat := (Int.le_toNat ha.1).mpr (not_lt.mp hold)
    have hget := getElem?_eq_getElem hlt
    rw [sources, if_neg hold, hget, sizeAt, hget]
    exact h.size a.toNat _ hge hget v

theorem sizeAt_toOriginal (newMergedAxes : List AxisId) (axes : List (Axis ε)) (v : σ) (a : AxisId) :
    sizeAt E (toOriginal newMergedAxes axes) v a = sizeAt E axes v a := by
  rw [sizeAt, sizeAt, toOriginal, getElem?_mapIdx]
  cases axes[a.toNat]? with
  | none => rfl
  | some axis =>
    rw [map_some, elim_some, elim_some]
    split <;> rfl

/-- A result of the second pass before the axes are numbered anew, under a renaming. -/
theorem keepsLoops_of_run {nodes₂ : List (Node ε)} {st : Merger ε}
    {axes₂ : List (Axis ε)} (h : g.WellFormed) (hzero : ZeroPositions E g removed)
    (hrem : Forall₂ (NodeRemoved removed) g.nodes g₁.nodes)
    (hlen : ∀ n ∈ g₁.computeNodes, n.sched.length = k) (hgroups : GroupsOf E g₁ pairs k groups)
    (hpairs : ∀ pairs', getNonContinuousAxisPairBySpecialRule E g₁ = some pairs' →
      groups = [] ∨ pairs' = pairs)
    (htable : TableOk E g.axes st)
    (hres : Forall₂ (NodeResult E g.axes st.axes groups) g₁.nodes nodes₂)
    (hf : ∀ n ∈ nodes₂, ∀ a ∈ n.ids, replaced (f a) = sources g.axes.length st.axes a ∧
      0 ≤ f a ∧ f a < axes₂.length ∧ ∀ v, sizeAt E axes₂ v (f a) = sizeAt E st.axes v a) :
    KeepsLoops E g g₁ ⟨nodes₂.map (Node.rename f), axes₂⟩ removed replaced := by
  have hok₁ : ∀ n₁ ∈ g₁.nodes, n₁.isBuffer = false → n₁.Ok := by
    intro n₁ hn₁ hbuffer
    rcases forall₂_iff_get.mp hrem with ⟨hlen, hget⟩
    rcases mem_iff_get.mp hn₁ with ⟨i, rfl⟩
    have hi := Nat.lt_of_lt_of_eq i.2 hlen.symm
    have hrel := hget i hi i.2
    have hbuffer' : (g.nodes.get ⟨i, hi⟩).isBuffer = false := by
      rw [hrel.rest] at hbuffer
      exact hbuffer
    exact ok_of_removed (h.ok _ (mem_computeNodes.mpr ⟨List.get_mem _ _, hbuffer'⟩)) hrel
  have hlen₁ : ∀ n₁ ∈ g₁.nodes, n₁.isBuffer = false → n₁.sched.length = k :=
    fun n₁ hn₁ hbuffer => hlen n₁ (mem_computeNodes.mpr ⟨hn₁, hbuffer⟩)
  refine ⟨hzero.zero, ?_, ?_, ?_, ?_⟩
  · dsimp only
    rw [forall₂_map_right_iff]
    refine forall₂_trans hrem hres fun n n₁ n₂ _ _ hn₂ hrel hres => ?_
    exact hres.kept hrel fun a ha => (hf n₂ hn₂ a ha).1
  · refine ⟨k + groups.length - (groups.map List.length).sum, fun n₃ hn₃ => ?_⟩
    rcases mem_computeNodes.mp hn₃ with ⟨hmem₃, hbuffer⟩
    rcases List.mem_map.mp hmem₃ with ⟨n₂, hn₂, rfl⟩
    rcases forall₂_iff_get.mp hres with ⟨hlength, hget⟩
    rcases mem_iff_get.mp hn₂ with ⟨i, rfl⟩
    have hi := Nat.lt_of_lt_of_eq i.2 hlength.symm
    have hrel := hget i hi i.2
    have hbuffer₁ : (g₁.nodes.get ⟨i, hi⟩).isBuffer = false := by
      rw [← hrel.merged.isBuffer]
      exact hbuffer
    have hsum := hrel.length hbuffer₁
    rw [hlen₁ _ (List.get_mem _ _) hbuffer₁] at hsum
    rw [Node.rename]
    dsimp only
    rw [length_map]
    exact Nat.eq_sub_of_add_eq hsum
  · intro pairs' hpairs' i hi
    dsimp only
    rw [forall₂_map_right_iff]
    rcases forall₂_iff_get.mp hres with ⟨hlength, hget⟩
    refine forall₂_iff_get.mpr ⟨hlength, fun j h₁ h₂ => ?_⟩
    have hmem := List.get_mem g₁.nodes ⟨j, h₁⟩
    have hmem₂ := List.get_mem nodes₂ ⟨j, h₂⟩
    rcases hpairs pairs' hpairs' with hnil | rfl
    · -- nothing was merged
      subst hnil
      exact (hget j h₁ h₂).apart (GroupsOf.nil (E := E) (g := g₁) pairs') (hok₁ _ hmem) (hlen₁ _ hmem)
        (fun a ha => (hf _ hmem₂ a ha).1) hi
    · exact (hget j h₁ h₂).apart hgroups (hok₁ _ hmem) (hlen₁ _ hmem)
        (fun a ha => (hf _ hmem₂ a ha).1) hi
  · intro n₃ hn₃ a₃ ha₃
    rcases List.mem_map.mp hn₃ with ⟨n₂, hn₂, rfl⟩
    have hids : (n₂.rename f).ids = n₂.ids.map f := by
      rw [Node.ids, Node.ids, Node.rename, map_append, flatMap_map, map_flatMap]
      rfl
    rw [hids] at ha₃
    rcases List.mem_map.mp ha₃ with ⟨a, ha, rfl⟩
    rcases hf n₂ hn₂ a ha with ⟨hrepl, hnonneg, hlt, hsize⟩
    refine ⟨hnonneg, hlt, fun v => ?_⟩
    rcases forall₂_iff_get.mp hres with ⟨hlength, hget⟩
    rcases mem_iff_get.mp hn₂ with ⟨i, rfl⟩
    have hi := Nat.lt_of_lt_of_eq i.2 hlength.symm
    rw [hsize v, hrepl]
    exact sizeAt_sources htable v ((hget i hi i.2).range a ha)

theorem rename_id (nodes : List (Node ε)) : nodes.map (Node.rename id) = nodes := by
  have hnode : ∀ n : Node ε, n.rename id = n := by
    intro n
    have houtputs : n.outputs.map (Tensor.rename id) = n.outputs := by
      refine (map_congr_left fun t _ => ?_).trans (List.map_id _)
      rw [Tensor.rename, List.map_id]
      rfl
    rw [Node.rename, List.map_id, houtputs]
  refine (map_congr_left fun n _ => hnode n).trans (List.map_id _)

/-- The second pass after the first. -/
theorem mergeContinuousAxis_spec (cubeType : CubeTemplateType) (h : g.WellFormed)
    (hzero : ZeroPositions E g removed) (haxes : g₁.axes = g.axes)
    (hrem : Forall₂ (NodeRemoved removed) g.nodes g₁.nodes) :
    (mergeContinuousAxis E g₁ cubeType = none →
      getNonContinuousAxisPairBySpecialRule E g₁ = none) ∧
    ∀ g₂, mergeContinuousAxis E g₁ cubeType = some g₂ → ∃ replaced, KeepsLoops E g g₁ g₂ removed replaced := by
  rcases h.length with ⟨k₀, hk₀, hlen₀⟩
  -- the nodes of the first graph
  have hback : ∀ n₁ ∈ g₁.nodes, ∃ n ∈ g.nodes, NodeRemoved removed n n₁ := by
    intro n₁ hn₁
    rcases forall₂_iff_get.mp hrem with ⟨hlength, hget⟩
    rcases mem_iff_get.mp hn₁ with ⟨i, rfl⟩
    have hi := Nat.lt_of_lt_of_eq i.2 hlength.symm
    exact ⟨_, List.get_mem _ _, hget i hi i.2⟩
  have hcompute : ∀ n₁ ∈ g₁.computeNodes, ∃ n ∈ g.computeNodes, NodeRemoved removed n n₁ := by
    intro n₁ hn₁
    rcases mem_computeNodes.mp hn₁ with ⟨hn₁, hbuffer⟩
    rcases hback n₁ hn₁ with ⟨n, hn, hrel⟩
    rw [hrel.rest] at hbuffer
    exact ⟨n, mem_computeNodes.mpr ⟨hn, hbuffer⟩, hrel⟩
  have hlen : ∀ n₁ ∈ g₁.computeNodes,
      n₁.sched.length = ((range k₀).filter (!removed.contains ·)).length := by
    intro n₁ hn₁
    rcases hcompute n₁ hn₁ with ⟨n, hn, hrel⟩
    rw [hrel.length (mem_computeNodes.mp hn).2, hlen₀ n hn]
  have hpos : ∀ n₁ ∈ g₁.computeNodes, n₁.sched ≠ [] := by
    intro n₁ hn₁ hnil
    rcases hcompute n₁ hn₁ with ⟨n, hn, hrel⟩
    have hleft := hzero.some_left n hn
    rw [← hrel.length (mem_computeNodes.mp hn).2, hnil] at hleft
    exact lt_irrefl 0 hleft
  have hrange : ∀ n₁ ∈ g₁.nodes, ∀ a ∈ n₁.ids, 0 ≤ a ∧ a < g.axes.length := by
    intro n₁ hn₁ a ha
    rcases hback n₁ hn₁ with ⟨n, hn, hrel⟩
    exact h.ids n hn a (hrel.ids_subset ha)
  have htable : TableOk E g.axes { axes := g₁.axes } := by
    rw [haxes]
    refine ⟨prefix_refl _, fun i axis hi haxis => ?_, fun c m hm => by cases hm⟩
    exact absurd (List.getElem?_eq_some_iff.mp haxis).1 (not_lt.mpr hi)
  have hrun : ∀ (groups : List (List ℤ)) (pairs : List (ℤ × ℤ)),
      GroupsOf E g₁ pairs ((range k₀).filter (!removed.contains ·)).length groups → _ :=
    fun groups pairs hgroups => mergeNodes_spec htable hrange fun n₁ hn₁ hbuffer => by
      have hmem := mem_computeNodes.mpr ⟨hn₁, hbuffer⟩
      rcases hcompute n₁ hmem with ⟨n, hn, hrel⟩
      have hok := ok_of_removed (h.ok n hn) hrel
      exact ⟨hok, hgroups.inNode hmem hok (hlen n₁ hmem)⟩
  rw [mergeContinuousAxis]
  split
  · -- nothing is merged
    refine ⟨fun hnone => (some_ne_none _ hnone).elim, fun g₂ hg₂ => ?_⟩
    cases hg₂
    rcases hrun [] [] (GroupsOf.nil []) with ⟨nodes₂, st, hnodes, hst, _, hall⟩
    have hself : ∀ n₁ ∈ g₁.nodes, NodeResult E g.axes g₁.axes [] n₁ n₁ := by
      intro n₁ hn₁
      refine ⟨.refl fun a ha => sources_lt (hrange n₁ hn₁ a ha).2, fun _ => rfl, ?_, ?_⟩
      · rw [haxes]
        exact hrange n₁ hn₁
      · exact fun a ha => .inl (hrange n₁ hn₁ a ha).2
    have hkeeps : KeepsLoops E g g₁ ⟨g₁.nodes.map (Node.rename id), g₁.axes⟩ removed
        (sources g.axes.length g₁.axes) :=
      keepsLoops_of_run h hzero hrem hlen (GroupsOf.nil []) (fun _ _ => .inl rfl) htable
      (forall₂_same.mpr hself) fun n hn a ha =>
        ⟨rfl, (hrange n hn a ha).1, by rw [haxes]; exact (hrange n hn a ha).2, fun _ => rfl⟩
    rw [rename_id] at hkeeps
    exact ⟨_, hkeeps⟩
  · have hpotential : ∃ groups₀, potentialAxisIdx g₁ = some groups₀ ∧ ∀ pairs,
        GroupsOf E g₁ pairs ((range k₀).filter (!removed.contains ·)).length
          (mergeContinuousPairs (continuousPairs E g₁ pairs groups₀)) := by
      rw [potentialAxisIdx]
      cases hnodes : g₁.computeNodes with
      | nil => exact ⟨[], rfl, fun pairs => GroupsOf.nil pairs⟩
      | cons n₁ rest =>
        have hn₁ : n₁ ∈ g₁.computeNodes := hnodes ▸ mem_cons_self
        have hne : ¬ n₁.sched.isEmpty = true := fun hemp => hpos n₁ hn₁ (List.isEmpty_iff.mp hemp)
        dsimp only
        rw [if_neg hne]
        refine ⟨_, rfl, fun pairs => ?_⟩
        rw [hlen n₁ hn₁]
        exact groupsOf_pairs pairs _
    rcases hpotential with ⟨potential, hpotential, hgroups⟩
    rw [hpotential]
    cases hpairs : getNonContinuousAxisPairBySpecialRule E g₁ with
    | none => exact ⟨fun _ => rfl, fun g₂ hg₂ => by cases hg₂⟩
    | some pairs =>
      dsimp only
      rcases hrun _ pairs (hgroups pairs) with ⟨nodes₂, st, hnodes, hst, _, hall⟩
      have hres := hall st.axes (prefix_refl _)
      have hrange₂ : ∀ n₂ ∈ nodes₂, ∀ a ∈ n₂.ids, 0 ≤ a ∧ a < st.axes.length := by
        intro n₂ hn₂
        rcases forall₂_iff_get.mp hres with ⟨hlength, hget⟩
        rcases mem_iff_get.mp hn₂ with ⟨i, rfl⟩
        have hi := Nat.lt_of_lt_of_eq i.2 hlength.symm
        exact (hget i hi i.2).range
      have hsame : ∀ pairs', some pairs = some pairs' →
          mergeContinuousPairs (continuousPairs E g₁ pairs potential) = [] ∨ pairs' = pairs :=
        fun pairs' heq => .inr (some.inj heq).symm
      rw [← hpairs] at hsame
      rw [hnodes]
      dsimp only
      split
      · -- the axes get new numbers
        have hlength : (toOriginal st.newMergedAxes st.axes).length = st.axes.length := by
          rw [toOriginal, length_mapIdx]
        rcases removeUnusedAxes_spec (E := E) (g := ⟨nodes₂, toOriginal st.newMergedAxes st.axes⟩)
          (by rw [hlength]; exact hrange₂) with ⟨last, axes₂, hnew, hmem, haxes₂, hsize⟩
        rw [hnew]
        refine ⟨fun hnone => (some_ne_none _ hnone).elim, fun g₂ hg₂ => ?_⟩
        cases hg₂
        refine ⟨fun b => sources g.axes.length st.axes (last[b.toNat]?.getD 0),
          keepsLoops_of_run h hzero hrem hlen (hgroups pairs) hsame hst hres fun n hn a ha => ?_⟩
        have hlast := hmem n hn a ha
        have hidx := idxOf_lt_length_iff.mpr hlast
        refine ⟨?_, Int.natCast_nonneg _, ?_, fun v => ?_⟩
        · rw [number, Int.toNat_natCast, getElem?_eq_getElem hidx, getElem_idxOf]
          rfl
        · rw [haxes₂]
          exact Int.ofNat_lt.mpr hidx
        · rw [hsize a hlast v]
          exact sizeAt_toOriginal _ _ v a
      · refine ⟨fun hnone => (some_ne_none _ hnone).elim, fun g₂ hg₂ => ?_⟩
        cases hg₂
        have hkeeps : KeepsLoops E g g₁ ⟨nodes₂.map (Node.rename id), st.axes⟩ removed
            (sources g.axes.length st.axes) :=
          keepsLoops_of_run h hzero hrem hlen (hgroups pairs) hsame hst hres fun n hn a ha =>
            ⟨rfl, (hrange₂ n hn a ha).1, (hrange₂ n hn a ha).2, fun _ => rfl⟩
        rw [rename_id] at hkeeps
        exact ⟨_, hkeeps⟩

end Proofs

/-! ## The result -/

/-- Removing the positions along which nothing moves succeeds, merging the continuous axes fails only
where the special rule does, and both together keep the loops of every tensor. -/
theorem mergeLoopAxes_keepsLoops (E : Symbols ε σ) (g : Graph ε) (cubeType : CubeTemplateType)
    (h : g.WellFormed) : ∃ g₁, removeAllZeroStrideLoopAxis E g = some g₁ ∧
      (mergeContinuousAxis E g₁ cubeType = none →
        getNonContinuousAxisPairBySpecialRule E g₁ = none) ∧
      ∀ g₂, mergeContinuousAxis E g₁ cubeType = some g₂ →
        ∃ removed replaced, KeepsLoops E g g₁ g₂ removed replaced := by
  rcases removeAll_spec (E := E) h with ⟨removed, g₁, hrun, hzero, haxes, hrem⟩
  rcases mergeContinuousAxis_spec cubeType h hzero haxes hrem with ⟨hfail, hkeeps⟩
  exact ⟨g₁, hrun, hfail, fun g₂ hg₂ => ⟨removed, hkeeps g₂ hg₂⟩⟩

theorem constants_eval_one (v : Unit) : VectorAxis.constants.eval 1 v = 1 := rfl

/-- Expressions without symbols. -/
def constants : Symbols ℤ Unit where
  toSymbolicUtils := VectorAxis.constants
  kSymbolOne := 1
  eval_one := constants_eval_one

/-- Two nodes with axes of their own, of two by three by four; nothing moves along the first axis. -/
def twoAxisSets : Graph ℤ where
  nodes := [{ isBuffer := true, sched := [], outputs := [⟨[0], [24], [1]⟩] },
    { computeType := .load, inputs := [(0, 0)], sched := [0, 1, 2],
      outputs := [⟨[0, 1, 2], [2, 3, 4], [0, 4, 1]⟩] },
    { inputs := [(1, 0)], sched := [3, 4, 5], outputs := [⟨[3, 4, 5], [2, 3, 4], [0, 4, 1]⟩] }]
  axes := [⟨.original, 2, []⟩, ⟨.original, 3, []⟩, ⟨.original, 4, []⟩, ⟨.original, 2, []⟩,
    ⟨.original, 3, []⟩, ⟨.original, 4, []⟩]

theorem twoAxisSets_wellFormed : twoAxisSets.WellFormed where
  length := ⟨3, by decide, by decide⟩
  ok := by
    have hparts : ∀ n ∈ twoAxisSets.computeNodes, n.sched.Nodup ∧ (∀ t ∈ n.outputs, t.Valid) ∧
        ∀ t ∈ n.outputs, t.axis.Nodup := by decide
    exact fun n hn => ⟨(hparts n hn).1, (hparts n hn).2.1, (hparts n hn).2.2⟩
  scheduled := by
    have hmem : ∀ n ∈ twoAxisSets.computeNodes, ∀ t ∈ n.outputs, ∀ a ∈ t.axis, a ∈ n.sched := by decide
    exact fun n hn t ht a ha => hmem n hn t ht a ha
  ids := by decide

theorem mergeLoopAxes_keepsLoops_twoAxisSets : ∃ g₁,
    removeAllZeroStrideLoopAxis constants twoAxisSets = some g₁ ∧
      (mergeContinuousAxis constants g₁ .default = none →
        getNonContinuousAxisPairBySpecialRule constants g₁ = none) ∧
      ∀ g₂, mergeContinuousAxis constants g₁ .default = some g₂ →
        ∃ removed replaced, KeepsLoops constants twoAxisSets g₁ g₂ removed replaced :=
  mergeLoopAxes_keepsLoops constants twoAxisSets .default twoAxisSets_wellFormed

/-- A node whose output moves along an axis that is not in the schedule list. -/
def unscheduled : Graph ℤ where
  nodes := [{ sched := [0, 1], outputs := [⟨[0, 1, 2], [2, 3, 4], [0, 1, 3]⟩] }]
  axes := [⟨.original, 2, []⟩, ⟨.original, 3, []⟩, ⟨.original, 4, []⟩]

/-- Two nodes with schedule lists of one length, one of which names an axis twice. -/
def repeated : Graph ℤ where
  nodes := [{ sched := [0, 0, 1], outputs := [⟨[0, 1], [2, 3], [3, 1]⟩] },
    { sched := [0, 1, 2], outputs := [⟨[0, 1, 2], [2, 3, 4], [16, 4, 1]⟩] }]
  axes := [⟨.original, 2, []⟩, ⟨.original, 3, []⟩, ⟨.original, 4, []⟩]

/-- The axis that is not scheduled goes with the position that is dropped, and the list that names an
axis twice becomes shorter than the other. -/
theorem not_mergeLoopAxes_keepsLoops :
    (∃ g₁ g₂, removeAllZeroStrideLoopAxis constants unscheduled = some g₁ ∧
      mergeContinuousAxis constants g₁ .default = some g₂ ∧
      ∀ removed replaced, ¬ KeepsLoops constants unscheduled g₁ g₂ removed replaced) ∧
    ∃ g₁ g₂, removeAllZeroStrideLoopAxis constants repeated = some g₁ ∧
      mergeContinuousAxis constants g₁ .default = some g₂ ∧
      ∀ removed replaced, ¬ KeepsLoops constants repeated g₁ g₂ removed replaced := by
  constructor
  · refine ⟨⟨[{ sched := [1], outputs := [⟨[1], [3], [1]⟩] }], unscheduled.axes⟩,
      ⟨[{ sched := [0], outputs := [⟨[0], [3], [1]⟩] }], [⟨.original, 3, []⟩]⟩, by decide, by decide,
      fun removed replaced h => ?_⟩
    have hnode := (forall₂_cons.mp h.nodes).1
    have htensor := (forall₂_cons.mp hnode.outputs).1
    have hmem : ∀ a ∈ Node.dropped (unscheduled.nodes[0]) removed, a = 0 ∨ a = 1 := by
      intro a ha
      rcases mem_filterMap.mp ha with ⟨i, _, hi⟩
      have ha' := mem_of_getElem? hi
      simpa [unscheduled] using ha'
    have htwo : (Node.dropped (unscheduled.nodes[0]) removed).contains 2 = false := by
      rw [← Bool.not_eq_true, contains_iff_mem]
      intro hin
      rcases hmem 2 hin with heq | heq
      · exact absurd heq (by decide)
      · exact absurd heq (by decide)
    have hone : (Node.dropped (unscheduled.nodes[0]) removed).contains 1 = false := by
      rw [← Bool.not_eq_true, contains_iff_mem]
      intro hin
      -- the output moves along this axis
      rcases mem_filterMap.mp hin with ⟨i, hi, hget⟩
      have hzero := h.zero i hi unscheduled.nodes[0] (by decide) ⟨[0, 1, 2], [2, 3, 4], [0, 1, 3]⟩
        (by decide) ⟨1, 3, 1⟩ (by decide) hget ()
      exact absurd hzero (by decide)
    have hoff := htensor.offsets () (by unfold SizesAt; decide)
    have hdims : (Tensor.dims (⟨[0, 1, 2], [2, 3, 4], [0, 1, 3]⟩ : Tensor ℤ)) =
        [⟨0, 2, 0⟩, ⟨1, 3, 1⟩, ⟨2, 4, 3⟩] := by decide
    rw [hdims] at hoff
    cases hfirst : (Node.dropped (unscheduled.nodes[0]) removed).contains 0 with
    | true =>
      have hfilter : ([⟨0, 2, 0⟩, ⟨1, 3, 1⟩, ⟨2, 4, 3⟩] : List (Dim ℤ)).filter
          (!(Node.dropped (unscheduled.nodes[0]) removed).contains ·.axis) = [⟨1, 3, 1⟩, ⟨2, 4, 3⟩] := by
        simp [hfirst, hone, htwo, -contains_eq_mem]
      exact absurd (congrArg List.length (hoff.trans (congrArg _ (congrArg _ hfilter)))) (by decide)
    | false =>
      have hfilter : ([⟨0, 2, 0⟩, ⟨1, 3, 1⟩, ⟨2, 4, 3⟩] : List (Dim ℤ)).filter
          (!(Node.dropped (unscheduled.nodes[0]) removed).contains ·.axis) =
            [⟨0, 2, 0⟩, ⟨1, 3, 1⟩, ⟨2, 4, 3⟩] := by
        simp [hfirst, hone, htwo, -contains_eq_mem]
      exact absurd (congrArg List.length (hoff.trans (congrArg _ (congrArg _ hfilter)))) (by decide)
  · refine ⟨repeated, ⟨[{ sched := [0], outputs := [⟨[0], [6], [1]⟩] },
      { sched := [1, 2], outputs := [⟨[1, 2], [2, 12], [16, 1]⟩] }],
      [⟨.original, 6, []⟩, ⟨.original, 2, []⟩, ⟨.original, 12, []⟩]⟩, by decide, by decide,
      fun removed replaced h => ?_⟩
    rcases h.length with ⟨k, hk⟩
    have hfirst := hk _ (mem_cons_self ..)
    have hsecond := hk _ (mem_cons_of_mem _ (mem_cons_self ..))
    exact absurd (hfirst.trans hsecond.symm) (by decide)

end GraphAutofusion.Autofuse.LoopAxes
