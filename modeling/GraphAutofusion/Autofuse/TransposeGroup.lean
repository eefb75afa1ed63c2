import GraphAutofusion.Autofuse.TilingGroup

/-!
# Autofuse.TransposeGroup — the axis group of a transpose

`GenTransposeTilingGroup` walks the input and the output order from their tails. The common tail must
not be tiled; from the first difference on, the input axes go to x and the output axes to y, unless
the other list has them already.
-/

namespace GraphAutofusion.Autofuse

open List

open VectorAxis (AxisId)

/-- The lists while the generator fills them, with the axes that are in none yet. -/
structure TransposeState where
  remainingAxis : Finset AxisId
  xGroup : List AxisId := []
  yGroup : List AxisId := []

/-- `PlaceRemainingAxis`, over the output axes from a position down to the first one. -/
def placeRemainingAxis (remainingAxis : Finset AxisId) : List AxisId → List AxisId → List AxisId
  | [], yGroup => yGroup
  | b :: outputAxis, yGroup =>
    if b ∈ remainingAxis then placeRemainingAxis remainingAxis outputAxis (b :: yGroup)
    else placeRemainingAxis remainingAxis outputAxis yGroup

namespace TransposeState

def placeInput (s : TransposeState) (a : AxisId) : TransposeState :=
  if s.yGroup.contains a then s
  else { s with xGroup := a :: s.xGroup, remainingAxis := s.remainingAxis.erase a }

def placeOutput (s : TransposeState) (b : AxisId) : TransposeState :=
  if s.xGroup.contains b then s
  else { s with yGroup := b :: s.yGroup, remainingAxis := s.remainingAxis.erase b }

/-- The second loop, over the pairs of axes from a position down to the first one. -/
def placeAxes : TransposeState → List (AxisId × AxisId) → TransposeState
  | s, [] => s
  | s, (a, b) :: rest =>
    let s' := (s.placeInput a).placeOutput b
    if s'.yGroup.contains a && s'.xGroup.contains b then
      { s' with yGroup := placeRemainingAxis s'.remainingAxis (b :: rest.map (·.2)) s'.yGroup }
    else s'.placeAxes rest

end TransposeState

/-- The conversion to `size_t`. -/
def toSize (a : AxisId) : ℕ := (a % 18446744073709551616).toNat

def genTransposeTilingGroup (inputAxis outputAxis : List AxisId) : Option AxisGroup :=
  if inputAxis.length ≠ outputAxis.length then none
  else
    let pairs := (inputAxis.zip outputAxis).reverse
    let common := (pairs.takeWhile fun p => p.1 == p.2).map (·.1)
    let s := TransposeState.placeAxes { remainingAxis := inputAxis.toFinset \ common.toFinset }
      (pairs.dropWhile fun p => p.1 == p.2)
    some {
      xGroup := s.xGroup
      yGroup := s.yGroup
      nGroup := common.reverse
      axesOrder := (s.xGroup ++ s.yGroup).map toSize }

namespace TransposeState

variable {s : TransposeState} {axes ins outs : List AxisId} {a b : AxisId}

/-- The input axes `ins` and the output axes `outs` have been placed. -/
structure Placed (axes ins outs : List AxisId) (s : TransposeState) : Prop where
  x : s.xGroup.Sublist ins
  y : s.yGroup.Sublist outs
  disjoint : ∀ a ∈ s.xGroup, a ∉ s.yGroup
  input : ∀ a ∈ ins, a ∈ s.xGroup ∨ a ∈ s.yGroup
  output : ∀ b ∈ outs, b ∈ s.xGroup ∨ b ∈ s.yGroup
  remaining : ∀ a, a ∈ s.remainingAxis ↔ a ∈ axes ∧ a ∉ s.xGroup ∧ a ∉ s.yGroup

theorem Placed.placeInput (h : Placed axes ins outs s) (a : AxisId) :
    Placed axes (a :: ins) outs (s.placeInput a) := by
  unfold TransposeState.placeInput
  split_ifs with hy
  · rw [contains_iff_mem] at hy
    refine ⟨h.x.cons a, h.y, h.disjoint, ?_, h.output, h.remaining⟩
    intro c hc
    rcases mem_cons.mp hc with rfl | hc
    · exact .inr hy
    · exact h.input c hc
  · rw [contains_iff_mem] at hy
    refine ⟨h.x.cons_cons a, h.y, ?_, ?_, ?_, ?_⟩
    · intro c hc
      rcases mem_cons.mp hc with rfl | hc
      · exact hy
      · exact h.disjoint c hc
    · intro c hc
      rcases mem_cons.mp hc with rfl | hc
      · exact .inl mem_cons_self
      · exact (h.input c hc).imp_left (mem_cons_of_mem a)
    · exact fun c hc => (h.output c hc).imp_left (mem_cons_of_mem a)
    · intro c
      dsimp only
      rw [Finset.mem_erase, h.remaining, mem_cons, not_or]
      tauto

theorem Placed.placeOutput (h : Placed axes ins outs s) (b : AxisId) :
    Placed axes ins (b :: outs) (s.placeOutput b) := by
  unfold TransposeState.placeOutput
  split_ifs with hx
  · rw [contains_iff_mem] at hx
    refine ⟨h.x, h.y.cons b, h.disjoint, h.input, ?_, h.remaining⟩
    intro c hc
    rcases mem_cons.mp hc with rfl | hc
    · exact .inl hx
    · exact h.output c hc
  · rw [contains_iff_mem] at hx
    refine ⟨h.x, h.y.cons_cons b, ?_, ?_, ?_, ?_⟩
    · intro c hc hcy
      rcases mem_cons.mp hcy with rfl | hcy
      · exact hx hc
      · exact h.disjoint c hc hcy
    · exact fun c hc => (h.input c hc).imp_right (mem_cons_of_mem b)
    · intro c hc
      rcases mem_cons.mp hc with rfl | hc
      · exact .inr mem_cons_self
      · exact (h.output c hc).imp_right (mem_cons_of_mem b)
    · intro c
      dsimp only
      rw [Finset.mem_erase, h.remaining, mem_cons, not_or]
      tauto

end TransposeState

theorem placeRemainingAxis_eq (remaining : Finset AxisId) (outs y : List AxisId) :
    placeRemainingAxis remaining outs y = (outs.filter (· ∈ remaining)).reverse ++ y := by
  induction outs generalizing y with
  | nil => rfl
  | cons b outs ih =>
    rw [placeRemainingAxis]
    split_ifs with hb
    · rw [ih, filter_cons_of_pos (by simpa using hb), reverse_cons, append_assoc]
      rfl
    · rw [ih, filter_cons_of_neg (by simpa using hb)]

namespace TransposeState

variable {s : TransposeState} {axes ins outs : List AxisId}

/-- What the walk has placed when it ends. -/
structure Done (axes ins outs : List AxisId) (s s' : TransposeState) : Prop where
  x : s'.xGroup.Sublist ins
  y : s'.yGroup.Sublist outs
  disjoint : ∀ a ∈ s'.xGroup, a ∉ s'.yGroup
  cover : ∀ a ∈ axes, a ∈ s'.xGroup ∨ a ∈ s'.yGroup
  keepsX : ∀ a ∈ s.xGroup, a ∈ s'.xGroup
  keepsY : ∀ b ∈ s.yGroup, b ∈ s'.yGroup

theorem placePair_keeps (s : TransposeState) (a b : AxisId) :
    (∀ c ∈ s.xGroup, c ∈ ((s.placeInput a).placeOutput b).xGroup) ∧
      ∀ c ∈ s.yGroup, c ∈ ((s.placeInput a).placeOutput b).yGroup := by
  unfold placeOutput placeInput
  split_ifs
  all_goals exact ⟨fun c hc => by simp [hc], fun c hc => by simp [hc]⟩

/-- Where the walk stops early, the remaining axes are the output axes still ahead of it. -/
theorem placeAxes_done (rest : List (AxisId × AxisId)) (h : Placed axes ins outs s)
    (haxes : ∀ a ∈ axes, a ∈ rest.map (·.2) ∨ a ∈ outs) :
    Done axes ((rest.map (·.1)).reverse ++ ins) ((rest.map (·.2)).reverse ++ outs) s
      (s.placeAxes rest) := by
  induction rest generalizing s ins outs with
  | nil =>
    refine ⟨h.x, h.y, h.disjoint, fun a ha => h.output a ?_, fun _ => id, fun _ => id⟩
    simpa using haxes a ha
  | cons p rest ih =>
    rcases p with ⟨a, b⟩
    have hs := (h.placeInput a).placeOutput b
    rcases placePair_keeps s a b with ⟨hkx, hky⟩
    simp only [placeAxes, map_cons, reverse_cons, append_assoc, singleton_append]
    split_ifs with hstop
    · rw [Bool.and_eq_true, contains_iff_mem, contains_iff_mem] at hstop
      -- the current output axis is in x already, so y has only earlier ones
      have hy : ((s.placeInput a).placeOutput b).yGroup.Sublist outs := by
        rcases sublist_cons_iff.mp hs.y with hy | ⟨l, hl, -⟩
        · exact hy
        · exact absurd (hl ▸ mem_cons_self) (hs.disjoint b hstop.2)
      refine ⟨hs.x.trans (sublist_append_right _ _), ?_, ?_, ?_, hkx, fun c hc => ?_⟩
      · rw [placeRemainingAxis_eq]
        have hle := (filter_sublist (p := fun c => decide
          (c ∈ ((s.placeInput a).placeOutput b).remainingAxis))
          (l := b :: rest.map (·.2))).reverse.append hy
        simpa using hle
      · intro c hc hcy
        rw [placeRemainingAxis_eq, mem_append, mem_reverse, mem_filter] at hcy
        rcases hcy with hcy | hcy
        · exact ((hs.remaining c).mp (by simpa using hcy.2)).2.1 hc
        · exact hs.disjoint c hc hcy
      · intro c hc
        rw [placeRemainingAxis_eq, mem_append, mem_reverse, mem_filter]
        by_contra hno
        simp only [not_or, not_and, decide_eq_true_eq] at hno
        rcases haxes c hc with hmem | hmem
        · exact hno.2.1 (by simpa using hmem) ((hs.remaining c).mpr ⟨hc, hno.1, hno.2.2⟩)
        · exact (hs.output c (mem_cons_of_mem b hmem)).elim hno.1 hno.2.2
      · rw [placeRemainingAxis_eq]
        exact mem_append_right _ (hky c hc)
    · have hrest := ih hs fun c hc => by
        have hmem := haxes c hc
        simp only [map_cons, mem_cons] at hmem ⊢
        tauto
      exact ⟨hrest.x, hrest.y, hrest.disjoint, hrest.cover,
        fun c hc => hrest.keepsX c (hkx c hc), fun c hc => hrest.keepsY c (hky c hc)⟩

/-- The first pair that differs is split between x and y. -/
theorem placePair_first (remaining : Finset AxisId) {a b : AxisId} (hab : a ≠ b) :
    a ∈ ((placeInput { remainingAxis := remaining } a).placeOutput b).xGroup ∧
      b ∈ ((placeInput { remainingAxis := remaining } a).placeOutput b).yGroup := by
  simp [placeInput, placeOutput, hab.symm]

end TransposeState

open TransposeState

/-- The last entry of a reversed list comes from its head. -/
theorem exists_cons_of_map_reverse {d : List (AxisId × AxisId)} {f : AxisId × AxisId → AxisId}
    {tail l t : List AxisId} {a : AxisId} (hl : l = (d.map f).reverse ++ tail)
    (h : l = t ++ a :: tail) : ∃ p rest, d = p :: rest ∧ f p = a := by
  rw [hl, append_cons, append_cancel_right_eq] at h
  cases d with
  | nil => simp at h
  | cons p rest =>
    rw [map_cons, reverse_cons] at h
    exact ⟨p, rest, rfl, by simpa using (append_inj' h rfl).2⟩

/-- The generator splits the axes between the longest common tail, an x list in input order and a y
list in output order. -/
theorem genTransposeTilingGroup_spec (inputAxis outputAxis : List AxisId) (hnodup : inputAxis.Nodup)
    (hperm : outputAxis.Perm inputAxis) :
    ∃ g, genTransposeTilingGroup inputAxis outputAxis = some g ∧ g.rGroup = [] ∧ g.WellFormed ∧
      (∀ a, a ∈ g.tiled ++ g.nGroup ↔ a ∈ inputAxis) ∧
      g.xGroup.Sublist inputAxis ∧ g.yGroup.Sublist outputAxis ∧
      (∀ t, t <:+ g.nGroup ↔ t <:+ inputAxis ∧ t <:+ outputAxis) ∧
      (∀ front a, inputAxis = front ++ a :: g.nGroup → a ∈ g.xGroup) ∧
      ∀ front b, outputAxis = front ++ b :: g.nGroup → b ∈ g.yGroup := by
  have hlen : inputAxis.length = outputAxis.length := hperm.length_eq.symm
  rw [genTransposeTilingGroup, if_neg (not_not.mpr hlen)]
  set pairs := (inputAxis.zip outputAxis).reverse
  set d := pairs.dropWhile fun p => p.1 == p.2
  set common := (pairs.takeWhile fun p => p.1 == p.2).map (·.1)
  have hsplit : pairs.takeWhile (fun p => p.1 == p.2) ++ d = pairs := takeWhile_append_dropWhile
  have hcommon : (pairs.takeWhile fun p => p.1 == p.2).map (·.2) = common := by
    apply map_congr_left
    intro p hp
    have heq := all_eq_true.mp
      (all_takeWhile (p := fun p : AxisId × AxisId => p.1 == p.2)) p hp
    exact (beq_iff_eq.mp heq).symm
  have hin : inputAxis = (d.map (·.1)).reverse ++ common.reverse := by
    rw [← reverse_append, ← map_append, hsplit, map_reverse, reverse_reverse]
    exact (map_fst_zip hlen.le).symm
  have hout : outputAxis = (d.map (·.2)).reverse ++ common.reverse := by
    rw [← reverse_append, ← hcommon, ← map_append, hsplit, map_reverse,
      reverse_reverse]
    exact (map_snd_zip hlen.ge).symm
  have hnd := hin ▸ hnodup
  have hnd' := hout ▸ hperm.nodup_iff.mpr hnodup
  rw [nodup_append] at hnd hnd'
  have hmem : ∀ a, a ∈ inputAxis ↔ a ∈ d.map (·.2) ∨ a ∈ common := by
    intro a
    rw [← hperm.mem_iff, hout]
    simp only [mem_append, mem_reverse]
  have hplaced : Placed (d.map (·.2)) [] [] { remainingAxis := inputAxis.toFinset \ common.toFinset } := by
    refine ⟨.refl _, .refl _, by simp, by simp, by simp, fun a => ?_⟩
    have hdisj : a ∈ d.map (·.2) → a ∉ common := fun ha hc =>
      hnd'.2.2 a (mem_reverse.mpr ha) a (mem_reverse.mpr hc) rfl
    simp only [Finset.mem_sdiff, mem_toFinset, hmem, not_mem_nil, not_false_eq_true, and_true]
    tauto
  have hdone := placeAxes_done d hplaced fun _ => .inl
  rw [append_nil, append_nil] at hdone
  set s := placeAxes { remainingAxis := inputAxis.toFinset \ common.toFinset } d with hs
  -- the pair in front of the common tail differs, and its axes are placed first
  have hfirst : ∀ p rest, d = p :: rest → p.1 ≠ p.2 ∧ p.1 ∈ s.xGroup ∧ p.2 ∈ s.yGroup := by
    intro p rest hd
    have hne : p.1 ≠ p.2 := by
      have hhead := head?_dropWhile_not (fun p : AxisId × AxisId => p.1 == p.2) pairs
      rw [show pairs.dropWhile (fun p => p.1 == p.2) = p :: rest from hd] at hhead
      simpa using hhead
    have hplace := placePair_first (inputAxis.toFinset \ common.toFinset) hne
    have hkeep := placeAxes_done rest ((hplaced.placeInput p.1).placeOutput p.2) fun c hc => by
      rw [hd, map_cons, mem_cons] at hc
      rw [mem_singleton]
      tauto
    have hrun : s = (({ remainingAxis := inputAxis.toFinset \ common.toFinset } : TransposeState).placeInput
        p.1 |>.placeOutput p.2).placeAxes rest := by
      rw [hs, hd, placeAxes, if_neg]
      simp [placeInput, placeOutput, hne, hne.symm]
    rw [hrun]
    exact ⟨hne, hkeep.keepsX _ hplace.1, hkeep.keepsY _ hplace.2⟩
  have hx : s.xGroup.Sublist inputAxis := hdone.x.trans (hin ▸ sublist_append_left _ _)
  have hy : s.yGroup.Sublist outputAxis := hdone.y.trans (hout ▸ sublist_append_left _ _)
  refine ⟨_, rfl, rfl, ?_, fun a => ?_, hx, hy, fun t => ⟨fun ht => ?_, fun ht => ?_⟩, ?_, ?_⟩
  · rw [AxisGroup.WellFormed, AxisGroup.tiled, append_nil, nodup_append, nodup_append]
    refine ⟨⟨hnodup.sublist hx, (hperm.nodup_iff.mpr hnodup).sublist hy, ?_⟩, hnd.2.1, ?_⟩
    · exact fun a ha b hb hab => hdone.disjoint a ha (hab ▸ hb)
    · intro a ha b hb hab
      rcases mem_append.mp ha with ha | ha
      · exact hnd.2.2 a (hdone.x.subset ha) b hb hab
      · exact hnd'.2.2 a (hdone.y.subset ha) b hb hab
  · simp only [AxisGroup.tiled, mem_append, not_mem_nil, or_false, mem_reverse]
    constructor
    · rintro ((ha | ha) | ha)
      · exact hx.subset ha
      · exact hperm.mem_iff.mp (hy.subset ha)
      · exact (hmem a).mpr (.inr ha)
    · exact fun ha => ((hmem a).mp ha).imp_left (hdone.cover a)
  · exact ⟨ht.trans (hin ▸ suffix_append _ _), ht.trans (hout ▸ suffix_append _ _)⟩
  · -- a longer common tail would need a pair of equal axes in front of the common tail
    rcases suffix_or_suffix_of_suffix ht.1 (hin ▸ suffix_append _ _) with h | ⟨u, rfl⟩
    · exact h
    rcases eq_nil_or_concat u with rfl | ⟨u, c, rfl⟩
    · exact suffix_rfl
    · rcases ht with ⟨⟨v, hv⟩, w, hw⟩
      rcases exists_cons_of_map_reverse hin (t := v ++ u) (a := c) (by simp [← hv]) with
        ⟨p, rest, hd, hp⟩
      rcases exists_cons_of_map_reverse hout (t := w ++ u) (a := c) (by simp [← hw]) with
        ⟨q, rest', hd', hq⟩
      cases hd.symm.trans hd'
      exact absurd (hp.trans hq.symm) (hfirst p rest hd).1
  · intro front a h
    rcases exists_cons_of_map_reverse hin h with ⟨p, rest, hd, rfl⟩
    exact (hfirst p rest hd).2.1
  · intro front b h
    rcases exists_cons_of_map_reverse hout h with ⟨p, rest, hd, rfl⟩
    exact (hfirst p rest hd).2.2

theorem genTransposeTilingGroup_spec_rotation :
    ∃ g, genTransposeTilingGroup [0, 1, 2, 3] [2, 0, 1, 3] = some g ∧ g.WellFormed ∧
      (∀ t, t <:+ g.nGroup ↔ t <:+ [0, 1, 2, 3] ∧ t <:+ [2, 0, 1, 3]) := by
  rcases genTransposeTilingGroup_spec [0, 1, 2, 3] [2, 0, 1, 3] (by decide) (by decide) with
    ⟨g, hg, -, hwell, -, -, -, hn, -⟩
  exact ⟨g, hg, hwell, hn⟩

end GraphAutofusion.Autofuse
