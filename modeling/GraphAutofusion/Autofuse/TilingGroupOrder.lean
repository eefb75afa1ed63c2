import GraphAutofusion.Autofuse.TilingGroup

/-!
# Autofuse.TilingGroupOrder — the groups of the nodes and their axes order

`GenTilingGroup` folds the groups of the nodes of a graph. `axes_order` holds positions in the loop axes
of a node. The axes that must not be tiled are erased from the lists, their positions from
`axes_order`, and the positions that stay still count the erased axes.
-/

namespace GraphAutofusion.Autofuse

open List AxisGroup

open VectorAxis (AxisId)

/-- What the generators read of a node: its loop axes, which of them the strides say are reduced, where
the repeats of input and output are known to be the same, and the axes on the other side. -/
inductive TilingNode where
  | elewise (axes : List AxisId)
  | reduce (axes : List AxisId) (reduced : List Bool)
  | reduceFullLoad (axes : List AxisId) (reduced : List Bool)
  | softmaxFullLoad (axes : List AxisId)
  | concat (axes : List AxisId) (sameRepeats : List Bool) (inputAxes : List (List AxisId))
  | split (axes : List AxisId) (sameRepeats : List Bool) (preSizeOne : Bool)
      (outputAxes : List (List AxisId))

def calcReduceAxes (axes : List AxisId) (reduced : List Bool) : List AxisId :=
  ((axes.zip reduced).filter (·.2)).map (·.1)

/-- The `axes_order` of a reduce: the positions of the other axes, then those of `back`. -/
def orderBehind (back axes : List AxisId) : List ℕ :=
  ((axes.zipIdx.filter fun p => !back.contains p.1) ++
    axes.zipIdx.filter fun p => back.contains p.1).map (·.2)

/-- `concat_dim` and `split_dim`. -/
def firstDifference (sameRepeats : List Bool) : ℕ :=
  if sameRepeats.contains false then sameRepeats.idxOf false else 0

def genElewiseTilingGroup (axes : List AxisId) : AxisGroup :=
  { yGroup := axes, axesOrder := range axes.length }

def genReduceTilingGroup (axes : List AxisId) (reduced : List Bool) : AxisGroup :=
  let r := calcReduceAxes axes reduced
  { yGroup := without r axes, rGroup := r, axesOrder := orderBehind r axes }

def genReduceTilingGroupFullLoad (axes n : List AxisId) : AxisGroup :=
  { yGroup := without n axes, nGroup := n, axesOrder := orderBehind n axes }

/-- The axes before `dim` may be tiled. -/
def genBefore (dim : ℕ) (axes : List AxisId) (others : List (List AxisId)) : AxisGroup :=
  { yGroup := axes.take dim
    nGroup := axes.drop dim ++ others.filterMap (·[dim]?)
    axesOrder := range (min dim axes.length) }

namespace TilingNode

/-- `GenAxisGroupForSingleNode`. -/
def axisGroup : TilingNode → AxisGroup
  | elewise axes => genElewiseTilingGroup axes
  | reduce axes reduced => genReduceTilingGroup axes reduced
  | reduceFullLoad axes reduced => genReduceTilingGroupFullLoad axes (calcReduceAxes axes reduced)
  | softmaxFullLoad axes => genReduceTilingGroupFullLoad axes axes.getLast?.toList
  | concat axes sameRepeats inputAxes => genBefore (firstDifference sameRepeats) axes inputAxes
  | split axes sameRepeats preSizeOne outputAxes =>
    if firstDifference sameRepeats = 0 ∨ preSizeOne then genElewiseTilingGroup axes
    else genBefore (firstDifference sameRepeats) axes outputAxes

end TilingNode

/-- The merges of `GenTilingGroup`; `none` is an index outside the list it reads. -/
def mergeAll (target : AxisGroup) : List AxisGroup → Option (Bool × AxisGroup)
  | [] => some (true, target)
  | g :: groups =>
    match mergeAxesGroup false target g with
    | none => none
    | some (false, target) => some (false, target)
    | some (true, target) => mergeAll target groups

/-- The axes that some node of the graph must not tile. -/
def allN (nodes : List TilingNode) : List AxisId :=
  sortedSet (nodes.flatMap (·.axisGroup.nGroup))

def genTilingGroup (nodes : List TilingNode) : Option (Bool × AxisGroup) :=
  mergeAll { nGroup := allN nodes } (nodes.map (·.axisGroup))

/-- The schedule accepts the merge. -/
def mergesInSchedule (target src : AxisGroup) : Bool :=
  (mergeAxesGroup false target src).any (·.1)

/-! ## Positions in the loop axes -/

variable {L l N cur : List AxisId} {reduced : List Bool} {g t : AxisGroup}

theorem filter_sublist_eq (h : l <+ L) (hL : L.Nodup) : L.filter (l.contains ·) = l := by
  induction h with
  | slnil => rfl
  | @cons l L a h ih =>
    have ha : a ∉ l := fun hmem => (nodup_cons.mp hL).1 (h.subset hmem)
    rw [filter_cons_of_neg (by simpa using ha), ih (nodup_cons.mp hL).2]
  | @cons_cons l L a h ih =>
    rw [filter_cons_of_pos (by simp)]
    refine congrArg (a :: ·) ((filter_congr fun c hc => ?_).trans (ih (nodup_cons.mp hL).2))
    have hca : c ≠ a := fun heq => (nodup_cons.mp hL).1 (heq ▸ hc)
    simp [hca]

theorem calcReduceAxes_sublist : calcReduceAxes L reduced <+ L := by
  unfold calcReduceAxes
  induction L generalizing reduced with
  | nil => exact nil_sublist _
  | cons a L ih =>
    cases reduced with
    | nil => exact nil_sublist _
    | cons b reduced =>
      cases b with
      | true => exact ih.cons_cons a
      | false => exact ih.cons a

theorem orderBehind_eq (hL : L.Nodup) (h : l <+ L) :
    orderBehind l L = (without l L ++ l).map (L.idxOf ·) := by
  have hidx : ∀ p ∈ L.zipIdx, p.2 = L.idxOf p.1 := by
    intro p hp
    rcases mem_zipIdx' hp with ⟨hlt, hget⟩
    rw [hget, hL.idxOf_getElem]
  have hpart : ∀ q : AxisId → Bool, (L.zipIdx.filter fun p => q p.1).map (·.2) =
      (L.filter q).map (L.idxOf ·) := by
    intro q
    rw [map_congr_left fun p hp => hidx p (mem_filter.mp hp).1, ← zipIdx_map_fst 0 L, filter_map,
      map_map, zipIdx_map_fst]
    rfl
  rw [orderBehind, map_append, hpart (!l.contains ·), hpart (l.contains ·), map_append,
    filter_sublist_eq h hL]
  rfl

theorem keptOrder_map (f : AxisId → ℕ) : keptOrder N l (l.map f) = (without N l).map f := by
  induction l with
  | nil => rfl
  | cons a l ih =>
    rw [map_cons, keptOrder, without, filter_cons, tail_cons, ih]
    cases N.contains a with
    | true => rfl
    | false => rfl

theorem matchesAt_map (f : AxisId → ℕ) :
    matchesAt cur (l.map f) l = some true ↔ ∀ a ∈ l, cur[f a]? = some a := by
  induction l with
  | nil => simp [matchesAt]
  | cons a l ih =>
    rw [map_cons, matchesAt, forall_mem_cons]
    cases cur[f a]? with
    | none => simp
    | some b =>
      dsimp only
      split_ifs with hb
      · rw [ih, hb, and_iff_right rfl]
      · simp [hb]

theorem matchesAt_isSome {order : List ℕ} (hlen : l.length ≤ order.length)
    (hcur : ∀ i ∈ order, i < cur.length) : ∃ ok, matchesAt cur order l = some ok := by
  induction l generalizing order with
  | nil => exact ⟨true, by rw [matchesAt]⟩
  | cons a l ih =>
    cases order with
    | nil => exact absurd hlen (by simp)
    | cons i order =>
      rcases forall_mem_cons.mp hcur with ⟨hi, hcur⟩
      rw [matchesAt, getElem?_eq_getElem hi]
      dsimp only
      split_ifs
      · exact ih (Nat.le_of_succ_le_succ hlen) hcur
      · exact ⟨false, rfl⟩

/-- The axes that stay are where they were exactly when they stood in front. -/
theorem filter_prefix_iff {p : AxisId → Bool} (hL : L.Nodup) :
    (∀ a ∈ L.filter p, (L.filter p)[L.idxOf a]? = some a) ↔ L.filter p <+: L := by
  induction L with
  | nil => simp
  | cons x L ih =>
    rcases nodup_cons.mp hL with ⟨hx, hL⟩
    have hidx : ∀ a ∈ L, (x :: L).idxOf a = L.idxOf a + 1 := fun a ha =>
      idxOf_cons_ne L fun heq => hx (heq ▸ ha)
    cases hp : p x with
    | true =>
      rw [filter_cons_of_pos hp, prefix_cons_inj, ← ih hL, forall_mem_cons, idxOf_cons_self]
      rw [and_iff_right (by rfl)]
      refine forall₂_congr fun a ha => ?_
      rw [hidx a (mem_of_mem_filter ha), getElem?_cons_succ]
    | false =>
      rw [filter_cons_of_neg (by simp [hp])]
      -- only an empty list is a prefix: a first axis that stays has moved to the front
      cases hf : L.filter p with
      | nil => simp
      | cons b rest =>
        have hb : b ∈ L.filter p := hf ▸ mem_cons_self
        have hbL := mem_of_mem_filter hb
        have hnodup := hf ▸ hL.filter p
        refine iff_of_false (fun h => ?_) fun h => ?_
        · have hb' := h b mem_cons_self
          rw [hidx b hbL, getElem?_cons_succ] at hb'
          exact (nodup_cons.mp hnodup).1 (mem_of_getElem? hb')
        · rw [cons_prefix_cons] at h
          exact hx (h.1 ▸ hbL)

/-! ## The fold -/

theorem removeNGroup_fields (n : List AxisId) (g : AxisGroup) :
    (g.removeNGroupAxisInXYRGroup n).xGroup = without n g.xGroup ∧
      (g.removeNGroupAxisInXYRGroup n).yGroup = without n g.yGroup ∧
      (g.removeNGroupAxisInXYRGroup n).rGroup = without n g.rGroup := by
  unfold removeNGroupAxisInXYRGroup
  split_ifs with hnil
  · have hself : ∀ l, without n l = l := fun l => without_eq_self fun _ _ => hnil ▸ not_mem_nil
    exact ⟨(hself _).symm, (hself _).symm, (hself _).symm⟩
  · exact ⟨rfl, rfl, rfl⟩

theorem tiled_removeNGroup (n : List AxisId) (g : AxisGroup) :
    (g.removeNGroupAxisInXYRGroup n).tiled = without n g.tiled := by
  rcases removeNGroup_fields n g with ⟨hx, hy, hr⟩
  simp only [tiled, hx, hy, hr, without, filter_append]

theorem order_removeNGroup {f : AxisId → ℕ} (n : List AxisId) (h : g.axesOrder = g.tiled.map f) :
    (g.removeNGroupAxisInXYRGroup n).axesOrder = (g.removeNGroupAxisInXYRGroup n).tiled.map f := by
  rw [tiled_removeNGroup]
  unfold removeNGroupAxisInXYRGroup
  split_ifs with hnil
  · rw [without_eq_self fun _ _ => hnil ▸ not_mem_nil, h]
  · exact h ▸ keptOrder_map f

/-- What the order of a group with r axes says: the positions of its axes in `L`, of which those that stay
are in front. -/
def InFront (N : List AxisId) (g : AxisGroup) : Prop :=
  g.rGroup = [] ∨ ∃ L : List AxisId, without N L <+: L ∧ g.axesOrder = g.tiled.map (L.idxOf ·) ∧
    (without N g.tiled).Perm (without N L)

/-- Every position is one of the list that is left. -/
def OrderFits (g : AxisGroup) : Prop :=
  g.rGroup = [] ∨ g.axesOrder.length = g.tiled.length ∧ ∀ i ∈ g.axesOrder, i < g.tiled.length

theorem InFront.removeNGroup (h : InFront N g) :
    InFront N (g.removeNGroupAxisInXYRGroup N) ∧ OrderFits (g.removeNGroupAxisInXYRGroup N) := by
  rcases h with h | ⟨L, hfront, horder, hperm⟩
  · have hr : (g.removeNGroupAxisInXYRGroup N).rGroup = [] := by
      rw [(removeNGroup_fields N g).2.2, h]
      rfl
    exact ⟨.inl hr, .inl hr⟩
  · have horder' := order_removeNGroup N horder
    have htwice : without N (without N g.tiled) = without N g.tiled :=
      without_eq_self fun c hc => (mem_without.mp hc).2
    refine ⟨.inr ⟨L, hfront, horder', ?_⟩, .inr ⟨by rw [horder', length_map], ?_⟩⟩
    · rw [tiled_removeNGroup, htwice]
      exact hperm
    · rw [horder', tiled_removeNGroup]
      intro i hi
      rcases mem_map.mp hi with ⟨a, ha, rfl⟩
      rcases hfront with ⟨rest, hrest⟩
      have ha' : a ∈ without N L := hperm.mem_iff.mp ha
      have hlt : L.idxOf a < (without N L).length := by
        nth_rewrite 1 [← hrest]
        rw [idxOf_append_of_mem ha']
        exact idxOf_lt_length_of_mem ha'
      rw [hperm.length_eq]
      exact hlt

theorem checkYAndYR_some (hx : t.xGroup = []) (hr : t.rGroup ≠ []) (hfits : OrderFits t)
    (cur : List AxisId) : ∃ ok, checkYAndYR false cur t.yGroup t.rGroup t.axesOrder = some ok := by
  rcases hfits.resolve_left hr with ⟨horder, hlt⟩
  simp only [tiled, hx, nil_append] at horder hlt
  unfold checkYAndYR
  by_cases hlen : cur.length = t.yGroup.length + t.rGroup.length
  · rw [if_neg (not_not.mpr hlen), if_neg Bool.false_ne_true]
    refine matchesAt_isSome horder.ge fun i hi => ?_
    rw [hlen, ← length_append]
    exact hlt i hi
  · rw [if_pos hlen]
    exact ⟨false, rfl⟩

theorem getGroupType_yr (h : g.getGroupType = .yr) : g.xGroup = [] ∧ g.rGroup ≠ [] := by
  unfold getGroupType at h
  cases hx : g.xGroup <;> cases hy : g.yGroup <;> cases hr : g.rGroup <;> simp [hx, hy, hr] at h ⊢

/-- Merging groups whose orders fit reads no other index. -/
theorem mergeByType_some (ht : OrderFits t) (hg : OrderFits g) :
    ∃ ok m, mergeByType false t g = some (ok, m) ∧ (m = t ∨ m = g) := by
  have hadopt : ∀ ok, ∃ m, some (adopt t g ok) = some (ok, m) ∧ (m = t ∨ m = g) := by
    intro ok
    cases ok with
    | true => exact ⟨g, rfl, .inr rfl⟩
    | false => exact ⟨t, rfl, .inl rfl⟩
  unfold mergeByType
  split
  case h_1 =>
    unfold mergeYAndY
    split
    · exact ⟨_, t, rfl, .inl rfl⟩
    · exact ⟨_, t, rfl, .inl rfl⟩
  case h_2 _ htype =>
    rcases getGroupType_yr htype with ⟨hx, hr⟩
    rcases checkYAndYR_some hx hr hg t.yGroup with ⟨ok, hok⟩
    rw [mergeYAndYR, hok]
    exact ⟨ok, hadopt ok⟩
  case h_3 htype _ =>
    rcases getGroupType_yr htype with ⟨hx, hr⟩
    rcases checkYAndYR_some hx hr ht g.yGroup with ⟨ok, hok⟩
    rw [mergeYRAndY, hok]
    exact ⟨ok, t, rfl, .inl rfl⟩
  case h_5 => exact ⟨_, hadopt _⟩
  case h_7 => exact ⟨_, hadopt _⟩
  all_goals exact ⟨_, t, rfl, .inl rfl⟩

/-- A merge in a fold whose target already holds all n axes. -/
theorem mergeAxesGroup_inFront (htn : t.nGroup = N) (hN : sortedSet N = N) (hgn : ∀ c ∈ g.nGroup, c ∈ N)
    (ht : InFront N t) (hg : InFront N g) :
    ∃ ok m, mergeAxesGroup false t g = some (ok, m) ∧ m.nGroup = N ∧ InFront N m := by
  have hn : mergedN t g = N := by
    rw [mergedN, htn]
    refine (sortedSet_congr fun c => ?_).trans hN
    rw [mem_append]
    exact or_iff_left_of_imp (hgn c)
  have hkept := ht.removeNGroup
  have hkeptg := hg.removeNGroup
  have hnt := (removeNGroup_lists fun c hc => htn ▸ hc : _ ∧ (t.removeNGroupAxisInXYRGroup N).nGroup = N).2
  have hng := (removeNGroup_lists hgn).2
  rw [mergeAxesGroup, hn]
  split
  · exact ⟨true, _, rfl, hng, hkeptg.1⟩
  · rcases mergeByType_some hkept.2 hkeptg.2 with ⟨ok, m, hm, rfl | rfl⟩
    · exact ⟨ok, _, hm, hnt, hkept.1⟩
    · exact ⟨ok, _, hm, hng, hkeptg.1⟩

theorem mergeAll_some {groups : List AxisGroup} (hN : sortedSet N = N)
    (hgroups : ∀ g ∈ groups, (∀ c ∈ g.nGroup, c ∈ N) ∧ InFront N g) (htn : t.nGroup = N)
    (ht : InFront N t) : ∃ r, mergeAll t groups = some r := by
  induction groups generalizing t with
  | nil => exact ⟨_, rfl⟩
  | cons g groups ih =>
    rcases forall_mem_cons.mp hgroups with ⟨hg, hgroups⟩
    rcases mergeAxesGroup_inFront htn hN hg.1 ht hg.2 with ⟨ok, m, hm, hmn, hfront⟩
    rw [mergeAll, hm]
    cases ok with
    | true => exact ih hgroups hmn hfront
    | false => exact ⟨_, rfl⟩

namespace TilingNode

/-- The loop axes of a reduce that are not to be left whole are distinct and in front of the others. -/
def KeptInFront (N : List AxisId) : TilingNode → Prop
  | reduce axes _ => axes.Nodup ∧ without N axes <+: axes
  | _ => True

theorem KeptInFront.inFront {node : TilingNode} (h : node.KeptInFront N) : InFront N node.axisGroup := by
  cases node with
  | reduce axes reduced =>
    have hsub := @calcReduceAxes_sublist axes reduced
    refine .inr ⟨axes, h.2, orderBehind_eq h.1 hsub, Perm.filter _ ?_⟩
    have hperm := filter_append_perm ((calcReduceAxes axes reduced).contains ·) axes
    rw [filter_sublist_eq hsub h.1] at hperm
    exact perm_append_comm.trans hperm
  | split axes sameRepeats preSizeOne outputAxes =>
    left
    rw [axisGroup]
    split
    · rfl
    · rfl
  | _ => exact .inl rfl

end TilingNode

/-! ## A y and a y/r group of the same loop axes -/

theorem without_congr {M : List AxisId} (h : ∀ c, c ∈ M ↔ c ∈ N) (l : List AxisId) :
    without M l = without N l :=
  filter_congr fun c _ => by simp [h c]

/-- A y group and a group of the same axes with those of `back` as its r axes merge when one of the two
lists of that is empty, or when the order says where its axes are in the y list. -/
theorem merge_iff {K back : List AxisId} (htx : t.xGroup = []) (hty : t.yGroup = K)
    (htr : t.rGroup = []) (hgx : g.xGroup = []) (hgy : g.yGroup = without back K)
    (hgr : g.rGroup = K.filter (back.contains ·)) :
    (((if t.getGroupType = .invalid then some (true, g) else mergeByType false t g).any (·.1) = true) ∧
      ((if g.getGroupType = .invalid then some (true, t) else mergeByType false g t).any (·.1) = true)) ↔
      (∀ c ∈ K, c ∉ back) ∨ (∀ c ∈ K, c ∈ back) ∨
        matchesAt K g.axesOrder g.tiled = some true := by
  rcases t with ⟨x, y, r, n, o⟩
  rcases g with ⟨x', y', r', n', order⟩
  dsimp only [tiled] at *
  subst htx hty htr hgx hgy hgr
  rename' y => K
  rw [nil_append]
  have hlen : K.length = (without back K).length + (K.filter (back.contains ·)).length := by
    have := (filter_append_perm (back.contains ·) K).length_eq
    rw [length_append] at this
    rw [without]
    omega
  by_cases hout : ∀ c ∈ K, c ∉ back
  · have hr : K.filter (back.contains ·) = [] := filter_eq_nil_iff.mpr (by simpa using hout)
    rw [without_eq_self hout, hr]
    cases K <;> simp_all [getGroupType, mergeByType, mergeYAndY]
  · by_cases hin : ∀ c ∈ K, c ∈ back
    · have hy : without back K = [] := filter_eq_nil_iff.mpr (by simpa using hin)
      have hr : K.filter (back.contains ·) = K := filter_eq_self.mpr (by simpa using hin)
      rw [hy, hr]
      cases K <;> simp_all [getGroupType, mergeByType, mergeYAndR, mergeRAndY, adopt, checkYAndR]
    · rw [or_iff_right hout, or_iff_right hin]
      have hy : without back K ≠ [] := fun h => hin (by simpa [without] using h)
      have hr : K.filter (back.contains ·) ≠ [] := fun h => hout (by simpa using h)
      have hK : K ≠ [] := fun h => hout (by simp [h])
      clear hout hin
      generalize without back K = Y at *
      generalize K.filter (back.contains ·) = R at *
      have htypes : AxisGroup.getGroupType ⟨[], K, [], n, o⟩ = .y ∧
          AxisGroup.getGroupType ⟨[], Y, R, n', order⟩ = .yr := by
        cases K <;> cases Y <;> cases R <;> simp_all [getGroupType]
      rw [mergeByType, mergeByType, htypes.1, htypes.2]
      simp only [mergeYAndYR, mergeYRAndY, checkYAndYR, hlen]
      cases matchesAt K order (Y ++ R) with
      | none => simp
      | some ok => simp [adopt]

/-- The loops of a schedule read valid positions when what stays of every reduce is in front of its loop
axes; a y and a y/r group of the same loop axes merge in both orders exactly when no axis that stays is
reduced, or all are, or those that stay are in front. -/
theorem axesOrder_consistent (nodes : List TilingNode)
    (hnodes : ∀ node ∈ nodes, node.KeptInFront (allN nodes)) (hL : L.Nodup) (N : List AxisId)
    (reduced : List Bool) :
    (∃ r, genTilingGroup nodes = some r) ∧
      ((mergesInSchedule { genElewiseTilingGroup L with nGroup := N }
            { genReduceTilingGroup L reduced with nGroup := N } = true ∧
          mergesInSchedule { genReduceTilingGroup L reduced with nGroup := N }
            { genElewiseTilingGroup L with nGroup := N } = true) ↔
        (∀ c ∈ without N L, c ∉ calcReduceAxes L reduced) ∨
          (∀ c ∈ without N L, c ∈ calcReduceAxes L reduced) ∨ without N L <+: L) := by
  constructor
  · have hN : sortedSet (allN nodes) = allN nodes := sortedSet_congr fun c => by rw [allN, mem_sortedSet]
    refine mergeAll_some hN (fun g hg => ?_) rfl (.inl rfl)
    rcases mem_map.mp hg with ⟨node, hnode, rfl⟩
    refine ⟨fun c hc => ?_, (hnodes node hnode).inFront⟩
    rw [allN, mem_sortedSet]
    exact mem_flatMap.mpr ⟨node, hnode, hc⟩
  · have hsub := @calcReduceAxes_sublist L reduced
    set a : AxisGroup := { genElewiseTilingGroup L with nGroup := N }
    set b : AxisGroup := { genReduceTilingGroup L reduced with nGroup := N }
    have hM : ∀ c, c ∈ mergedN a b ↔ c ∈ N := by simp [mergedN, a, b]
    rcases removeNGroup_fields (mergedN a b) a with ⟨hax, hay, har⟩
    rcases removeNGroup_fields (mergedN a b) b with ⟨hbx, hby, hbr⟩
    have hb : b.axesOrder = b.tiled.map (L.idxOf ·) := orderBehind_eq hL hsub
    have horder := order_removeNGroup (mergedN a b) hb
    have hcomm : b.mergedN a = a.mergedN b := mergedN_comm a b
    have hfilter : ∀ p : AxisId → Bool, without (mergedN a b) (L.filter p) = (without N L).filter p := by
      intro p
      rw [without_congr hM, without, without, filter_comm]
    have hiff := @merge_iff (b.removeNGroupAxisInXYRGroup (mergedN a b))
      (a.removeNGroupAxisInXYRGroup (mergedN a b)) (without N L) (calcReduceAxes L reduced) hax
      (hay.trans (without_congr hM L)) har hbx (hby.trans (hfilter _))
      (hbr.trans ((congrArg _ (filter_sublist_eq hsub hL).symm).trans (hfilter _)))
    rw [horder, matchesAt_map, ← hcomm] at hiff
    rw [mergesInSchedule, mergesInSchedule, mergeAxesGroup, mergeAxesGroup, ← hcomm]
    refine hiff.trans (or_congr_right (or_congr_right (Iff.trans ?_ (filter_prefix_iff hL))))
    refine forall_congr' fun c => imp_congr_left ?_
    rw [tiled_removeNGroup, mem_without, hcomm, hM, show c ∈ b.tiled ↔ c ∈ L from ?_]
    · exact mem_without.symm
    · by_cases hc : c ∈ calcReduceAxes L reduced
      · exact iff_of_true (mem_append_right _ hc) (hsub.subset hc)
      · simp [tiled, b, genReduceTilingGroup, hc]

theorem axesOrder_consistent_concat :
    (∃ r, genTilingGroup [.elewise [0, 1, 2], .reduce [0, 1, 2] [false, true, false],
        .concat [0, 1, 2] [true, true, false] [[0, 1, 3]]] = some r) ∧
      mergesInSchedule { genElewiseTilingGroup [0, 1, 2] with nGroup := [2] }
          { genReduceTilingGroup [0, 1, 2] [false, true, false] with nGroup := [2] } = true := by
  rcases axesOrder_consistent (L := [0, 1, 2]) [.elewise [0, 1, 2], .reduce [0, 1, 2] [false, true, false],
    .concat [0, 1, 2] [true, true, false] [[0, 1, 3]]] (by
      intro node hnode
      simp only [mem_cons, not_mem_nil, or_false] at hnode
      rcases hnode with rfl | rfl | rfl
      · trivial
      · exact ⟨by decide, by decide⟩
      · trivial) (by decide) [2] [false, true, false] with ⟨hfold, hpair⟩
  exact ⟨hfold, (hpair.mpr (.inr (.inr (by decide)))).1⟩

/-- With the first two axes left whole the order of the reduce counts positions 2 and 3 in a list of two
axes; with the first one left whole the two groups do not merge. -/
theorem axesOrder_behind :
    genTilingGroup [.elewise [0, 1, 2, 3], .reduce [0, 1, 2, 3] [false, false, false, true],
        .concat [0, 1] [false, true] []] = none ∧
      mergesInSchedule { genElewiseTilingGroup [0, 1, 2] with nGroup := [0] }
          { genReduceTilingGroup [0, 1, 2] [false, false, true] with nGroup := [0] } = false := by
  decide

end GraphAutofusion.Autofuse
