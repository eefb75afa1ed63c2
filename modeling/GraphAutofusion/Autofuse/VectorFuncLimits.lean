import GraphAutofusion.Autofuse.VectorFuncPartitioner
import Mathlib.Algebra.GroupWithZero.Nat
import Mathlib.Algebra.Ring.Int.Defs
import Mathlib.Order.Lattice.Nat

/-!
# Autofuse.VectorFuncLimits — the limits on the clusters of a vector function

`CanMergeClusters` asks whether two clusters may become one: the loop, the instructions, the tensors
that go in and out, and the widths of the Cast nodes. The limits hold for the clusters that are left,
but for one. The scan for a Cast to a narrower type stops at the first Cast among the connected nodes,
so a Cast of another kind in front hides it.
-/

namespace GraphAutofusion.Autofuse.VectorFuncPartitioner

open Lib Relation ClusterDict List

/-- A graph with the sizes of the input and the output type of its Cast nodes. -/
structure CastGraph (ε : Type) extends AscGraph ε where
  castSizes : NodeId → Option (ℤ × ℤ)

variable {ε : Type} (g : CastGraph ε)

def kMaxInsNum : ℕ := 30

def kMaxIONum : ℕ := 8

def kMaxBitWidthGap : ℤ := 2

def outDataNodes (x : NodeId) : List NodeId := (g.node? x).elim [] (·.outDataNodes)

/-- A Cast to a narrower type. -/
def isHighToLow (x : NodeId) : Bool := (g.castSizes x).elim false fun sizes => sizes.2 < sizes.1

/-- A Cast to a wider type. -/
def isLowToHigh (x : NodeId) : Bool := (g.castSizes x).elim false fun sizes => sizes.1 < sizes.2

/-- The scan answers at the first Cast. -/
def hasHighToLowCastNode : List NodeId → Bool
  | [] => false
  | x :: nodes => if (g.castSizes x).isSome then isHighToLow g x else hasHighToLowCastNode nodes

def hasLowToHighCastNode (dst : Cluster ε) (connectedNodes : List NodeId) : Bool :=
  connectedNodes.any fun x => (outDataNodes g x).any fun y => dst.containsNode y && isLowToHigh g y

structure WidthState where
  globalMaxWidth : ℤ := 0
  globalMinWidth : ℤ := 2 ^ 31 - 1
  hasCast : Bool := false

def widthStep (s : WidthState) (x : NodeId) : WidthState :=
  match g.castSizes x with
  | none => s
  | some (inSize, outSize) =>
    { globalMaxWidth := max s.globalMaxWidth (max inSize outSize)
      globalMinWidth := min s.globalMinWidth (min inSize outSize)
      hasCast := true }

def checkCastBitWidthGap (src dst : Cluster ε) (maxGap : ℤ) : Bool :=
  let s := (src.nodes ++ dst.nodes).foldl (widthStep g) {}
  if !s.hasCast then true else !decide (s.globalMaxWidth > s.globalMinWidth * maxGap)

/-- What `CanMergeClusters` tests of two clusters that are enabled. `order` is the order in which the
set of the connected nodes of two clusters is iterated. -/
def canMergeTests [DecidableEq ε] (order : Cluster ε → Cluster ε → List NodeId)
    (src dst : Cluster ε) : Bool :=
  if src.metaData.loopAxis ≠ dst.metaData.loopAxis then false
  else if (src.metaData.insNum + dst.metaData.insNum) % 2 ^ 32 > kMaxInsNum then false
  else if !src.metaData.vectorizedRepeats.isEmpty && !dst.metaData.vectorizedRepeats.isEmpty &&
      src.metaData.vectorizedRepeats ≠ dst.metaData.vectorizedRepeats then false
  else if hasLowToHighCastNode g dst (order src dst) then false
  else if hasHighToLowCastNode g (order src dst) then false
  else if !checkCastBitWidthGap g src dst kMaxBitWidthGap then false
  else
    let mergedIn := Cluster.calculateMergedInNodes src dst (Cluster.findConnectedNodes src dst)
    let mergedOut := Cluster.calculateMergedOutNodes g.toAscGraph src dst
    mergedIn.card + mergedOut.card ≤ kMaxIONum

/-! ## The merges of a run -/

section Run

variable (g : AscGraph ε) (tests : Cluster ε → Cluster ε → Bool)

/-- Whether the inner loop of `MergeClusters` merges. -/
def merges (this : ℕ) (st : MergeState ε) (src : ℕ) : Bool :=
  src ∉ st.merged && canMergeClusters tests (st.dict.cluster src) (st.dict.cluster this) &&
    !hasDetectedCycle st.dict src this

/-- A state with the pairs of clusters that were merged up to it, as they were then. -/
structure MergeTrace (ε : Type) where
  state : MergeState ε
  pairs : List (Cluster ε × Cluster ε) := []

def traceInput (this : ℕ) (tr : MergeTrace ε) (src : ℕ) : MergeTrace ε where
  state := mergeInput g tests this tr.state src
  pairs := if merges tests this tr.state src
    then tr.pairs ++ [(tr.state.dict.cluster src, tr.state.dict.cluster this)] else tr.pairs

def traceCluster (tr : MergeTrace ε) (this : ℕ) : MergeTrace ε :=
  if this ∈ tr.state.merged then tr
  else (tr.state.dict.cluster this).inputs.sort.foldl (traceInput g tests this) tr

/-- The pairs of clusters that `MergeClusters` merges. -/
def mergedPairs (d : ClusterDict ε) : List (Cluster ε × Cluster ε) :=
  (d.allClusters.foldl (traceCluster g tests) { state := { dict := d } }).pairs

variable {g tests} {this src : ℕ} {st : MergeState ε} {tr : MergeTrace ε}

theorem mergeInput_of_merges (h : merges tests this st src = true) : mergeInput g tests this st src =
    { dict := ((st.dict.mergeFrom g this src).cluster src).nodes.foldl
        (fun d x => d.setNodeClusterPair x this) (st.dict.mergeFrom g this src)
      merged := insert src st.merged } := by
  simp only [merges, Bool.and_eq_true, Bool.not_eq_true', decide_eq_true_eq] at h
  rcases h with ⟨⟨hmerged, hcan⟩, hcycle⟩
  rw [mergeInput, if_neg hmerged, hcan, hcycle]
  rfl

theorem mergeInput_of_not_merges (h : merges tests this st src = false) :
    mergeInput g tests this st src = st := by
  rw [mergeInput]
  split
  · rfl
  next hmerged =>
  split
  · rfl
  next hcan =>
  split
  · rfl
  next hcycle =>
  simp only [Bool.not_eq_true, Bool.not_eq_false'] at hcan hcycle
  simp [merges, hmerged, hcan, hcycle] at h

theorem traceInputs_state (tr : MergeTrace ε) (l : List ℕ) : (l.foldl (traceInput g tests this) tr).state =
    l.foldl (mergeInput g tests this) tr.state := by
  induction l generalizing tr with
  | nil => rfl
  | cons src l ih => exact ih _

theorem traceClusters_state (g : AscGraph ε) (tests : Cluster ε → Cluster ε → Bool)
    (tr : MergeTrace ε) (l : List ℕ) : (l.foldl (traceCluster g tests) tr).state =
    l.foldl (mergeCluster g tests) tr.state := by
  induction l generalizing tr with
  | nil => rfl
  | cons c l ih =>
    rw [foldl_cons, foldl_cons, ih]
    congr 1
    rw [traceCluster, mergeCluster]
    split
    · rfl
    · exact traceInputs_state ..

/-- What every merge of two neighbours keeps holds at the end of the run. -/
theorem mergeTrace_induct (tests : Cluster ε → Cluster ε → Bool) {Q : MergeTrace ε → Prop} (hg : g.Sorted)
    (hinit : Q { state := { dict := initClusters g } })
    (hstep : ∀ tr this src, MergeInv g tr.state → Q tr → merges tests this tr.state src = true →
      ClusterEdge g tr.state.dict src this → Q (traceInput g tests this tr src)) :
    Q ((initClusters g).allClusters.foldl (traceCluster g tests)
      { state := { dict := initClusters g } }) := by
  have hinputs : ∀ (this : ℕ) (l : List ℕ) tr, MergeInv g tr.state → Q tr →
      (∀ a ∈ l, a ∈ tr.state.merged ∨ ClusterEdge g tr.state.dict a this) →
      MergeInv g (l.foldl (traceInput g tests this) tr).state ∧
        Q (l.foldl (traceInput g tests this) tr) := by
    intro this l
    induction l with
    | nil =>
      intro tr h hQ _
      exact ⟨h, hQ⟩
    | cons src l ih =>
      intro tr h hQ hl
      have hsrc := hl src (mem_cons_self ..)
      rcases h.mergeInput tests hsrc with ⟨hinv, hkeep⟩
      refine ih _ hinv ?_ fun a ha => hkeep a (hl a (mem_cons_of_mem _ ha))
      cases hm : merges tests this tr.state src with
      | true =>
        have hmerged : src ∉ tr.state.merged := by
          simp only [merges, Bool.and_eq_true, decide_eq_true_eq] at hm
          exact hm.1.1
        exact hstep tr this src h hQ hm (hsrc.resolve_left hmerged)
      | false =>
        have heq : traceInput g tests this tr src = tr := by
          rw [traceInput, mergeInput_of_not_merges hm, hm]
          rfl
        rw [heq]
        exact hQ
  have hrun : ∀ (l : List ℕ) tr, MergeInv g tr.state → Q tr →
      Q (l.foldl (traceCluster g tests) tr) := by
    intro l
    induction l with
    | nil =>
      intro tr _ hQ
      exact hQ
    | cons c l ih =>
      intro tr h hQ
      rw [foldl_cons, traceCluster]
      split
      · exact ih tr h hQ
      · have hl : ∀ a ∈ (tr.state.dict.cluster c).inputs.sort,
            a ∈ tr.state.merged ∨ ClusterEdge g tr.state.dict a c := by
          intro a ha
          rw [Finset.mem_sort] at ha
          exact .inr ((h.linked.inputs a c).mp ha)
        rcases hinputs c _ tr h hQ hl with ⟨hinv, hQ'⟩
        exact ih _ hinv hQ'
  exact hrun _ _ (mergeInv_init hg) hinit

end Run

/-! ## The limits -/

/-- A data edge. -/
def Feeds (g : AscGraph ε) (x y : NodeId) : Prop := ∃ n ∈ g.nodes, n.id = y ∧ x ∈ n.inDataNodes

/-- The nodes stand behind their inputs, both ends of a data edge know it, a constant scalar is in no
vector function, and the instruction numbers are those of operators. -/
structure CastGraph.WellFormed (g : CastGraph ε) : Prop where
  sorted : g.Sorted
  outDataNodes : ∀ n ∈ g.nodes, ∀ y, y ∈ n.outDataNodes ↔ Feeds g.toAscGraph n.id y
  constantScalar : ∀ n ∈ g.nodes, n.isConstantScalar = true → n.enableVf = false
  insNum : ∀ n ∈ g.nodes, n.insNum < 2 ^ 31

def insNumOf (g : AscGraph ε) (x : NodeId) : ℕ := ((g.node? x).map (·.insNum)).getD 0

/-- The two type sizes of a Cast. -/
def castWidths (g : CastGraph ε) (x : NodeId) : List ℤ :=
  (g.castSizes x).elim [] fun sizes => [sizes.1, sizes.2]

/-- What holds of a cluster that is more than one node. -/
structure WithinLimits (g : CastGraph ε) (c : Cluster ε) : Prop where
  sameLoop : ∃ axis, ∀ x ∈ c.nodes, ∃ n ∈ g.nodes, n.id = x ∧ n.enableVf = true ∧
    n.unitTailStride = true ∧ n.loopAxis = axis
  inNodes : ∀ x, x ∈ c.inNodes ↔ x ∉ c.nodes ∧ isConstantScalar g.toAscGraph x = false ∧
    ∃ y ∈ c.nodes, Feeds g.toAscGraph x y
  outNodes : ∀ x ∈ c.nodes, ∀ y, y ∉ c.nodes → Feeds g.toAscGraph x y → x ∈ c.outNodes
  ioNum : c.inNodes.card + c.outNodes.card ≤ kMaxIONum
  insNum : (c.nodes.map (insNumOf g.toAscGraph)).sum ≤ kMaxInsNum
  lowToHigh : ∀ x ∈ c.nodes, ∀ y ∈ c.nodes, Feeds g.toAscGraph x y → isLowToHigh g y = false
  highToLow : ∀ x ∈ c.nodes, ∀ y ∈ c.nodes, Feeds g.toAscGraph x y → isHighToLow g x = false
  bitWidthGap : ∀ x ∈ c.nodes, ∀ y ∈ c.nodes, ∀ w ∈ castWidths g x, ∀ w' ∈ castWidths g y,
    w ≤ w' * kMaxBitWidthGap

/-- Every live cluster of more than one node is within the limits. -/
def AllWithinLimits (g : CastGraph ε) (d : ClusterDict ε) : Prop :=
  ∀ c, d.Live c → 1 < (d.cluster c).nodes.length → WithinLimits g (d.cluster c)

/-- A Cast of another kind stands in front of a Cast to a narrower type. -/
def ScanCutShort (g : CastGraph ε) (connectedNodes : List NodeId) : Prop :=
  ∃ pre x post, connectedNodes = pre ++ x :: post ∧ isHighToLow g x = true ∧
    ∃ y ∈ pre, (g.castSizes y).isSome = true ∧ isHighToLow g y = false

/-! ## What the tests say -/

section Tests

variable {g} {src dst : Cluster ε} {order : Cluster ε → Cluster ε → List NodeId} {l : List NodeId}
  {x y : NodeId}

/-- The answer that there is no Cast to a narrower type is wrong when the scan was cut short. -/
theorem scanCutShort_iff (h : hasHighToLowCastNode g l = false) :
    ScanCutShort g l ↔ ∃ x ∈ l, isHighToLow g x = true := by
  constructor
  · intro hcut
    rcases hcut with ⟨pre, x, post, rfl, hx, _⟩
    exact ⟨x, mem_append_right _ (mem_cons_self ..), hx⟩
  · intro hex
    induction l with
    | nil =>
      rcases hex with ⟨_, hmem, _⟩
      cases hmem
    | cons z l ih =>
      rw [hasHighToLowCastNode] at h
      rcases hex with ⟨x, hmem, hx⟩
      split at h
      · next hsome =>
        -- the first Cast is the one that hides the other
        rcases mem_cons.mp hmem with rfl | hmem
        · rw [hx] at h
          cases h
        · rcases append_of_mem hmem with ⟨pre, post, rfl⟩
          exact ⟨z :: pre, x, post, rfl, hx, z, mem_cons_self .., hsome, h⟩
      · next hnone =>
        rcases mem_cons.mp hmem with rfl | hmem
        · cases hc : g.castSizes x with
          | none => simp [isHighToLow, hc] at hx
          | some _ => exact absurd (by rw [hc]; rfl) hnone
        · rcases ih h ⟨x, hmem, hx⟩ with ⟨pre, x', post, rfl, hx', y, hy, hrest⟩
          exact ⟨z :: pre, x', post, rfl, hx', y, mem_cons_of_mem _ hy, hrest⟩

/-- The largest and the smallest size so far. -/
theorem widthFold_spec (l : List NodeId) (s : WidthState) :
    let r := l.foldl (widthStep g) s
    s.globalMaxWidth ≤ r.globalMaxWidth ∧ r.globalMinWidth ≤ s.globalMinWidth ∧
      (s.hasCast = true → r.hasCast = true) ∧ ∀ x ∈ l, ∀ w ∈ castWidths g x,
        r.hasCast = true ∧ w ≤ r.globalMaxWidth ∧ r.globalMinWidth ≤ w := by
  induction l generalizing s with
  | nil => exact ⟨le_refl _, le_refl _, id, fun x hx => (not_mem_nil hx).elim⟩
  | cons z l ih =>
    rcases ih (widthStep g s z) with ⟨hmax, hmin, hcast, hall⟩
    rw [foldl_cons]
    cases hz : g.castSizes z with
    | none =>
      have hstep : widthStep g s z = s := by rw [widthStep, hz]
      rw [hstep] at hmax hmin hcast hall ⊢
      refine ⟨hmax, hmin, hcast, fun x hx w hw => ?_⟩
      rcases mem_cons.mp hx with rfl | hx
      · simp [castWidths, hz] at hw
      · exact hall x hx w hw
    | some sizes =>
      have hstep : widthStep g s z = ⟨max s.globalMaxWidth (max sizes.1 sizes.2),
          min s.globalMinWidth (min sizes.1 sizes.2), true⟩ := by
        rw [widthStep, hz]
      rw [hstep] at hmax hmin hcast hall ⊢
      dsimp only at hmax hmin hcast hall ⊢
      refine ⟨by omega, by omega, fun _ => hcast rfl, fun x hx w hw => ?_⟩
      rcases mem_cons.mp hx with rfl | hx
      · simp only [castWidths, hz, Option.elim_some, mem_cons, not_mem_nil, or_false] at hw
        refine ⟨hcast rfl, ?_, ?_⟩ <;> omega
      · exact hall x hx w hw

theorem checkCastBitWidthGap_spec (h : checkCastBitWidthGap g src dst kMaxBitWidthGap = true)
    (hx : x ∈ src.nodes ++ dst.nodes) (hy : y ∈ src.nodes ++ dst.nodes) {w w' : ℤ}
    (hw : w ∈ castWidths g x) (hw' : w' ∈ castWidths g y) : w ≤ w' * kMaxBitWidthGap := by
  rcases widthFold_spec (g := g) (src.nodes ++ dst.nodes) {} with ⟨_, _, _, hall⟩
  unfold checkCastBitWidthGap at h
  generalize (src.nodes ++ dst.nodes).foldl (widthStep g) {} = s at h hall
  rcases hall x hx w hw with ⟨hcast, hmax, _⟩
  rcases hall y hy w' hw' with ⟨_, _, hmin⟩
  have hle : ¬ s.globalMaxWidth > s.globalMinWidth * kMaxBitWidthGap := by simpa [hcast] using h
  unfold kMaxBitWidthGap at hle ⊢
  omega

/-- The tests that two clusters pass. -/
structure MergeAllowed (g : CastGraph ε) (connectedNodes : List NodeId) (src dst : Cluster ε) :
    Prop where
  enableSrc : src.metaData.enableVf = true
  enableDst : dst.metaData.enableVf = true
  loopAxis : src.metaData.loopAxis = dst.metaData.loopAxis
  insNum : (src.metaData.insNum + dst.metaData.insNum) % 2 ^ 32 ≤ kMaxInsNum
  lowToHigh : hasLowToHighCastNode g dst connectedNodes = false
  highToLow : hasHighToLowCastNode g connectedNodes = false
  bitWidthGap : checkCastBitWidthGap g src dst kMaxBitWidthGap = true
  ioNum : (Cluster.calculateMergedInNodes src dst (Cluster.findConnectedNodes src dst)).card +
    (Cluster.calculateMergedOutNodes g.toAscGraph src dst).card ≤ kMaxIONum

theorem mergeAllowed_of_can [DecidableEq ε]
    (h : canMergeClusters (canMergeTests g order) src dst = true) :
    MergeAllowed g (order src dst) src dst := by
  unfold canMergeClusters at h
  split at h
  · cases h
  next henable =>
  simp only [Bool.or_eq_true, Bool.not_eq_true', not_or, Bool.not_eq_false] at henable
  unfold canMergeTests at h
  split at h
  · cases h
  next hloop =>
  split at h
  · cases h
  next hins =>
  split at h
  · cases h
  next =>
  split at h
  · cases h
  next hlow =>
  split at h
  · cases h
  next hhigh =>
  split at h
  · cases h
  next hgap =>
  exact ⟨henable.1, henable.2, not_not.mp hloop, Nat.le_of_not_lt hins, by simpa using hlow,
    by simpa using hhigh, by simpa using hgap, by simpa using h⟩

end Tests

/-! ## The clusters of single nodes -/

/-- Two clusters with the same data but for their nodes and neighbours. -/
structure SameData (c c' : Cluster ε) : Prop where
  inNodes : c'.inNodes = c.inNodes
  outNodes : c'.outNodes = c.outNodes
  metaData : c'.metaData = c.metaData

section Init

variable {g : AscGraph ε} {pre post : List (AscNode ε)} {n : AscNode ε} {st : InitState ε} {c : ℕ}
  {x y : NodeId}

theorem InitInv.nodeCluster_none (h : InitInv g pre st) (hnew : n.id ∉ pre.map (·.id)) :
    st.dict.nodeCluster n.id = none := by
  rw [Option.eq_none_iff_forall_ne_some]
  intro c hc
  exact hnew (h.isSome_iff.mp ⟨c, hc⟩)

theorem initCluster_dict (h : st.dict.nodeCluster n.id = none) : (initCluster g st n).dict =
    establishClusterConnections (addCluster g st.dict (st.rank + 1) n) (st.rank + 1)
      n.inAllNodes := by
  simp [initCluster, h]

/-- The cluster of a node holds what it was created with. -/
theorem initClusters_sameData (hg : g.Sorted) (hn : n ∈ g.nodes)
    (hc : (initClusters g).nodeCluster n.id = some c) :
    SameData (createAndInitCluster g n) ((initClusters g).cluster c) := by
  have hrun : ∀ post pre st, g.nodes = pre ++ post → InitInv g pre st →
      (∀ n ∈ pre, ∀ c, st.dict.nodeCluster n.id = some c →
        SameData (createAndInitCluster g n) (st.dict.cluster c)) →
      ∀ n ∈ g.nodes, ∀ c, (post.foldl (initCluster g) st).dict.nodeCluster n.id = some c →
        SameData (createAndInitCluster g n) ((post.foldl (initCluster g) st).dict.cluster c) := by
    intro post
    induction post with
    | nil =>
      intro pre st hsplit _ hall
      rw [append_nil] at hsplit
      rw [hsplit]
      exact hall
    | cons m post ih =>
      intro pre st hsplit h hall
      have hnew := (sorted_pre hg hsplit).1
      have hdict := initCluster_dict (g := g) (h.nodeCluster_none hnew)
      have hsame := establish_sameNodes (addCluster g st.dict (st.rank + 1) m) (st.rank + 1)
        m.inAllNodes
      rw [← hdict] at hsame
      refine ih (pre ++ [m]) _ (by rw [hsplit, append_assoc, singleton_append])
        (h.step hg hsplit) ?_
      intro n hn c hc
      rw [hsame.nodeCluster, addCluster] at hc
      dsimp only at hc
      rcases mem_append.mp hn with hn | hn
      · have hne : n.id ≠ m.id := fun heq => hnew (heq ▸ mem_map_of_mem hn)
        rw [Function.update_of_ne hne] at hc
        have hcne : c ≠ st.rank + 1 := by
          have hle := (h.le hc).2
          rw [← h.rank] at hle
          omega
        have hold : (addCluster g st.dict (st.rank + 1) m).cluster c = st.dict.cluster c :=
          Function.update_of_ne hcne ..
        have hdata := hall n hn c hc
        exact ⟨by rw [hsame.inNodes, hold, hdata.inNodes], by rw [hsame.outNodes, hold, hdata.outNodes],
          by rw [hsame.metaData, hold, hdata.metaData]⟩
      · rw [mem_singleton] at hn
        subst hn
        rw [Function.update_self, Option.some.injEq] at hc
        have hself : (addCluster g st.dict (st.rank + 1) n).cluster c = createAndInitCluster g n := by
          rw [← hc]
          exact Function.update_self ..
        exact ⟨by rw [hsame.inNodes, hself], by rw [hsame.outNodes, hself],
          by rw [hsame.metaData, hself]⟩
  have h := initClusters_inv hg
  rw [initClusters, h.fixAll_eq] at hc ⊢
  exact hrun g.nodes [] {} rfl initInv_nil (fun n hn => (not_mem_nil hn).elim) n hn c hc

/-- A cluster that is enabled was created from a node with a tail stride of one. -/
theorem createAndInitCluster_enabled (h : (createAndInitCluster g n).metaData.enableVf = true) :
    n.enableVf = true ∧ n.unitTailStride = true ∧ createAndInitCluster g n =
      { metaData := ⟨true, n.insNum, n.loopAxis, n.broadcastRepeats⟩
        nodes := [n.id]
        inNodes := (n.inDataNodes.filter (!isConstantScalar g ·)).toFinset
        outNodes := {n.id} } := by
  unfold createAndInitCluster initClusterAttr at h ⊢
  cases hvf : n.enableVf with
  | false => simp [hvf] at h
  | true =>
    cases htail : n.unitTailStride with
    | false => simp [hvf, htail] at h
    | true => simp

theorem Feeds.edge (h : Feeds g x y) : g.Edge x y := by
  rcases h with ⟨n, hn, hid, hx⟩
  exact ⟨n, hn, hid, mem_append_left _ hx⟩

/-- No node feeds itself. -/
theorem Feeds.ne (hg : g.Sorted) (h : Feeds g x y) : x ≠ y := by
  rcases h with ⟨n, hn, rfl, hx⟩
  rcases append_of_mem hn with ⟨pre, post, hsplit⟩
  rcases sorted_pre hg hsplit with ⟨hnew, hin⟩
  intro heq
  exact hnew (heq ▸ hin x (mem_append_left _ hx))

theorem node?_eq (hg : g.Sorted) (hn : n ∈ g.nodes) : g.node? n.id = some n := by
  unfold AscGraph.node?
  cases hfind : g.nodes.find? (·.id = n.id) with
  | none =>
    have hnot := find?_eq_none.mp hfind n hn
    simp at hnot
  | some m =>
    have hid : m.id = n.id := by simpa using find?_some hfind
    rw [eq_of_id hg (mem_of_find?_eq_some hfind) hn hid]

end Init

/-! ## The clusters of a run -/

/-- What holds of an enabled cluster, of one node or more. -/
structure ClusterOk (g : CastGraph ε) (c : Cluster ε) : Prop where
  member : ∀ x ∈ c.nodes, ∃ n ∈ g.nodes, n.id = x ∧ n.enableVf = true ∧ n.unitTailStride = true ∧
    n.loopAxis = c.metaData.loopAxis
  inNodes : ∀ x, x ∈ c.inNodes ↔ x ∉ c.nodes ∧ isConstantScalar g.toAscGraph x = false ∧
    ∃ y ∈ c.nodes, Feeds g.toAscGraph x y
  outNodes_mem : ∀ x ∈ c.outNodes, x ∈ c.nodes
  outNodes : ∀ x ∈ c.nodes, ∀ y, y ∉ c.nodes → Feeds g.toAscGraph x y → x ∈ c.outNodes
  insNum : c.metaData.insNum = (c.nodes.map (insNumOf g.toAscGraph)).sum
  insNum_lt : c.metaData.insNum < 2 ^ 31
  lowToHigh : ∀ x ∈ c.nodes, ∀ y ∈ c.nodes, Feeds g.toAscGraph x y → isLowToHigh g y = false

section Step

variable {g} {src dst new : Cluster ε} {n : AscNode ε} {x y : NodeId}

theorem clusterOk_init (hg : g.WellFormed) (hn : n ∈ g.nodes) {c : Cluster ε}
    (hdata : SameData (createAndInitCluster g.toAscGraph n) c) (hnodes : c.nodes = [n.id])
    (henable : c.metaData.enableVf = true) : ClusterOk g c := by
  rw [hdata.metaData] at henable
  rcases createAndInitCluster_enabled henable with ⟨hvf, htail, heq⟩
  have hin := hdata.inNodes
  have hout := hdata.outNodes
  have hmeta := hdata.metaData
  rw [heq] at hin hout hmeta
  refine ⟨?_, ?_, ?_, ?_, ?_, ?_, ?_⟩
  · intro x hx
    rw [hnodes, mem_singleton] at hx
    exact ⟨n, hn, hx.symm, hvf, htail, by rw [hmeta]⟩
  · intro x
    rw [hin, hnodes, mem_toFinset, mem_filter, Bool.not_eq_true']
    constructor
    · intro h
      have hfeeds : Feeds g.toAscGraph x n.id := ⟨n, hn, rfl, h.1⟩
      exact ⟨fun hmem => hfeeds.ne hg.sorted (mem_singleton.mp hmem), h.2, n.id,
        mem_singleton_self _, hfeeds⟩
    · intro h
      rcases h with ⟨_, hscalar, y, hy, m, hm, hid, hx⟩
      rw [mem_singleton.mp hy] at hid
      rw [eq_of_id hg.sorted hm hn hid] at hx
      exact ⟨hx, hscalar⟩
  · intro x hx
    rw [hout, Finset.mem_singleton] at hx
    rw [hnodes, hx]
    exact mem_singleton_self _
  · intro x hx y _ _
    rw [hnodes, mem_singleton] at hx
    rw [hout, hx]
    exact Finset.mem_singleton_self _
  · rw [hmeta, hnodes, map_singleton, sum_singleton, insNumOf, node?_eq hg.sorted hn]
    rfl
  · rw [hmeta]
    exact hg.insNum n hn
  · intro x hx y hy hfeeds
    rw [hnodes, mem_singleton] at hx hy
    exact absurd (hx.trans hy.symm) (hfeeds.ne hg.sorted)

/-- Two clusters of which the first may be merged into the second. No edge leads back. -/
structure Mergeable (g : CastGraph ε) (src dst : Cluster ε) : Prop where
  srcOk : ClusterOk g src
  dstOk : ClusterOk g dst
  disjoint : ∀ x ∈ src.nodes, x ∉ dst.nodes
  noBack : ∀ x ∈ dst.nodes, ∀ y ∈ src.nodes, ¬ Feeds g.toAscGraph x y

/-- The cluster that a merge makes. -/
structure MergedInto (g : CastGraph ε) (src dst new : Cluster ε) : Prop where
  nodes : new.nodes = dst.nodes ++ src.nodes
  inNodes : new.inNodes =
    Cluster.calculateMergedInNodes src dst (Cluster.findConnectedNodes src dst)
  outNodes : new.outNodes = Cluster.calculateMergedOutNodes g.toAscGraph src
    { dst with nodes := dst.nodes ++ src.nodes }
  enableVf : new.metaData.enableVf = dst.metaData.enableVf
  insNum : new.metaData.insNum = dst.metaData.insNum + src.metaData.insNum
  loopAxis : new.metaData.loopAxis = dst.metaData.loopAxis

/-- The nodes that connect two clusters are those that feed one from the other. -/
theorem Mergeable.mem_connected_iff (hg : g.WellFormed) (h : Mergeable g src dst) :
    x ∈ Cluster.findConnectedNodes src dst ↔
      x ∈ src.nodes ∧ ∃ y ∈ dst.nodes, Feeds g.toAscGraph x y := by
  rw [Cluster.findConnectedNodes, Finset.mem_inter, h.dstOk.inNodes]
  constructor
  · intro hx
    exact ⟨h.srcOk.outNodes_mem x hx.1, hx.2.2.2⟩
  · intro hx
    rcases hx with ⟨hx, y, hy, hfeeds⟩
    refine ⟨h.srcOk.outNodes x hx y (fun hys => h.disjoint y hys hy) hfeeds, h.disjoint x hx, ?_, y, hy,
      hfeeds⟩
    -- the nodes of an enabled cluster are no constant scalars
    rcases h.srcOk.member x hx with ⟨n, hn, rfl, hvf, _, _⟩
    rw [isConstantScalar, node?_eq hg.sorted hn, Option.map_some, Option.getD_some]
    cases hscalar : n.isConstantScalar with
    | false => rfl
    | true => exact absurd (hg.constantScalar n hn hscalar) (by simp [hvf])

theorem mem_outDataNodes_iff (hg : g.WellFormed) (hx : ∃ n ∈ g.nodes, n.id = x) :
    y ∈ outDataNodes g x ↔ Feeds g.toAscGraph x y := by
  rcases hx with ⟨n, hn, rfl⟩
  rw [outDataNodes, node?_eq hg.sorted hn, Option.elim_some]
  exact hg.outDataNodes n hn y

theorem mem_mergedOutNodes_iff {post : Cluster ε} : x ∈ Cluster.calculateMergedOutNodes g.toAscGraph src post ↔
    x ∈ post.outNodes ∨ x ∈ src.outNodes ∧ ∃ y ∈ outDataNodes g x, y ∉ post.nodes := by
  simp [Cluster.calculateMergedOutNodes, Cluster.containsNode, outDataNodes]

/-- A merge that the tests allow leaves a cluster within the limits, but for the Casts to a narrower
type. -/
theorem Mergeable.merge (hg : g.WellFormed) (h : Mergeable g src dst) {l : List NodeId}
    (hallowed : MergeAllowed g l src dst)
    (hl : ∀ x, x ∈ l ↔ x ∈ Cluster.findConnectedNodes src dst) (hnew : MergedInto g src dst new) :
    ClusterOk g new ∧ new.inNodes.card + new.outNodes.card ≤ kMaxIONum ∧
      (new.nodes.map (insNumOf g.toAscGraph)).sum ≤ kMaxInsNum ∧
      ∀ x ∈ new.nodes, ∀ y ∈ new.nodes, ∀ w ∈ castWidths g x, ∀ w' ∈ castWidths g y,
        w ≤ w' * kMaxBitWidthGap := by
  have hins : src.metaData.insNum + dst.metaData.insNum ≤ kMaxInsNum := by
    have hlt := hallowed.insNum
    have hsrc := h.srcOk.insNum_lt
    have hdst := h.dstOk.insNum_lt
    rw [Nat.mod_eq_of_lt (by omega)] at hlt
    exact hlt
  have hsum : new.metaData.insNum = (new.nodes.map (insNumOf g.toAscGraph)).sum := by
    rw [hnew.insNum, hnew.nodes, map_append, sum_append, h.srcOk.insNum, h.dstOk.insNum]
  refine ⟨⟨?_, ?_, ?_, ?_, hsum, ?_, ?_⟩, ?_, ?_, ?_⟩
  · intro x hx
    rw [hnew.nodes] at hx
    rw [hnew.loopAxis]
    rcases mem_append.mp hx with hx | hx
    · exact h.dstOk.member x hx
    · rw [← hallowed.loopAxis]
      exact h.srcOk.member x hx
  · -- the connected nodes are the only ones that are no longer outside
    intro x
    rw [hnew.inNodes, hnew.nodes, Cluster.calculateMergedInNodes, Finset.mem_union, Finset.mem_sdiff,
      h.mem_connected_iff hg, h.srcOk.inNodes, h.dstOk.inNodes, mem_append]
    constructor
    · rintro (⟨hx, hscalar, y, hy, hfeeds⟩ | ⟨⟨hx, hscalar, y, hy, hfeeds⟩, hnot⟩)
      · exact ⟨fun hmem => hmem.elim (fun hd => h.noBack x hd y hy hfeeds) hx, hscalar, y,
          mem_append_right _ hy, hfeeds⟩
      · exact ⟨fun hmem => hmem.elim hx fun hs => hnot ⟨hs, y, hy, hfeeds⟩, hscalar, y,
          mem_append_left _ hy, hfeeds⟩
    · rintro ⟨hx, hscalar, y, hy, hfeeds⟩
      rw [not_or] at hx
      rcases mem_append.mp hy with hy | hy
      · exact .inr ⟨⟨hx.1, hscalar, y, hy, hfeeds⟩, fun hs => hx.2 hs.1⟩
      · exact .inl ⟨hx.2, hscalar, y, hy, hfeeds⟩
  · intro x hx
    rw [hnew.outNodes, mem_mergedOutNodes_iff] at hx
    rw [hnew.nodes, mem_append]
    rcases hx with hx | hx
    · exact .inl (h.dstOk.outNodes_mem x hx)
    · exact .inr (h.srcOk.outNodes_mem x hx.1)
  · intro x hx y hy hfeeds
    rw [hnew.nodes, mem_append, not_or] at hy
    rw [hnew.outNodes, mem_mergedOutNodes_iff]
    rw [hnew.nodes] at hx
    rcases mem_append.mp hx with hx | hx
    · exact .inl (h.dstOk.outNodes x hx y hy.1 hfeeds)
    · refine .inr ⟨h.srcOk.outNodes x hx y hy.2 hfeeds, y, ?_, ?_⟩
      · rcases h.srcOk.member x hx with ⟨n, hn, hid, _⟩
        exact (mem_outDataNodes_iff hg ⟨n, hn, hid⟩).mpr hfeeds
      · exact fun hmem => (mem_append.mp hmem).elim hy.1 hy.2
  · rw [hnew.insNum]
    unfold kMaxInsNum at hins
    omega
  · intro x hx y hy hfeeds
    rw [hnew.nodes] at hx hy
    rcases mem_append.mp hx with hx | hx <;> rcases mem_append.mp hy with hy | hy
    · exact h.dstOk.lowToHigh x hx y hy hfeeds
    · exact absurd hfeeds (h.noBack x hx y hy)
    · -- the test sees every Cast that a connected node feeds
      have hconn := (hl x).mpr ((h.mem_connected_iff hg).mpr ⟨hx, y, hy, hfeeds⟩)
      rcases h.srcOk.member x hx with ⟨n, hn, hid, _⟩
      have hout := (mem_outDataNodes_iff hg ⟨n, hn, hid⟩).mpr hfeeds
      have hno := hallowed.lowToHigh
      simp only [hasLowToHighCastNode, any_eq_false] at hno
      have hxy := hno x hconn
      rw [Bool.not_eq_true, any_eq_false] at hxy
      have hy' := hxy y hout
      simpa [Cluster.containsNode, hy] using hy'
    · exact h.srcOk.lowToHigh x hx y hy hfeeds
  · -- the tests count with the outer nodes of before
    refine le_trans (Nat.add_le_add (le_of_eq (congrArg Finset.card hnew.inNodes))
      (Finset.card_le_card ?_)) hallowed.ioNum
    intro x hx
    rw [hnew.outNodes, mem_mergedOutNodes_iff] at hx
    rw [mem_mergedOutNodes_iff]
    refine hx.imp_right fun hx => ⟨hx.1, ?_⟩
    rcases hx.2 with ⟨y, hy, hnot⟩
    exact ⟨y, hy, fun hmem => hnot (mem_append_left _ hmem)⟩
  · rw [← hsum, hnew.insNum, add_comm]
    exact hins
  · intro x hx y hy w hw w' hw'
    rw [hnew.nodes] at hx hy
    refine checkCastBitWidthGap_spec hallowed.bitWidthGap ?_ ?_ hw hw'
    · exact mem_append.mpr (mem_append.mp hx).symm
    · exact mem_append.mpr (mem_append.mp hy).symm

end Step

/-- The limits during `MergeClusters`. -/
structure LimitInv (g : CastGraph ε) (d : ClusterDict ε) : Prop where
  ok : ∀ c, d.Live c → (d.cluster c).metaData.enableVf = true → ClusterOk g (d.cluster c)
  merged : ∀ c, d.Live c → 1 < (d.cluster c).nodes.length →
    (d.cluster c).metaData.enableVf = true ∧
      (d.cluster c).inNodes.card + (d.cluster c).outNodes.card ≤ kMaxIONum ∧
      ((d.cluster c).nodes.map (insNumOf g.toAscGraph)).sum ≤ kMaxInsNum ∧
      ∀ x ∈ (d.cluster c).nodes, ∀ y ∈ (d.cluster c).nodes, ∀ w ∈ castWidths g x,
        ∀ w' ∈ castWidths g y, w ≤ w' * kMaxBitWidthGap

/-- A Cast to a narrower type is in the cluster of a node that it feeds. -/
def CastWithConsumer (g : CastGraph ε) (d : ClusterDict ε) : Prop :=
  ∃ x y, Feeds g.toAscGraph x y ∧ isHighToLow g x = true ∧
    ∃ c, d.nodeCluster x = some c ∧ d.nodeCluster y = some c

section RunStep

variable {g} {tests : Cluster ε → Cluster ε → Bool} {st : MergeState ε} {this src : ℕ} {x y : NodeId}
  {order : Cluster ε → Cluster ε → List NodeId}

/-- What a merge does to the dictionary. -/
theorem merges_spec (h : MergeInv g.toAscGraph st) (hm : merges tests this st src = true)
    (hedge : ClusterEdge g.toAscGraph st.dict src this) :
    (∀ x, (mergeInput g.toAscGraph tests this st src).dict.nodeCluster x =
      if st.dict.nodeCluster x = some src then some this else st.dict.nodeCluster x) ∧
    (∀ c, c ≠ this →
      SameData (st.dict.cluster c) ((mergeInput g.toAscGraph tests this st src).dict.cluster c) ∧
      ((mergeInput g.toAscGraph tests this st src).dict.cluster c).nodes = (st.dict.cluster c).nodes) ∧
    MergedInto g (st.dict.cluster src) (st.dict.cluster this)
      ((mergeInput g.toAscGraph tests this st src).dict.cluster this) := by
  have hne : src ≠ this := hedge.1
  rw [mergeInput_of_merges hm]
  dsimp only
  rw [mergeFrom_nodes, if_neg hne]
  rcases setNodeClusterPair_foldl (d := st.dict.mergeFrom g.toAscGraph this src)
    (st.dict.cluster src).nodes this with ⟨hcluster, _, hnode⟩
  refine ⟨?_, ?_, ?_⟩
  · intro x
    rw [hnode, mergeFrom_nodeCluster]
    simp only [h.nodes src hedge.live_left]
  · intro c hc
    rw [hcluster]
    rcases mergeFrom_of_ne g.toAscGraph (d := st.dict) src hc with ⟨hin, hout, hmeta⟩
    exact ⟨⟨hin, hout, hmeta⟩, by rw [mergeFrom_nodes, if_neg hc]⟩
  · rw [hcluster]
    exact ⟨by rw [mergeFrom_nodes, if_pos rfl], mergeFrom_inNodes .., mergeFrom_outNodes ..,
      by rw [mergeFrom_metaData], by rw [mergeFrom_metaData], by rw [mergeFrom_metaData]⟩

theorem LimitInv.mergeable (h : MergeInv g.toAscGraph st) (hinv : LimitInv g st.dict)
    (henable : (st.dict.cluster src).metaData.enableVf = true)
    (henable' : (st.dict.cluster this).metaData.enableVf = true)
    (hedge : ClusterEdge g.toAscGraph st.dict src this) :
    Mergeable g (st.dict.cluster src) (st.dict.cluster this) where
  srcOk := hinv.ok src hedge.live_left henable
  dstOk := hinv.ok this hedge.live_right henable'
  disjoint x hx hx' := by
    rw [h.nodes src hedge.live_left] at hx
    rw [h.nodes this hedge.live_right, hx] at hx'
    exact hedge.1 (Option.some.inj hx')
  noBack x hx y hy hfeeds := by
    rw [h.nodes this hedge.live_right] at hx
    rw [h.nodes src hedge.live_left] at hy
    have hback : ClusterEdge g.toAscGraph st.dict this src :=
      ⟨Ne.symm hedge.1, x, y, hfeeds.edge, hx, hy⟩
    exact h.acyclic src (TransGen.tail (TransGen.single hedge) hback)

section

variable (hg : g.WellFormed)
include hg

/-- One merge keeps the limits. -/
theorem LimitInv.step (h : MergeInv g.toAscGraph st) (hinv : LimitInv g st.dict)
    (hm : merges tests this st src = true) (hedge : ClusterEdge g.toAscGraph st.dict src this)
    (hallowed : MergeAllowed g (order (st.dict.cluster src) (st.dict.cluster this))
      (st.dict.cluster src) (st.dict.cluster this))
    (horder : ∀ a b x, x ∈ order a b ↔ x ∈ Cluster.findConnectedNodes a b) :
    LimitInv g (mergeInput g.toAscGraph tests this st src).dict := by
  rcases merges_spec h hm hedge with ⟨hnode, hother, hnew⟩
  have hmergeable := hinv.mergeable h hallowed.enableSrc hallowed.enableDst hedge
  have hmerge := hmergeable.merge hg hallowed (horder _ _) hnew
  generalize (mergeInput g.toAscGraph tests this st src).dict = d at hnode hother hnew hmerge ⊢
  have hlive : ∀ c, d.Live c → st.dict.Live c := by
    intro c hc
    rcases hc with ⟨x, hx⟩
    rw [hnode] at hx
    split at hx
    · rw [← Option.some.inj hx]
      exact hedge.live_right
    · exact ⟨x, hx⟩
  constructor
  · intro c hc henable
    by_cases hct : c = this
    · rw [hct]
      exact hmerge.1
    rcases hother c hct with ⟨hdata, hnodes⟩
    rw [hdata.metaData] at henable
    have hold := hinv.ok c (hlive c hc) henable
    exact ⟨by rw [hnodes, hdata.metaData]; exact hold.member,
      by rw [hnodes, hdata.inNodes]; exact hold.inNodes,
      by rw [hnodes, hdata.outNodes]; exact hold.outNodes_mem,
      by rw [hnodes, hdata.outNodes]; exact hold.outNodes,
      by rw [hnodes, hdata.metaData]; exact hold.insNum,
      by rw [hdata.metaData]; exact hold.insNum_lt,
      by rw [hnodes]; exact hold.lowToHigh⟩
  · intro c hc hlength
    by_cases hct : c = this
    · subst hct
      exact ⟨hnew.enableVf.trans hallowed.enableDst, hmerge.2⟩
    · rcases hother c hct with ⟨hdata, hnodes⟩
      rw [hnodes] at hlength
      rw [hnodes, hdata.metaData, hdata.inNodes, hdata.outNodes]
      exact hinv.merged c (hlive c hc) hlength

/-- A merge puts a Cast to a narrower type next to a node that it feeds when the scan was cut short. -/
theorem castWithConsumer_step (h : MergeInv g.toAscGraph st)
    (hinv : LimitInv g st.dict) (hm : merges tests this st src = true)
    (hedge : ClusterEdge g.toAscGraph st.dict src this)
    (hallowed : MergeAllowed g (order (st.dict.cluster src) (st.dict.cluster this))
      (st.dict.cluster src) (st.dict.cluster this))
    (horder : ∀ a b x, x ∈ order a b ↔ x ∈ Cluster.findConnectedNodes a b) :
    CastWithConsumer g (mergeInput g.toAscGraph tests this st src).dict ↔ CastWithConsumer g st.dict ∨
      ScanCutShort g (order (st.dict.cluster src) (st.dict.cluster this)) := by
  rcases merges_spec h hm hedge with ⟨hnode, _, _⟩
  have hmergeable := hinv.mergeable h hallowed.enableSrc hallowed.enableDst hedge
  rw [scanCutShort_iff hallowed.highToLow]
  generalize (mergeInput g.toAscGraph tests this st src).dict = d at hnode ⊢
  constructor
  · intro hcast
    rcases hcast with ⟨x, y, hfeeds, hhigh, c, hx, hy⟩
    rw [hnode] at hx hy
    by_cases hxs : st.dict.nodeCluster x = some src <;> by_cases hys : st.dict.nodeCluster y = some src
    · exact .inl ⟨x, y, hfeeds, hhigh, src, hxs, hys⟩
    · -- the Cast is in the one cluster and its consumer in the other
      rw [if_pos hxs] at hx
      rw [if_neg hys, ← hx, ← h.nodes this hedge.live_right] at hy
      rw [← h.nodes src hedge.live_left] at hxs
      exact .inr ⟨x, (horder _ _ x).mpr
        ((hmergeable.mem_connected_iff hg).mpr ⟨hxs, y, hy, hfeeds⟩), hhigh⟩
    · rw [if_pos hys] at hy
      rw [if_neg hxs, ← hy, ← h.nodes this hedge.live_right] at hx
      rw [← h.nodes src hedge.live_left] at hys
      exact absurd hfeeds (hmergeable.noBack x hx y hys)
    · rw [if_neg hxs] at hx
      rw [if_neg hys] at hy
      exact .inl ⟨x, y, hfeeds, hhigh, c, hx, hy⟩
  · intro hcast
    have hmoved : ∀ z c, st.dict.nodeCluster z = some c →
        d.nodeCluster z = some (if c = src then this else c) := by
      intro z c hz
      rw [hnode, hz]
      by_cases hc : c = src
      · simp [hc]
      · simp [hc]
    rcases hcast with ⟨x, y, hfeeds, hhigh, c, hx, hy⟩ | ⟨x, hx, hhigh⟩
    · exact ⟨x, y, hfeeds, hhigh, _, hmoved x c hx, hmoved y c hy⟩
    · rcases (hmergeable.mem_connected_iff hg).mp ((horder _ _ x).mp hx) with ⟨hxs, y, hy, hfeeds⟩
      rw [h.nodes src hedge.live_left] at hxs
      rw [h.nodes this hedge.live_right] at hy
      refine ⟨x, y, hfeeds, hhigh, this, by rw [hnode, if_pos hxs], ?_⟩
      rw [hmoved y this hy, if_neg (Ne.symm hedge.1)]

theorem limitInv_init : LimitInv g (initClusters g.toAscGraph) := by
  have h := initClusters_inv hg.sorted
  have hnodes : ∀ c x, (initClusters g.toAscGraph).nodeCluster x = some c →
      ((initClusters g.toAscGraph).cluster c).nodes = [x] := by
    intro c x hx
    rw [initClusters, h.fixAll_eq] at hx ⊢
    exact h.nodes x c hx
  constructor
  · intro c hc henable
    rcases hc with ⟨x, hx⟩
    have hmem : x ∈ g.nodes.map (·.id) := by
      rw [initClusters, h.fixAll_eq] at hx
      exact h.isSome_iff.mp ⟨c, hx⟩
    rcases mem_map.mp hmem with ⟨n, hn, rfl⟩
    exact clusterOk_init hg hn (initClusters_sameData hg.sorted hn hx) (hnodes c n.id hx) henable
  · intro c hc hlength
    rcases hc with ⟨x, hx⟩
    rw [hnodes c x hx] at hlength
    exact absurd hlength (lt_irrefl 1)

/-- At the start a Cast is alone. -/
theorem not_castWithConsumer_init : ¬ CastWithConsumer g (initClusters g.toAscGraph) := by
  intro h
  rcases h with ⟨x, y, hfeeds, _, c, hx, hy⟩
  have hinit := initClusters_inv hg.sorted
  rw [initClusters, hinit.fixAll_eq] at hx hy
  have heq := (hinit.nodes x c hx).symm.trans (hinit.nodes y c hy)
  exact hfeeds.ne hg.sorted (singleton_inj.mp heq)

/-- With the limits, all that can go wrong is a Cast with its consumer. -/
theorem LimitInv.allWithinLimits_iff (h : MergeInv g.toAscGraph st)
    (hinv : LimitInv g st.dict) : AllWithinLimits g st.dict ↔ ¬ CastWithConsumer g st.dict := by
  constructor
  · intro hall hcast
    rcases hcast with ⟨x, y, hfeeds, hhigh, c, hx, hy⟩
    have hlive : st.dict.Live c := ⟨x, hx⟩
    rw [← h.nodes c hlive] at hx hy
    have hlength : 1 < (st.dict.cluster c).nodes.length := by
      by_contra hle
      rcases mem_iff_getElem.mp hx with ⟨i, hi, hix⟩
      rcases mem_iff_getElem.mp hy with ⟨j, hj, hjy⟩
      have hij : i = j := by omega
      subst hij
      exact hfeeds.ne hg.sorted (hix.symm.trans hjy)
    have hnot := (hall c hlive hlength).highToLow x hx y hy hfeeds
    rw [hhigh] at hnot
    cases hnot
  · intro hcast c hlive hlength
    rcases hinv.merged c hlive hlength with ⟨henable, hio, hins, hgap⟩
    have hok := hinv.ok c hlive henable
    refine ⟨⟨_, hok.member⟩, hok.inNodes, hok.outNodes, hio, hins, hok.lowToHigh, ?_, hgap⟩
    intro x hx y hy hfeeds
    by_contra hhigh
    rw [h.nodes c hlive] at hx hy
    exact hcast ⟨x, y, hfeeds, by simpa using hhigh, c, hx, hy⟩

end

end RunStep

/-! ## The result -/

/-- The live clusters of more than one node are within the limits exactly when in no merge a Cast of
another kind hid a Cast to a narrower type. -/
theorem mergeClusters_withinLimits_iff [DecidableEq ε] (g : CastGraph ε) (hg : g.WellFormed)
    (order : Cluster ε → Cluster ε → List NodeId)
    (horder : ∀ a b x, x ∈ order a b ↔ x ∈ Cluster.findConnectedNodes a b) :
    AllWithinLimits g (mergeClusters g.toAscGraph (canMergeTests g order)
        (initClusters g.toAscGraph)) ↔
      ∀ p ∈ mergedPairs g.toAscGraph (canMergeTests g order) (initClusters g.toAscGraph),
        ¬ ScanCutShort g (order p.1 p.2) := by
  have hrun := mergeTrace_induct (canMergeTests g order) (Q := fun tr =>
      LimitInv g tr.state.dict ∧ (CastWithConsumer g tr.state.dict ↔
        ∃ p ∈ tr.pairs, ScanCutShort g (order p.1 p.2))) hg.sorted
    ⟨limitInv_init hg, by simpa using not_castWithConsumer_init hg⟩ ?_
  · have hstate := traceClusters_state g.toAscGraph (canMergeTests g order)
      { state := { dict := initClusters g.toAscGraph } } (initClusters g.toAscGraph).allClusters
    have hmerge := mergeClusters_inv hg.sorted (canMergeTests g order)
    rw [hstate] at hrun
    rw [mergeClusters, hrun.1.allWithinLimits_iff hg hmerge, hrun.2, mergedPairs]
    simp only [not_exists, not_and]
  · intro tr this src h hQ hm hedge
    have hcan : canMergeClusters (canMergeTests g order) (tr.state.dict.cluster src)
        (tr.state.dict.cluster this) = true := by
      simp only [merges, Bool.and_eq_true] at hm
      exact hm.1.2
    have hallowed := mergeAllowed_of_can hcan
    refine ⟨hQ.1.step hg h hm hedge hallowed horder, ?_⟩
    rw [traceInput]
    dsimp only
    rw [castWithConsumer_step hg h hQ.1 hm hedge hallowed horder, hQ.2, if_pos hm]
    simp only [mem_append, mem_singleton, or_and_right, exists_or, exists_eq_left]

/-- A Cast to a wider type feeds an operation whose result is cast to a narrower type, and the last
node selects between its results. -/
def maskedSelect : CastGraph ℕ where
  nodes :=
    [{ id := 0, outDataNodes := [1, 3], enableVf := true },
     { id := 1, inDataNodes := [0], outDataNodes := [2], enableVf := true },
     { id := 2, inDataNodes := [1], outDataNodes := [3], enableVf := true },
     { id := 3, inDataNodes := [2, 0], enableVf := true }]
  castSizes x := if x = 0 then some (1, 2) else if x = 2 then some (2, 1) else none

/-- The set of the connected nodes, iterated by ascending id. -/
def ascending (a b : Cluster ℕ) : List NodeId := (Cluster.findConnectedNodes a b).sort

theorem mem_ascending (a b : Cluster ℕ) (x : NodeId) :
    x ∈ ascending a b ↔ x ∈ Cluster.findConnectedNodes a b := Finset.mem_sort _

theorem maskedSelect_wellFormed : maskedSelect.WellFormed where
  sorted := by constructor <;> decide
  outDataNodes n hn y := by
    simp only [maskedSelect, mem_cons, not_mem_nil, or_false] at hn
    rcases hn with rfl | rfl | rfl | rfl <;> simp [Feeds, maskedSelect, eq_comm (a := y)]
  constantScalar := by decide
  insNum := by decide

theorem mergeClusters_withinLimits_iff_maskedSelect :
    AllWithinLimits maskedSelect (mergeClusters maskedSelect.toAscGraph
        (canMergeTests maskedSelect ascending) (initClusters maskedSelect.toAscGraph)) ↔
      ∀ p ∈ mergedPairs maskedSelect.toAscGraph (canMergeTests maskedSelect ascending)
        (initClusters maskedSelect.toAscGraph), ¬ ScanCutShort maskedSelect (ascending p.1 p.2) :=
  mergeClusters_withinLimits_iff maskedSelect maskedSelect_wellFormed ascending mem_ascending

/-- The sort of a set, in a form that can be run. -/
theorem sort_eq_filter (s : Finset ℕ) : s.sort = (range (s.sup id + 1)).filter (· ∈ s) := by
  have hmem : ((range (s.sup id + 1)).filter (· ∈ s)).toFinset = s := by
    ext x
    simp only [mem_toFinset, mem_filter, mem_range, decide_eq_true_eq,
      and_iff_right_iff_imp]
    intro hx
    exact Nat.lt_succ_of_le (Finset.le_sup (f := id) hx)
  have hnodup : ((range (s.sup id + 1)).filter (· ∈ s)).Nodup := nodup_range.filter _
  have hsorted := (toFinset_sort (· ≤ ·) hnodup).mpr (pairwise_le_range.filter _)
  rw [hmem] at hsorted
  exact hsorted

/-- All four nodes end in one cluster, although the third is a Cast to a narrower type that feeds the
last. -/
theorem not_withinLimits_maskedSelect :
    ¬ AllWithinLimits maskedSelect (mergeClusters maskedSelect.toAscGraph
      (canMergeTests maskedSelect ascending) (initClusters maskedSelect.toAscGraph)) := by
  have hrun : (mergeClusters maskedSelect.toAscGraph (canMergeTests maskedSelect ascending)
        (initClusters maskedSelect.toAscGraph)).nodeCluster 3 = some 4 ∧
      ((mergeClusters maskedSelect.toAscGraph (canMergeTests maskedSelect ascending)
        (initClusters maskedSelect.toAscGraph)).cluster 4).nodes = [3, 2, 1, 0] := by
    unfold mergeClusters mergeCluster mergeInput hasDetectedCycle ClusterDict.mergeFrom initClusters
      fixAllCompareClusterConnections fixCompareClusterConnections missingInputClusters canMergeTests
      ascending
    simp only [sort_eq_filter]
    decide +kernel
  intro h
  have hlimits := h 4 ⟨3, hrun.1⟩ (by rw [hrun.2]; decide)
  have hcast := hlimits.highToLow 2 (by rw [hrun.2]; decide) 3 (by rw [hrun.2]; decide)
    ⟨{ id := 3, inDataNodes := [2, 0], enableVf := true }, by decide, rfl, by decide⟩
  revert hcast
  decide

end GraphAutofusion.Autofuse.VectorFuncPartitioner
