import GraphAutofusion.Autofuse.Cluster

/-!
# Autofuse.VectorFuncPartitioner — clustering nodes into vector functions

Every node starts in a cluster of its own. Each cluster, in the order of the nodes, then takes
over its inputs one by one when the merge tests allow it and no other path leads from the
input to it. The clusters stay a partition of the nodes, their neighbour sets stay the edges
between them, and their graph stays acyclic.
-/

namespace GraphAutofusion.Autofuse

open Lib Relation ClusterDict Function List

variable {ε : Type}

/-- The nodes are listed behind their inputs, as `TopologicalSorting` leaves them. -/
structure AscGraph.Sorted (g : AscGraph ε) : Prop where
  nodup : (g.nodes.map (·.id)).Nodup
  inputs : ∀ n ∈ g.nodes, ∀ x ∈ n.inAllNodes, x ∈ (g.nodes.takeWhile (·.id ≠ n.id)).map (·.id)

namespace VectorFuncPartitioner

variable (g : AscGraph ε)

/-! ## InitClusters -/

def isConstantScalar (x : NodeId) : Bool := ((g.node? x).map (·.isConstantScalar)).getD false

def initClusterAttr (n : AscNode ε) (c : Cluster ε) : Cluster ε :=
  if !n.unitTailStride then { c with metaData := { c.metaData with enableVf := false } }
  else
    { c with
      metaData := { c.metaData with
        insNum := n.insNum, loopAxis := n.loopAxis, vectorizedRepeats := n.broadcastRepeats }
      outNodes := insert n.id c.outNodes
      inNodes := c.inNodes ∪ (n.inDataNodes.filter (!isConstantScalar g ·)).toFinset }

def createAndInitCluster (n : AscNode ε) : Cluster ε :=
  let c : Cluster ε := { nodes := [n.id], metaData := { enableVf := n.enableVf } }
  if n.enableVf then initClusterAttr g n c else c

def establishClusterConnections (d : ClusterDict ε) (c : ℕ) (l : List NodeId) : ClusterDict ε :=
  l.foldl (fun d x =>
    match d.nodeCluster x with
    | none => d
    | some inCluster => d.addInput c inCluster) d

/-- `AddCluster` and `SetNodeClusterPair` for a new cluster. -/
def addCluster (d : ClusterDict ε) (c : ℕ) (n : AscNode ε) : ClusterDict ε :=
  { cluster := update d.cluster c (createAndInitCluster g n)
    allClusters := d.allClusters ++ [c]
    nodeCluster := update d.nodeCluster n.id (some c) }

structure InitState (ε : Type) where
  dict : ClusterDict ε := {}
  rank : ℕ := 0

/-- One iteration of `InitClusters`. -/
def initCluster (st : InitState ε) (n : AscNode ε) : InitState ε :=
  if (st.dict.nodeCluster n.id).isSome then st
  else
    let c := st.rank + 1
    { dict := establishClusterConnections (addCluster g st.dict c n) c n.inAllNodes, rank := c }

/-- The input clusters of the input nodes that are not among the inputs. -/
def missingInputClusters (d : ClusterDict ε) (c : ℕ) (compareNode : NodeId) : Finset ℕ :=
  ((d.cluster c).inNodes.sort.filterMap fun x =>
    if x = compareNode then none
    else (d.nodeCluster x).filter fun inCluster =>
      inCluster ≠ c && !decide (inCluster ∈ (d.cluster c).inputs)).toFinset

def fixCompareClusterConnections (d : ClusterDict ε) (c : ℕ) (compareNode : NodeId) :
    ClusterDict ε :=
  (missingInputClusters d c compareNode).sort.foldl (fun d x => d.addInput c x) d

def compareNode? (c : Cluster ε) : Option NodeId :=
  c.nodes.find? fun x => ((g.node? x).map (·.isCompareOp)).getD false

def fixAllCompareClusterConnections (d : ClusterDict ε) : ClusterDict ε :=
  d.allClusters.foldl (fun d c =>
    match compareNode? g (d.cluster c) with
    | none => d
    | some x => fixCompareClusterConnections d c x) d

def initClusters : ClusterDict ε :=
  fixAllCompareClusterConnections g (g.nodes.foldl (initCluster g) {}).dict

/-! ## MergeClusters -/

/-- `CanMergeClusters`. What it tests of two clusters that are both enabled (the loop axis, the
instruction and tensor counts, the repeats and the casts) is the parameter `tests`. -/
def canMergeClusters (tests : Cluster ε → Cluster ε → Bool) (src dst : Cluster ε) : Bool :=
  if !src.metaData.enableVf || !dst.metaData.enableVf then false else tests src dst

/-- Whether `dst` is reached from an output of `src` other than `dst`. -/
def hasDetectedCycle (d : ClusterDict ε) (src dst : ℕ) : Bool :=
  if (d.cluster src).outNodes = ∅ ∨ (d.cluster dst).inputs = ∅ then false
  else
    let pushed := pushNew [] ∅ ((d.cluster src).outputs.sort.filter (· ≠ dst))
    search (fun c => (d.cluster c).outputs.sort) dst d.allClusters.length pushed.1 pushed.2

/-- The dictionary and `merged_clusters`. -/
structure MergeState (ε : Type) where
  dict : ClusterDict ε
  merged : Finset ℕ := ∅

variable (tests : Cluster ε → Cluster ε → Bool)

/-- One iteration of the inner loop of `MergeClusters`. -/
def mergeInput (this : ℕ) (st : MergeState ε) (src : ℕ) : MergeState ε :=
  if src ∈ st.merged then st
  else if !canMergeClusters tests (st.dict.cluster src) (st.dict.cluster this) then st
  else if hasDetectedCycle st.dict src this then st
  else
    let d := st.dict.mergeFrom g this src
    { dict := (d.cluster src).nodes.foldl (fun d x => d.setNodeClusterPair x this) d
      merged := insert src st.merged }

/-- One iteration of the outer loop of `MergeClusters`. -/
def mergeCluster (st : MergeState ε) (this : ℕ) : MergeState ε :=
  if this ∈ st.merged then st
  else (st.dict.cluster this).inputs.sort.foldl (mergeInput g tests this) st

def mergeClusters (d : ClusterDict ε) : ClusterDict ε :=
  (d.allClusters.foldl (mergeCluster g tests) { dict := d }).dict

variable {g tests}

/-! ## Sorted graphs -/

theorem sorted_pre (hg : g.Sorted) {pre post : List (AscNode ε)} {n : AscNode ε}
    (hsplit : g.nodes = pre ++ n :: post) :
    n.id ∉ pre.map (·.id) ∧ ∀ x ∈ n.inAllNodes, x ∈ pre.map (·.id) := by
  have hnodup := hg.nodup
  rw [hsplit, map_append, map_cons] at hnodup
  have hnot : n.id ∉ pre.map (·.id) := by
    intro hmem
    exact (nodup_append.mp hnodup).2.2 n.id hmem n.id (mem_cons_self ..) rfl
  refine ⟨hnot, fun x hx => ?_⟩
  have hmem := hg.inputs n (hsplit ▸ mem_append_right _ (mem_cons_self ..)) x hx
  have htake : g.nodes.takeWhile (·.id ≠ n.id) = pre := by
    rw [hsplit, takeWhile_append_of_pos, takeWhile_cons_of_neg (by simp), append_nil]
    intro m hm
    have hne : m.id ≠ n.id := by
      intro heq
      exact hnot (mem_map.mpr ⟨m, hm, heq⟩)
    simpa using hne
  rw [htake] at hmem
  exact hmem

/-- The inputs of a node that stands in a prefix of the list stand in that prefix. -/
theorem sorted_closed (hg : g.Sorted) {pre post : List (AscNode ε)} (hsplit : g.nodes = pre ++ post)
    {n : AscNode ε} (hn : n ∈ pre) : ∀ x ∈ n.inAllNodes, x ∈ pre.map (·.id) := by
  rcases append_of_mem hn with ⟨A, B, rfl⟩
  rw [append_assoc, cons_append] at hsplit
  intro x hx
  have hmem := (sorted_pre hg hsplit).2 x hx
  rw [map_append]
  exact mem_append_left _ hmem

theorem eq_of_id (hg : g.Sorted) {m n : AscNode ε} (hm : m ∈ g.nodes) (hn : n ∈ g.nodes)
    (h : m.id = n.id) : m = n :=
  inj_on_of_nodup_map hg.nodup hm hn h

/-! ## The clusters after InitClusters -/

variable {d : ClusterDict ε} {st : InitState ε} {pre post : List (AscNode ε)} {n : AscNode ε}
  {a b c this src : ℕ} {x : NodeId}

/-- The edges between the clusters. -/
def ClusterEdge (g : AscGraph ε) (d : ClusterDict ε) : ℕ → ℕ → Prop :=
  ClassEdge g.Edge d.nodeCluster

/-- The state of `InitClusters` after the nodes of `pre`: the `k`-th node is in cluster `k + 1`. -/
structure InitInv (g : AscGraph ε) (pre : List (AscNode ε)) (st : InitState ε) : Prop where
  rank : st.rank = pre.length
  all : st.dict.allClusters = range' 1 pre.length
  nodeCluster : ∀ x c, st.dict.nodeCluster x = some c ↔
    ∃ k, c = k + 1 ∧ (pre[k]?).map (·.id) = some x
  nodes : ∀ x c, st.dict.nodeCluster x = some c → (st.dict.cluster c).nodes = [x]
  linked : st.dict.Linked (ClusterEdge g st.dict)
  lt : ∀ a b, ClusterEdge g st.dict a b → a < b
  outNodes : ∀ c, (st.dict.cluster c).metaData.enableVf = true → (st.dict.cluster c).outNodes.Nonempty
  inNodes : ∀ c, ∀ x ∈ (st.dict.cluster c).inNodes, ∃ a, st.dict.nodeCluster x = some a ∧
    (a = c ∨ ClusterEdge g st.dict a c)

theorem InitInv.le (h : InitInv g pre st) (hc : st.dict.nodeCluster x = some c) :
    0 < c ∧ c ≤ pre.length := by
  rcases (h.nodeCluster x c).mp hc with ⟨k, rfl, hk⟩
  have hlt : k < pre.length := by
    by_contra hge
    rw [getElem?_eq_none (Nat.le_of_not_lt hge)] at hk
    cases hk
  omega

/-- The nodes that have a cluster. -/
theorem InitInv.isSome_iff (h : InitInv g pre st) :
    (∃ c, st.dict.nodeCluster x = some c) ↔ x ∈ pre.map (·.id) := by
  constructor
  · rintro ⟨c, hc⟩
    rcases (h.nodeCluster x c).mp hc with ⟨k, _, hk⟩
    rw [← getElem?_map] at hk
    exact mem_of_getElem? hk
  · intro hx
    rcases mem_iff_getElem?.mp hx with ⟨k, hk⟩
    rw [getElem?_map] at hk
    exact ⟨k + 1, (h.nodeCluster x _).mpr ⟨k, rfl, hk⟩⟩

theorem initInv_nil : InitInv g [] {} where
  rank := rfl
  all := rfl
  nodeCluster x c := by simp
  nodes x c h := by cases h
  linked := by
    constructor
    · intro x y
      simp [ClusterEdge, ClassEdge]
    · intro x y
      simp [ClusterEdge, ClassEdge]
  lt := by
    rintro a b ⟨_, x, y, _, hx, _⟩
    cases hx
  outNodes c h := by cases h
  inNodes c x hx := by cases hx

/-- Connecting a cluster draws an edge from the cluster of each listed node. -/
theorem establish_linked {r : ℕ → ℕ → Prop} (h : d.Linked r) (l : List NodeId) :
    (establishClusterConnections d c l).Linked
      fun a b => r a b ∨ (b = c ∧ ∃ x ∈ l, d.nodeCluster x = some a) := by
  induction l generalizing d r with
  | nil => exact h.congr fun a b => by simp
  | cons x l ih =>
    unfold establishClusterConnections
    rw [foldl_cons]
    cases hx : d.nodeCluster x with
    | none =>
      refine (ih h).congr fun a b => ?_
      simp [hx]
    | some inCluster =>
      refine (ih (h.addInput c inCluster)).congr fun a b => ?_
      rw [addInput_sameNodes.nodeCluster]
      simp only [mem_cons, exists_eq_or_imp, hx, Option.some.injEq]
      constructor
      · rintro ((hr | ⟨rfl, rfl⟩) | ⟨rfl, hex⟩)
        · exact .inl hr
        · exact .inr ⟨rfl, .inl rfl⟩
        · exact .inr ⟨rfl, .inr hex⟩
      · rintro (hr | ⟨rfl, rfl | hex⟩)
        · exact .inl (.inl hr)
        · exact .inl (.inr ⟨rfl, rfl⟩)
        · exact .inr ⟨rfl, hex⟩

theorem establish_sameNodes (d : ClusterDict ε) (c : ℕ) (l : List NodeId) :
    SameNodes d (establishClusterConnections d c l) := by
  induction l generalizing d with
  | nil => exact SameNodes.refl d
  | cons x l ih =>
    unfold establishClusterConnections
    rw [foldl_cons]
    cases d.nodeCluster x with
    | none => exact ih d
    | some inCluster => exact addInput_sameNodes.trans (ih _)

/-- The class edges once the next node has its own cluster. -/
theorem InitInv.classEdge_update (hg : g.Sorted) (hsplit : g.nodes = pre ++ n :: post)
    (h : InitInv g pre st) :
    ClassEdge g.Edge (update st.dict.nodeCluster n.id (some (st.rank + 1))) a b ↔
      ClusterEdge g st.dict a b ∨
        (b = st.rank + 1 ∧ ∃ x ∈ n.inAllNodes, st.dict.nodeCluster x = some a) := by
  rcases sorted_pre hg hsplit with ⟨hnew, hinputs⟩
  have hn : n ∈ g.nodes := hsplit ▸ mem_append_right _ (mem_cons_self ..)
  have hnone : st.dict.nodeCluster n.id = none := by
    rw [Option.eq_none_iff_forall_ne_some]
    intro c hc
    exact hnew (h.isSome_iff.mp ⟨c, hc⟩)
  have hold : ∀ {x}, x ∈ pre.map (·.id) → update st.dict.nodeCluster n.id
      (some (st.rank + 1)) x = st.dict.nodeCluster x := by
    intro x hx
    apply update_of_ne
    intro heq
    exact hnew (heq ▸ hx)
  constructor
  · rintro ⟨hab, x, y, ⟨m, hm, rfl, hxm⟩, hx, hy⟩
    by_cases hmn : m = n
    · subst hmn
      rw [update_self] at hy
      rw [hold (hinputs x hxm)] at hx
      exact .inr ⟨(Option.some.inj hy).symm, x, hxm, hx⟩
    · -- both ends of the edge stand before the new node
      have hne : m.id ≠ n.id := fun heq => hmn (eq_of_id hg hm hn heq)
      rw [update_of_ne hne] at hy
      have hpre : m ∈ pre := by
        rcases mem_map.mp (h.isSome_iff.mp ⟨b, hy⟩) with ⟨m', hm', hid⟩
        have heq : m' = m := eq_of_id hg (hsplit ▸ mem_append_left _ hm') hm hid
        exact heq ▸ hm'
      rw [hold (sorted_closed hg hsplit hpre x hxm)] at hx
      exact .inl ⟨hab, x, m.id, ⟨m, hm, rfl, hxm⟩, hx, hy⟩
  · rintro (⟨hab, x, y, hedge, hx, hy⟩ | ⟨rfl, x, hxn, hx⟩)
    · refine ⟨hab, x, y, hedge, ?_, ?_⟩
      · rw [hold (h.isSome_iff.mp ⟨a, hx⟩)]
        exact hx
      · rw [hold (h.isSome_iff.mp ⟨b, hy⟩)]
        exact hy
    · have hle := (h.le hx).2
      rw [← h.rank] at hle
      refine ⟨by omega, x, n.id, ⟨n, hn, rfl, hxn⟩, ?_, update_self ..⟩
      rw [hold (h.isSome_iff.mp ⟨a, hx⟩)]
      exact hx

theorem createAndInitCluster_nodes : (createAndInitCluster g n).nodes = [n.id] := by
  unfold createAndInitCluster initClusterAttr
  dsimp only
  split
  · split <;> rfl
  · rfl

theorem createAndInitCluster_neighbours :
    (createAndInitCluster g n).inputs = ∅ ∧ (createAndInitCluster g n).outputs = ∅ := by
  unfold createAndInitCluster initClusterAttr
  dsimp only
  split
  · split <;> exact ⟨rfl, rfl⟩
  · exact ⟨rfl, rfl⟩

/-- A cluster that is enabled for vector functions has its node as an outer node. -/
theorem createAndInitCluster_outNodes (h : (createAndInitCluster g n).metaData.enableVf = true) :
    (createAndInitCluster g n).outNodes.Nonempty := by
  unfold createAndInitCluster initClusterAttr at h ⊢
  dsimp only at h ⊢
  split
  · next hvf =>
    rw [if_pos hvf] at h
    split
    · next htail =>
      rw [if_pos htail] at h
      cases h
    · exact ⟨n.id, Finset.mem_insert_self ..⟩
  · next hvf =>
    rw [if_neg hvf] at h
    exact absurd h hvf

theorem createAndInitCluster_inNodes (h : x ∈ (createAndInitCluster g n).inNodes) :
    x ∈ n.inDataNodes := by
  unfold createAndInitCluster initClusterAttr at h
  dsimp only at h
  split at h
  · split at h
    · cases h
    · simp only [Finset.empty_union, mem_toFinset] at h
      exact mem_of_mem_filter h
  · cases h

/-- One iteration of `InitClusters`. -/
theorem InitInv.step (hg : g.Sorted) (hsplit : g.nodes = pre ++ n :: post) (h : InitInv g pre st) :
    InitInv g (pre ++ [n]) (initCluster g st n) := by
  rcases sorted_pre hg hsplit with ⟨hnew, hinputs⟩
  have hnone : st.dict.nodeCluster n.id = none := by
    rw [Option.eq_none_iff_forall_ne_some]
    intro c hc
    exact hnew (h.isSome_iff.mp ⟨c, hc⟩)
  have hdict : (initCluster g st n).dict = establishClusterConnections
      (addCluster g st.dict (st.rank + 1) n) (st.rank + 1) n.inAllNodes := by
    simp [initCluster, hnone]
  have hsame := establish_sameNodes (addCluster g st.dict (st.rank + 1) n) (st.rank + 1) n.inAllNodes
  rw [← hdict] at hsame
  have hnode : (initCluster g st n).dict.nodeCluster
      = update st.dict.nodeCluster n.id (some (st.rank + 1)) := hsame.nodeCluster
  have hedge : ∀ a b, ClusterEdge g (initCluster g st n).dict a b ↔ ClusterEdge g st.dict a b ∨
      (b = st.rank + 1 ∧ ∃ x ∈ n.inAllNodes, st.dict.nodeCluster x = some a) := by
    intro a b
    rw [ClusterEdge, hnode]
    exact h.classEdge_update hg hsplit
  -- no old edge touches the new cluster
  have hfresh : ∀ x c, st.dict.nodeCluster x = some c → c ≠ st.rank + 1 := by
    intro x c hc
    have hle := (h.le hc).2
    rw [← h.rank] at hle
    omega
  have hlinked : (addCluster g st.dict (st.rank + 1) n).Linked (ClusterEdge g st.dict) := by
    constructor
    · intro a b
      by_cases ha : a = st.rank + 1
      · subst ha
        have hcl : (addCluster g st.dict (st.rank + 1) n).cluster (st.rank + 1)
            = createAndInitCluster g n := update_self ..
        rw [hcl, createAndInitCluster_neighbours.2]
        constructor
        · intro hmem
          cases hmem
        · rintro ⟨_, x, _, _, hx, _⟩
          exact absurd rfl (hfresh x _ hx)
      · have hcl : (addCluster g st.dict (st.rank + 1) n).cluster a = st.dict.cluster a :=
          update_of_ne ha ..
        rw [hcl]
        exact h.linked.outputs a b
    · intro a b
      by_cases hb : b = st.rank + 1
      · subst hb
        have hcl : (addCluster g st.dict (st.rank + 1) n).cluster (st.rank + 1)
            = createAndInitCluster g n := update_self ..
        rw [hcl, createAndInitCluster_neighbours.1]
        constructor
        · intro hmem
          cases hmem
        · rintro ⟨_, _, y, _, _, hy⟩
          exact absurd rfl (hfresh y _ hy)
      · have hcl : (addCluster g st.dict (st.rank + 1) n).cluster b = st.dict.cluster b :=
          update_of_ne hb ..
        rw [hcl]
        exact h.linked.inputs a b
  have hcluster : ∀ {c}, c ≠ st.rank + 1 →
      (addCluster g st.dict (st.rank + 1) n).cluster c = st.dict.cluster c :=
    fun hc => update_of_ne hc ..
  have hself : (addCluster g st.dict (st.rank + 1) n).cluster (st.rank + 1)
      = createAndInitCluster g n := update_self ..
  have hx_ne : ∀ {x c}, st.dict.nodeCluster x = some c → x ≠ n.id := by
    intro x c hc heq
    rw [heq, hnone] at hc
    cases hc
  refine ⟨?_, ?_, ?_, ?_, ?_, ?_, ?_, ?_⟩
  · simp [initCluster, hnone, h.rank]
  · rw [hsame.allClusters, length_append, length_singleton, range'_concat, addCluster,
      h.all, h.rank, Nat.one_mul, Nat.add_comm]
  · intro x c
    rw [hnode]
    by_cases hx : x = n.id
    · subst hx
      rw [update_self, Option.some.injEq, h.rank]
      constructor
      · rintro rfl
        exact ⟨pre.length, rfl, by simp⟩
      · rintro ⟨k, rfl, hk⟩
        by_cases hlt : k < pre.length
        · rw [getElem?_append_left hlt, ← getElem?_map] at hk
          exact absurd (mem_of_getElem? hk) hnew
        · rw [getElem?_append_right (Nat.le_of_not_lt hlt)] at hk
          have hzero : k - pre.length = 0 := by
            by_contra hne
            rw [getElem?_eq_none (by simp; omega)] at hk
            cases hk
          omega
    · rw [update_of_ne hx, h.nodeCluster]
      constructor
      · rintro ⟨k, rfl, hk⟩
        refine ⟨k, rfl, ?_⟩
        rcases Option.map_eq_some_iff.mp hk with ⟨m, hm, hid⟩
        rw [getElem?_append_left (List.getElem?_eq_some_iff.mp hm).1, hm, Option.map_some, hid]
      · rintro ⟨k, rfl, hk⟩
        refine ⟨k, rfl, ?_⟩
        by_cases hlt : k < pre.length
        · rw [getElem?_append_left hlt] at hk
          exact hk
        · rw [getElem?_append_right (Nat.le_of_not_lt hlt)] at hk
          rcases Option.map_eq_some_iff.mp hk with ⟨m, hm, hid⟩
          have hmn : m = n := mem_singleton.mp (mem_of_getElem? hm)
          exact absurd (hid.symm.trans (congrArg AscNode.id hmn)) hx
  · intro x c hc
    rw [hnode] at hc
    rw [hsame.nodes]
    by_cases hx : x = n.id
    · subst hx
      rw [update_self, Option.some.injEq] at hc
      rw [← hc, hself, createAndInitCluster_nodes]
    · rw [update_of_ne hx] at hc
      rw [hcluster (hfresh x c hc)]
      exact h.nodes x c hc
  · rw [hdict]
    refine (establish_linked hlinked n.inAllNodes).congr fun a b => ?_
    rw [← hdict, hedge]
    have hold : ∀ x ∈ n.inAllNodes, (addCluster g st.dict (st.rank + 1) n).nodeCluster x
        = st.dict.nodeCluster x := by
      intro x hx
      apply update_of_ne
      intro heq
      exact hnew (heq ▸ hinputs x hx)
    constructor
    · rintro (hr | ⟨rfl, x, hx, hxa⟩)
      · exact .inl hr
      · exact .inr ⟨rfl, x, hx, hold x hx ▸ hxa⟩
    · rintro (hr | ⟨rfl, x, hx, hxa⟩)
      · exact .inl hr
      · exact .inr ⟨rfl, x, hx, (hold x hx).trans hxa⟩
  · intro a b hab
    rcases (hedge a b).mp hab with hab | ⟨rfl, x, _, hx⟩
    · exact h.lt a b hab
    · have hle := (h.le hx).2
      rw [← h.rank] at hle
      omega
  · intro c hc
    rw [hsame.metaData] at hc
    rw [hsame.outNodes]
    by_cases hcr : c = st.rank + 1
    · subst hcr
      rw [hself] at hc ⊢
      exact createAndInitCluster_outNodes hc
    · rw [hcluster hcr] at hc ⊢
      exact h.outNodes c hc
  · intro c x hx
    rw [hsame.inNodes] at hx
    by_cases hcr : c = st.rank + 1
    · subst hcr
      rw [hself] at hx
      have hxn : x ∈ n.inAllNodes := mem_append_left _ (createAndInitCluster_inNodes hx)
      have hpre := hinputs x hxn
      rcases h.isSome_iff.mpr hpre with ⟨a, ha⟩
      refine ⟨a, ?_, .inr ((hedge _ _).mpr (.inr ⟨rfl, x, hxn, ha⟩))⟩
      rw [hnode, update_of_ne (hx_ne ha)]
      exact ha
    · rw [hcluster hcr] at hx
      rcases h.inNodes c x hx with ⟨a, ha, hac⟩
      refine ⟨a, ?_, ?_⟩
      · rw [hnode, update_of_ne (hx_ne ha)]
        exact ha
      · rcases hac with hac | hac
        · exact .inl hac
        · exact .inr ((hedge a c).mpr (.inl hac))

theorem initClusters_inv (hg : g.Sorted) : InitInv g g.nodes (g.nodes.foldl (initCluster g) {}) := by
  have hrun : ∀ post pre st, g.nodes = pre ++ post → InitInv g pre st →
      InitInv g g.nodes (post.foldl (initCluster g) st) := by
    intro post
    induction post with
    | nil =>
      intro pre st hsplit h
      rw [append_nil] at hsplit
      rw [hsplit]
      exact h
    | cons n post ih =>
      intro pre st hsplit h
      apply ih (pre ++ [n])
      · rw [hsplit, append_assoc, singleton_append]
      · exact h.step hg hsplit
  exact hrun g.nodes [] {} rfl initInv_nil

/-- The inputs of a Compare are connected already. -/
theorem InitInv.missingInputClusters_eq (h : InitInv g pre st) (c : ℕ) (x : NodeId) :
    missingInputClusters st.dict c x = ∅ := by
  unfold missingInputClusters
  rw [toFinset_eq_empty_iff, filterMap_eq_nil_iff]
  intro y hy
  rw [Finset.mem_sort] at hy
  rcases h.inNodes c y hy with ⟨a, ha, hac⟩
  have hin : a = c ∨ a ∈ (st.dict.cluster c).inputs := hac.imp_right (h.linked.inputs a c).mpr
  split
  · rfl
  · rw [ha, Option.filter_some]
    rcases hin with rfl | hin
    · simp
    · simp [hin]

theorem InitInv.fixAll_eq (h : InitInv g pre st) :
    fixAllCompareClusterConnections g st.dict = st.dict := by
  unfold fixAllCompareClusterConnections
  have hfix : ∀ c x, fixCompareClusterConnections st.dict c x = st.dict := by
    intro c x
    rw [fixCompareClusterConnections, h.missingInputClusters_eq, Finset.sort_empty, foldl_nil]
  induction st.dict.allClusters with
  | nil => rfl
  | cons c l ih =>
    rw [foldl_cons]
    have hc : (match compareNode? g (st.dict.cluster c) with
        | none => st.dict
        | some x => fixCompareClusterConnections st.dict c x) = st.dict := by
      split
      · rfl
      · exact hfix ..
    rw [hc]
    exact ih

/-! ## The clusters during MergeClusters -/

/-- The clusters are a partition of the nodes with an acyclic graph. -/
structure MergeInv (g : AscGraph ε) (st : MergeState ε) : Prop where
  linked : st.dict.Linked (ClusterEdge g st.dict)
  acyclic : Acyclic (ClusterEdge g st.dict)
  isSome : ∀ x, (∃ c, st.dict.nodeCluster x = some c) ↔ x ∈ g.nodes.map (·.id)
  nodup : ∀ c, st.dict.Live c → (st.dict.cluster c).nodes.Nodup
  nodes : ∀ c, st.dict.Live c → ∀ x, x ∈ (st.dict.cluster c).nodes ↔ st.dict.nodeCluster x = some c
  all : ∀ c, st.dict.Live c → c ∈ st.dict.allClusters
  notMerged : ∀ c, st.dict.Live c → c ∉ st.merged
  outNodes : ∀ c, (st.dict.cluster c).metaData.enableVf = true → (st.dict.cluster c).outNodes.Nonempty

theorem ClusterEdge.live_left (h : ClusterEdge g d a b) : d.Live a := by
  rcases h with ⟨_, x, _, _, hx, _⟩
  exact ⟨x, hx⟩

theorem ClusterEdge.live_right (h : ClusterEdge g d a b) : d.Live b := by
  rcases h with ⟨_, _, y, _, _, hy⟩
  exact ⟨y, hy⟩

theorem mergeInv_init (hg : g.Sorted) : MergeInv g { dict := initClusters g } := by
  have h := initClusters_inv hg
  rw [initClusters, h.fixAll_eq]
  have hnodes : ∀ c, (g.nodes.foldl (initCluster g) {}).dict.Live c → ∀ x,
      x ∈ ((g.nodes.foldl (initCluster g) {}).dict.cluster c).nodes ↔
        (g.nodes.foldl (initCluster g) {}).dict.nodeCluster x = some c := by
    rintro c ⟨y, hy⟩ x
    rw [h.nodes y c hy, mem_singleton]
    constructor
    · rintro rfl
      exact hy
    · intro hx
      have hlist := h.nodes x c hx
      rw [h.nodes y c hy] at hlist
      exact (singleton_inj.mp hlist).symm
  refine ⟨h.linked, acyclic_of_lt h.lt, fun x => h.isSome_iff, ?_, hnodes, ?_, ?_, h.outNodes⟩
  · rintro c ⟨y, hy⟩
    have hlist := h.nodes y c hy
    rw [hlist]
    exact nodup_singleton y
  · rintro c ⟨y, hy⟩
    have hle := h.le hy
    rw [h.all, mem_range'_1]
    omega
  · intro c _
    exact Finset.notMem_empty c

/-- When no cycle is detected, the edge is the only path. -/
theorem MergeInv.no_path {st : MergeState ε} (h : MergeInv g st)
    (hout : (st.dict.cluster src).outNodes.Nonempty) (hedge : ClusterEdge g st.dict src this)
    (hcycle : hasDetectedCycle st.dict src this = false) :
    ∀ c, ClusterEdge g st.dict src c → c ≠ this → ¬ ReflTransGen (ClusterEdge g st.dict) c this := by
  have hin : (st.dict.cluster this).inputs ≠ ∅ :=
    Finset.ne_empty_of_mem ((h.linked.inputs src this).mpr hedge)
  unfold hasDetectedCycle at hcycle
  rw [if_neg (by simp [hout.ne_empty, hin])] at hcycle
  have hnext : ∀ {x y}, y ∈ (st.dict.cluster x).outputs.sort ↔ ClusterEdge g st.dict x y := by
    intro x y
    rw [Finset.mem_sort]
    exact h.linked.outputs x y
  have hcard := pushNew_card [] ∅ ((st.dict.cluster src).outputs.sort.filter (· ≠ this))
  rw [Finset.card_empty, length_nil] at hcard
  have hreach := @not_reach_of_search _ _ _ _ _ _ st.dict.allClusters.toFinset _ ?_ ?_ ?_ ?_ ?_ hcycle
  · intro c hc hne hpath
    refine hreach c (mem_pushNew_visited.mpr (.inr ?_)) (ReflTransGen.mono (fun x y => hnext.mpr) _ _ hpath)
    rw [mem_filter]
    exact ⟨hnext.mpr hc, by simpa using hne⟩
  · intro x _ y hy
    exact mem_toFinset.mpr (h.all y (hnext.mp hy).live_right)
  · intro x hx
    rcases mem_pushNew_visited.mp hx with hx | hx
    · cases hx
    · exact mem_toFinset.mpr (h.all x (hnext.mp (mem_of_mem_filter hx)).live_right)
  · intro x hx
    rcases mem_pushNew_queue.mp hx with hx | hx
    · cases hx
    · exact mem_pushNew_visited.mpr (.inr hx.1)
  · -- every visited cluster is still in the queue
    intro x hx hqueue
    rcases mem_pushNew_visited.mp hx with hx | hx
    · cases hx
    · exact absurd (mem_pushNew_queue.mpr (.inr ⟨hx, Finset.notMem_empty x⟩)) hqueue
  · have hle := toFinset_card_le st.dict.allClusters
    omega

theorem setNodeClusterPair_foldl (l : List NodeId) (c : ℕ) :
    (l.foldl (fun d x => d.setNodeClusterPair x c) d).cluster = d.cluster ∧
    (l.foldl (fun d x => d.setNodeClusterPair x c) d).allClusters = d.allClusters ∧
    ∀ x, (l.foldl (fun d x => d.setNodeClusterPair x c) d).nodeCluster x
      = if x ∈ l then some c else d.nodeCluster x := by
  induction l generalizing d with
  | nil => exact ⟨rfl, rfl, fun x => by simp⟩
  | cons y l ih =>
    rw [foldl_cons]
    rcases ih (d := d.setNodeClusterPair y c) with ⟨hcluster, hall, hnode⟩
    refine ⟨hcluster, hall, fun x => ?_⟩
    rw [hnode]
    by_cases hx : x ∈ l
    · simp [hx]
    · by_cases hxy : x = y
      · subst hxy
        simp [setNodeClusterPair]
      · simp [hx, hxy, setNodeClusterPair]

/-- One merge. -/
theorem MergeInv.mergeInput {st : MergeState ε} (h : MergeInv g st)
    (tests : Cluster ε → Cluster ε → Bool) (hsrc : src ∈ st.merged ∨ ClusterEdge g st.dict src this) :
    MergeInv g (mergeInput g tests this st src) ∧
      ∀ a, a ∈ st.merged ∨ ClusterEdge g st.dict a this →
        a ∈ (VectorFuncPartitioner.mergeInput g tests this st src).merged ∨
          ClusterEdge g (VectorFuncPartitioner.mergeInput g tests this st src).dict a this := by
  unfold VectorFuncPartitioner.mergeInput
  split
  · exact ⟨h, fun _ ha => ha⟩
  next hmerged =>
  split
  · exact ⟨h, fun _ ha => ha⟩
  next hcan =>
  split
  · exact ⟨h, fun _ ha => ha⟩
  next hcycle =>
  have hedge := hsrc.resolve_left hmerged
  have hne : src ≠ this := hedge.1
  have hvf : (st.dict.cluster src).metaData.enableVf = true := by
    unfold canMergeClusters at hcan
    split at hcan
    · exact absurd rfl hcan
    · next hvf => simp_all
  have hpath := h.no_path (h.outNodes src hvf) hedge (by simpa using hcycle)
  have hsrcNodes : ((st.dict.mergeFrom g this src).cluster src).nodes = (st.dict.cluster src).nodes := by
    rw [mergeFrom_nodes, if_neg hne]
  dsimp only
  rw [hsrcNodes]
  rcases setNodeClusterPair_foldl (d := st.dict.mergeFrom g this src) (st.dict.cluster src).nodes this with
    ⟨hcluster, hall, hnode⟩
  generalize hd : (st.dict.cluster src).nodes.foldl (fun d x => d.setNodeClusterPair x this)
    (st.dict.mergeFrom g this src) = d at hcluster hall hnode ⊢
  rw [mergeFrom_allClusters] at hall
  simp only [mergeFrom_nodeCluster, h.nodes src hedge.live_left] at hnode
  -- the nodes of `src` have moved to `this`
  have hmove : ∀ x, (st.dict.nodeCluster x = some src ∧ d.nodeCluster x = some this) ∨
      (st.dict.nodeCluster x ≠ some src ∧ d.nodeCluster x = st.dict.nodeCluster x) := by
    intro x
    rw [hnode]
    by_cases hx : st.dict.nodeCluster x = some src
    · exact .inl ⟨hx, if_pos hx⟩
    · exact .inr ⟨hx, if_neg hx⟩
  have hclass : ∀ a b, ClusterEdge g d a b ↔ contract (ClusterEdge g st.dict) src this a b :=
    fun a b => classEdge_merge hne hmove
  have hlive : ∀ {c}, d.Live c → c ≠ src ∧ st.dict.Live c := by
    rintro c ⟨x, hx⟩
    rcases hmove x with ⟨_, hthis⟩ | ⟨hxsrc, heq⟩
    · rw [hthis, Option.some.injEq] at hx
      rw [← hx]
      exact ⟨Ne.symm hne, hedge.live_right⟩
    · rw [heq] at hx
      exact ⟨fun hc => hxsrc (hc ▸ hx), x, hx⟩
  refine ⟨⟨?_, ?_, ?_, ?_, ?_, ?_, ?_, ?_⟩, ?_⟩
  · have hl := (h.linked.mergeFrom g (Ne.symm hne) (fun x hx => hx.1 rfl)).congr
      fun a b => (hclass a b).symm
    constructor
    · intro a b
      rw [hcluster]
      exact hl.outputs a b
    · intro a b
      rw [hcluster]
      exact hl.inputs a b
  · exact (h.acyclic.contract hedge hpath).mono fun a b => (hclass a b).mp
  · intro x
    rw [← h.isSome]
    rcases hmove x with ⟨hxsrc, hthis⟩ | ⟨_, heq⟩
    · rw [hthis, hxsrc]
      simp
    · rw [heq]
  · intro c hc
    rcases hlive hc with ⟨hcs, hc'⟩
    rw [hcluster, mergeFrom_nodes]
    split
    · refine Nodup.append (h.nodup this hedge.live_right) (h.nodup src hedge.live_left) ?_
      intro x hx hx'
      rw [h.nodes this hedge.live_right] at hx
      rw [h.nodes src hedge.live_left, hx] at hx'
      exact hne (Option.some.inj hx').symm
    · exact h.nodup c hc'
  · intro c hc x
    rcases hlive hc with ⟨hcs, hc'⟩
    rw [hcluster, mergeFrom_nodes, hnode]
    split
    · next hct =>
      subst hct
      rw [mem_append, h.nodes c hc', h.nodes src hedge.live_left]
      split
      · next hx => simp [hx]
      · next hx => simp [hx]
    · next hct =>
      rw [h.nodes c hc']
      split
      · next hx =>
        rw [hx, Option.some.injEq, Option.some.injEq]
        exact ⟨fun heq => absurd heq.symm hcs, fun heq => absurd heq.symm hct⟩
      · exact Iff.rfl
  · intro c hc
    rw [hall]
    exact h.all c (hlive hc).2
  · intro c hc
    rw [Finset.mem_insert, not_or]
    exact ⟨(hlive hc).1, h.notMerged c (hlive hc).2⟩
  · intro c hc
    rw [hcluster, mergeFrom_enableVf] at hc
    rw [hcluster]
    exact (h.outNodes c hc).mono (subset_mergeFrom_outNodes g c)
  · intro a ha
    rw [Finset.mem_insert, hclass]
    rcases ha with ha | ha
    · exact .inl (.inr ha)
    · by_cases has : a = src
      · exact .inl (.inl has)
      · exact .inr ⟨has, Ne.symm hne, ha.1, .inl ha⟩

theorem MergeInv.mergeInputs {st : MergeState ε} (h : MergeInv g st) {l : List ℕ}
    (hl : ∀ a ∈ l, a ∈ st.merged ∨ ClusterEdge g st.dict a this) :
    MergeInv g (l.foldl (VectorFuncPartitioner.mergeInput g tests this) st) := by
  induction l generalizing st with
  | nil => exact h
  | cons src l ih =>
    rcases h.mergeInput tests (hl src (mem_cons_self ..)) with ⟨hstep, hkeep⟩
    exact ih hstep fun a ha => hkeep a (hl a (mem_cons_of_mem _ ha))

theorem mergeClusters_inv (hg : g.Sorted) (tests : Cluster ε → Cluster ε → Bool) :
    MergeInv g ((initClusters g).allClusters.foldl (mergeCluster g tests) { dict := initClusters g }) := by
  have hrun : ∀ (l : List ℕ) st, MergeInv g st → MergeInv g (l.foldl (mergeCluster g tests) st) := by
    intro l
    induction l with
    | nil =>
      intro st h
      exact h
    | cons c l ih =>
      intro st h
      apply ih
      unfold mergeCluster
      split
      · exact h
      · apply h.mergeInputs
        intro a ha
        rw [Finset.mem_sort] at ha
        exact .inr ((h.linked.inputs a c).mp ha)
  exact hrun _ _ (mergeInv_init hg)

/-! ## The result -/

/-- The clusters of a dictionary partition the nodes of the graph and form a DAG. -/
structure ClusterDag (g : AscGraph ε) (d : ClusterDict ε) : Prop where
  belongs : ∀ n ∈ g.nodes, ∃ c, d.nodeCluster n.id = some c ∧ (d.cluster c).nodes.count n.id = 1 ∧
    ∀ c', d.Live c' → n.id ∈ (d.cluster c').nodes → c' = c
  nodes : ∀ c, d.Live c → ∀ x ∈ (d.cluster c).nodes, ∃ n ∈ g.nodes, n.id = x
  outputs : ∀ a b, d.Live a → d.Live b → (b ∈ (d.cluster a).outputs ↔
    a ≠ b ∧ ∃ x ∈ (d.cluster a).nodes, ∃ y ∈ (d.cluster b).nodes, g.Edge x y)
  inputs : ∀ a b, d.Live a → d.Live b → (a ∈ (d.cluster b).inputs ↔
    a ≠ b ∧ ∃ x ∈ (d.cluster a).nodes, ∃ y ∈ (d.cluster b).nodes, g.Edge x y)
  liveNeighbours : ∀ a, d.Live a →
    (∀ b ∈ (d.cluster a).outputs, d.Live b) ∧ ∀ b ∈ (d.cluster a).inputs, d.Live b
  acyclic : Acyclic fun a b => d.Live a ∧ b ∈ (d.cluster a).outputs

/-- Clustering keeps the graph a DAG, whatever the merge tests say. -/
theorem mergeClusters_dag (g : AscGraph ε) (hg : g.Sorted) (tests : Cluster ε → Cluster ε → Bool) :
    ClusterDag g (mergeClusters g tests (initClusters g)) := by
  have h := mergeClusters_inv hg tests
  rw [mergeClusters]
  generalize (initClusters g).allClusters.foldl (mergeCluster g tests) { dict := initClusters g } = st at h
  have hedge : ∀ a b, st.dict.Live a → st.dict.Live b → (ClusterEdge g st.dict a b ↔
      a ≠ b ∧ ∃ x ∈ (st.dict.cluster a).nodes, ∃ y ∈ (st.dict.cluster b).nodes, g.Edge x y) := by
    intro a b ha hb
    constructor
    · rintro ⟨hab, x, y, hxy, hx, hy⟩
      exact ⟨hab, x, (h.nodes a ha x).mpr hx, y, (h.nodes b hb y).mpr hy, hxy⟩
    · rintro ⟨hab, x, hx, y, hy, hxy⟩
      exact ⟨hab, x, y, hxy, (h.nodes a ha x).mp hx, (h.nodes b hb y).mp hy⟩
  refine ⟨?_, ?_, ?_, ?_, ?_, ?_⟩
  · intro n hn
    rcases (h.isSome n.id).mpr (mem_map.mpr ⟨n, hn, rfl⟩) with ⟨c, hc⟩
    have hlive : st.dict.Live c := ⟨n.id, hc⟩
    refine ⟨c, hc, count_eq_one_of_mem (h.nodup c hlive) ((h.nodes c hlive n.id).mpr hc), ?_⟩
    intro c' hlive' hmem
    have hc' := (h.nodes c' hlive' n.id).mp hmem
    rw [hc] at hc'
    exact (Option.some.inj hc').symm
  · intro c hc x hx
    exact mem_map.mp ((h.isSome x).mp ⟨c, (h.nodes c hc x).mp hx⟩)
  · intro a b ha hb
    rw [h.linked.outputs]
    exact hedge a b ha hb
  · intro a b ha hb
    rw [h.linked.inputs]
    exact hedge a b ha hb
  · intro a ha
    refine ⟨fun b hb => ?_, fun b hb => ?_⟩
    · exact ((h.linked.outputs a b).mp hb).live_right
    · exact ((h.linked.inputs b a).mp hb).live_left
  · exact h.acyclic.mono fun a b hab => (h.linked.outputs a b).mp hab.2

/-- A node that feeds the other two, one of which feeds the last. -/
def triangle : AscGraph ℕ where
  nodes :=
    [{ id := 0, outDataNodes := [1, 2], enableVf := true },
     { id := 1, inDataNodes := [0], outDataNodes := [2], enableVf := true },
     { id := 2, inDataNodes := [0, 1], enableVf := true }]

theorem mergeClusters_dag_triangle :
    ClusterDag triangle (mergeClusters triangle (fun _ _ => true) (initClusters triangle)) :=
  mergeClusters_dag triangle (by constructor <;> decide) _

end VectorFuncPartitioner

end GraphAutofusion.Autofuse
