import GraphAutofusion.Lib.EdgeContraction
import GraphAutofusion.Lib.GraphSearch
import Mathlib.Data.Finset.Sort

/-!
# Autofuse.Cluster — clusters of graph nodes and their neighbours

A cluster lists its nodes and refers to the clusters it reads from and those that read from
it. Clusters are shared and updated in place, so the dictionary holds them by their id, the
order in which they were created. The sets of neighbours are iterated by ascending id.
-/

namespace GraphAutofusion.Autofuse

open Lib Function Finset

abbrev NodeId := ℕ

/-- A node of the implementation graph, with the neighbours its anchors lead to and what the
partitioner asks of its type and its tensors. `ε` stands for symbolic expressions. -/
structure AscNode (ε : Type) where
  id : NodeId
  inDataNodes : List NodeId := []
  inControlNodes : List NodeId := []
  outDataNodes : List NodeId := []
  isCompareOp : Bool := false
  isConstantScalar : Bool := false
  /-- `IsVectorFunctionSupported`, as `RefineEnableVFFlag` leaves it -/
  enableVf : Bool := false
  /-- the innermost stride of every output that is not 0 may be 1 -/
  unitTailStride : Bool := true
  /-- the repeats of the vectorized axes of a Broadcast -/
  broadcastRepeats : List ε := []
  insNum : ℕ := 0
  loopAxis : ℤ := -1
deriving DecidableEq, Repr

/-- `GetInAllNodes`. -/
def AscNode.inAllNodes {ε : Type} (n : AscNode ε) : List NodeId := n.inDataNodes ++ n.inControlNodes

structure AscGraph (ε : Type) where
  nodes : List (AscNode ε)

structure MetaData (ε : Type) where
  enableVf : Bool := false
  insNum : ℕ := 0
  loopAxis : ℤ := -1
  vectorizedRepeats : List ε := []

structure Cluster (ε : Type) where
  metaData : MetaData ε := {}
  nodes : List NodeId := []
  inNodes : Finset NodeId := ∅
  outNodes : Finset NodeId := ∅
  inputs : Finset ℕ := ∅
  outputs : Finset ℕ := ∅

/-- The clusters by id, `clusters_` and `nodes_2_cluster_`. -/
structure ClusterDict (ε : Type) where
  cluster : ℕ → Cluster ε := fun _ => {}
  allClusters : List ℕ := []
  nodeCluster : NodeId → Option ℕ := fun _ => none

variable {ε : Type} (g : AscGraph ε)

namespace AscGraph

def node? (x : NodeId) : Option (AscNode ε) := g.nodes.find? (·.id = x)

/-- A data or control edge. -/
def Edge (x y : NodeId) : Prop := ∃ n ∈ g.nodes, n.id = y ∧ x ∈ n.inAllNodes

end AscGraph

namespace Cluster

/-- `ContainsNode`: `node_set_` holds the nodes of the list. -/
def containsNode (c : Cluster ε) (x : NodeId) : Bool := x ∈ c.nodes

def findConnectedNodes (pre post : Cluster ε) : Finset NodeId := pre.outNodes ∩ post.inNodes

def calculateMergedInNodes (pre post : Cluster ε) (connectedNodes : Finset NodeId) : Finset NodeId :=
  pre.inNodes ∪ (post.inNodes \ connectedNodes)

def calculateMergedOutNodes (pre post : Cluster ε) : Finset NodeId :=
  post.outNodes ∪ pre.outNodes.filter fun x =>
    ((g.node? x).elim [] (·.outDataNodes)).any fun y => !post.containsNode y

end Cluster

namespace ClusterDict

variable (d : ClusterDict ε)

def modify (c : ℕ) (f : Cluster ε → Cluster ε) : ClusterDict ε :=
  { d with cluster := Function.update d.cluster c (f (d.cluster c)) }

def setNodeClusterPair (x : NodeId) (c : ℕ) : ClusterDict ε :=
  { d with nodeCluster := Function.update d.nodeCluster x (some c) }

def updateInputs (c : ℕ) (f : Finset ℕ → Finset ℕ) : ClusterDict ε :=
  d.modify c fun cl => { cl with inputs := f cl.inputs }

def updateOutputs (c : ℕ) (f : Finset ℕ → Finset ℕ) : ClusterDict ε :=
  d.modify c fun cl => { cl with outputs := f cl.outputs }

def addInput (this input : ℕ) : ClusterDict ε :=
  if input ∈ (d.cluster this).inputs then d
  else
    let d := d.updateInputs this (insert input)
    if this ∈ (d.cluster input).outputs then d else d.updateOutputs input (insert this)

def addOutput (this output : ℕ) : ClusterDict ε :=
  if output ∈ (d.cluster this).outputs then d
  else
    let d := d.updateOutputs this (insert output)
    if this ∈ (d.cluster output).inputs then d else d.updateInputs output (insert this)

def removeInput (this input : ℕ) : ClusterDict ε :=
  (d.updateInputs this (·.erase input)).updateOutputs input (·.erase this)

def removeOutput (this output : ℕ) : ClusterDict ε :=
  (d.updateOutputs this (·.erase output)).updateInputs output (·.erase this)

/-- The clusters that `src` reads from feed `this` instead. -/
def redirectInputs (this src : ℕ) (inClusters : List ℕ) : ClusterDict ε :=
  inClusters.foldl (fun d c => (d.removeOutput c src).addOutput c this) d

/-- The clusters that read from `src` read from `this` instead. -/
def redirectOutputs (this src : ℕ) (outClusters : List ℕ) : ClusterDict ε :=
  outClusters.foldl (fun d c => (d.removeInput c src).addInput c this) d

/-- `MergeFrom`: cluster `this` takes over cluster `src`. -/
def mergeFrom (this src : ℕ) : ClusterDict ε :=
  let srcCluster := d.cluster src
  let d := d.modify this fun c => { c with nodes := c.nodes ++ srcCluster.nodes }
  let d := (d.updateInputs src (·.erase this)).updateOutputs src (·.erase this)
  let d := (d.updateInputs this (·.erase src)).updateOutputs this (·.erase src)
  let d := d.modify this fun c =>
    { c with metaData := { c.metaData with
        insNum := c.metaData.insNum + srcCluster.metaData.insNum
        vectorizedRepeats := if srcCluster.metaData.vectorizedRepeats.isEmpty
          then c.metaData.vectorizedRepeats else srcCluster.metaData.vectorizedRepeats } }
  let d := d.redirectInputs this src (d.cluster src).inputs.sort
  let d := d.redirectOutputs this src (d.cluster src).outputs.sort
  d.modify this fun c =>
    { c with
      inNodes := Cluster.calculateMergedInNodes srcCluster c (Cluster.findConnectedNodes srcCluster c)
      outNodes := Cluster.calculateMergedOutNodes g srcCluster c }

/-- A cluster that some node belongs to. -/
def Live (c : ℕ) : Prop := ∃ x, d.nodeCluster x = some c

/-- The neighbour sets of all clusters say the same, the relation `r`. -/
structure Linked (r : ℕ → ℕ → Prop) : Prop where
  outputs : ∀ x y, y ∈ (d.cluster x).outputs ↔ r x y
  inputs : ∀ x y, x ∈ (d.cluster y).inputs ↔ r x y

variable {d} {r r' : ℕ → ℕ → Prop} {this src input output a b c x y : ℕ}
  {f : Cluster ε → Cluster ε} {s : Finset ℕ → Finset ℕ} {l : List ℕ}

theorem Linked.congr (h : d.Linked r) (heq : ∀ x y, r x y ↔ r' x y) : d.Linked r' :=
  ⟨fun x y => (h.outputs x y).trans (heq x y), fun x y => (h.inputs x y).trans (heq x y)⟩

/-! ## What an operation leaves alone -/

@[simp] theorem modify_cluster_self : (d.modify c f).cluster c = f (d.cluster c) :=
  update_self ..

theorem modify_cluster_of_ne (h : x ≠ c) : (d.modify c f).cluster x = d.cluster x :=
  update_of_ne h ..

@[simp] theorem modify_allClusters : (d.modify c f).allClusters = d.allClusters := rfl

@[simp] theorem modify_nodeCluster : (d.modify c f).nodeCluster = d.nodeCluster := rfl

/-- A field that an update of a cluster leaves alone. -/
theorem modify_field {γ : Type*} (p : Cluster ε → γ) (hf : ∀ c, p (f c) = p c) (x : ℕ) :
    p ((d.modify c f).cluster x) = p (d.cluster x) := by
  by_cases hx : x = c
  · subst hx
    rw [modify_cluster_self, hf]
  · rw [modify_cluster_of_ne hx]

/-- Everything of a dictionary but the neighbour sets. -/
structure SameNodes (d d' : ClusterDict ε) : Prop where
  nodes : ∀ x, (d'.cluster x).nodes = (d.cluster x).nodes
  inNodes : ∀ x, (d'.cluster x).inNodes = (d.cluster x).inNodes
  outNodes : ∀ x, (d'.cluster x).outNodes = (d.cluster x).outNodes
  metaData : ∀ x, (d'.cluster x).metaData = (d.cluster x).metaData
  allClusters : d'.allClusters = d.allClusters
  nodeCluster : d'.nodeCluster = d.nodeCluster

theorem SameNodes.refl (d : ClusterDict ε) : SameNodes d d :=
  ⟨fun _ => rfl, fun _ => rfl, fun _ => rfl, fun _ => rfl, rfl, rfl⟩

theorem SameNodes.trans {d d' d'' : ClusterDict ε} (h : SameNodes d d') (h' : SameNodes d' d'') :
    SameNodes d d'' where
  nodes x := (h'.nodes x).trans (h.nodes x)
  inNodes x := (h'.inNodes x).trans (h.inNodes x)
  outNodes x := (h'.outNodes x).trans (h.outNodes x)
  metaData x := (h'.metaData x).trans (h.metaData x)
  allClusters := h'.allClusters.trans h.allClusters
  nodeCluster := h'.nodeCluster.trans h.nodeCluster

theorem updateInputs_sameNodes : SameNodes d (d.updateInputs c s) :=
  ⟨modify_field _ fun _ => rfl, modify_field _ fun _ => rfl, modify_field _ fun _ => rfl,
    modify_field _ fun _ => rfl, rfl, rfl⟩

theorem updateOutputs_sameNodes : SameNodes d (d.updateOutputs c s) :=
  ⟨modify_field _ fun _ => rfl, modify_field _ fun _ => rfl, modify_field _ fun _ => rfl,
    modify_field _ fun _ => rfl, rfl, rfl⟩

theorem addInput_sameNodes : SameNodes d (d.addInput this input) := by
  unfold addInput
  split
  · exact SameNodes.refl d
  · dsimp only
    split
    · exact updateInputs_sameNodes
    · exact updateInputs_sameNodes.trans updateOutputs_sameNodes

theorem addOutput_sameNodes : SameNodes d (d.addOutput this output) := by
  unfold addOutput
  split
  · exact SameNodes.refl d
  · dsimp only
    split
    · exact updateOutputs_sameNodes
    · exact updateOutputs_sameNodes.trans updateInputs_sameNodes

theorem removeInput_sameNodes : SameNodes d (d.removeInput this input) :=
  updateInputs_sameNodes.trans updateOutputs_sameNodes

theorem removeOutput_sameNodes : SameNodes d (d.removeOutput this output) :=
  updateOutputs_sameNodes.trans updateInputs_sameNodes

theorem redirectInputs_sameNodes : SameNodes d (d.redirectInputs this src l) := by
  induction l generalizing d with
  | nil => exact SameNodes.refl d
  | cons c l ih => exact (removeOutput_sameNodes.trans addOutput_sameNodes).trans ih

theorem redirectOutputs_sameNodes : SameNodes d (d.redirectOutputs this src l) := by
  induction l generalizing d with
  | nil => exact SameNodes.refl d
  | cons c l ih => exact (removeInput_sameNodes.trans addInput_sameNodes).trans ih

/-! ## What an operation does to the neighbours -/

theorem mem_updateInputs_inputs : a ∈ ((d.updateInputs c s).cluster x).inputs ↔
    (x = c ∧ a ∈ s (d.cluster x).inputs) ∨ (x ≠ c ∧ a ∈ (d.cluster x).inputs) := by
  by_cases hx : x = c
  · subst hx
    simp [updateInputs]
  · simp [updateInputs, modify_cluster_of_ne hx, hx]

theorem mem_updateOutputs_outputs : a ∈ ((d.updateOutputs c s).cluster x).outputs ↔
    (x = c ∧ a ∈ s (d.cluster x).outputs) ∨ (x ≠ c ∧ a ∈ (d.cluster x).outputs) := by
  by_cases hx : x = c
  · subst hx
    simp [updateOutputs]
  · simp [updateOutputs, modify_cluster_of_ne hx, hx]

@[simp] theorem updateInputs_outputs : ((d.updateInputs c s).cluster x).outputs
    = (d.cluster x).outputs := by
  apply modify_field (fun cl => cl.outputs)
  intro _
  rfl

@[simp] theorem updateOutputs_inputs : ((d.updateOutputs c s).cluster x).inputs
    = (d.cluster x).inputs := by
  apply modify_field (fun cl => cl.inputs)
  intro _
  rfl

section

variable (h : d.Linked r)
include h

/-- The edge is drawn on both sides. -/
theorem Linked.addInput (this input : ℕ) : (d.addInput this input).Linked
    fun x y => r x y ∨ (x = input ∧ y = this) := by
  unfold ClusterDict.addInput
  split
  · next hmem =>
    refine h.congr fun x y => ?_
    constructor
    · exact Or.inl
    · rintro (hr | ⟨rfl, rfl⟩)
      · exact hr
      · exact (h.inputs _ _).mp hmem
  · next hmem =>
    have hr : ¬ r input this := fun hr => hmem ((h.inputs _ _).mpr hr)
    have hout : this ∉ ((d.updateInputs this (insert input)).cluster input).outputs := by
      rw [updateInputs_outputs, h.outputs]
      exact hr
    dsimp only
    rw [if_neg hout]
    constructor
    · intro x y
      rw [mem_updateOutputs_outputs, updateInputs_outputs, mem_insert, h.outputs]
      tauto
    · intro x y
      rw [updateOutputs_inputs, mem_updateInputs_inputs, mem_insert, h.inputs]
      tauto

theorem Linked.addOutput (this output : ℕ) : (d.addOutput this output).Linked
    fun x y => r x y ∨ (x = this ∧ y = output) := by
  unfold ClusterDict.addOutput
  split
  · next hmem =>
    refine h.congr fun x y => ?_
    constructor
    · exact Or.inl
    · rintro (hr | ⟨rfl, rfl⟩)
      · exact hr
      · exact (h.outputs _ _).mp hmem
  · next hmem =>
    have hr : ¬ r this output := fun hr => hmem ((h.outputs _ _).mpr hr)
    have hin : this ∉ ((d.updateOutputs this (insert output)).cluster output).inputs := by
      rw [updateOutputs_inputs, h.inputs]
      exact hr
    dsimp only
    rw [if_neg hin]
    constructor
    · intro x y
      rw [updateInputs_outputs, mem_updateOutputs_outputs, mem_insert, h.outputs]
      tauto
    · intro x y
      rw [mem_updateInputs_inputs, updateOutputs_inputs, mem_insert, h.inputs]
      tauto

theorem Linked.removeInput (this input : ℕ) : (d.removeInput this input).Linked
    fun x y => r x y ∧ ¬ (x = input ∧ y = this) := by
  constructor
  · intro x y
    rw [ClusterDict.removeInput, mem_updateOutputs_outputs, updateInputs_outputs, mem_erase,
      h.outputs]
    tauto
  · intro x y
    rw [ClusterDict.removeInput, updateOutputs_inputs, mem_updateInputs_inputs, mem_erase,
      h.inputs]
    tauto

theorem Linked.removeOutput (this output : ℕ) : (d.removeOutput this output).Linked
    fun x y => r x y ∧ ¬ (x = this ∧ y = output) := by
  constructor
  · intro x y
    rw [ClusterDict.removeOutput, updateInputs_outputs, mem_updateOutputs_outputs, mem_erase,
      h.outputs]
    tauto
  · intro x y
    rw [ClusterDict.removeOutput, mem_updateInputs_inputs, updateOutputs_inputs, mem_erase,
      h.inputs]
    tauto

omit h in
theorem Linked.redirectInputs (hne : this ≠ src) (h : d.Linked r) :
    (d.redirectInputs this src l).Linked
      fun x y => (r x y ∧ ¬ (x ∈ l ∧ y = src)) ∨ (x ∈ l ∧ y = this) := by
  induction l generalizing d r with
  | nil => exact h.congr fun x y => by simp
  | cons c l ih =>
    refine (ih ((h.removeOutput c src).addOutput c this)).congr fun x y => ?_
    simp only [List.mem_cons]
    by_cases hy : y = this
    · subst hy
      simp only [hne, and_false, not_false_eq_true, and_true]
      tauto
    · simp only [hy, and_false, or_false]
      tauto

omit h in
theorem Linked.redirectOutputs (hne : this ≠ src) (h : d.Linked r) :
    (d.redirectOutputs this src l).Linked
      fun x y => (r x y ∧ ¬ (x = src ∧ y ∈ l)) ∨ (x = this ∧ y ∈ l) := by
  induction l generalizing d r with
  | nil => exact h.congr fun x y => by simp
  | cons c l ih =>
    refine (ih ((h.removeInput c src).addInput c this)).congr fun x y => ?_
    simp only [List.mem_cons]
    by_cases hx : x = this
    · subst hx
      simp only [hne, false_and, not_false_eq_true, and_true, true_and]
      tauto
    · simp only [hx, false_and, or_false]
      tauto

/-- An update of fields other than the neighbour sets. -/
theorem Linked.modify (hin : ∀ c, (f c).inputs = c.inputs)
    (hout : ∀ c, (f c).outputs = c.outputs) : (d.modify c f).Linked r := by
  constructor
  · intro x y
    rw [modify_field (·.outputs) hout]
    exact h.outputs x y
  · intro x y
    rw [modify_field (·.inputs) hin]
    exact h.inputs x y

/-- Two clusters forget each other. -/
theorem Linked.separate (src this : ℕ) :
    ((((d.updateInputs src (·.erase this)).updateOutputs src (·.erase this)).updateInputs this
      (·.erase src)).updateOutputs this (·.erase src)).Linked
      fun x y => r x y ∧ ¬ (x = src ∧ y = this) ∧ ¬ (x = this ∧ y = src) := by
  constructor
  · intro x y
    rw [mem_updateOutputs_outputs, updateInputs_outputs, mem_erase, mem_updateOutputs_outputs,
      updateInputs_outputs, mem_erase, h.outputs]
    tauto
  · intro x y
    rw [updateOutputs_inputs, mem_updateInputs_inputs, mem_erase, updateOutputs_inputs,
      mem_updateInputs_inputs, mem_erase, h.inputs]
    tauto

end

/-- Merging a cluster contracts the edges of the dictionary. -/
theorem Linked.mergeFrom (hne : this ≠ src) (hirrefl : ∀ x, ¬ r x x) (h : d.Linked r) :
    (d.mergeFrom g this src).Linked (contract r src this) := by
  unfold ClusterDict.mergeFrom
  dsimp only
  refine Linked.modify ?_ (fun _ => rfl) (fun _ => rfl)
  -- the clusters forget each other
  have hsep := ((h.modify (c := this) (f := fun c => { c with nodes := c.nodes ++ (d.cluster src).nodes })
    (fun _ => rfl) (fun _ => rfl)).separate src this).modify (c := this)
      (f := fun c => { c with metaData := { c.metaData with
        insNum := c.metaData.insNum + (d.cluster src).metaData.insNum
        vectorizedRepeats := if (d.cluster src).metaData.vectorizedRepeats.isEmpty
          then c.metaData.vectorizedRepeats else (d.cluster src).metaData.vectorizedRepeats } })
      (fun _ => rfl) (fun _ => rfl)
  generalize hd : (ClusterDict.modify _ _ _ : ClusterDict ε) = d' at hsep ⊢
  -- then the other neighbours of `src` turn to `this`
  have hins := hsep.redirectInputs hne (l := (d'.cluster src).inputs.sort)
  generalize hd' : d'.redirectInputs this src (d'.cluster src).inputs.sort = d'' at hins ⊢
  refine (hins.redirectOutputs hne (l := (d''.cluster src).outputs.sort)).congr fun x y => ?_
  simp only [mem_sort, hins.outputs, hsep.inputs, contract]
  have hxx := hirrefl x
  have hsrc := hirrefl src
  grind

/-! ## What a merge does to the nodes -/

theorem separate_sameNodes : SameNodes d
    ((((d.updateInputs src (·.erase this)).updateOutputs src (·.erase this)).updateInputs this
      (·.erase src)).updateOutputs this (·.erase src)) :=
  ((updateInputs_sameNodes.trans updateOutputs_sameNodes).trans updateInputs_sameNodes).trans
    updateOutputs_sameNodes

@[simp] theorem mergeFrom_nodeCluster : (d.mergeFrom g this src).nodeCluster = d.nodeCluster := by
  unfold ClusterDict.mergeFrom
  simp only [modify_nodeCluster, redirectOutputs_sameNodes.nodeCluster,
    redirectInputs_sameNodes.nodeCluster, separate_sameNodes.nodeCluster]

@[simp] theorem mergeFrom_allClusters : (d.mergeFrom g this src).allClusters = d.allClusters := by
  unfold ClusterDict.mergeFrom
  simp only [modify_allClusters, redirectOutputs_sameNodes.allClusters,
    redirectInputs_sameNodes.allClusters, separate_sameNodes.allClusters]

/-- The node list of a cluster after a merge. -/
theorem mergeFrom_nodes (x : ℕ) : ((d.mergeFrom g this src).cluster x).nodes
    = if x = this then (d.cluster this).nodes ++ (d.cluster src).nodes else (d.cluster x).nodes := by
  unfold ClusterDict.mergeFrom
  dsimp only
  rw [modify_field (·.nodes), redirectOutputs_sameNodes.nodes,
    redirectInputs_sameNodes.nodes, modify_field (·.nodes), separate_sameNodes.nodes]
  · split
    · next hx =>
      subst hx
      rw [modify_cluster_self]
    · next hx => rw [modify_cluster_of_ne hx]
  · intro _
    rfl
  · intro _
    rfl

theorem mergeFrom_enableVf (x : ℕ) : ((d.mergeFrom g this src).cluster x).metaData.enableVf
    = (d.cluster x).metaData.enableVf := by
  unfold ClusterDict.mergeFrom
  dsimp only
  rw [modify_field (·.metaData), redirectOutputs_sameNodes.metaData,
    redirectInputs_sameNodes.metaData, modify_field (·.metaData.enableVf),
    separate_sameNodes.metaData, modify_field (·.metaData.enableVf)]
  all_goals
    intro _
    rfl

/-- A merge adds outer nodes to a cluster. -/
theorem subset_mergeFrom_outNodes (x : ℕ) :
    (d.cluster x).outNodes ⊆ ((d.mergeFrom g this src).cluster x).outNodes := by
  unfold ClusterDict.mergeFrom
  dsimp only
  generalize hd : ClusterDict.redirectOutputs _ _ _ _ = d'
  have hout : (d'.cluster x).outNodes = (d.cluster x).outNodes := by
    rw [← hd, redirectOutputs_sameNodes.outNodes, redirectInputs_sameNodes.outNodes,
      modify_field (·.outNodes), separate_sameNodes.outNodes,
      modify_field (·.outNodes)]
    all_goals
      intro _
      rfl
  by_cases hx : x = this
  · subst hx
    rw [modify_cluster_self, ← hout]
    exact subset_union_left
  · rw [modify_cluster_of_ne hx, hout]

/-! ## What a merge does to the rest of a cluster -/

/-- A merge leaves the other clusters alone. -/
theorem mergeFrom_of_ne (src : ℕ) (h : x ≠ this) :
    ((d.mergeFrom g this src).cluster x).inNodes = (d.cluster x).inNodes ∧
      ((d.mergeFrom g this src).cluster x).outNodes = (d.cluster x).outNodes ∧
      ((d.mergeFrom g this src).cluster x).metaData = (d.cluster x).metaData := by
  unfold ClusterDict.mergeFrom
  dsimp only
  rw [modify_cluster_of_ne h]
  refine ⟨?_, ?_, ?_⟩
  · rw [redirectOutputs_sameNodes.inNodes, redirectInputs_sameNodes.inNodes, modify_cluster_of_ne h,
      separate_sameNodes.inNodes, modify_cluster_of_ne h]
  · rw [redirectOutputs_sameNodes.outNodes, redirectInputs_sameNodes.outNodes,
      modify_cluster_of_ne h, separate_sameNodes.outNodes, modify_cluster_of_ne h]
  · rw [redirectOutputs_sameNodes.metaData, redirectInputs_sameNodes.metaData,
      modify_cluster_of_ne h, separate_sameNodes.metaData, modify_cluster_of_ne h]

/-- The meta data of the cluster that takes over another. -/
theorem mergeFrom_metaData : ((d.mergeFrom g this src).cluster this).metaData =
    { (d.cluster this).metaData with
      insNum := (d.cluster this).metaData.insNum + (d.cluster src).metaData.insNum
      vectorizedRepeats := if (d.cluster src).metaData.vectorizedRepeats.isEmpty
        then (d.cluster this).metaData.vectorizedRepeats
        else (d.cluster src).metaData.vectorizedRepeats } := by
  unfold ClusterDict.mergeFrom
  dsimp only
  rw [modify_cluster_self]
  dsimp only
  rw [redirectOutputs_sameNodes.metaData, redirectInputs_sameNodes.metaData, modify_cluster_self]
  dsimp only
  rw [separate_sameNodes.metaData, modify_cluster_self]

theorem mergeFrom_inNodes : ((d.mergeFrom g this src).cluster this).inNodes =
    Cluster.calculateMergedInNodes (d.cluster src) (d.cluster this)
      (Cluster.findConnectedNodes (d.cluster src) (d.cluster this)) := by
  unfold ClusterDict.mergeFrom
  dsimp only
  rw [modify_cluster_self]
  dsimp only [Cluster.calculateMergedInNodes, Cluster.findConnectedNodes]
  rw [redirectOutputs_sameNodes.inNodes, redirectInputs_sameNodes.inNodes,
    modify_field (·.inNodes), separate_sameNodes.inNodes, modify_field (·.inNodes)]
  all_goals
    intro _
    rfl

theorem calculateMergedOutNodes_congr {pre post post' : Cluster ε}
    (hout : post.outNodes = post'.outNodes) (hnodes : post.nodes = post'.nodes) :
    Cluster.calculateMergedOutNodes g pre post = Cluster.calculateMergedOutNodes g pre post' := by
  unfold Cluster.calculateMergedOutNodes
  have hcontains : post.containsNode = post'.containsNode := by
    funext x
    rw [Cluster.containsNode, Cluster.containsNode, hnodes]
  rw [hout, hcontains]

/-- The outer nodes are calculated once the nodes of both clusters are in the node list. -/
theorem mergeFrom_outNodes : ((d.mergeFrom g this src).cluster this).outNodes =
    Cluster.calculateMergedOutNodes g (d.cluster src)
      { d.cluster this with nodes := (d.cluster this).nodes ++ (d.cluster src).nodes } := by
  unfold ClusterDict.mergeFrom
  dsimp only
  rw [modify_cluster_self]
  apply calculateMergedOutNodes_congr
  · rw [redirectOutputs_sameNodes.outNodes, redirectInputs_sameNodes.outNodes,
      modify_field (·.outNodes), separate_sameNodes.outNodes, modify_field (·.outNodes)]
    all_goals
      intro _
      rfl
  · rw [redirectOutputs_sameNodes.nodes, redirectInputs_sameNodes.nodes, modify_field (·.nodes),
      separate_sameNodes.nodes, modify_cluster_self]
    intro _
    rfl

end ClusterDict

end GraphAutofusion.Autofuse
