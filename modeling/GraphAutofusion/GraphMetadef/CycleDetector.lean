import GraphAutofusion.GraphMetadef.ConnectionMatrix
import GraphAutofusion.Lib.Contraction

/-!
# GraphMetadef.CycleDetector — cycles caused by fusion

The detector asks for each set of nodes whether an edge out of it comes back, by a path that the
connection matrix knows. The matrix follows the recorded fusions as contractions of the graph. Two
things are not followed: several sets that close a cycle only together, and what an update has to
add in columns behind the words of the graph or in rows of added nodes.
-/

namespace GraphAutofusion.GraphMetadef

open Relation Lib List

variable {Name : Type*} [DecidableEq Name]

namespace CycleDetector

def checkEachPeerOut (g : ComputeGraph Name) (connectivity : ConnectionMatrix Name)
    (scopeNodes : List Name) (node : Name) : Bool :=
  (g.outAllNodes node).any fun peerOut => decide (peerOut ∉ scopeNodes) &&
    scopeNodes.any fun nodeTemp =>
      decide (nodeTemp ≠ node) && connectivity.isConnected peerOut nodeTemp

def detectOneScope (g : ComputeGraph Name) (connectivity : ConnectionMatrix Name)
    (scopeNodes : List Name) : Bool :=
  scopeNodes.any (checkEachPeerOut g connectivity scopeNodes)

def hasDetectedCycle (g : ComputeGraph Name) (connectivity : ConnectionMatrix Name)
    (fusionNodes : List (List Name)) : Bool :=
  fusionNodes.any (detectOneScope g connectivity)

inductive FusionOp (Name : Type*) where
  | update (fusionNodes : List Name)
  | expandAndUpdate (fusionNodes : List Name) (nodeName : Name)

/-- The recorded fusions, the latest first. -/
def run (g : ComputeGraph Name) : List (FusionOp Name) → ConnectionMatrix Name
  | [] => (ConnectionMatrix.ofGraph g).generate g
  | .update F :: ops => (run g ops).update g F
  | .expandAndUpdate F name :: ops => (run g ops).expandAndUpdate F name

/-! ## What the fusions mean -/

def recorded : List (FusionOp Name) → List (List Name)
  | [] => []
  | .update F :: ops => F :: recorded ops
  | .expandAndUpdate F name :: ops => (name :: F) :: recorded ops

/-- The nodes of the graph and those that were added, in the order of their indices. -/
def known (g : ComputeGraph Name) : List (FusionOp Name) → List Name
  | [] => g.directNode
  | .update _ :: ops => known g ops
  | .expandAndUpdate _ name :: ops => known g ops ++ [name]

def Reach (g : ComputeGraph Name) (ops : List (FusionOp Name)) : Name → Name → Prop :=
  ContractedReach g.Edge (recorded ops)

/-- The column is within the words of a vector for the nodes of the graph. -/
def InVector (g : ComputeGraph Name) (index : ℕ) : Prop :=
  index / kBitsEachValue < alignArraySize g.directNode.length

/-- Nodes that are fused are known, and a node that is added is new. An update adds nothing to the
rows of added nodes and in columns behind the vector. -/
def OpMeets (g : ComputeGraph Name) (ops : List (FusionOp Name)) : FusionOp Name → Prop
  | .update F => (∀ f ∈ F, f ∈ known g ops) ∧
      ∀ a ∈ known g ops, ∀ b ∈ known g ops,
        (∃ f ∈ F, Reach g ops a f) → (∃ f ∈ F, Reach g ops f b) →
          Reach g ops a b ∨ (b ∈ g.directNode ∧ InVector g ((known g ops).idxOf a))
  | .expandAndUpdate F name => (∀ f ∈ F, f ∈ known g ops) ∧ name ∉ known g ops

def Meets (g : ComputeGraph Name) : List (FusionOp Name) → Prop
  | [] => True
  | op :: ops => Meets g ops ∧ OpMeets g ops op

/-- Disjoint sets of graph nodes, each with all nodes of the recorded fusions it takes part in. The
recorded fusions have closed no cycle. -/
structure ScopesMeet (g : ComputeGraph Name) (ops : List (FusionOp Name))
    (scopes : List (List Name)) : Prop where
  mem : ∀ S ∈ scopes, ∀ n ∈ S, n ∈ g.directNode
  disjoint : ∀ S ∈ scopes, ∀ T ∈ scopes, ∀ n ∈ S, n ∈ T → S = T
  whole : ∀ S ∈ scopes, WholeSet (· ∈ g.directNode) (recorded ops) S
  acyclic : ¬ ContractedCyclic g.Edge (recorded ops)

/-- If the sets close a cycle together, one of them closes a cycle alone. -/
def CloseAlone (g : ComputeGraph Name) (ops : List (FusionOp Name)) (scopes : List (List Name)) :
    Prop :=
  ContractedCyclic g.Edge (scopes ++ recorded ops) →
    ∃ S ∈ scopes, ContractedCyclic g.Edge (S :: recorded ops)

/-- The detector follows the contracted graph. -/
structure Decides (g : ComputeGraph Name) (ops : List (FusionOp Name)) : Prop where
  in_range : (run g ops).InRange (known g ops)
  in_range_add : ∀ name, name ∉ known g ops →
    ((run g ops).addNode name).InRange (known g ops ++ [name])
  connected : ∀ a ∈ known g ops, ∀ b ∈ known g ops,
    ((run g ops).isConnected a b = true ↔ Reach g ops a b)

/-! ## Runs -/

variable {g : ComputeGraph Name} {ops : List (FusionOp Name)} {F : List Name} {name a b : Name}

omit [DecidableEq Name] in
theorem mem_of_edge (h : g.Edge a b) : a ∈ g.directNode ∧ b ∈ g.directNode := by
  obtain ⟨hb, ha⟩ := h
  obtain ⟨earlier, later, hsplit⟩ := append_of_mem hb
  refine ⟨?_, hb⟩
  rw [hsplit]
  exact mem_append_left _ (g.sorted earlier b later hsplit a ha)

theorem idxOf_lt_of_edge (h : g.Edge a b) : g.directNode.idxOf a < g.directNode.idxOf b := by
  obtain ⟨hb, ha⟩ := h
  obtain ⟨earlier, later, hsplit⟩ := append_of_mem hb
  have hnew : b ∉ earlier := fun hbe => by
    have hnodup := g.nodup
    rw [hsplit, nodup_append] at hnodup
    exact hnodup.2.2 b hbe b mem_cons_self rfl
  have hae := g.sorted earlier b later hsplit a ha
  rw [hsplit, idxOf_append_of_mem hae, idxOf_append_of_notMem hnew, idxOf_cons_self]
  exact Nat.lt_of_lt_of_le (idxOf_lt_length_of_mem hae) (Nat.le_add_right _ _)

/-- The graph is acyclic. -/
theorem not_contractedCyclic_nil (g : ComputeGraph Name) : ¬ ContractedCyclic g.Edge [] := by
  rintro ⟨a, b, hab, -, hback⟩
  have hle : g.directNode.idxOf b ≤ g.directNode.idxOf a := by
    have hpath := contractedReach_nil.mp hback
    clear hback hab
    induction hpath with
    | refl => exact Nat.le_refl _
    | tail _ hstep ih => exact Nat.le_trans ih (Nat.le_of_lt (idxOf_lt_of_edge hstep))
  exact absurd (idxOf_lt_of_edge hab) (Nat.not_lt.mpr hle)

omit [DecidableEq Name] in
theorem mem_known (h : a ∈ g.directNode) : a ∈ known g ops := by
  induction ops with
  | nil => exact h
  | cons op ops ih =>
    cases op with
    | update F => exact ih
    | expandAndUpdate F name => exact mem_append_left _ ih

section

variable (hmeets : Meets g ops)
include hmeets

theorem recorded_mem_known {S : List Name} (hS : S ∈ recorded ops)
    (ha : a ∈ S) : a ∈ known g ops := by
  induction ops with
  | nil => exact nomatch hS
  | cons op ops ih =>
    cases op with
    | update F =>
      rcases mem_cons.mp hS with rfl | hS
      · exact hmeets.2.1 a ha
      · exact ih hmeets.1 hS
    | expandAndUpdate F name =>
      rcases mem_cons.mp hS with rfl | hS
      · rcases mem_cons.mp ha with rfl | ha
        · exact mem_append_right _ mem_cons_self
        · exact mem_append_left _ (hmeets.2.1 a ha)
      · exact mem_append_left _ (ih hmeets.1 hS)

/-- Nothing is connected with a node that is not known. -/
theorem eq_of_reach (hname : name ∉ known g ops) (h : Reach g ops a b) : (a = name ↔ b = name) := by
  induction h with
  | refl => exact Iff.rfl
  | @tail b c _ hstep ih =>
    have hknown : b ∈ known g ops ∧ c ∈ known g ops := by
      rcases hstep with h | ⟨S, hS, hb, hc⟩
      · exact ⟨mem_known (mem_of_edge h).1, mem_known (mem_of_edge h).2⟩
      · exact ⟨recorded_mem_known hmeets hS hb, recorded_mem_known hmeets hS hc⟩
    rw [ih]
    exact iff_of_false (fun h => hname (h ▸ hknown.1)) fun h => hname (h ▸ hknown.2)

omit hmeets in
theorem reach_update (hmeets : OpMeets g ops (.update F)) (ha : a ∈ known g ops)
    (hb : b ∈ known g ops) : Reach g (.update F :: ops) a b ↔
      Reach g ops a b ∨ (b ∈ g.directNode ∧ (InVector g ((known g ops).idxOf a) ∧
        ∃ f ∈ F, Reach g ops a f) ∧ ∃ f ∈ F, Reach g ops f b) := by
  refine contractedReach_cons.trans ⟨?_, ?_⟩
  · rintro (h | ⟨hin, hout⟩)
    · exact .inl h
    · rcases hmeets.2 a ha b hb hin hout with h | ⟨hbg, hvector⟩
      · exact .inl h
      · exact .inr ⟨hbg, ⟨hvector, hin⟩, hout⟩
  · rintro (h | ⟨-, ⟨-, hin⟩, hout⟩)
    · exact .inl h
    · exact .inr ⟨hin, hout⟩

theorem reach_expandAndUpdate (hF : ∀ f ∈ F, f ∈ known g ops) (hname : name ∉ known g ops)
    (ha : a ∈ known g ops ++ [name]) (hb : b ∈ known g ops ++ [name]) :
    Reach g (.expandAndUpdate F name :: ops) a b ↔
      ConnectionMatrix.Joined (known g ops) F name (Reach g ops) a b ∨
        ConnectionMatrix.Joined (known g ops) F name (Reach g ops) a name ∧
          ∃ f ∈ F, ConnectionMatrix.Joined (known g ops) F name (Reach g ops) f b := by
  have hmem : ∀ x ∈ known g ops ++ [name], x ≠ name → x ∈ known g ops := by
    intro x hx hne
    rcases mem_append.mp hx with hx | hx
    · exact hx
    · exact absurd (mem_singleton.mp hx) hne
  have hFne : ∀ f ∈ F, f ≠ name := fun f hf h => hname (h ▸ hF f hf)
  have hto : ∀ x, Reach g ops x name ↔ x = name := fun x =>
    ⟨fun h => (eq_of_reach hmeets hname h).mpr rfl, fun h => h ▸ ReflTransGen.refl⟩
  have hfrom : Reach g ops name b ↔ b = name :=
    ⟨fun h => (eq_of_reach hmeets hname h).mp rfl, fun h => h ▸ ReflTransGen.refl⟩
  -- the nodes that the matrix knew are the only ones with paths to the fused nodes
  have hnew : ∀ x ∈ known g ops ++ [name],
      (ConnectionMatrix.Joined (known g ops) F name (Reach g ops) x name ↔
        x = name ∨ ∃ f ∈ F, Reach g ops x f) := by
    intro x hx
    unfold ConnectionMatrix.Joined
    rw [if_pos rfl]
    refine or_congr Iff.rfl (exists_congr fun f => and_congr_right fun hf => ?_)
    refine ⟨And.right, fun h => ⟨hmem x hx fun hxn => ?_, h⟩⟩
    exact hFne f hf ((eq_of_reach hmeets hname h).mp hxn)
  have hold : ∀ x ∈ known g ops ++ [name], b ≠ name →
      (ConnectionMatrix.Joined (known g ops) F name (Reach g ops) x b ↔ Reach g ops x b) := by
    intro x hx hne
    unfold ConnectionMatrix.Joined
    rw [if_neg hne]
    refine ⟨fun h => h.2.2, fun h => ⟨hmem x hx fun hxn => ?_, hmem b hb hne, h⟩⟩
    exact hne ((eq_of_reach hmeets hname h).mp hxn)
  have hcons : Reach g (.expandAndUpdate F name :: ops) a b ↔ Reach g ops a b ∨
      (a = name ∨ ∃ f ∈ F, Reach g ops a f) ∧ (b = name ∨ ∃ f ∈ F, Reach g ops f b) := by
    refine contractedReach_cons.trans (or_congr Iff.rfl (and_congr ?_ ?_))
    · rw [exists_mem_cons_iff]
      exact or_congr (hto a) Iff.rfl
    · rw [exists_mem_cons_iff]
      exact or_congr hfrom Iff.rfl
  rw [hcons, hnew a ha]
  by_cases hbn : b = name
  · rw [hbn, hnew a ha, hto]
    constructor
    · rintro (h | ⟨h, -⟩)
      · exact .inl (.inl h)
      · exact .inl h
    · rintro (h | ⟨h, -⟩)
      · exact .inr ⟨h, .inl rfl⟩
      · exact .inr ⟨h, .inl rfl⟩
  · rw [hold a ha hbn]
    refine or_congr Iff.rfl (and_congr Iff.rfl ?_)
    constructor
    · rintro (h | ⟨f, hf, h⟩)
      · exact absurd h hbn
      · exact ⟨f, hf, (hold f (mem_append_left _ (hF f hf)) hbn).mpr h⟩
    · rintro ⟨f, hf, h⟩
      exact .inr ⟨f, hf, (hold f (mem_append_left _ (hF f hf)) hbn).mp h⟩

theorem represents_run : (run g ops).Represents (known g ops) (Reach g ops) := by
  induction ops with
  | nil => exact (ConnectionMatrix.represents_generate g).mono fun a _ b _ =>
      contractedReach_nil.symm
  | cons op ops ih =>
    have hM := ih hmeets.1
    cases op with
    | update F =>
      have hop : OpMeets g ops (.update F) := hmeets.2
      refine (hM.update (fun b hb => mem_known hb) hop.1).mono fun a ha b hb => ?_
      have hindex : (run g ops).getIndex a = (known g ops).idxOf a :=
        hM.getIndex_eq (getElem?_idxOf ha)
      rw [reach_update hop ha hb, ← hindex]
      exact Iff.rfl
    | expandAndUpdate F name =>
      obtain ⟨hF, hname⟩ := hmeets.2
      exact (hM.expandAndUpdate hF hname).mono fun a ha b hb =>
        (reach_expandAndUpdate hmeets.1 hF hname ha hb).symm

theorem decides_of_meets : Decides g ops where
  in_range := (represents_run hmeets).inRange
  in_range_add := fun _ hname => ((represents_run hmeets).addNode hname).inRange
  connected := fun _ ha _ hb => (represents_run hmeets).isConnected_iff ha hb

end

/-! ## Queries -/

theorem detectOneScope_iff (hmeets : Meets g ops) {S : List Name}
    (hS : ∀ n ∈ S, n ∈ g.directNode) : detectOneScope g (run g ops) S = true ↔
      ∃ n ∈ S, ∃ p, g.Edge n p ∧ p ∉ S ∧ ∃ m ∈ S, m ≠ n ∧ Reach g ops p m := by
  unfold detectOneScope checkEachPeerOut ComputeGraph.outAllNodes
  simp only [any_eq_true, Bool.and_eq_true, decide_eq_true_eq, mem_filter]
  refine exists_congr fun n => and_congr_right fun hn => exists_congr fun p => ?_
  refine and_congr_right fun hedge => and_congr_right fun _ => exists_congr fun m => ?_
  refine and_congr_right fun hm => and_congr_right fun _ => ?_
  exact (decides_of_meets hmeets).connected p (mem_known hedge.1) m (mem_known (hS m hm))

theorem hasDetectedCycle_iff (hmeets : Meets g ops) {scopes : List (List Name)}
    (h : ScopesMeet g ops scopes) : hasDetectedCycle g (run g ops) scopes = true ↔
      ∃ S ∈ scopes, ContractedCyclic g.Edge (S :: recorded ops) := by
  unfold hasDetectedCycle
  rw [any_eq_true]
  refine exists_congr fun S => and_congr_right fun hS => ?_
  rw [detectOneScope_iff hmeets (h.mem S hS)]
  exact (contractedCyclic_cons_iff (fun _ _ h => mem_of_edge h) h.acyclic (h.whole S hS)).symm

/-- An update adds what the contraction adds only when it meets the condition. -/
theorem opMeets_of_decides (hmeets : Meets g ops) (hF : ∀ f ∈ F, f ∈ known g ops)
    (h : Decides g (.update F :: ops)) : OpMeets g ops (.update F) := by
  refine ⟨hF, fun a ha b hb hin hout => ?_⟩
  have hM := represents_run hmeets
  have hindex : (run g ops).getIndex a = (known g ops).idxOf a :=
    hM.getIndex_eq (getElem?_idxOf ha)
  have hreach : Reach g (.update F :: ops) a b := contractedReach_cons.mpr (.inr ⟨hin, hout⟩)
  have hconnected := (h.connected a ha b hb).mpr hreach
  rw [run, (hM.update (fun b hb => mem_known hb) hF).isConnected_iff ha hb, hindex] at hconnected
  exact hconnected.imp id fun h => ⟨h.1, h.2.1.1⟩

/-- After fusions of the condition the detector follows the contracted graph, the next update keeps
this exactly when it meets the condition, and the detector finds the cycles that the sets close
exactly when one of them closes a cycle alone. -/
theorem decides_and_detects (g : ComputeGraph Name) (ops : List (FusionOp Name))
    (hmeets : Meets g ops) :
    Decides g ops ∧
      (∀ F, (∀ f ∈ F, f ∈ known g ops) →
        (Decides g (.update F :: ops) ↔ OpMeets g ops (.update F))) ∧
      (∀ F name, (∀ f ∈ F, f ∈ known g ops) → name ∉ known g ops →
        Decides g (.expandAndUpdate F name :: ops)) ∧
      ∀ scopes, ScopesMeet g ops scopes →
        ((hasDetectedCycle g (run g ops) scopes = true ↔
          ContractedCyclic g.Edge (scopes ++ recorded ops)) ↔ CloseAlone g ops scopes) := by
  refine ⟨decides_of_meets hmeets, fun F hF => ?_, fun F name hF hname => ?_, fun scopes h => ?_⟩
  · exact ⟨opMeets_of_decides hmeets hF, fun hop => decides_of_meets ⟨hmeets, hop⟩⟩
  · exact decides_of_meets ⟨hmeets, hF, hname⟩
  · rw [hasDetectedCycle_iff hmeets h]
    refine ⟨Iff.mpr, fun halone => ⟨?_, halone⟩⟩
    rintro ⟨S, hS, hcyclic⟩
    exact contractedCyclic_append (fun _ _ h => mem_of_edge h) h.acyclic h.whole h.mem h.disjoint
      hS hcyclic

/-- Two edges, from node 0 to node 1 and from node 2 to node 3. -/
def twoEdges : ComputeGraph ℕ where
  directNode := [0, 1, 2, 3]
  inAllNodes := fun n => if n = 1 then [0] else if n = 3 then [2] else []
  nodup := by decide
  sorted := by
    intro earlier n later hsplit a ha
    have hindex : [0, 1, 2, 3][earlier.length]? = some n := by
      rw [hsplit, getElem?_append_right (Nat.le_refl _), Nat.sub_self]
      rfl
    have htake : earlier = [0, 1, 2, 3].take earlier.length := by
      rw [hsplit, take_left]
    match hlength : earlier.length, hindex with
    | 0, hn => cases hn; exact nomatch ha
    | 1, hn => cases hn; rw [htake, hlength]; exact ha
    | 2, hn => cases hn; exact nomatch ha
    | 3, hn =>
      cases hn
      rw [htake, hlength, mem_singleton.mp ha]
      decide
    | n + 4, hn => exact nomatch hn

/-- Nodes 2 and 3 are fused after nodes 0 and 1 were, with a new node 4. -/
theorem decides_and_detects_twoEdges :
    Meets twoEdges [.update [2, 3], .expandAndUpdate [0, 1] 4] ∧
      Decides twoEdges [.update [2, 3], .expandAndUpdate [0, 1] 4] := by
  -- no path leaves the nodes 2 and 3
  have hclosed : ∀ a b, Reach twoEdges [.expandAndUpdate [0, 1] 4] a b → a ∈ [2, 3] →
      b ∈ [2, 3] := by
    intro a b h ha
    induction h with
    | refl => exact ha
    | @tail b c _ hstep ih =>
      have hedges : ∀ b ∈ [2, 3], ∀ c ∈ twoEdges.directNode, b ∈ twoEdges.inAllNodes c →
          c ∈ [2, 3] := by decide
      have hsets : ∀ S ∈ [[4, 0, 1]], ∀ b ∈ S, b ∉ [2, 3] := by decide
      rcases hstep with ⟨hc, hb⟩ | ⟨S, hS, hb, hc⟩
      · exact hedges b ih c hc hb
      · exact absurd ih (hsets S hS b hb)
  have hmeets : Meets twoEdges [.update [2, 3], .expandAndUpdate [0, 1] 4] := by
    refine ⟨⟨trivial, by decide, by decide⟩, by decide, ?_⟩
    rintro a ha b - - ⟨f, hf, hout⟩
    have hgraph : ∀ b ∈ [2, 3], b ∈ twoEdges.directNode := by decide
    have hwords : ∀ a ∈ [0, 1, 2, 3, 4], [0, 1, 2, 3, 4].idxOf a / 64 < alignArraySize 4 := by
      decide
    exact .inr ⟨hgraph b (hclosed f b hout hf), hwords a ha⟩
  exact ⟨hmeets, (decides_and_detects _ _ hmeets).1⟩

/-- The sets close a cycle only together. -/
theorem twoEdges_not_detected : ScopesMeet twoEdges [] [[0, 3], [1, 2]] ∧
    hasDetectedCycle twoEdges (run twoEdges []) [[0, 3], [1, 2]] = false ∧
      ContractedCyclic twoEdges.Edge ([[0, 3], [1, 2]] ++ recorded []) := by
  have hmerged : ∀ a b, Merged [[0, 3], [1, 2]] a b → (a ∈ [0, 3] ↔ b ∈ [0, 3]) := by
    intro a b h
    induction h with
    | rel a b h =>
      obtain ⟨S, hS, ha, hb⟩ := h
      have hall : ∀ S ∈ [[0, 3], [1, 2]], ∀ a ∈ S, ∀ b ∈ S, (a ∈ [0, 3] ↔ b ∈ [0, 3]) := by
        decide
      exact hall S hS a ha b hb
    | refl a => exact Iff.rfl
    | symm a b _ ih => exact ih.symm
    | trans a b c _ _ ih ih' => exact ih.trans ih'
  have hjump : ∀ a b, SameSet [[0, 3], [1, 2]] a b →
      ContractedReach twoEdges.Edge [[0, 3], [1, 2]] a b := fun a b h =>
    ReflTransGen.single (.inr h)
  refine ⟨⟨by decide, by decide, fun _ _ => wholeSet_nil, not_contractedCyclic_nil twoEdges⟩,
    by decide, 0, 1, ⟨by decide, by decide⟩, fun h => ?_, ?_⟩
  · exact absurd ((hmerged 0 1 h).mp (by decide)) (by decide)
  · have h12 := hjump 1 2 ⟨[1, 2], by decide, by decide, by decide⟩
    have h23 : ContractedReach twoEdges.Edge [[0, 3], [1, 2]] 2 3 :=
      contractedReach_edge ⟨by decide, by decide⟩
    have h30 := hjump 3 0 ⟨[0, 3], by decide, by decide, by decide⟩
    exact h12.trans (h23.trans h30)

end CycleDetector

end GraphAutofusion.GraphMetadef
