import GraphAutofusion.Autofuse.RecomputeMarks
import Mathlib.Data.Fin.VecNotation

/-!
# Autofuse.RecomputeSplitRun — what the recompute split keeps

After the split the merged outputs are fed from one side of the graph: the path nodes without a
mark and the copies. All other outputs are fed from the other side, and no edge crosses. Every
node computes the term it did. An original whose copy has taken all its consumers is left over,
which happens when a mark stays that the pass should have dropped.
-/

namespace GraphAutofusion.Autofuse

open Relation List Option
open GraphAutofusion.Lib

/-! ## Terms -/

/-- What a node computes, cut at some depth: its operator over what its in-anchors receive. -/
inductive Term (Node : Type*) where
  | cut
  | apply (op : Node) (inputs : List (Option (Term Node × ℕ)))

/-- The term of a node of any graph whose nodes carry operators. -/
def unfoldTerm {Node V : Type*} (op : V → Node) (inAnchors : V → List (Option (V × ℕ))) :
    ℕ → V → Term Node
  | 0, _ => .cut
  | depth + 1, v =>
    .apply (op v) ((inAnchors v).map fun anchor =>
      anchor.map fun peer => (unfoldTerm op inAnchors depth peer.1, peer.2))

/-- A map of nodes that follows operators and peers keeps the terms. -/
theorem unfoldTerm_map {Node V W : Type*} {op : V → Node} {op' : W → Node}
    {inAnchors : V → List (Option (V × ℕ))} {inAnchors' : W → List (Option (W × ℕ))} {f : V → W}
    {P : V → Prop} (hop : ∀ v, op' (f v) = op v)
    (hpeer : ∀ v, P v → ∀ u k, some (u, k) ∈ inAnchors v → P u)
    (hmap : ∀ v, P v → inAnchors' (f v)
      = (inAnchors v).map fun anchor => anchor.map fun peer => (f peer.1, peer.2))
    (depth : ℕ) {v : V} (hv : P v) :
    unfoldTerm op inAnchors depth v = unfoldTerm op' inAnchors' depth (f v) := by
  induction depth generalizing v with
  | zero => rfl
  | succ depth ih =>
    rw [unfoldTerm, unfoldTerm, hop v, hmap v hv, List.map_map]
    congr 1
    refine map_congr_left fun anchor hmem => ?_
    cases anchor with
    | none => rfl
    | some peer =>
      show some (unfoldTerm op inAnchors depth peer.1, peer.2)
        = some (unfoldTerm op' inAnchors' depth (f peer.1), peer.2)
      rw [ih (hpeer v hv peer.1 peer.2 hmem)]

/-- The node that a node of the split graph is, or is a copy of. -/
def SplitNode.origin {Node : Type*} : SplitNode Node → Node
  | .orig n => n
  | .recompute n => n

namespace SplitGraph

variable {Node : Type*} (split : SplitGraph Node)

def Feeds (u v : SplitNode Node) : Prop := ∃ k, some (u, k) ∈ split.inAnchors v

def Reaches : SplitNode Node → SplitNode Node → Prop := ReflTransGen split.Feeds

/-- A copy has the operator of its original. -/
def term : ℕ → SplitNode Node → Term Node := unfoldTerm SplitNode.origin split.inAnchors

end SplitGraph

namespace HintGraph

variable {Node : Type*} (g : HintGraph Node)

def term : ℕ → Node → Term Node := unfoldTerm id g.inAnchors

/-- What the split is for: no output gets another term, nothing links what feeds a merged output
with what feeds any other, and no node is left without a way to an output. -/
structure SplitKept (result : SplitResult Node) (split : SplitGraph Node) : Prop where
  same_term : ∀ o ∈ g.nodes, g.isOutput o = true →
    ∀ depth, split.term depth (.orig o) = g.term depth o
  apart : ∀ o ∈ result.outputNodes, ∀ o' ∈ g.nodes, g.isOutput o' = true →
    o' ∉ result.outputNodes → ∀ u v, split.Reaches u (.orig o) → split.Reaches v (.orig o') →
    ¬ EqvGen split.Feeds u v
  leads_to_output : ∀ v ∈ split.nodes, ∃ o ∈ g.nodes, g.isOutput o = true ∧
    split.Reaches v (.orig o)

variable [DecidableEq Node] {g}

/-! ## The edges after the split -/

section Split

variable {marks : Finset Node} {n current : Node} {split : SplitGraph Node}

/-- The node whose in-anchors the loop rewrites for a node of the graph. -/
def target (marks : Finset Node) (n : Node) : SplitNode Node :=
  if n ∈ marks then .recompute n else .orig n

theorem target_origin (marks : Finset Node) (n : Node) : (target marks n).origin = n := by
  rw [target]
  split <;> rfl

theorem target_injective (marks : Finset Node) {m n : Node} (h : target marks m = target marks n) :
    m = n := by
  rw [← target_origin marks m, h, target_origin marks n]

/-- An in-anchor of the target before its round. -/
def before (marks : Finset Node) (current : Node) (anchor : Option (Node × ℕ)) :
    Option (SplitNode Node × ℕ) :=
  if current ∈ marks then none else anchor.map fun peer => (.orig peer.1, peer.2)

/-- An in-anchor of the target after its round. -/
def rewired (marks : Finset Node) (anchor : Option (Node × ℕ)) : Option (SplitNode Node × ℕ) :=
  anchor.map fun peer => (target marks peer.1, peer.2)

theorem inAnchors_setAnchor (split : SplitGraph Node) (v w : SplitNode Node) (idx : ℕ)
    (peer : SplitNode Node × ℕ) : (split.setAnchor v idx peer).inAnchors w
      = if w = v then (split.inAnchors w).set idx (some peer) else split.inAnchors w := rfl

/-- One in-anchor: the peer becomes the target of the input, and nothing else changes. -/
theorem splitAnchor_spec {anchor : Option (Node × ℕ)} {pre post : List (Option (SplitNode Node × ℕ))}
    (hclosed : ∀ m k, anchor = some (m, k) → current ∈ marks → m ∈ marks)
    (hcur : split.inAnchors (target marks current) = pre ++ before marks current anchor :: post) :
    ∃ next, splitAnchor marks current split (anchor, pre.length) = some next ∧
      next.nodes = split.nodes ∧
      next.inAnchors (target marks current) = pre ++ rewired marks anchor :: post ∧
      ∀ v, v ≠ target marks current → next.inAnchors v = split.inAnchors v := by
  have hset : ∀ x, (split.inAnchors (target marks current)).set pre.length x = pre ++ x :: post := by
    intro x
    rw [hcur, set_append_right _ _ (le_refl _), Nat.sub_self, set_cons_zero]
  match anchor with
  | none =>
    refine ⟨split, rfl, rfl, ?_, fun v _ => rfl⟩
    rw [hcur, before]
    split <;> rfl
  | some (m, k) =>
    by_cases hc : current ∈ marks
    · have hm := hclosed m k rfl hc
      have htarget : target marks current = .recompute current := if_pos hc
      have hpeer : rewired marks (some (m, k)) = some (.recompute m, k) := by
        show some (target marks m, k) = _
        rw [target, if_pos hm]
      refine ⟨split.setAnchor (.recompute current) pre.length (.recompute m, k), ?_, rfl, ?_, ?_⟩
      · rw [splitAnchor, if_pos hc, if_pos hm]
      · rw [inAnchors_setAnchor, htarget, if_pos rfl, ← htarget, hset, hpeer]
      · intro v hv
        rw [inAnchors_setAnchor, if_neg (htarget ▸ hv)]
    · have htarget : target marks current = .orig current := if_neg hc
      by_cases hm : m ∈ marks
      · have hpeer : rewired marks (some (m, k)) = some (.recompute m, k) := by
          show some (target marks m, k) = _
          rw [target, if_pos hm]
        refine ⟨split.setAnchor (.orig current) pre.length (.recompute m, k), ?_, rfl, ?_, ?_⟩
        · rw [splitAnchor, if_neg hc, if_pos hm]
        · rw [inAnchors_setAnchor, htarget, if_pos rfl, ← htarget, hset, hpeer]
        · intro v hv
          rw [inAnchors_setAnchor, if_neg (htarget ▸ hv)]
      · -- neither end is copied, so the edge stays as it is
        refine ⟨split, ?_, rfl, ?_, fun v _ => rfl⟩
        · rw [splitAnchor, if_neg hc, if_neg hm]
        · rw [hcur, before, if_neg hc]
          show pre ++ some (SplitNode.orig m, k) :: post = pre ++ some (target marks m, k) :: post
          rw [target, if_neg hm]

theorem splitAnchors_spec {anchors : List (Option (Node × ℕ))}
    {pre : List (Option (SplitNode Node × ℕ))}
    (hclosed : ∀ m k, some (m, k) ∈ anchors → current ∈ marks → m ∈ marks)
    (hcur : split.inAnchors (target marks current) = pre ++ anchors.map (before marks current)) :
    ∃ next, (anchors.zipIdx pre.length).foldlM (splitAnchor marks current) split = some next ∧
      next.nodes = split.nodes ∧
      next.inAnchors (target marks current) = pre ++ anchors.map (rewired marks) ∧
      ∀ v, v ≠ target marks current → next.inAnchors v = split.inAnchors v := by
  induction anchors generalizing pre split with
  | nil => exact ⟨split, rfl, rfl, hcur, fun v _ => rfl⟩
  | cons anchor anchors ih =>
    have hhead : ∀ m k, anchor = some (m, k) → current ∈ marks → m ∈ marks := by
      intro m k hanchor
      exact hclosed m k (by rw [hanchor]; exact mem_cons_self ..)
    rcases splitAnchor_spec hhead hcur with ⟨next, hnext, hnodes, hanchors, hother⟩
    have hlen : pre.length + 1 = (pre ++ [rewired marks anchor]).length := by
      rw [length_append, length_singleton]
    have hcur' : next.inAnchors (target marks current)
        = (pre ++ [rewired marks anchor]) ++ anchors.map (before marks current) := by
      rw [hanchors, append_assoc, singleton_append]
    rcases ih (fun m k hmem => hclosed m k (mem_cons_of_mem _ hmem)) hcur' with
      ⟨last, hlast, hnodes', hanchors', hother'⟩
    refine ⟨last, ?_, hnodes'.trans hnodes, ?_, ?_⟩
    · rw [zipIdx_cons, foldlM_cons, hnext, hlen]
      exact hlast
    · rw [hanchors', append_assoc, singleton_append, map_cons]
    · intro v hv
      rw [hother' v hv, hother v hv]

/-- The rounds of the loop over some nodes: each target gets its new peers. -/
theorem splitNodes_spec {order : List Node} (hnodup : order.Nodup)
    (hclosed : ∀ m n, g.Feeds m n → n ∈ marks → m ∈ marks)
    (hcur : ∀ n ∈ order, split.inAnchors (target marks n) = (g.inAnchors n).map (before marks n)) :
    ∃ next, order.foldlM (g.splitNode marks) split = some next ∧ next.nodes = split.nodes ∧
      (∀ n ∈ order, next.inAnchors (target marks n) = (g.inAnchors n).map (rewired marks)) ∧
      ∀ v, (∀ n ∈ order, v ≠ target marks n) → next.inAnchors v = split.inAnchors v := by
  induction order generalizing split with
  | nil => exact ⟨split, rfl, rfl, fun n hn => absurd hn not_mem_nil, fun v _ => rfl⟩
  | cons a order ih =>
    rcases nodup_cons.mp hnodup with ⟨ha, hrest⟩
    rcases forall_mem_cons.mp hcur with ⟨hhead, htail⟩
    have hfeeds : ∀ m k, some (m, k) ∈ g.inAnchors a → a ∈ marks → m ∈ marks :=
      fun m k hmem => hclosed m a (mem_inNodes.mpr ⟨k, hmem⟩)
    have hstart : split.inAnchors (target marks a)
        = [] ++ (g.inAnchors a).map (before marks a) := hhead
    rcases splitAnchors_spec hfeeds hstart with ⟨next, hnext, hnodes, hanchors, hother⟩
    have hdistinct : ∀ n ∈ order, target marks n ≠ target marks a := by
      intro n hn heq
      rw [target_injective marks heq] at hn
      exact ha hn
    have htail' : ∀ n ∈ order,
        next.inAnchors (target marks n) = (g.inAnchors n).map (before marks n) := by
      intro n hn
      rw [hother _ (hdistinct n hn)]
      exact htail n hn
    rcases ih hrest htail' with ⟨last, hlast, hnodes', hanchors', hother'⟩
    refine ⟨last, ?_, hnodes'.trans hnodes, ?_, ?_⟩
    · rw [foldlM_cons]
      exact bind_eq_some_iff.mpr ⟨next, hnext, hlast⟩
    · intro n hn
      rcases mem_cons.mp hn with rfl | hn
      · rw [hother' _ (fun c hc => (hdistinct c hc).symm)]
        exact hanchors
      · exact hanchors' n hn
    · intro v hv
      rcases forall_mem_cons.mp hv with ⟨hva, hvrest⟩
      rw [hother' v hvrest, hother v hva]

end Split

/-- The split graph: on the merged paths every node, or its copy, is fed by nodes there. Whatever
else there is has the in-anchors it had. -/
structure SplitEdges (g : HintGraph Node) (marks : Finset Node) (copies : List Node)
    (split : SplitGraph Node) : Prop where
  nodes : split.nodes = (g.withCopies copies).nodes
  on_path : ∀ n, g.OnPath n →
    split.inAnchors (target marks n) = (g.inAnchors n).map (rewired marks)
  off_path : ∀ v, (∀ n, g.OnPath n → v ≠ target marks n) →
    split.inAnchors v = (g.withCopies copies).inAnchors v

theorem doGraphSplit_spec (hwf : g.WellFormed) {marks : Finset Node} {seeds : List Node}
    (copies : List Node) (hclosed : ∀ m n, g.Feeds m n → n ∈ marks → m ∈ marks) (hnodup : seeds.Nodup)
    (hseeds : ∀ n, n ∈ seeds ↔ ∃ s, g.Splittable s ∧ n ∈ g.outNodes s) :
    ∃ split, g.doGraphSplit marks copies seeds = some split ∧ SplitEdges g marks copies split := by
  have hmem : ∀ n, n ∈ visitOrder g.inNodes g.nodes.length seeds seeds.toFinset ↔ g.OnPath n := by
    intro n
    have hnext : ∀ x ∈ g.nodes.toFinset, ∀ y ∈ g.inNodes x, y ∈ g.nodes.toFinset := by
      intro x _ y hy
      have hfeeds : g.Feeds y x := hy
      exact mem_toFinset.mpr hfeeds.mem.1
    have hin : ∀ x ∈ seeds, x ∈ g.nodes.toFinset := by
      intro x hx
      rcases (hseeds x).mp hx with ⟨s, _, hout⟩
      exact mem_toFinset.mpr (mem_outNodes.mp hout).mem.2
    rw [mem_visitOrder_iff hnext hin hnodup (toFinset_card_le g.nodes)]
    constructor
    · rintro ⟨o, ho, hpath⟩
      have hreach : g.Reaches n o := reflTransGen_swap.mp hpath
      rcases (hseeds o).mp ho with ⟨s, hs, hout⟩
      induction hreach using ReflTransGen.head_induction_on with
      | refl => exact ⟨s, hs, .inr hout⟩
      | head hfeeds hrest ih => exact hwf.onPath_input hfeeds (ih (reflTransGen_swap.mpr hrest))
    · intro hn
      rcases hwf.onPath_output hn with ⟨s, o, hs, homem, _, hreach⟩
      exact ⟨o, (hseeds o).mpr ⟨s, hs, homem⟩, reflTransGen_swap.mpr hreach⟩
  have hstart : ∀ n ∈ visitOrder g.inNodes g.nodes.length seeds seeds.toFinset,
      (g.withCopies copies).inAnchors (target marks n) = (g.inAnchors n).map (before marks n) := by
    intro n _
    unfold target before
    by_cases hn : n ∈ marks
    · simp only [if_pos hn]
      rfl
    · simp only [if_neg hn]
      rfl
  rcases splitNodes_spec (visitOrder_nodup hnodup fun _ hx => mem_toFinset.mpr hx) hclosed
    hstart with ⟨split, hsplit, hnodes, htargets, hother⟩
  refine ⟨split, hsplit, hnodes, fun n hn => htargets n ((hmem n).mpr hn), fun v hv => ?_⟩
  exact hother v fun n hn => hv n ((hmem n).mp hn)

section Edges

variable {marks : Finset Node} {copies : List Node} {split : SplitGraph Node} {m n c o : Node}
  {u v : SplitNode Node}

/-- The node is on the side of the merged outputs. -/
def Inside (g : HintGraph Node) (marks : Finset Node) (v : SplitNode Node) : Prop :=
  ∃ n, g.OnPath n ∧ v = target marks n

theorem inside_orig : Inside g marks (.orig n) ↔ g.OnPath n ∧ n ∉ marks := by
  constructor
  · rintro ⟨m, hm, heq⟩
    by_cases hmark : m ∈ marks
    · rw [target, if_pos hmark] at heq
      cases heq
    · rw [target, if_neg hmark] at heq
      obtain rfl := SplitNode.orig.inj heq
      exact ⟨hm, hmark⟩
  · rintro ⟨hn, hmark⟩
    exact ⟨n, hn, (if_neg hmark).symm⟩

/-- The marks the loop is given: closed under inputs, on the merged paths, with every node that
leads out of them. -/
structure SplitMarks (g : HintGraph Node) (marks : Finset Node) : Prop where
  closed : ∀ m n, g.Feeds m n → n ∈ marks → m ∈ marks
  marked : ∀ n ∈ marks, g.Marked n
  leaves : ∀ n, g.LeavesPath n → n ∈ marks

omit [DecidableEq Node] in
theorem mem_mapped_anchors (f : Node → SplitNode Node) :
    (∃ k, some (u, k) ∈ (g.inAnchors n).map (Option.map fun p => (f p.1, p.2))) ↔
      ∃ m, u = f m ∧ g.Feeds m n := by
  constructor
  · rintro ⟨k, hmem⟩
    rcases mem_map.mp hmem with ⟨anchor, hanchor, heq⟩
    rcases map_eq_some_iff.mp heq with ⟨⟨m, k'⟩, rfl, hpeer⟩
    exact ⟨m, (Prod.mk.inj hpeer).1.symm, mem_inNodes.mpr ⟨k', hanchor⟩⟩
  · rintro ⟨m, rfl, hfeeds⟩
    rcases mem_inNodes.mp hfeeds with ⟨k, hmem⟩
    exact ⟨k, mem_map.mpr ⟨some (m, k), hmem, rfl⟩⟩

section

variable (hedges : SplitEdges g marks copies split)
include hedges

theorem SplitEdges.feeds_target (hn : g.OnPath n) :
    split.Feeds u (target marks n) ↔ ∃ m, u = target marks m ∧ g.Feeds m n := by
  rw [SplitGraph.Feeds, hedges.on_path n hn]
  exact mem_mapped_anchors (target marks)

theorem SplitEdges.feeds_orig (hn : ¬ Inside g marks (.orig n)) :
    split.Feeds u (.orig n) ↔ ∃ m, u = .orig m ∧ g.Feeds m n := by
  rw [SplitGraph.Feeds, hedges.off_path (.orig n) fun m hm heq => hn ⟨m, hm, heq⟩]
  exact mem_mapped_anchors SplitNode.orig

/-- An edge of the split graph is one between targets on the merged paths, or one between
originals that ends off that side. -/
theorem SplitEdges.feeds_cases (h : split.Feeds u v) :
    (∃ m n, u = target marks m ∧ v = target marks n ∧ g.OnPath n ∧ g.Feeds m n)
    ∨ (∃ m n, u = .orig m ∧ v = .orig n ∧ ¬ Inside g marks (.orig n) ∧ g.Feeds m n) := by
  by_cases hv : Inside g marks v
  · rcases hv with ⟨n, hn, rfl⟩
    rcases (hedges.feeds_target hn).mp h with ⟨m, hu, hfeeds⟩
    exact .inl ⟨m, n, hu, rfl, hn, hfeeds⟩
  cases v with
  | orig n =>
    rcases (hedges.feeds_orig hv).mp h with ⟨m, hu, hfeeds⟩
    exact .inr ⟨m, n, hu, rfl, hv, hfeeds⟩
  | recompute n =>
    -- a copy that is nobody's target has no inputs
    rcases h with ⟨k, hmem⟩
    rw [hedges.off_path (.recompute n) fun m hm heq => hv ⟨m, hm, heq⟩] at hmem
    rcases mem_map.mp hmem with ⟨anchor, _, heq⟩
    cases heq

theorem SplitEdges.feeds_origin (h : split.Feeds u v) : g.Feeds u.origin v.origin := by
  rcases hedges.feeds_cases h with ⟨m, n, rfl, rfl, _, hfeeds⟩ | ⟨m, n, rfl, rfl, _, hfeeds⟩
  · rw [target_origin, target_origin]
    exact hfeeds
  · exact hfeeds

theorem SplitEdges.reaches_origin (h : split.Reaches u v) : g.Reaches u.origin v.origin := by
  induction h with
  | refl => exact .refl
  | tail _ hstep ih => exact ih.tail (hedges.feeds_origin hstep)

end

section

section

variable (hwf : g.WellFormed)
include hwf

theorem onPath_of_reaches (h : g.Reaches m n) (hn : g.OnPath n) : g.OnPath m := by
  induction h using ReflTransGen.head_induction_on with
  | refl => exact hn
  | head hfeeds _ ih => exact hwf.onPath_input hfeeds ih

/-- On the merged paths the targets lead where the nodes did. -/
theorem SplitEdges.reaches_target (hedges : SplitEdges g marks copies split) (h : g.Reaches n c)
    (hc : g.OnPath c) : split.Reaches (target marks n) (target marks c) := by
  induction h using ReflTransGen.head_induction_on with
  | refl => exact .refl
  | head hfeeds hrest ih =>
    have hon := onPath_of_reaches hwf hrest hc
    exact .head ((hedges.feeds_target hon).mpr ⟨_, rfl, hfeeds⟩) ih

end

section

variable (hmarks : SplitMarks g marks)
include hmarks

/-- The originals lead off the merged paths where they did. -/
theorem SplitEdges.reaches_orig (hedges : SplitEdges g marks copies split)
    (h : g.Reaches n c) (hc : ¬ g.OnPath c) : split.Reaches (.orig n) (.orig c) := by
  induction h using ReflTransGen.head_induction_on with
  | refl => exact .refl
  | head hfeeds hrest ih =>
    refine .head ((hedges.feeds_orig fun hin => ?_).mpr ⟨_, rfl, hfeeds⟩) ih
    rw [inside_orig] at hin
    exact hin.2 (hmarks.leaves _ ⟨hin.1, c, hrest, hc⟩)

theorem SplitEdges.same_term (hedges : SplitEdges g marks copies split) (depth : ℕ) (n : Node) :
    split.term depth (.orig n) = g.term depth n := by
  have hstart : ∀ m, SplitNode.orig n = SplitNode.recompute m → m ∈ marks := by
    intro m heq
    cases heq
  have hop : ∀ v : SplitNode Node, id v.origin = v.origin := fun _ => rfl
  refine unfoldTerm_map (P := fun v => ∀ m, v = SplitNode.recompute m → m ∈ marks) hop ?_ ?_ depth
    hstart
  · intro v hv u k hmem m heq
    rcases hedges.feeds_cases ⟨k, hmem⟩ with ⟨a, b, ha, _⟩ | ⟨a, b, ha, _⟩
    · rw [ha, target] at heq
      split at heq
      · next hmark =>
        obtain rfl := SplitNode.recompute.inj heq
        exact hmark
      · cases heq
    · rw [ha] at heq
      cases heq
  · intro v hv
    by_cases hin : Inside g marks v
    · rcases hin with ⟨n, hn, rfl⟩
      rw [hedges.on_path n hn, target_origin, List.map_map]
      refine (map_id _).symm.trans (map_congr_left fun anchor _ => ?_)
      cases anchor with
      | none => rfl
      | some peer =>
        show some peer = some ((target marks peer.1).origin, peer.2)
        rw [target_origin]
    · have hkeep := hedges.off_path v fun m hm heq => hin ⟨m, hm, heq⟩
      cases v with
      | orig n =>
        rw [hkeep]
        show g.inAnchors n = ((g.inAnchors n).map _).map _
        rw [List.map_map]
        refine (map_id _).symm.trans (map_congr_left fun anchor _ => ?_)
        cases anchor <;> rfl
      | recompute n =>
        have hmark := hv n rfl
        exact absurd ⟨n, (hmarks.marked n hmark).onPath, (if_pos hmark).symm⟩ hin

end

variable (hwf : g.WellFormed) (hmarks : SplitMarks g marks)
include hwf hmarks

/-- No edge joins the two sides. -/
theorem SplitEdges.inside_iff (hedges : SplitEdges g marks copies split) (h : split.Feeds u v) :
    Inside g marks u ↔ Inside g marks v := by
  rcases hedges.feeds_cases h with ⟨m, n, rfl, rfl, hn, hfeeds⟩ | ⟨m, n, rfl, rfl, hn, hfeeds⟩
  · exact iff_of_true ⟨m, hwf.onPath_input hfeeds hn, rfl⟩ ⟨n, hn, rfl⟩
  · refine iff_of_false (fun hm => ?_) hn
    rw [inside_orig] at hm hn
    by_cases hnmark : n ∈ marks
    · exact hm.2 (hmarks.closed m n hfeeds hnmark)
    · -- `n` is off the merged paths, so `m` leads out of them
      have hout : ¬ g.OnPath n := fun hon => hn ⟨hon, hnmark⟩
      exact hm.2 (hmarks.leaves m ⟨hm.1, n, .single hfeeds, hout⟩)

theorem SplitEdges.inside_iff_of_eqvGen (hedges : SplitEdges g marks copies split)
    (h : EqvGen split.Feeds u v) : Inside g marks u ↔ Inside g marks v := by
  induction h with
  | rel u v hfeeds => exact hedges.inside_iff hwf hmarks hfeeds
  | refl u => rfl
  | symm u v _ ih => exact ih.symm
  | trans u v w _ _ ih₁ ih₂ => exact ih₁.trans ih₂

/-- What leads to nodes on different sides is not linked. -/
theorem SplitEdges.apart (hedges : SplitEdges g marks copies split) {w x : SplitNode Node}
    (hu : Inside g marks u) (hv : ¬ Inside g marks v) (hw : split.Reaches w u)
    (hx : split.Reaches x v) : ¬ EqvGen split.Feeds w x := by
  intro hpath
  have hwu := hedges.inside_iff_of_eqvGen hwf hmarks (EqvGen.reflTransGen_le_eqvGen _ _ _ hw)
  have hxv := hedges.inside_iff_of_eqvGen hwf hmarks (EqvGen.reflTransGen_le_eqvGen _ _ _ hx)
  have hwx := hedges.inside_iff_of_eqvGen hwf hmarks hpath
  exact hv (hxv.mp (hwx.mp (hwu.mpr hu)))

theorem output_not_marked (ho : g.isOutput o = true) : o ∉ marks := by
  intro hmark
  rcases hmarks.marked o hmark with ⟨s, f, hs, hreach, hmem, hne, _⟩
  rw [hwf.eq_of_output_reaches ho hreach] at hmem hne
  exact hne (hwf.eq_of_output_reaches ho ((mem_searchOrder hs.1).mp hmem)).symm

theorem inside_output (ho : g.isOutput o = true) : Inside g marks (.orig o) ↔ g.OnPath o := by
  rw [inside_orig]
  exact and_iff_left (output_not_marked hwf hmarks ho)

/-- Every node leads to an output exactly when no mark is spurious. -/
theorem SplitEdges.leads_to_output_iff (hedges : SplitEdges g marks copies split)
    (hcopies : ∀ n ∈ copies, n ∈ marks) :
    (∀ v ∈ split.nodes, ∃ o ∈ g.nodes, g.isOutput o = true ∧ split.Reaches v (.orig o))
    ↔ ∀ n ∈ marks, g.LeavesPath n := by
  have hin : ∀ n, g.OnPath n →
      ∃ o ∈ g.nodes, g.isOutput o = true ∧ split.Reaches (target marks n) (.orig o) := by
    intro n hn
    rcases hwf.onPath_output hn with ⟨s, o, hs, homem, ho, hreach⟩
    have htarget : target marks o = .orig o := if_neg (output_not_marked hwf hmarks ho)
    refine ⟨o, (mem_outNodes.mp homem).mem.2, ho, ?_⟩
    rw [← htarget]
    exact hedges.reaches_target hwf hreach ⟨s, hs, .inr homem⟩
  constructor
  · intro hall n hn
    have hon := (hmarks.marked n hn).onPath
    have hmem : n ∈ g.nodes := by
      rcases hon with ⟨s, hs, hreach | hout⟩
      · exact hreach.mem_of_mem hs.1
      · exact (mem_outNodes.mp hout).mem.2
    have hnode : SplitNode.orig n ∈ split.nodes := by
      rw [hedges.nodes]
      exact mem_append_left _ (mem_map_of_mem hmem)
    rcases hall _ hnode with ⟨o, _, ho, hreach⟩
    refine ⟨hon, o, hedges.reaches_origin hreach, fun hopath => ?_⟩
    -- the original is off the side of the merged outputs, and so is the output it leads to
    have hside : Inside g marks (.orig n) ↔ Inside g marks (.orig o) :=
      hedges.inside_iff_of_eqvGen hwf hmarks (EqvGen.reflTransGen_le_eqvGen _ _ _ hreach)
    have hinside := hside.mpr ((inside_output hwf hmarks ho).mpr hopath)
    exact (inside_orig.mp hinside).2 hn
  · intro hall v hv
    rw [hedges.nodes] at hv
    rcases mem_append.mp hv with hv | hv
    · rcases mem_map.mp hv with ⟨n, hn, rfl⟩
      by_cases hside : Inside g marks (.orig n)
      · rcases hside with ⟨m, hm, heq⟩
        rw [heq]
        exact hin m hm
      -- off that side the node leads out of the merged paths, and on to an output
      have hout : ∃ c, g.Reaches n c ∧ ¬ g.OnPath c := by
        by_cases hon : g.OnPath n
        · have hmark : n ∈ marks := by
            by_contra hmark
            exact hside (inside_orig.mpr ⟨hon, hmark⟩)
          exact (hall n hmark).2
        · exact ⟨n, .refl, hon⟩
      rcases hout with ⟨c, hnc, hc⟩
      have hcmem : c ∈ g.nodes := by
        rcases ReflTransGen.cases_tail hnc with heq | ⟨_, _, hfeeds⟩
        · rw [heq]
          exact hn
        · exact hfeeds.mem.2
      rcases hwf.reaches_output hcmem with ⟨o, homem, ho, hco⟩
      have hoout : ¬ g.OnPath o := fun hopath => hc (onPath_of_reaches hwf hco hopath)
      exact ⟨o, homem, ho, hedges.reaches_orig hmarks (hnc.trans hco) hoout⟩
    · rcases mem_map.mp hv with ⟨n, hn, rfl⟩
      have hmark := hcopies n hn
      have htarget : target marks n = .recompute n := if_pos hmark
      rw [← htarget]
      exact hin n (hmarks.marked n hmark).onPath

end

end Edges

/-! ## The split -/

/-- The orders in which the generator meets its unordered sets. -/
structure IterationOrder (g : HintGraph Node) (order seeds : List Node) : Prop where
  order_nodup : order.Nodup
  mem_order : ∀ paths, g.validPathResults = some paths →
    ∀ n, n ∈ order ↔ n ∈ merged (·.recomputeNodes) paths
  seeds_nodup : seeds.Nodup
  mem_seeds : ∀ paths, g.validPathResults = some paths →
    ∀ n, n ∈ seeds ↔ n ∈ merged (·.outputNodes) paths

/-- The split succeeds, separates the merged outputs and keeps all terms. It leaves nothing over
exactly when the pass over the marks meets spurious consumers first. -/
theorem splitKept_iff (hwf : g.WellFormed) {order seeds : List Node}
    (horder : IterationOrder g order seeds) :
    (∃ result split, g.recomputeSplit order seeds = some (result, split)
      ∧ g.SplitKept result split) ↔ g.OrderFits order := by
  rcases mergedPaths hwf with ⟨paths, hpaths, hmerged⟩
  have hmarks : SplitMarks g (g.mergeAllPaths order paths).recomputeNodes := by
    refine ⟨fun m n hfeeds hn => foldl_pruneNode_closed ?_ hfeeds hn, ?_, ?_⟩
    · intro a b hab hb
      rw [hmerged.recomputeNodes] at hb ⊢
      exact hb.input hab
    · intro n hn
      exact (hmerged.recomputeNodes n).mp (mem_of_mem_foldl_pruneNode hn)
    · intro n hn
      refine foldl_pruneNode_leaves hmerged.validPath (fun c hc => ?_) hn
      exact (hmerged.recomputeNodes c).mpr (hc.marked hwf)
  have hseeds : ∀ n, n ∈ seeds ↔ ∃ s, g.Splittable s ∧ n ∈ g.outNodes s := by
    intro n
    rw [horder.mem_seeds paths hpaths, hmerged.outputNodes]
  rcases doGraphSplit_spec hwf
      (order.filter fun n => n ∈ (g.mergeAllPaths order paths).recomputeNodes) hmarks.closed
      horder.seeds_nodup hseeds with ⟨split, hsplit, hedges⟩
  have hrun : g.recomputeSplit order seeds = some (g.mergeAllPaths order paths, split) := by
    rw [recomputeSplit, hpaths]
    show (g.doGraphSplit _ _ seeds).bind _ = _
    rw [hsplit]
    rfl
  have hleads := hedges.leads_to_output_iff hwf hmarks
    fun n hn => of_decide_eq_true (mem_filter.mp hn).2
  have hfits := foldl_pruneNode_iff hmerged.validPath hmerged.recomputeNodes horder.order_nodup
    (horder.mem_order paths hpaths)
  constructor
  · rintro ⟨result, split', hrun', hkept⟩
    rw [hrun] at hrun'
    obtain ⟨rfl, rfl⟩ := Prod.mk.inj (Option.some.inj hrun')
    exact hfits.mp (hleads.mp hkept.leads_to_output)
  · intro horderFits
    refine ⟨_, split, hrun, ?_, ?_, hleads.mpr (hfits.mpr horderFits)⟩
    · intro o _ _ depth
      exact hedges.same_term hmarks depth o
    · intro o ho o' _ ho' hnot u v hu hv hpath
      -- all that feeds `o` is on the side of the merged outputs, all that feeds `o'` is not
      have hmem : ∀ n, n ∈ (g.mergeAllPaths order paths).outputNodes
          ↔ ∃ s, g.Splittable s ∧ n ∈ g.outNodes s := hmerged.outputNodes
      rcases (hmem o).mp ho with ⟨s, hs, hout⟩
      have hisout : g.isOutput o = true := by
        rcases hwf.store_output s hs.1 hs.2.1 with ⟨p, hp, hisout⟩
        rw [hp, mem_singleton] at hout
        rw [hout]
        exact hisout
      have hin : Inside g (g.mergeAllPaths order paths).recomputeNodes (.orig o) :=
        (inside_output hwf hmarks hisout).mpr ⟨s, hs, .inr hout⟩
      refine hedges.apart hwf hmarks hin ?_ hu hv hpath
      rw [inside_output hwf hmarks ho']
      exact hwf.output_not_onPath ho' fun s' hs' hout' => hnot ((hmem o').mpr ⟨s', hs', hout'⟩)

/-- `Data → Load → A → Store → Output`, where `A` also reads `B`, which reads the load. The one
store can be split off with all its ancestors, so nothing has to be computed twice. -/
def reconvergent : HintGraph (Fin 6) where
  nodes := finRange 6
  inAnchors := ![[], [some (0, 0)], [some (1, 0)], [some (1, 0), some (2, 0)], [some (3, 0)],
    [some (4, 0)]]
  isStore := fun n => n = 4
  isOutput := fun n => n = 5
  isRecomputableNode := fun _ => true
  peers_mem := fun m n _ _ => ⟨mem_finRange m, mem_finRange n⟩

theorem reconvergent_wellFormed : reconvergent.WellFormed where
  acyclic := by
    refine ⟨Fin.val, ?_⟩
    show ∀ m n, m ∈ reconvergent.inNodes n → m.val < n.val
    decide
  store_output := by decide
  output_input := by decide
  consumed := by decide

/-- The marks are the load, which is met before `B`, and the data behind it. -/
theorem reconvergent_order {order : List (Fin 6)} (hnodup : order.Nodup)
    (hmem : ∀ n, n ∈ order ↔ n ∈ ({0, 1} : Finset (Fin 6))) :
    IterationOrder reconvergent order [5] := by
  have hmarks : reconvergent.validPathResults.map (merged (·.recomputeNodes)) = some {0, 1} := by
    decide +kernel
  have houts : reconvergent.validPathResults.map (merged (·.outputNodes)) = some {5} := by
    decide +kernel
  refine ⟨hnodup, ?_, nodup_singleton 5, ?_⟩
  · intro paths hpaths n
    rw [hpaths] at hmarks
    rw [some.inj hmarks]
    exact hmem n
  · intro paths hpaths n
    rw [hpaths] at houts
    rw [some.inj houts, mem_singleton, Finset.mem_singleton]

theorem splitKept_iff_reconvergent :
    (∃ result split, reconvergent.recomputeSplit [1, 0] [5] = some (result, split)
      ∧ reconvergent.SplitKept result split) ↔ reconvergent.OrderFits [1, 0] :=
  splitKept_iff reconvergent_wellFormed (reconvergent_order (by decide) (by decide))

theorem dataFirst_isSome : (reconvergent.recomputeSplit [0, 1] [5]).isSome = true := by
  decide +kernel

/-- The data is met while the load is still marked, so it is copied. The copy feeds the load, and
nothing reads the data itself any more. -/
theorem dataFirst_not_splitKept : reconvergent.WellFormed ∧
    IterationOrder reconvergent [0, 1] [5] ∧
    ∃ result split, reconvergent.recomputeSplit [0, 1] [5] = some (result, split) ∧
      result.pathNodes.Nonempty ∧ ¬ reconvergent.SplitKept result split := by
  refine ⟨reconvergent_wellFormed, reconvergent_order (by decide) (by decide), ?_⟩
  refine ⟨_, _, (Option.some_get dataFirst_isSome).symm, ⟨5, by decide +kernel⟩, ?_⟩
  have hnodes : ((reconvergent.recomputeSplit [0, 1] [5]).get dataFirst_isSome).2.nodes.head?
      = some (.orig 0) := by decide +kernel
  have horig : ∀ n, ∀ anchor ∈
      ((reconvergent.recomputeSplit [0, 1] [5]).get dataFirst_isSome).2.inAnchors (.orig n),
      anchor.map Prod.fst ≠ some (.orig 0) := by decide +kernel
  have hcopy : ∀ n, ∀ anchor ∈
      ((reconvergent.recomputeSplit [0, 1] [5]).get dataFirst_isSome).2.inAnchors (.recompute n),
      anchor.map Prod.fst ≠ some (.orig 0) := by decide +kernel
  intro hkept
  rcases hkept.leads_to_output (.orig 0) (mem_of_mem_head? hnodes) with ⟨o, _, ho, hreach⟩
  rcases ReflTransGen.cases_head hreach with heq | ⟨v, ⟨k, hmem⟩, _⟩
  · rw [← SplitNode.orig.inj heq] at ho
    exact absurd ho (by decide)
  · cases v with
    | orig n => exact horig n _ hmem rfl
    | recompute n => exact hcopy n _ hmem rfl

end HintGraph

end GraphAutofusion.Autofuse
