import GraphAutofusion.Autofuse.RecomputeSplit

/-!
# Autofuse.RecomputeMarks — which nodes are marked for recomputation

The search from a store marks a node when one of its consumers has not been met before it, or is
marked itself. What the pass over the merged marks leaves is closed under inputs and holds every
node that leads out of the merged paths. It holds no other node exactly when the pass meets
consumers first.
-/

namespace GraphAutofusion.Autofuse

open Relation List Option
open GraphAutofusion.Lib

namespace HintGraph

variable {Node : Type*} [DecidableEq Node] (g : HintGraph Node)

/-- `m` is an input of `n`. -/
def Feeds (m n : Node) : Prop := m ∈ g.inNodes n

def Reaches : Node → Node → Prop := ReflTransGen g.Feeds

/-- The graphs of the generator: acyclic, each store with one output as its only consumer, and
every node on the way to an output. -/
structure WellFormed : Prop where
  acyclic : ∃ rank : Node → ℕ, ∀ m n, g.Feeds m n → rank m < rank n
  store_output : ∀ s ∈ g.nodes, g.isStore s = true → ∃ o, g.outNodes s = [o] ∧ g.isOutput o = true
  output_input : ∀ o, g.isOutput o = true → (g.inNodes o).length ≤ 1 ∧ g.outNodes o = []
  consumed : ∀ n ∈ g.nodes, g.isOutput n = false → g.outNodes n ≠ []

/-- All ancestors of the store can be recomputed. -/
def Splittable (s : Node) : Prop :=
  s ∈ g.nodes ∧ g.isStore s = true ∧ ∀ n, g.Reaches n s → g.isRecomputableNode n = true

/-- The node is on the path of a store: an ancestor of it, or its output. -/
def OnPathOf (s n : Node) : Prop := g.Reaches n s ∨ n ∈ g.outNodes s

/-- The node is on the path of a splittable store. -/
def OnPath (n : Node) : Prop := ∃ s, g.Splittable s ∧ g.OnPathOf s n

/-- The search from the store takes the node from its queue while one of its consumers has not
been there. -/
def Early (s n : Node) : Prop :=
  n ∈ g.searchOrder s ∧ n ≠ s ∧
    ∃ c ∈ g.outNodes n, ¬ (g.searchOrder s).idxOf c < (g.searchOrder s).idxOf n

/-- Some search marks the node: it leads to a node that is met early. -/
def Marked (n : Node) : Prop := ∃ s f, g.Splittable s ∧ g.Reaches n f ∧ g.Early s f

/-- The node is marked, but leads to nodes of the merged paths only. -/
def Spurious (n : Node) : Prop := g.Marked n ∧ ∀ c, g.Reaches n c → g.OnPath c

/-- The pass over the marks meets a spurious node before the spurious nodes that feed it. -/
def OrderFits (order : List Node) : Prop :=
  ∀ m n, g.Feeds m n → g.Spurious m → g.Spurious n → order.idxOf n < order.idxOf m

variable {g} {m n c o s f : Node}

omit [DecidableEq Node] in
theorem mem_inNodes : m ∈ g.inNodes n ↔ ∃ k, some (m, k) ∈ g.inAnchors n := by
  rw [inNodes, mem_filterMap]
  constructor
  · rintro ⟨anchor, hmem, heq⟩
    rcases map_eq_some_iff.mp heq with ⟨⟨p, k⟩, rfl, rfl⟩
    exact ⟨k, hmem⟩
  · rintro ⟨k, hmem⟩
    exact ⟨some (m, k), hmem, rfl⟩

omit [DecidableEq Node] in
theorem Feeds.mem (h : g.Feeds m n) : m ∈ g.nodes ∧ n ∈ g.nodes := by
  rcases mem_inNodes.mp h with ⟨k, hmem⟩
  exact g.peers_mem m n k hmem

theorem mem_outNodes : c ∈ g.outNodes n ↔ g.Feeds n c := by
  rw [outNodes, mem_flatMap]
  constructor
  · rintro ⟨d, _, hd⟩
    rcases mem_replicate.mp hd with ⟨hcount, rfl⟩
    exact count_pos_iff.mp (Nat.pos_of_ne_zero hcount)
  · intro h
    refine ⟨c, h.mem.2, mem_replicate.mpr ⟨?_, rfl⟩⟩
    exact Nat.pos_iff_ne_zero.mp (count_pos_iff.mpr h)

omit [DecidableEq Node] in
theorem Reaches.mem_of_mem (h : g.Reaches m n) (hn : n ∈ g.nodes) : m ∈ g.nodes := by
  rcases ReflTransGen.cases_head h with rfl | ⟨c, hc, _⟩
  · exact hn
  · exact hc.mem.1

theorem mem_searchOrder (hs : s ∈ g.nodes) : n ∈ g.searchOrder s ↔ g.Reaches n s := by
  have hclosed : ∀ x ∈ g.nodes.toFinset, ∀ y ∈ g.inNodes x, y ∈ g.nodes.toFinset := by
    intro x _ y hy
    have hfeeds : g.Feeds y x := hy
    exact mem_toFinset.mpr hfeeds.mem.1
  have hseeds : ∀ x ∈ [s], x ∈ g.nodes.toFinset := by
    intro x hx
    rw [mem_singleton.mp hx]
    exact mem_toFinset.mpr hs
  rw [searchOrder, mem_visitOrder_iff hclosed hseeds (nodup_singleton s)
    (toFinset_card_le g.nodes)]
  -- the search follows the edges backwards
  show _ ↔ ReflTransGen g.Feeds n s
  rw [← reflTransGen_swap]
  constructor
  · rintro ⟨q, hq, hpath⟩
    rw [mem_singleton.mp hq] at hpath
    exact hpath
  · intro hpath
    exact ⟨s, mem_singleton_self s, hpath⟩

theorem searchOrder_nodup (s : Node) : (g.searchOrder s).Nodup :=
  visitOrder_nodup (nodup_singleton s) fun _ hx => mem_toFinset.mpr hx

section WellFormed

variable (hwf : g.WellFormed)
include hwf

theorem WellFormed.not_feeds_self (n : Node) : ¬ g.Feeds n n := by
  rcases hwf.acyclic with ⟨rank, hrank⟩
  intro h
  exact absurd (hrank n n h) (lt_irrefl _)

theorem WellFormed.output_not_feeds (ho : g.isOutput o = true) : ¬ g.Feeds o c := by
  intro h
  have hmem : c ∈ g.outNodes o := mem_outNodes.mpr h
  rw [(hwf.output_input o ho).2] at hmem
  exact absurd hmem not_mem_nil

theorem WellFormed.eq_of_output_reaches (ho : g.isOutput o = true) (h : g.Reaches o c) : c = o := by
  rcases ReflTransGen.cases_head h with rfl | ⟨d, hd, _⟩
  · rfl
  · exact absurd hd (hwf.output_not_feeds ho)

theorem WellFormed.feeds_output (ho : g.isOutput o = true) (hm : g.Feeds m o) (hn : g.Feeds n o) :
    m = n := by
  have hlen := (hwf.output_input o ho).1
  unfold Feeds at hm hn
  cases hin : g.inNodes o with
  | nil =>
    rw [hin] at hm
    exact absurd hm not_mem_nil
  | cons a rest =>
    rw [hin, length_cons] at hlen
    have hnil : rest = [] := length_eq_zero_iff.mp (by omega)
    rw [hin, hnil, mem_singleton] at hm hn
    rw [hm, hn]

/-- Inputs of a node on a path are on it. -/
theorem WellFormed.onPathOf_input (hs : g.Splittable s) (h : g.Feeds m n) (hn : g.OnPathOf s n) :
    g.Reaches m s := by
  rcases hn with hn | hn
  · exact .head h hn
  · rcases hwf.store_output s hs.1 hs.2.1 with ⟨o, hout, ho⟩
    rw [hout, mem_singleton] at hn
    subst hn
    have hfeeds : g.Feeds s n := mem_outNodes.mp (by rw [hout]; exact mem_singleton_self n)
    rw [hwf.feeds_output ho h hfeeds]
    exact .refl

theorem WellFormed.onPath_input (h : g.Feeds m n) (hn : g.OnPath n) : g.OnPath m := by
  rcases hn with ⟨s, hs, hn⟩
  exact ⟨s, hs, .inl (hwf.onPathOf_input hs h hn)⟩

/-- A node on the path of a store leads to the output of the store. -/
theorem WellFormed.onPath_output (h : g.OnPath n) :
    ∃ s o, g.Splittable s ∧ o ∈ g.outNodes s ∧ g.isOutput o = true ∧ g.Reaches n o := by
  rcases h with ⟨s, hs, hn⟩
  rcases hwf.store_output s hs.1 hs.2.1 with ⟨o, hout, ho⟩
  have hmem : o ∈ g.outNodes s := by
    rw [hout]
    exact mem_singleton_self o
  refine ⟨s, o, hs, hmem, ho, ?_⟩
  rcases hn with hn | hn
  · exact hn.tail (mem_outNodes.mp hmem)
  · rw [hout, mem_singleton] at hn
    rw [hn]
    exact .refl

/-- An output that no splittable store feeds is on no path. -/
theorem WellFormed.output_not_onPath (ho : g.isOutput o = true)
    (hnot : ∀ s, g.Splittable s → o ∉ g.outNodes s) : ¬ g.OnPath o := by
  rintro ⟨s, hs, hreach | hout⟩
  · rcases hwf.store_output s hs.1 hs.2.1 with ⟨p, hp, _⟩
    rw [hwf.eq_of_output_reaches ho hreach, (hwf.output_input o ho).2] at hp
    cases hp
  · exact hnot s hs hout

/-- Every node leads to an output. -/
theorem WellFormed.reaches_output (hn : n ∈ g.nodes) :
    ∃ o ∈ g.nodes, g.isOutput o = true ∧ g.Reaches n o := by
  rcases hwf.acyclic with ⟨rank, hrank⟩
  induction hk : g.nodes.toFinset.sup rank - rank n using Nat.strong_induction_on
    generalizing n with
  | _ k ih =>
    cases hout : g.isOutput n with
    | true => exact ⟨n, hn, hout, .refl⟩
    | false =>
      rcases exists_mem_of_ne_nil _ (hwf.consumed n hn hout) with ⟨c, hc⟩
      have hfeeds : g.Feeds n c := mem_outNodes.mp hc
      have hlt := hrank n c hfeeds
      have hle : rank c ≤ g.nodes.toFinset.sup rank :=
        Finset.le_sup (f := rank) (mem_toFinset.mpr hfeeds.mem.2)
      rcases ih _ (by omega) hfeeds.mem.2 rfl with ⟨o, ho, hisout, hreach⟩
      exact ⟨o, ho, hisout, .head hfeeds hreach⟩

end WellFormed

/-! ### The search from one store -/

/-- The path after the first nodes of the search have been taken from the queue. -/
structure PathInv (g : HintGraph Node) (s : Node) (done : List Node)
    (path : SplitResultInOnePath Node) : Prop where
  validPath : ∀ n, n ∈ path.validPath ↔ n ∈ done ∨ n ∈ g.outNodes s
  outputNodes : ∀ n, n ∈ path.outputNodes ↔ n ∈ g.outNodes s
  recomputeNodes : ∀ n, n ∈ path.recomputeNodes ↔ n ∈ done ∧ ∃ f, g.Reaches n f ∧ g.Early s f

variable {done rest : List Node}

section Search

variable (hwf : g.WellFormed) (hs : s ∈ g.nodes) (hstore : g.isStore s = true)
include hwf hs hstore

/-- When a node leaves the queue, one of its consumers is missing or marked exactly when it
leads to a node that is met early. -/
theorem marked_iff_consumer {path : SplitResultInOnePath Node}
    (hsplit : g.searchOrder s = done ++ n :: rest) (hinv : PathInv g s done path) :
    (∃ c ∈ g.outNodes n, ¬ (c ∈ insert n path.validPath ∧ c ∉ path.recomputeNodes))
    ↔ ∃ f, g.Reaches n f ∧ g.Early s f := by
  have hnodup := searchOrder_nodup (g := g) s
  rw [hsplit] at hnodup
  have hdone : n ∉ done := by
    intro hmem
    exact (nodup_append.mp hnodup).2.2 n hmem n (mem_cons_self ..) rfl
  have hidx : (g.searchOrder s).idxOf n = done.length := by
    rw [hsplit, idxOf_append_of_notMem hdone, idxOf_cons_self, add_zero]
  have hbefore : ∀ c, (g.searchOrder s).idxOf c < (g.searchOrder s).idxOf n ↔ c ∈ done := by
    intro c
    rw [hidx, hsplit]
    constructor
    · intro hlt
      by_contra hc
      rw [idxOf_append_of_notMem hc] at hlt
      omega
    · intro hc
      rw [idxOf_append_of_mem hc]
      exact idxOf_lt_length_of_mem hc
  have hmem : n ∈ g.searchOrder s := by
    rw [hsplit]
    exact mem_append_right _ (mem_cons_self ..)
  rcases hwf.store_output s hs hstore with ⟨o, hout, ho⟩
  have hso : g.Feeds s o := mem_outNodes.mp (by rw [hout]; exact mem_singleton_self o)
  constructor
  · rintro ⟨c, hc, hnot⟩
    by_cases hmark : c ∈ path.recomputeNodes
    · rcases (hinv.recomputeNodes c).mp hmark with ⟨_, f, hreach, hearly⟩
      exact ⟨f, .head (mem_outNodes.mp hc) hreach, hearly⟩
    -- the consumer has not been met, so `n` itself is early
    have hmissing : c ∉ insert n path.validPath := fun hin => hnot ⟨hin, hmark⟩
    rw [Finset.mem_insert, hinv.validPath, not_or, not_or] at hmissing
    refine ⟨n, .refl, hmem, ?_, c, hc, ?_⟩
    · intro hns
      rw [hns] at hc
      exact hmissing.2.2 hc
    · rw [hbefore]
      exact hmissing.2.1
  · rintro ⟨f, hreach, hearly⟩
    rcases ReflTransGen.cases_head hreach with rfl | ⟨c, hc, hreach⟩
    · rcases hearly with ⟨_, hns, c, hc, hlt⟩
      refine ⟨c, hc, ?_⟩
      rintro ⟨hin, _⟩
      rw [hbefore] at hlt
      rcases Finset.mem_insert.mp hin with rfl | hin
      · exact hwf.not_feeds_self c (mem_outNodes.mp hc)
      rcases (hinv.validPath c).mp hin with hin | hin
      · exact hlt hin
      · -- the output of the store has no other input
        rw [hout, mem_singleton] at hin
        rw [hin] at hc
        exact hns (hwf.feeds_output ho (mem_outNodes.mp hc) hso)
    · refine ⟨c, mem_outNodes.mpr hc, ?_⟩
      rintro ⟨hin, hmark⟩
      have hcs : g.Reaches c s := hreach.trans ((mem_searchOrder hs).mp hearly.1)
      rcases Finset.mem_insert.mp hin with rfl | hin
      · exact hwf.not_feeds_self c hc
      rcases (hinv.validPath c).mp hin with hin | hin
      · exact hmark ((hinv.recomputeNodes c).mpr ⟨hin, f, hreach, hearly⟩)
      · rw [hout, mem_singleton] at hin
        subst hin
        have hsc := hwf.eq_of_output_reaches ho hcs
        rw [hsc] at hso
        exact hwf.not_feeds_self c hso

theorem PathInv.step {path path' : SplitResultInOnePath Node}
    (hsplit : g.searchOrder s = done ++ n :: rest) (hinv : PathInv g s done path)
    (h : g.analyzeNode path n = some path') : PathInv g s (done ++ [n]) path' := by
  have hiff := marked_iff_consumer hwf hs hstore hsplit hinv
  rw [analyzeNode] at h
  split at h
  case isFalse => cases h
  obtain rfl := some.inj h
  refine ⟨?_, hinv.outputNodes, ?_⟩
  · intro c
    rw [Finset.mem_insert, hinv.validPath, mem_append, mem_singleton]
    tauto
  · intro c
    rw [mem_append, mem_singleton]
    split
    · next hall =>
      have hnot : ¬ ∃ f, g.Reaches n f ∧ g.Early s f := by
        rw [← hiff]
        rintro ⟨d, hd, hbad⟩
        exact hbad (of_decide_eq_true (all_eq_true.mp hall d hd))
      rw [hinv.recomputeNodes]
      constructor
      · rintro ⟨hc, hf⟩
        exact ⟨.inl hc, hf⟩
      · rintro ⟨hc | rfl, hf⟩
        · exact ⟨hc, hf⟩
        · exact absurd hf hnot
    · next hall =>
      have hmarked : ∃ f, g.Reaches n f ∧ g.Early s f := by
        rw [← hiff]
        by_contra hno
        refine hall (all_eq_true.mpr fun d hd => decide_eq_true ?_)
        by_contra hbad
        exact hno ⟨d, hd, hbad⟩
      rw [Finset.mem_insert, hinv.recomputeNodes]
      constructor
      · rintro (rfl | ⟨hc, hf⟩)
        · exact ⟨.inr rfl, hmarked⟩
        · exact ⟨.inl hc, hf⟩
      · rintro ⟨hc | rfl, hf⟩
        · exact .inr ⟨hc, hf⟩
        · exact .inl rfl

theorem PathInv.run {path path' : SplitResultInOnePath Node}
    (hsplit : g.searchOrder s = done ++ rest) (hinv : PathInv g s done path)
    (h : rest.foldlM g.analyzeNode path = some path') : PathInv g s (g.searchOrder s) path' := by
  induction rest generalizing done path with
  | nil =>
    obtain rfl := some.inj h
    rw [hsplit, append_nil]
    exact hinv
  | cons n rest ih =>
    rw [foldlM_cons] at h
    rcases bind_eq_some_iff.mp h with ⟨next, hnext, hrest⟩
    refine ih ?_ (hinv.step hwf hs hstore hsplit hnext) hrest
    rw [hsplit, append_assoc, singleton_append]

end Search

theorem foldlM_analyzeNode_isSome {rest : List Node} {path : SplitResultInOnePath Node} :
    (∃ path', rest.foldlM g.analyzeNode path = some path')
    ↔ ∀ n ∈ rest, g.isRecomputableNode n = true := by
  induction rest generalizing path with
  | nil => exact ⟨fun _ n hn => absurd hn not_mem_nil, fun _ => ⟨path, rfl⟩⟩
  | cons n rest ih =>
    rw [foldlM_cons, forall_mem_cons, analyzeNode]
    split
    · next hn => exact ih.trans (by simp [hn])
    · next hn => simp [hn]

/-! ### The merged paths -/

theorem analyzeSplittablePath_spec (hwf : g.WellFormed) (hs : s ∈ g.nodes)
    (hstore : g.isStore s = true) : ∃ found, g.analyzeSplittablePath s = some found ∧
      (∀ path ∈ found, g.Splittable s ∧ PathInv g s (g.searchOrder s) path) ∧
      (g.Splittable s → ∃ path, path ∈ found) := by
  rcases hwf.store_output s hs hstore with ⟨o, hout, ho⟩
  rw [analyzeSplittablePath, hout]
  refine ⟨_, rfl, ?_, ?_⟩
  · intro path hpath
    have hrecomputable := foldlM_analyzeNode_isSome.mp ⟨path, hpath⟩
    refine ⟨⟨hs, hstore, fun n hn => hrecomputable n ((mem_searchOrder hs).mpr hn)⟩, ?_⟩
    refine PathInv.run hwf hs hstore (nil_append _).symm ?_ hpath
    refine ⟨?_, ?_, ?_⟩
    · intro n
      rw [hout]
      simp
    · intro n
      rw [hout]
      simp
    · intro n
      simp
  · intro hsplit
    rcases foldlM_analyzeNode_isSome.mpr
      (fun n hn => hsplit.2.2 n ((mem_searchOrder hs).mp hn)) with ⟨path, hpath⟩
    exact ⟨path, hpath⟩

theorem analyzeStores_spec (hwf : g.WellFormed) {stores : List Node}
    (hstores : ∀ s ∈ stores, s ∈ g.nodes ∧ g.isStore s = true) :
    ∃ paths, g.analyzeStores stores = some paths ∧
      (∀ path ∈ paths, ∃ s, g.Splittable s ∧ PathInv g s (g.searchOrder s) path) ∧
      ∀ s ∈ stores, g.Splittable s → ∃ path ∈ paths, PathInv g s (g.searchOrder s) path := by
  induction stores with
  | nil =>
    refine ⟨[], rfl, ?_, ?_⟩
    · intro path hpath
      exact absurd hpath not_mem_nil
    · intro s hs
      exact absurd hs not_mem_nil
  | cons a stores ih =>
    rcases forall_mem_cons.mp hstores with ⟨⟨ha, hstore⟩, hrest⟩
    rcases ih hrest with ⟨paths, hpaths, hsound, hcomplete⟩
    rcases analyzeSplittablePath_spec hwf ha hstore with ⟨found, hfound, hpath, hex⟩
    refine ⟨found.toList ++ paths, ?_, ?_, ?_⟩
    · rw [analyzeStores, hfound, hpaths]
      rfl
    · intro path hmem
      rcases mem_append.mp hmem with hmem | hmem
      · exact ⟨a, hpath path (Option.mem_toList.mp hmem)⟩
      · exact hsound path hmem
    · intro s hs hsplit
      rcases mem_cons.mp hs with rfl | hs
      · rcases hex hsplit with ⟨path, hmem⟩
        exact ⟨path, mem_append_left _ (Option.mem_toList.mpr hmem), (hpath path hmem).2⟩
      · rcases hcomplete s hs hsplit with ⟨path, hmem, hinv⟩
        exact ⟨path, mem_append_right _ hmem, hinv⟩

/-- The paths are those of the splittable stores. -/
theorem validPathResults_spec (hwf : g.WellFormed) : ∃ paths, g.validPathResults = some paths ∧
      (∀ path ∈ paths, ∃ s, g.Splittable s ∧ PathInv g s (g.searchOrder s) path) ∧
      ∀ s, g.Splittable s → ∃ path ∈ paths, PathInv g s (g.searchOrder s) path := by
  have hstores : ∀ s ∈ g.potentialStores, s ∈ g.nodes ∧ g.isStore s = true := by
    intro s hs
    rcases mem_filter.mp hs with ⟨hs, hkind⟩
    exact ⟨hs, (Bool.and_eq_true_iff.mp hkind).1⟩
  rcases analyzeStores_spec hwf hstores with ⟨paths, hpaths, hsound, hcomplete⟩
  refine ⟨paths, hpaths, hsound, ?_⟩
  intro s hsplit
  have hkind : (g.isStore s && g.isRecomputableNode s) = true := by
    rw [hsplit.2.1, hsplit.2.2 s ReflTransGen.refl]
    rfl
  exact hcomplete s (mem_filter.mpr ⟨hsplit.1, hkind⟩) hsplit

theorem mem_merged {sets : SplitResultInOnePath Node → Finset Node}
    {paths : List (SplitResultInOnePath Node)} :
    n ∈ merged sets paths ↔ ∃ path ∈ paths, n ∈ sets path := by
  induction paths with
  | nil => simp [merged]
  | cons path paths ih =>
    simp only [mem_cons, exists_eq_or_imp]
    rw [← ih]
    exact Finset.mem_union

/-- What the paths of the splittable stores add up to. -/
structure MergedPaths (g : HintGraph Node) (paths : List (SplitResultInOnePath Node)) : Prop where
  recomputeNodes : ∀ n, n ∈ merged (·.recomputeNodes) paths ↔ g.Marked n
  validPath : ∀ n, n ∈ merged (·.validPath) paths ↔ g.OnPath n
  outputNodes : ∀ n, n ∈ merged (·.outputNodes) paths ↔ ∃ s, g.Splittable s ∧ n ∈ g.outNodes s

theorem mergedPaths (hwf : g.WellFormed) :
    ∃ paths, g.validPathResults = some paths ∧ MergedPaths g paths := by
  rcases validPathResults_spec hwf with ⟨paths, hpaths, hsound, hcomplete⟩
  have hmerged : ∀ (sets : SplitResultInOnePath Node → Finset Node) (Q : Node → Prop) n,
      (∀ s path, g.Splittable s → PathInv g s (g.searchOrder s) path → (n ∈ sets path ↔ Q s)) →
      (n ∈ merged sets paths ↔ ∃ s, g.Splittable s ∧ Q s) := by
    intro sets Q n hsets
    rw [mem_merged]
    constructor
    · rintro ⟨path, hpath, hn⟩
      rcases hsound path hpath with ⟨s, hs, hinv⟩
      exact ⟨s, hs, (hsets s path hs hinv).mp hn⟩
    · rintro ⟨s, hs, hn⟩
      rcases hcomplete s hs with ⟨path, hpath, hinv⟩
      exact ⟨path, hpath, (hsets s path hs hinv).mpr hn⟩
  refine ⟨paths, hpaths, fun n => ?_, fun n => ?_, fun n => ?_⟩
  · rw [hmerged _ (fun s => ∃ f, g.Reaches n f ∧ g.Early s f) n fun s path hs hinv => ?_]
    · exact ⟨fun ⟨s, hs, f, hf⟩ => ⟨s, f, hs, hf⟩, fun ⟨s, f, hs, hf⟩ => ⟨s, hs, f, hf⟩⟩
    · rw [hinv.recomputeNodes, and_iff_right_of_imp]
      intro ⟨f, hreach, hearly⟩
      exact (mem_searchOrder hs.1).mpr (hreach.trans ((mem_searchOrder hs.1).mp hearly.1))
  · refine hmerged _ (fun s => g.Reaches n s ∨ n ∈ g.outNodes s) n fun s path hs hinv => ?_
    rw [hinv.validPath, mem_searchOrder hs.1]
  · exact hmerged _ (fun s => n ∈ g.outNodes s) n fun s path hs hinv => hinv.outputNodes n

/-! ### The pass over the merged marks -/

/-- The node leads from the merged paths out of them. -/
def LeavesPath (g : HintGraph Node) (n : Node) : Prop :=
  g.OnPath n ∧ ∃ c, g.Reaches n c ∧ ¬ g.OnPath c

theorem Marked.onPath (h : g.Marked n) : g.OnPath n := by
  rcases h with ⟨s, f, hs, hreach, hearly⟩
  exact ⟨s, hs, .inl (hreach.trans ((mem_searchOrder hs.1).mp hearly.1))⟩

theorem Marked.input (h : g.Feeds m n) (hn : g.Marked n) : g.Marked m := by
  rcases hn with ⟨s, f, hs, hreach, hearly⟩
  exact ⟨s, f, hs, .head h hreach, hearly⟩

theorem spurious_iff : g.Spurious n ↔ g.Marked n ∧ ¬ g.LeavesPath n := by
  constructor
  · rintro ⟨hmarked, hall⟩
    refine ⟨hmarked, ?_⟩
    rintro ⟨_, c, hreach, hout⟩
    exact hout (hall c hreach)
  · rintro ⟨hmarked, hstay⟩
    refine ⟨hmarked, fun c hreach => ?_⟩
    by_contra hout
    exact hstay ⟨hmarked.onPath, c, hreach, hout⟩

/-- A node that leads out of the merged paths leads to a node that every search through it meets
early: the last one on its path. -/
theorem LeavesPath.marked (hwf : g.WellFormed) (h : g.LeavesPath n) : g.Marked n := by
  rcases h with ⟨⟨s, hs, hn⟩, c, hreach, hout⟩
  induction hreach using ReflTransGen.head_induction_on with
  | refl => exact absurd ⟨s, hs, hn⟩ hout
  | head hfeeds hrest ih =>
    rename_i a b
    by_cases hb : g.OnPathOf s b
    · exact (ih hb).input hfeeds
    rcases hwf.store_output s hs.1 hs.2.1 with ⟨o, houts, ho⟩
    have has : g.Reaches a s := by
      rcases hn with hn | hn
      · exact hn
      · rw [houts, mem_singleton] at hn
        rw [hn] at hfeeds
        exact absurd hfeeds (hwf.output_not_feeds ho)
    have hmem : a ∈ g.searchOrder s := (mem_searchOrder hs.1).mpr has
    refine ⟨s, a, hs, .refl, hmem, ?_, b, mem_outNodes.mpr hfeeds, ?_⟩
    · intro heq
      exact hb (.inr (mem_outNodes.mpr (heq ▸ hfeeds)))
    · -- `b` is not met by the search at all
      intro hlt
      have hbmem : b ∈ g.searchOrder s :=
        idxOf_lt_length_iff.mp (hlt.trans (idxOf_lt_length_of_mem hmem))
      exact hb (.inl ((mem_searchOrder hs.1).mp hbmem))

section Pass

variable {pathNodes marks : Finset Node} {order : List Node}

theorem pruneNode_cases (g : HintGraph Node) (pathNodes marks : Finset Node) (n : Node) :
    (g.pruneNode pathNodes marks n = marks.erase n ∧ ∀ c, g.Feeds n c → c ∈ pathNodes ∧ c ∉ marks)
    ∨ (g.pruneNode pathNodes marks n = marks ∧
        ∃ c, g.Feeds n c ∧ ¬ (c ∈ pathNodes ∧ c ∉ marks)) := by
  rw [pruneNode]
  split
  · next hall =>
    refine .inl ⟨rfl, fun c hc => ?_⟩
    exact of_decide_eq_true (all_eq_true.mp hall c (mem_outNodes.mpr hc))
  · next hall =>
    refine .inr ⟨rfl, ?_⟩
    by_contra hno
    refine hall (all_eq_true.mpr fun c hc => decide_eq_true ?_)
    by_contra hbad
    exact hno ⟨c, mem_outNodes.mp hc, hbad⟩

theorem mem_of_mem_pruneNode (h : c ∈ g.pruneNode pathNodes marks n) : c ∈ marks := by
  rcases pruneNode_cases g pathNodes marks n with ⟨heq, _⟩ | ⟨heq, _⟩
  · rw [heq] at h
    exact Finset.mem_of_mem_erase h
  · rw [heq] at h
    exact h

theorem mem_of_mem_foldl_pruneNode (h : c ∈ order.foldl (g.pruneNode pathNodes) marks) :
    c ∈ marks := by
  induction order generalizing marks with
  | nil => exact h
  | cons n order ih => exact mem_of_mem_pruneNode (ih h)

/-- A node that the pass has not come to keeps its mark. -/
theorem mem_foldl_pruneNode (hmem : c ∈ marks) (hc : c ∉ order) :
    c ∈ order.foldl (g.pruneNode pathNodes) marks := by
  induction order generalizing marks with
  | nil => exact hmem
  | cons n order ih =>
    rw [mem_cons, not_or] at hc
    refine ih ?_ hc.2
    rcases pruneNode_cases g pathNodes marks n with ⟨heq, _⟩ | ⟨heq, _⟩
    · rw [heq]
      exact Finset.mem_erase.mpr ⟨hc.1, hmem⟩
    · rw [heq]
      exact hmem

/-- The pass keeps the marks closed under inputs. -/
theorem foldl_pruneNode_closed (hclosed : ∀ m n, g.Feeds m n → n ∈ marks → m ∈ marks)
    (h : g.Feeds m n) (hn : n ∈ order.foldl (g.pruneNode pathNodes) marks) :
    m ∈ order.foldl (g.pruneNode pathNodes) marks := by
  induction order generalizing marks with
  | nil => exact hclosed m n h hn
  | cons a order ih =>
    refine ih (fun m n hfeeds hn => ?_) hn
    rcases pruneNode_cases g pathNodes marks a with ⟨heq, hall⟩ | ⟨heq, _⟩
    · rw [heq] at hn ⊢
      have hmarked := Finset.mem_of_mem_erase hn
      refine Finset.mem_erase.mpr ⟨?_, hclosed m n hfeeds hmarked⟩
      rintro rfl
      exact (hall n hfeeds).2 hmarked
    · rw [heq] at hn ⊢
      exact hclosed m n hfeeds hn

section

variable (hpath : ∀ n, n ∈ pathNodes ↔ g.OnPath n)
include hpath

/-- The marks that lead out of the merged paths stay. -/
theorem foldl_pruneNode_leaves (hleaves : ∀ n, g.LeavesPath n → n ∈ marks) (h : g.LeavesPath n) :
    n ∈ order.foldl (g.pruneNode pathNodes) marks := by
  induction order generalizing marks with
  | nil => exact hleaves n h
  | cons a order ih =>
    refine ih fun c hc => ?_
    rcases pruneNode_cases g pathNodes marks a with ⟨heq, hall⟩ | ⟨heq, _⟩
    · rw [heq]
      refine Finset.mem_erase.mpr ⟨?_, hleaves c hc⟩
      -- a consumer of `c` is off the merged paths, or leads out of them too
      rintro rfl
      rcases hc with ⟨hon, d, hreach, hout⟩
      rcases ReflTransGen.cases_head hreach with rfl | ⟨b, hb, hreach⟩
      · exact hout hon
      · rcases hall b hb with ⟨hbpath, hbmark⟩
        exact hbmark (hleaves b ⟨(hpath b).mp hbpath, d, hreach, hout⟩)
    · rw [heq]
      exact hleaves c hc

/-- In an order that fits, the pass removes every spurious mark it comes to. -/
theorem foldl_pruneNode_spurious (hmarked : ∀ n ∈ marks, g.Marked n) (hfits : g.OrderFits order)
    (hsplit : order = done ++ rest) (hnodup : order.Nodup)
    (hdone : ∀ n ∈ done, g.Spurious n → n ∉ marks) (hn : n ∈ order) (hspurious : g.Spurious n) :
    n ∉ rest.foldl (g.pruneNode pathNodes) marks := by
  induction rest generalizing done marks with
  | nil =>
    rw [hsplit, append_nil] at hn
    exact hdone n hn hspurious
  | cons a rest ih =>
    have hassoc : order = (done ++ [a]) ++ rest := by
      rw [hsplit, append_assoc, singleton_append]
    refine ih (fun c hc => hmarked c (mem_of_mem_pruneNode hc)) hassoc ?_
    intro c hc hspur
    rcases mem_append.mp hc with hc | hc
    · exact fun hin => hdone c hc hspur (mem_of_mem_pruneNode hin)
    rw [mem_singleton] at hc
    subst hc
    rcases pruneNode_cases g pathNodes marks c with ⟨heq, _⟩ | ⟨_, b, hb, hbad⟩
    · rw [heq]
      exact Finset.notMem_erase c marks
    -- a marked consumer of `c` is spurious, so the pass has been there
    exfalso
    refine hbad ⟨(hpath b).mpr (hspur.2 b (.single hb)), fun hbmark => ?_⟩
    have hbspur : g.Spurious b :=
      ⟨hmarked b hbmark, fun d hd => hspur.2 d (.head hb hd)⟩
    have hlt := hfits c b hb hspur hbspur
    have hcdone : c ∉ done := by
      intro hin
      rw [hsplit] at hnodup
      exact (nodup_append.mp hnodup).2.2 c hin c (mem_cons_self ..) rfl
    refine hdone b ?_ hbspur hbmark
    by_contra hbdone
    rw [hsplit, idxOf_append_of_notMem hcdone, idxOf_append_of_notMem hbdone,
      idxOf_cons_self] at hlt
    omega

/-- The pass leaves the nodes that lead out of the merged paths, and no others exactly when its
order fits. -/
theorem foldl_pruneNode_iff (hmarked : ∀ n, n ∈ marks ↔ g.Marked n) (hnodup : order.Nodup)
    (horder : ∀ n, n ∈ order ↔ n ∈ marks) :
    (∀ n ∈ order.foldl (g.pruneNode pathNodes) marks, g.LeavesPath n) ↔ g.OrderFits order := by
  constructor
  · intro hall m n hfeeds hm hn
    by_contra hlt
    have hmmark : m ∈ marks := (hmarked m).mpr hm.1
    have hnmark : n ∈ marks := (hmarked n).mpr hn.1
    rcases append_of_mem ((horder m).mpr hmmark) with ⟨done, rest, hsplit⟩
    rw [hsplit] at hnodup
    have hdisj := nodup_append.mp hnodup
    have hmdone : m ∉ done := fun hin => hdisj.2.2 m hin m (mem_cons_self ..) rfl
    have hmrest : m ∉ rest := (nodup_cons.mp hdisj.2.1).1
    -- `n` comes after `m`, so it is still marked when the pass comes to `m`
    have hndone : n ∉ done := by
      intro hin
      rw [hsplit, idxOf_append_of_mem hin, idxOf_append_of_notMem hmdone] at hlt
      have := idxOf_lt_length_of_mem hin
      omega
    refine (spurious_iff.mp hm).2 (hall m ?_)
    rw [hsplit, foldl_append, foldl_cons]
    refine mem_foldl_pruneNode ?_ hmrest
    have hmnow : m ∈ done.foldl (g.pruneNode pathNodes) marks := mem_foldl_pruneNode hmmark hmdone
    have hnnow : n ∈ done.foldl (g.pruneNode pathNodes) marks := mem_foldl_pruneNode hnmark hndone
    rcases pruneNode_cases g pathNodes (done.foldl (g.pruneNode pathNodes) marks) m with
      ⟨_, hpruned⟩ | ⟨heq, _⟩
    · exact absurd hnnow (hpruned n hfeeds).2
    · rw [heq]
      exact hmnow
  · intro hfits n hn
    have hmark := mem_of_mem_foldl_pruneNode hn
    by_contra hstay
    have hspur : g.Spurious n := spurious_iff.mpr ⟨(hmarked n).mp hmark, hstay⟩
    exact foldl_pruneNode_spurious hpath (fun c hc => (hmarked c).mp hc) hfits
      (nil_append order).symm hnodup (fun c hc => absurd hc not_mem_nil)
      ((horder n).mpr hmark) hspur hn

end

end Pass

end HintGraph

end GraphAutofusion.Autofuse
