import GraphAutofusion.Autofuse.RedundantLoads
import Mathlib.Data.List.Forall2

/-!
# Autofuse.RedundantLoadsRun — the graph the rewrite leaves

The loads are processed in the order of the nodes. After some of them, every input is linked to the
anchor at the end of its chain of processed loads, and a node is gone if it is such a load, an
output all of whose readers are, or a store all of whose readers are such outputs.
-/

namespace GraphAutofusion.Autofuse.RedundantLoads

open Lib List Option

def Node.Reads (node : Node) (id : ℕ) : Prop := ∃ a : OutAnchor, some a ∈ node.inputs ∧ a.node = id

/-- A graph as unfolding leaves it. Loads, stores and outputs have one input; what a store stores is
loaded or computed; control edges leave other nodes only. -/
structure Unfolded (g : Graph) : Prop where
  nodup : g.ids.Nodup
  linked : ∀ (m : ℕ) (a : OutAnchor), m ∈ g.ids → some a ∈ (g.node m).inputs → a.node ∈ g.ids
  acyclic : ∃ rank : ℕ → ℕ, ∀ (m : ℕ) (a : OutAnchor),
    m ∈ g.ids → some a ∈ (g.node m).inputs → rank a.node < rank m
  single : ∀ m ∈ g.ids,
    (g.node m).type = .load ∨ (g.node m).type = .output ∨ (g.node m).type = .store →
      ∃ a : OutAnchor, (g.node m).inputs = [some a]
  storeInput : ∀ (m : ℕ) (a : OutAnchor), m ∈ g.ids → (g.node m).type = .store →
    some a ∈ (g.node m).inputs → (g.node a.node).type = .load ∨ (g.node a.node).type = .other
  netOutput : ∀ (m : ℕ) (a : OutAnchor), m ∈ g.ids → some a ∈ (g.node m).inputs →
    (g.node a.node).type ≠ .netOutput
  controls : ∀ m ∈ g.ids, ∀ c ∈ (g.node m).controls, (g.node c).type = .other

/-! ## Chains -/

/-- The output and the store in front of a load, and what the store stores. -/
structure Chain where
  output : ℕ
  store : ℕ
  src : OutAnchor

/-- The input of a node of a type. -/
def Graph.sourceOf (g : Graph) (type : OpType) (id : ℕ) : Option OutAnchor :=
  if (g.node id).type = type then (g.node id).inputs.head?.join else none

def Graph.chain (g : Graph) (load : ℕ) : Option Chain :=
  (g.sourceOf .load load).bind fun outputAnchor =>
    (g.sourceOf .output outputAnchor.node).bind fun storeAnchor =>
      (g.sourceOf .store storeAnchor.node).map fun src => ⟨outputAnchor.node, storeAnchor.node, src⟩

/-- An anchor of a processed load behind a store gives way to what is stored. -/
def Graph.bypass (g : Graph) (done : List ℕ) (a : OutAnchor) : OutAnchor :=
  if done.contains a.node then (g.chain a.node).elim a Chain.src else a

structure IsChain (g : Graph) (load : ℕ) (c : Chain) : Prop where
  load_mem : load ∈ g.ids
  output_mem : c.output ∈ g.ids
  store_mem : c.store ∈ g.ids
  load_type : (g.node load).type = .load
  output_type : (g.node c.output).type = .output
  store_type : (g.node c.store).type = .store
  load_input : ∃ k, (g.node load).inputs = [some ⟨c.output, k⟩]
  output_input : ∃ k, (g.node c.output).inputs = [some ⟨c.store, k⟩]
  store_input : (g.node c.store).inputs = [some c.src]

section Basics

variable {g cur : Graph} {done : List ℕ} {c : Chain} {a b q : OutAnchor} {l m x : ℕ} {type : OpType}

theorem readsFrom_iff (node : Node) (id : ℕ) : node.readsFrom id = true ↔ node.Reads id := by
  simp only [Node.readsFrom, Node.Reads, List.any_eq_true]
  constructor
  · rintro ⟨_ | a, hlink, hany⟩
    · cases hany
    · exact ⟨a, hlink, beq_iff_eq.mp hany⟩
  · rintro ⟨a, ha, rfl⟩
    exact ⟨some a, ha, beq_self_eq_true _⟩

theorem hasOutNodes_iff :
    g.hasOutNodes x = true ↔ ∃ m ∈ g.ids, (g.node m).Reads x ∨ x ∈ (g.node m).controls := by
  simp only [Graph.hasOutNodes, List.any_eq_true, Bool.or_eq_true, readsFrom_iff, contains_iff_mem]

theorem reads_single {node : Node} (h : node.inputs = [some a]) : node.Reads x ↔ a.node = x := by
  constructor
  · rintro ⟨b, hb, rfl⟩
    rw [h, mem_singleton, some.injEq] at hb
    rw [hb]
  · exact fun hx => ⟨a, by rw [h]; exact mem_singleton_self _, hx⟩

theorem sourceOf_eq_some (h : g.sourceOf type x = some a) :
    (g.node x).type = type ∧ some a ∈ (g.node x).inputs := by
  rw [Graph.sourceOf] at h
  split at h
  case isTrue htype =>
    rw [join_eq_some_iff] at h
    exact ⟨htype, mem_of_head? h⟩
  case isFalse => cases h

theorem sourceOf_single (htype : (g.node x).type = type) (h : (g.node x).inputs = [some a]) :
    g.sourceOf type x = some a := by
  rw [Graph.sourceOf, if_pos htype, h]
  rfl

theorem onlyInput_single (h : (g.node x).inputs = [some a]) : g.onlyInput x = some a := by
  rw [Graph.onlyInput, h]
  rfl

theorem Unfolded.single_eq (hg : Unfolded g) (hm : m ∈ g.ids)
    (htype : (g.node m).type = .load ∨ (g.node m).type = .output ∨ (g.node m).type = .store)
    (ha : some a ∈ (g.node m).inputs) : (g.node m).inputs = [some a] := by
  rcases hg.single m hm htype with ⟨b, hb⟩
  rw [hb, mem_singleton] at ha
  rw [hb, ← ha]

theorem Unfolded.isChain (hg : Unfolded g) (hl : l ∈ g.ids) (h : g.chain l = some c) : IsChain g l c := by
  simp only [Graph.chain, bind_eq_some_iff, map_eq_some_iff] at h
  rcases h with ⟨o, ho, s, hs, src, hsrc, rfl⟩
  rcases sourceOf_eq_some ho with ⟨hload, ho⟩
  rcases sourceOf_eq_some hs with ⟨houtput, hs⟩
  rcases sourceOf_eq_some hsrc with ⟨hstore, hsrc⟩
  have homem := hg.linked l o hl ho
  have hsmem := hg.linked o.node s homem hs
  exact {
    load_mem := hl, output_mem := homem, store_mem := hsmem
    load_type := hload, output_type := houtput, store_type := hstore
    load_input := ⟨o.idx, hg.single_eq hl (.inl hload) ho⟩
    output_input := ⟨s.idx, hg.single_eq homem (.inr (.inl houtput)) hs⟩
    store_input := hg.single_eq hsmem (.inr (.inr hstore)) hsrc }

theorem IsChain.chain_eq (h : IsChain g l c) : g.chain l = some c := by
  rcases h.load_input with ⟨k, hk⟩
  rcases h.output_input with ⟨k', hk'⟩
  simp only [Graph.chain, sourceOf_single h.load_type hk, sourceOf_single h.output_type hk',
    sourceOf_single h.store_type h.store_input, bind_some, map_some]

theorem IsChain.src_mem (hg : Unfolded g) (h : IsChain g l c) : c.src.node ∈ g.ids :=
  hg.linked c.store c.src h.store_mem (by rw [h.store_input]; exact mem_singleton_self _)

theorem IsChain.src_type (hg : Unfolded g) (h : IsChain g l c) :
    (g.node c.src.node).type = .load ∨ (g.node c.src.node).type = .other :=
  hg.storeInput c.store c.src h.store_mem h.store_type
    (by rw [h.store_input]; exact mem_singleton_self _)

theorem IsChain.rank_src {rank : ℕ → ℕ} (h : IsChain g l c)
    (hrank : ∀ (m : ℕ) (a : OutAnchor), m ∈ g.ids → some a ∈ (g.node m).inputs → rank a.node < rank m) :
    rank c.src.node < rank l := by
  rcases h.load_input with ⟨k, hk⟩
  rcases h.output_input with ⟨k', hk'⟩
  have h₁ := hrank l ⟨c.output, k⟩ h.load_mem (by rw [hk]; exact mem_singleton_self _)
  have h₂ := hrank c.output ⟨c.store, k'⟩ h.output_mem (by rw [hk']; exact mem_singleton_self _)
  have h₃ := hrank c.store c.src h.store_mem (by rw [h.store_input]; exact mem_singleton_self _)
  exact lt_trans (lt_trans h₃ h₂) h₁

/-! ## Where a chain of processed loads leads -/

theorem bypass_chain (hdone : a.node ∈ done) (h : g.chain a.node = some c) :
    g.bypass done a = c.src := by
  rw [Graph.bypass, if_pos (contains_iff_mem.mpr hdone), h]
  rfl

theorem bypass_not_mem (hdone : a.node ∉ done) : g.bypass done a = a :=
  if_neg fun h => hdone (contains_iff_mem.mp h)

theorem bypass_none (h : g.chain a.node = none) : g.bypass done a = a := by
  rw [Graph.bypass, h]
  exact ite_self a

theorem bypass_ne (h : g.bypass done a ≠ a) :
    a.node ∈ done ∧ ∃ c, g.chain a.node = some c ∧ g.bypass done a = c.src := by
  have hmem : a.node ∈ done := by
    by_contra hmem
    exact h (bypass_not_mem hmem)
  cases hc : g.chain a.node with
  | none => exact absurd (bypass_none hc) h
  | some c => exact ⟨hmem, c, rfl, bypass_chain hmem hc⟩

/-- The chain leads from loads to loads and computed tensors, down the graph. -/
theorem Unfolded.root_cases (hg : Unfolded g) (h : Root (g.bypass done) a b) (ha : a.node ∈ g.ids) :
    b.node ∈ g.ids ∧ (b = a ∨ ((g.node a.node).type = .load ∧
      ((g.node b.node).type = .load ∨ (g.node b.node).type = .other))) := by
  induction h with
  | self => exact ⟨ha, .inl rfl⟩
  | @up a b hne _ ih =>
    rcases bypass_ne hne with ⟨_, c, hc, hsrc⟩
    have hchain := hg.isChain ha hc
    rw [hsrc] at ih
    rcases ih (hchain.src_mem hg) with ⟨hb, heq | ⟨_, htype⟩⟩
    · exact ⟨hb, .inr ⟨hchain.load_type, by rw [heq]; exact hchain.src_type hg⟩⟩
    · exact ⟨hb, .inr ⟨hchain.load_type, htype⟩⟩

theorem Unfolded.root_rank (hg : Unfolded g) {rank : ℕ → ℕ}
    (hrank : ∀ (m : ℕ) (a : OutAnchor), m ∈ g.ids → some a ∈ (g.node m).inputs → rank a.node < rank m)
    (h : Root (g.bypass done) a b) (ha : a.node ∈ g.ids) : rank b.node ≤ rank a.node := by
  induction h with
  | self => exact le_refl _
  | @up a b hne _ ih =>
    rcases bypass_ne hne with ⟨_, c, hc, hsrc⟩
    have hchain := hg.isChain ha hc
    rw [hsrc] at ih
    exact le_trans (ih (hchain.src_mem hg)) (le_of_lt (hchain.rank_src hrank))

end Basics

/-! ## The nodes that are gone -/

section Gone

variable (g : Graph) (done : List ℕ)

def LoadGone (l : ℕ) : Prop := l ∈ done ∧ (g.chain l).isSome

def OutputGone (o : ℕ) : Prop :=
  (∃ l ∈ done, ∃ c, g.chain l = some c ∧ c.output = o) ∧
    ∀ r ∈ g.ids, (g.node r).Reads o → LoadGone g done r

def StoreGone (s : ℕ) : Prop :=
  (∃ l ∈ done, ∃ c, g.chain l = some c ∧ c.store = s) ∧
    ∀ r ∈ g.ids, (g.node r).Reads s → OutputGone g done r

def Gone (m : ℕ) : Prop := LoadGone g done m ∨ OutputGone g done m ∨ StoreGone g done m

end Gone

/-- The links of a graph in which the loads of `done` have been processed. -/
structure Relinked (g : Graph) (done : List ℕ) (cur : Graph) : Prop where
  type : ∀ m : ℕ, (cur.node m).type = (g.node m).type
  controls : ∀ m ∈ cur.ids, (cur.node m).controls = (g.node m).controls
  mem : ∀ m ∈ cur.ids, m ∈ g.ids
  inputs : ∀ m ∈ cur.ids,
    Forall₂ (Option.Rel (Root (g.bypass done))) (g.node m).inputs (cur.node m).inputs

structure Progress (g : Graph) (done : List ℕ) (cur : Graph) : Prop extends Relinked g done cur where
  done_mem : ∀ l ∈ done, l ∈ g.ids
  ids : ∀ m : ℕ, m ∈ cur.ids ↔ m ∈ g.ids ∧ ¬ Gone g done m

section Links

variable {g cur : Graph} {done : List ℕ} {c : Chain} {a b q : OutAnchor} {l m x : ℕ}

theorem mem_removeUnusedNode :
    m ∈ (cur.removeUnusedNode x).ids ↔ m ∈ cur.ids ∧ (m ≠ x ∨ cur.hasOutNodes x = true) := by
  rw [Graph.removeUnusedNode]
  split
  case isTrue h => simp [h]
  case isFalse h => simp [h]

theorem removeUnusedNode_node (hm : m ∈ (cur.removeUnusedNode x).ids) :
    (cur.removeUnusedNode x).node m = cur.node m := by
  rw [Graph.removeUnusedNode] at hm ⊢
  split at hm
  case isTrue h => rw [if_pos h]
  case isFalse h =>
    rw [if_neg h]
    exact if_neg (bne_iff_ne.mp (mem_filter.mp hm).2)

theorem removeUnusedNode_type (m : ℕ) :
    ((cur.removeUnusedNode x).node m).type = (cur.node m).type := by
  rw [Graph.removeUnusedNode]
  split
  · rfl
  · show (if m = x then (cur.node m).unlinkAll else cur.node m).type = _
    split <;> rfl

section

variable (h : Relinked g done cur)
include h

theorem Relinked.removeUnusedNode (x : ℕ) : Relinked g done (cur.removeUnusedNode x) where
  type m := (removeUnusedNode_type m).trans (h.type m)
  controls m hm := by
    rw [removeUnusedNode_node hm]
    exact h.controls m (mem_removeUnusedNode.mp hm).1
  mem m hm := h.mem m (mem_removeUnusedNode.mp hm).1
  inputs m hm := by
    rw [removeUnusedNode_node hm]
    exact h.inputs m (mem_removeUnusedNode.mp hm).1

/-- The inputs at a position. -/
theorem Relinked.input (hm : m ∈ cur.ids) (i : ℕ) :
    Option.Rel (Option.Rel (Root (g.bypass done))) (g.node m).inputs[i]? (cur.node m).inputs[i]? := by
  have hall := h.inputs m hm
  generalize (g.node m).inputs = links at hall
  generalize (cur.node m).inputs = links' at hall
  induction hall generalizing i with
  | nil => exact .none
  | cons hlink _ ih =>
    cases i with
    | zero => exact .some hlink
    | succ i => exact ih i

/-- A link of the current graph comes from one of the first graph. -/
theorem Relinked.link_back (hm : m ∈ cur.ids) (hb : some b ∈ (cur.node m).inputs) :
    ∃ a, some a ∈ (g.node m).inputs ∧ Root (g.bypass done) a b := by
  rcases mem_iff_getElem?.mp hb with ⟨i, hi⟩
  have hrel := h.input hm i
  rw [hi] at hrel
  generalize hlink : (g.node m).inputs[i]? = link at hrel
  cases hrel with | some hrel =>
  cases hrel with | some hroot => exact ⟨_, mem_of_getElem? hlink, hroot⟩

theorem Relinked.link (hm : m ∈ cur.ids) (ha : some a ∈ (g.node m).inputs) :
    ∃ b, some b ∈ (cur.node m).inputs ∧ Root (g.bypass done) a b := by
  rcases mem_iff_getElem?.mp ha with ⟨i, hi⟩
  have hrel := h.input hm i
  rw [hi] at hrel
  generalize hlink : (cur.node m).inputs[i]? = link at hrel
  cases hrel with | some hrel =>
  cases hrel with | some hroot => exact ⟨_, mem_of_getElem? hlink, hroot⟩

theorem Relinked.single (hm : m ∈ cur.ids) (ha : (g.node m).inputs = [some a]) :
    ∃ b, (cur.node m).inputs = [some b] ∧ Root (g.bypass done) a b := by
  have hall := h.inputs m hm
  rw [ha] at hall
  rcases forall₂_cons_left_iff.mp hall with ⟨link, links, hrel, hnil, heq⟩
  rw [forall₂_nil_left_iff.mp hnil] at heq
  cases hrel with | some hroot => exact ⟨_, heq, hroot⟩

end

/-- Outputs and stores never replace another link and are never replaced. -/
theorem Relinked.reads (hg : Unfolded g) (h : Relinked g done cur) (hm : m ∈ cur.ids)
    (hx : (g.node x).type = .output ∨ (g.node x).type = .store) :
    (cur.node m).Reads x ↔ (g.node m).Reads x := by
  constructor
  · rintro ⟨b, hb, rfl⟩
    rcases h.link_back hm hb with ⟨a, ha, hroot⟩
    rcases hg.root_cases hroot (hg.linked m a (h.mem m hm) ha) with ⟨_, rfl | ⟨_, htype⟩⟩
    · exact ⟨b, ha, rfl⟩
    · rcases hx with hx | hx <;> rcases htype with htype | htype <;> rw [hx] at htype <;> cases htype
  · rintro ⟨a, ha, rfl⟩
    rcases h.link hm ha with ⟨b, hb, hroot⟩
    rcases hg.root_cases hroot (hg.linked m a (h.mem m hm) ha) with ⟨_, rfl | ⟨hload, _⟩⟩
    · exact ⟨b, hb, rfl⟩
    · rcases hx with hx | hx <;> rw [hx] at hload <;> cases hload

theorem Relinked.hasOutNodes (hg : Unfolded g) (h : Relinked g done cur)
    (hx : (g.node x).type = .output ∨ (g.node x).type = .store) :
    cur.hasOutNodes x = true ↔ ∃ r ∈ cur.ids, (g.node r).Reads x := by
  rw [hasOutNodes_iff]
  constructor
  · rintro ⟨r, hr, hreads | hcontrol⟩
    · exact ⟨r, hr, (h.reads hg hr hx).mp hreads⟩
    · rw [h.controls r hr] at hcontrol
      have hother := hg.controls r (h.mem r hr) x hcontrol
      rcases hx with hx | hx <;> rw [hx] at hother <;> cases hother
  · rintro ⟨r, hr, hreads⟩
    exact ⟨r, hr, .inl ((h.reads hg hr hx).mpr hreads)⟩

end Links

/-! ## One load -/

section Step

variable {g cur : Graph} {done : List ℕ} {c : Chain} {a b q : OutAnchor} {l m x : ℕ}

section

variable (hg : Unfolded g)
include hg

theorem LoadGone.type (hdone : ∀ l ∈ done, l ∈ g.ids) (h : LoadGone g done m) :
    (g.node m).type = .load := by
  rcases h with ⟨hm, hsome⟩
  rcases isSome_iff_exists.mp hsome with ⟨c, hc⟩
  exact (hg.isChain (hdone m hm) hc).load_type

theorem OutputGone.chain (hdone : ∀ l ∈ done, l ∈ g.ids) (h : OutputGone g done m) :
    ∃ l ∈ done, ∃ c, IsChain g l c ∧ c.output = m := by
  rcases h with ⟨⟨l, hl, c, hc, rfl⟩, _⟩
  exact ⟨l, hl, c, hg.isChain (hdone l hl) hc, rfl⟩

theorem StoreGone.chain (hdone : ∀ l ∈ done, l ∈ g.ids) (h : StoreGone g done m) :
    ∃ l ∈ done, ∃ c, IsChain g l c ∧ c.store = m := by
  rcases h with ⟨⟨l, hl, c, hc, rfl⟩, _⟩
  exact ⟨l, hl, c, hg.isChain (hdone l hl) hc, rfl⟩

theorem Gone.type (hdone : ∀ l ∈ done, l ∈ g.ids) (h : Gone g done m) :
    ((g.node m).type = .load ∧ LoadGone g done m) ∨
      ((g.node m).type = .output ∧ OutputGone g done m) ∨
      ((g.node m).type = .store ∧ StoreGone g done m) := by
  rcases h with hload | houtput | hstore
  · exact .inl ⟨hload.type hg hdone, hload⟩
  · rcases houtput.chain hg hdone with ⟨l, _, c, hc, rfl⟩
    exact .inr (.inl ⟨hc.output_type, houtput⟩)
  · rcases hstore.chain hg hdone with ⟨l, _, c, hc, rfl⟩
    exact .inr (.inr ⟨hc.store_type, hstore⟩)

theorem Progress.load_mem (h : Progress g done cur) (hl : l ∈ g.ids)
    (hnot : l ∉ done) (htype : (g.node l).type = .load) : l ∈ cur.ids := by
  refine (h.ids l).mpr ⟨hl, fun hgone => ?_⟩
  rcases hgone.type hg h.done_mem with ⟨_, hload⟩ | ⟨hother, _⟩ | ⟨hother, _⟩
  · exact hnot hload.1
  · rw [htype] at hother
    cases hother
  · rw [htype] at hother
    cases hother

/-- An output is there as long as a load that reads it is. -/
theorem Progress.output_mem (h : Progress g done cur) (hl : l ∈ g.ids)
    (hnot : l ∉ done) (hx : x ∈ g.ids) (htype : (g.node x).type = .output)
    (hreads : (g.node l).Reads x) : x ∈ cur.ids := by
  refine (h.ids x).mpr ⟨hx, fun hgone => ?_⟩
  rcases hgone.type hg h.done_mem with ⟨hother, _⟩ | ⟨_, houtput⟩ | ⟨hother, _⟩
  · rw [htype] at hother
    cases hother
  · exact hnot (houtput.2 l hl hreads).1
  · rw [htype] at hother
    cases hother

/-- A store is there as long as an output that reads it is. -/
theorem Progress.store_mem (h : Progress g done cur) (hm : m ∈ cur.ids) (hx : x ∈ g.ids)
    (htype : (g.node x).type = .store) (hreads : (g.node m).Reads x) : x ∈ cur.ids := by
  refine (h.ids x).mpr ⟨hx, fun hgone => ?_⟩
  rcases (h.ids m).mp hm with ⟨hm, hstays⟩
  rcases hgone.type hg h.done_mem with ⟨hother, _⟩ | ⟨hother, _⟩ | ⟨_, hstore⟩
  · rw [htype] at hother
    cases hother
  · rw [htype] at hother
    cases hother
  · exact hstays (.inr (.inl (hstore.2 m hm hreads)))

/-- An input of the current graph that has the type of an output or a store was always there. -/
theorem Relinked.input_eq (h : Relinked g done cur) (ha : a.node ∈ g.ids)
    (hroot : Root (g.bypass done) a b)
    (htype : (cur.node b.node).type = .output ∨ (cur.node b.node).type = .store) : b = a := by
  rw [h.type] at htype
  rcases (hg.root_cases hroot ha).2 with heq | ⟨_, hother⟩
  · exact heq
  · rcases htype with htype | htype <;> rcases hother with hother | hother <;> rw [htype] at hother <;>
      cases hother

theorem Relinked.input_type_ne (h : Relinked g done cur) (ha : a.node ∈ g.ids)
    (hroot : Root (g.bypass done) a b) {type : OpType} (hne : (cur.node b.node).type ≠ type)
    (hload : type ≠ .load) : (g.node a.node).type ≠ type := by
  rw [h.type] at hne
  rcases (hg.root_cases hroot ha).2 with rfl | ⟨htype, _⟩
  · exact hne
  · intro heq
    exact hload (heq ▸ htype)

/-- The loop body finds the chains of the first graph. -/
theorem Progress.step_eq (h : Progress g done cur) (hl : l ∈ g.ids) (hnot : l ∉ done) :
    (g.chain l = none ∧ removeRedundantLoad cur l = some cur) ∨
      ∃ c q, IsChain g l c ∧ Root (g.bypass done) c.src q ∧ l ∈ cur.ids ∧ c.output ∈ cur.ids ∧
        removeRedundantLoad cur l = some (cur.removeChain l c.output c.store q) := by
  by_cases hload : (g.node l).type = .load
  swap
  · refine .inl ⟨?_, if_pos (by rwa [h.type])⟩
    rw [Graph.chain, Graph.sourceOf, if_neg hload]
    rfl
  have hlmem := h.load_mem hg hl hnot hload
  rcases hg.single l hl (.inl hload) with ⟨a, ha⟩
  have hamem : a.node ∈ g.ids := hg.linked l a hl (by rw [ha]; exact mem_singleton_self _)
  rcases h.single hlmem ha with ⟨a', ha', haroot⟩
  have hbody : removeRedundantLoad cur l = (cur.onlyInput l).bind fun outputAnchor =>
      if (cur.node outputAnchor.node).type ≠ .output then some cur
      else (cur.onlyInput outputAnchor.node).bind fun storeAnchor =>
        if (cur.node storeAnchor.node).type ≠ .store then some cur
        else (cur.onlyInput storeAnchor.node).bind fun _ =>
          (cur.node storeAnchor.node).inputs.head?.join.map fun preNodeOutAnchor =>
            cur.removeChain l outputAnchor.node storeAnchor.node preNodeOutAnchor :=
    if_neg (not_not_intro ((h.type l).trans hload))
  rw [hbody, onlyInput_single ha', bind_some]
  by_cases houtput : (cur.node a'.node).type = .output
  swap
  · -- the load does not read an output
    refine .inl ⟨?_, if_pos houtput⟩
    have hne := h.input_type_ne hg hamem haroot houtput (by decide)
    rw [Graph.chain, sourceOf_single hload ha, bind_some, Graph.sourceOf, if_neg hne]
    rfl
  obtain rfl := h.input_eq hg hamem haroot (.inl houtput)
  rw [if_neg (not_not_intro houtput)]
  have houtput₀ : (g.node a'.node).type = .output := (h.type _).symm.trans houtput
  have homem := h.output_mem hg hl hnot hamem houtput₀ ((reads_single ha).mpr rfl)
  rcases hg.single a'.node hamem (.inr (.inl houtput₀)) with ⟨b, hb⟩
  have hbmem : b.node ∈ g.ids :=
    hg.linked a'.node b hamem (by rw [hb]; exact mem_singleton_self _)
  rcases h.single homem hb with ⟨b', hb', hbroot⟩
  rw [onlyInput_single hb', bind_some]
  by_cases hstore : (cur.node b'.node).type = .store
  swap
  · -- the output was not stored
    refine .inl ⟨?_, if_pos hstore⟩
    have hne := h.input_type_ne hg hbmem hbroot hstore (by decide)
    rw [Graph.chain, sourceOf_single hload ha, bind_some, sourceOf_single houtput₀ hb,
      bind_some, Graph.sourceOf, if_neg hne]
    rfl
  obtain rfl := h.input_eq hg hbmem hbroot (.inr hstore)
  rw [if_neg (not_not_intro hstore)]
  have hstore₀ : (g.node b'.node).type = .store := (h.type _).symm.trans hstore
  have hsmem := h.store_mem hg homem hbmem hstore₀ ((reads_single hb).mpr rfl)
  rcases hg.single b'.node hbmem (.inr (.inr hstore₀)) with ⟨src, hsrc⟩
  rcases h.single hsmem hsrc with ⟨q, hq, hroot⟩
  refine .inr ⟨⟨a'.node, b'.node, src⟩, q, ?_, hroot, hlmem, homem, ?_⟩
  · exact hg.isChain hl (by
      rw [Graph.chain, sourceOf_single hload ha, bind_some, sourceOf_single houtput₀ hb,
        bind_some, sourceOf_single hstore₀ hsrc]
      rfl)
  · rw [onlyInput_single hq, hq]
    rfl

end

/-! ## What one chain adds -/

theorem bypass_append (hne : g.bypass done a ≠ a) : g.bypass (done ++ [l]) a = g.bypass done a := by
  rcases bypass_ne hne with ⟨hmem, c, hc, hsrc⟩
  rw [hsrc, bypass_chain (mem_append_left [l] hmem) hc]

theorem root_append (h : Root (g.bypass done) a b) (hb : b.node ≠ l) :
    Root (g.bypass (done ++ [l])) a b := by
  refine h.extend (fun z hz => bypass_append hz) (.self ?_)
  have hself := h.parent_eq
  by_cases hmem : b.node ∈ done
  · cases hc : g.chain b.node with
    | none => exact bypass_none hc
    | some c => rw [bypass_chain (mem_append_left [l] hmem) hc, ← bypass_chain hmem hc, hself]
  · apply bypass_not_mem
    intro h
    rcases mem_append.mp h with h | h
    · exact hmem h
    · exact hb (mem_singleton.mp h)

/-- The chain of a load ends below it. -/
theorem IsChain.root_ne (hg : Unfolded g) (hc : IsChain g l c) (h : Root (g.bypass done) c.src q) :
    q.node ≠ l := by
  rcases hg.acyclic with ⟨rank, hrank⟩
  have hle := hg.root_rank hrank h (hc.src_mem hg)
  have hlt := hc.rank_src hrank
  intro heq
  rw [heq] at hle
  omega

theorem Relinked.replaceEdgeSrc (hg : Unfolded g) (h : Relinked g done cur) (hc : IsChain g l c)
    (hroot : Root (g.bypass done) c.src q) : Relinked g (done ++ [l]) (cur.replaceEdgeSrc l q) where
  type := h.type
  controls := h.controls
  mem := h.mem
  inputs m hm := by
    show Forall₂ _ _ ((cur.node m).inputs.map (relink l q))
    rw [forall₂_map_right_iff]
    refine (h.inputs m hm).imp fun link link' hrel => ?_
    cases hrel with
    | none => exact .none
    | @some a b hab =>
      by_cases hb : b.node = l
      · have hlink : relink l q (some b) = some q := if_pos (by simpa using hb)
        have hlast : g.bypass (done ++ [l]) b = c.src := by
          apply bypass_chain _ (hb ▸ hc.chain_eq)
          rw [hb]
          exact mem_append_right done (mem_singleton_self l)
        rw [hlink]
        refine .some (hab.extend (fun z hz => bypass_append hz) (.of_parent ?_))
        rw [hlast]
        exact root_append hroot (hc.root_ne hg hroot)
      · have hlink : relink l q (some b) = some b := if_neg (by simpa using hb)
        rw [hlink]
        exact .some (root_append hab hb)

/-- Nothing reads the load once its readers are linked elsewhere. -/
theorem Relinked.not_hasOutNodes (hg : Unfolded g) (h : Relinked g done cur)
    (hl : (g.node l).type = .load) (hq : q.node ≠ l) : (cur.replaceEdgeSrc l q).hasOutNodes l = false := by
  rw [Bool.eq_false_iff]
  intro hout
  rcases hasOutNodes_iff.mp hout with ⟨m, hm, ⟨b, hb, hbl⟩ | hcontrol⟩
  · rcases List.mem_map.mp hb with ⟨link, _, hlink⟩
    rw [relink] at hlink
    split at hlink
    case isTrue => exact hq (some.inj hlink ▸ hbl)
    case isFalse hne =>
      rw [hlink] at hne
      exact hne (by simpa using hbl)
  · have hcontrol' : l ∈ (cur.node m).controls := hcontrol
    rw [h.controls m hm] at hcontrol'
    have hother := hg.controls m (h.mem m hm) l hcontrol'
    rw [hl] at hother
    cases hother

section

variable (hc : IsChain g l c)
include hc

theorem loadGone_append : LoadGone g (done ++ [l]) m ↔ LoadGone g done m ∨ m = l := by
  constructor
  · rintro ⟨hm, hsome⟩
    rcases mem_append.mp hm with hm | hm
    · exact .inl ⟨hm, hsome⟩
    · exact .inr (mem_singleton.mp hm)
  · rintro (⟨hm, hsome⟩ | rfl)
    · exact ⟨mem_append_left [l] hm, hsome⟩
    · exact ⟨mem_append_right done (mem_singleton_self m), by rw [hc.chain_eq]; rfl⟩

theorem IsChain.reads_output : (g.node l).Reads x ↔ c.output = x := by
  rcases hc.load_input with ⟨k, hk⟩
  exact reads_single hk

theorem IsChain.reads_store : (g.node c.output).Reads x ↔ c.store = x := by
  rcases hc.output_input with ⟨k, hk⟩
  exact reads_single hk

theorem outputGone_append (hnot : l ∉ done) :
    OutputGone g (done ++ [l]) m ↔ (m ≠ c.output ∧ OutputGone g done m) ∨
      (m = c.output ∧ ∀ r ∈ g.ids, (g.node r).Reads m → LoadGone g (done ++ [l]) r) := by
  by_cases hm : m = c.output
  · subst hm
    constructor
    · exact fun h => .inr ⟨rfl, h.2⟩
    · rintro (⟨hne, _⟩ | ⟨_, h⟩)
      · exact absurd rfl hne
      · exact ⟨⟨l, mem_append_right done (mem_singleton_self l), c, hc.chain_eq, rfl⟩, h⟩
  -- the load does not read this output
  have hreads : ¬ (g.node l).Reads m := fun h => hm (hc.reads_output.mp h).symm
  constructor
  · rintro ⟨⟨l', hl', c', hc', rfl⟩, h⟩
    refine .inl ⟨hm, ⟨⟨l', ?_, c', hc', rfl⟩, fun r hr hrm => ?_⟩⟩
    · rcases mem_append.mp hl' with hl' | hl'
      · exact hl'
      · rw [mem_singleton.mp hl', hc.chain_eq] at hc'
        exact absurd (congrArg Chain.output (some.inj hc').symm) hm
    · rcases (loadGone_append hc).mp (h r hr hrm) with hgone | rfl
      · exact hgone
      · exact absurd hrm hreads
  · rintro (⟨_, ⟨l', hl', c', hc', hout⟩, h⟩ | ⟨heq, _⟩)
    · exact ⟨⟨l', mem_append_left [l] hl', c', hc', hout⟩,
        fun r hr hrm => (loadGone_append hc).mpr (.inl (h r hr hrm))⟩
    · exact absurd heq hm

theorem not_outputGone (hnot : l ∉ done) : ¬ OutputGone g done c.output :=
  fun h => hnot (h.2 l hc.load_mem (hc.reads_output.mpr rfl)).1

theorem storeGone_append (hnot : l ∉ done) :
    StoreGone g (done ++ [l]) m ↔ (m ≠ c.store ∧ StoreGone g done m) ∨
      (m = c.store ∧ ∀ r ∈ g.ids, (g.node r).Reads m → OutputGone g (done ++ [l]) r) := by
  by_cases hm : m = c.store
  · subst hm
    constructor
    · exact fun h => .inr ⟨rfl, h.2⟩
    · rintro (⟨hne, _⟩ | ⟨_, h⟩)
      · exact absurd rfl hne
      · exact ⟨⟨l, mem_append_right done (mem_singleton_self l), c, hc.chain_eq, rfl⟩, h⟩
  -- the output does not read this store
  have hreads : ¬ (g.node c.output).Reads m := fun h => hm (hc.reads_store.mp h).symm
  constructor
  · rintro ⟨⟨l', hl', c', hc', rfl⟩, h⟩
    refine .inl ⟨hm, ⟨⟨l', ?_, c', hc', rfl⟩, fun r hr hrm => ?_⟩⟩
    · rcases mem_append.mp hl' with hl' | hl'
      · exact hl'
      · rw [mem_singleton.mp hl', hc.chain_eq] at hc'
        exact absurd (congrArg Chain.store (some.inj hc').symm) hm
    · rcases (outputGone_append hc hnot).mp (h r hr hrm) with ⟨_, hgone⟩ | ⟨rfl, _⟩
      · exact hgone
      · exact absurd hrm hreads
  · rintro (⟨_, ⟨l', hl', c', hc', hout⟩, h⟩ | ⟨heq, _⟩)
    · refine ⟨⟨l', mem_append_left [l] hl', c', hc', hout⟩, fun r hr hrm => ?_⟩
      have hgone := h r hr hrm
      refine (outputGone_append hc hnot).mpr (.inl ⟨?_, hgone⟩)
      rintro rfl
      exact not_outputGone hc hnot hgone
    · exact absurd heq hm

theorem not_storeGone (hnot : l ∉ done) : ¬ StoreGone g done c.store :=
  fun h => not_outputGone hc hnot (h.2 c.output hc.output_mem (hc.reads_store.mpr rfl))

end

section

variable (hg : Unfolded g)
include hg

theorem LoadGone.not_reads_store (hdone : ∀ l ∈ done, l ∈ g.ids)
    (h : LoadGone g done m) (hx : (g.node x).type = .store) : ¬ (g.node m).Reads x := by
  intro hreads
  rcases h with ⟨hm, hsome⟩
  rcases isSome_iff_exists.mp hsome with ⟨c, hc⟩
  have hchain := hg.isChain (hdone m hm) hc
  have htype := hchain.output_type
  rw [hchain.reads_output.mp hreads, hx] at htype
  cases htype

theorem OutputGone.not_reads_output (hdone : ∀ l ∈ done, l ∈ g.ids)
    (h : OutputGone g done m) (hx : (g.node x).type = .output) : ¬ (g.node m).Reads x := by
  intro hreads
  rcases h.chain hg hdone with ⟨l, _, c, hc, rfl⟩
  have htype := hc.store_type
  rw [hc.reads_store.mp hreads, hx] at htype
  cases htype

theorem StoreGone.not_reads (hdone : ∀ l ∈ done, l ∈ g.ids) (h : StoreGone g done m)
    (hx : (g.node x).type = .output ∨ (g.node x).type = .store) : ¬ (g.node m).Reads x := by
  intro hreads
  rcases h.chain hg hdone with ⟨l, _, c, hc, rfl⟩
  have htype := hc.src_type hg
  rw [(reads_single hc.store_input).mp hreads] at htype
  rcases hx with hx | hx <;> rcases htype with htype | htype <;> rw [hx] at htype <;> cases htype

/-- A processed chain takes the load, and the output and the store if nothing else reads them. -/
theorem Progress.removeChain (h : Progress g done cur) (hc : IsChain g l c)
    (hnot : l ∉ done) (hroot : Root (g.bypass done) c.src q) :
    Progress g (done ++ [l]) (cur.removeChain l c.output c.store q) := by
  have hdone' : ∀ x ∈ done ++ [l], x ∈ g.ids := by
    intro x hx
    rcases mem_append.mp hx with hx | hx
    · exact h.done_mem x hx
    · rw [mem_singleton.mp hx]
      exact hc.load_mem
  have hlink₁ := h.toRelinked.replaceEdgeSrc hg hc hroot
  have hlink₂ := hlink₁.removeUnusedNode l
  have hlink₃ := hlink₂.removeUnusedNode c.output
  have hout₁ := h.toRelinked.not_hasOutNodes hg hc.load_type (hc.root_ne hg hroot)
  -- the load
  have hids₂ : ∀ m, m ∈ ((cur.replaceEdgeSrc l q).removeUnusedNode l).ids ↔ m ∈ g.ids ∧
      ¬ LoadGone g (done ++ [l]) m ∧ ¬ OutputGone g done m ∧ ¬ StoreGone g done m := by
    intro m
    have hcur : m ∈ (cur.replaceEdgeSrc l q).ids ↔ m ∈ g.ids ∧ ¬ Gone g done m := h.ids m
    rw [mem_removeUnusedNode, hout₁, hcur, Gone, loadGone_append hc]
    simp only [Bool.false_eq_true, or_false, not_or]
    constructor
    · rintro ⟨⟨hm, hload, houtput, hstore⟩, hne⟩
      exact ⟨hm, ⟨hload, hne⟩, houtput, hstore⟩
    · rintro ⟨hm, ⟨hload, hne⟩, houtput, hstore⟩
      exact ⟨⟨hm, hload, houtput, hstore⟩, hne⟩
  -- the output
  have hout₂ : (∃ r ∈ ((cur.replaceEdgeSrc l q).removeUnusedNode l).ids, (g.node r).Reads c.output) ↔
      ¬ ∀ r ∈ g.ids, (g.node r).Reads c.output → LoadGone g (done ++ [l]) r := by
    constructor
    · rintro ⟨r, hr, hreads⟩ hall
      rcases (hids₂ r).mp hr with ⟨hr, hstays, _⟩
      exact hstays (hall r hr hreads)
    · intro hall
      push Not at hall
      rcases hall with ⟨r, hr, hreads, hstays⟩
      refine ⟨r, (hids₂ r).mpr ⟨hr, hstays, fun hgone => ?_, fun hgone => ?_⟩, hreads⟩
      · exact hgone.not_reads_output hg h.done_mem hc.output_type hreads
      · exact hgone.not_reads hg h.done_mem (.inl hc.output_type) hreads
  have hids₃ : ∀ m, m ∈ (((cur.replaceEdgeSrc l q).removeUnusedNode l).removeUnusedNode c.output).ids ↔
      m ∈ g.ids ∧ ¬ LoadGone g (done ++ [l]) m ∧ ¬ OutputGone g (done ++ [l]) m ∧
        ¬ StoreGone g done m := by
    intro m
    rw [mem_removeUnusedNode, hlink₂.hasOutNodes hg (.inl hc.output_type), hout₂, hids₂,
      outputGone_append hc hnot]
    by_cases hm : m = c.output
    · subst hm
      simp only [not_outputGone hc hnot, ne_eq, not_true_eq_false, false_and, false_or, true_and,
        not_false_eq_true]
      constructor
      · rintro ⟨⟨hm, hload, hstore⟩, hread⟩
        exact ⟨hm, hload, hread, hstore⟩
      · rintro ⟨hm, hload, hread, hstore⟩
        exact ⟨⟨hm, hload, hstore⟩, hread⟩
    · simp only [ne_eq, hm, not_false_eq_true, true_or, and_true, true_and, false_and, or_false]
  -- the store
  have hout₃ : (∃ r ∈ (((cur.replaceEdgeSrc l q).removeUnusedNode l).removeUnusedNode c.output).ids,
      (g.node r).Reads c.store) ↔
      ¬ ∀ r ∈ g.ids, (g.node r).Reads c.store → OutputGone g (done ++ [l]) r := by
    constructor
    · rintro ⟨r, hr, hreads⟩ hall
      rcases (hids₃ r).mp hr with ⟨hr, _, hstays, _⟩
      exact hstays (hall r hr hreads)
    · intro hall
      push Not at hall
      rcases hall with ⟨r, hr, hreads, hstays⟩
      refine ⟨r, (hids₃ r).mpr ⟨hr, fun hgone => ?_, hstays, fun hgone => ?_⟩, hreads⟩
      · exact hgone.not_reads_store hg hdone' hc.store_type hreads
      · exact hgone.not_reads hg h.done_mem (.inr hc.store_type) hreads
  refine { toRelinked := hlink₃.removeUnusedNode c.store, done_mem := hdone', ids := fun m => ?_ }
  rw [Graph.removeChain, mem_removeUnusedNode, hlink₃.hasOutNodes hg (.inr hc.store_type), hout₃,
    hids₃, Gone, storeGone_append hc hnot]
  by_cases hm : m = c.store
  · subst hm
    simp only [not_storeGone hc hnot, ne_eq, not_true_eq_false, false_and, false_or, true_and,
      not_false_eq_true, and_true, not_or, and_assoc]
  · simp only [ne_eq, hm, not_false_eq_true, true_or, and_true, true_and, false_and, or_false, not_or]

omit hg in
theorem Progress.skip (h : Progress g done cur) (hl : l ∈ g.ids) (hc : g.chain l = none) :
    Progress g (done ++ [l]) cur := by
  have hmem : ∀ m c, g.chain m = some c → (m ∈ done ++ [l] ↔ m ∈ done) := by
    intro m c hm
    rw [mem_append, mem_singleton]
    constructor
    · rintro (hmem | rfl)
      · exact hmem
      · rw [hc] at hm
        cases hm
    · exact .inl
  have hbypass : g.bypass (done ++ [l]) = g.bypass done := by
    funext a
    cases ha : g.chain a.node with
    | none => rw [bypass_none ha, bypass_none ha]
    | some c =>
      by_cases hdone : a.node ∈ done
      · rw [bypass_chain ((hmem _ c ha).mpr hdone) ha, bypass_chain hdone ha]
      · rw [bypass_not_mem (mt (hmem _ c ha).mp hdone), bypass_not_mem hdone]
  have hload : ∀ m, LoadGone g (done ++ [l]) m ↔ LoadGone g done m := by
    intro m
    refine and_congr_left fun hsome => ?_
    rcases isSome_iff_exists.mp hsome with ⟨c, hm⟩
    exact hmem m c hm
  have hexists : ∀ P : Chain → Prop, (∃ l' ∈ done ++ [l], ∃ c, g.chain l' = some c ∧ P c) ↔
      ∃ l' ∈ done, ∃ c, g.chain l' = some c ∧ P c := by
    intro P
    constructor
    · rintro ⟨l', hl', c, hm, hP⟩
      exact ⟨l', (hmem l' c hm).mp hl', c, hm, hP⟩
    · rintro ⟨l', hl', c, hm, hP⟩
      exact ⟨l', (hmem l' c hm).mpr hl', c, hm, hP⟩
  have houtput : ∀ m, OutputGone g (done ++ [l]) m ↔ OutputGone g done m := by
    intro m
    simp only [OutputGone, hexists, hload]
  have hstore : ∀ m, StoreGone g (done ++ [l]) m ↔ StoreGone g done m := by
    intro m
    simp only [StoreGone, hexists, houtput]
  exact {
    type := h.type, controls := h.controls, mem := h.mem
    inputs := by rw [hbypass]; exact h.inputs
    done_mem := by
      intro x hx
      rcases mem_append.mp hx with hx | hx
      · exact h.done_mem x hx
      · rwa [mem_singleton.mp hx]
    ids := by
      intro m
      rw [h.ids, Gone, Gone, hload, houtput, hstore] }

/-- One step of the loop. -/
theorem Progress.step (h : Progress g done cur) (hl : l ∈ g.ids) (hnot : l ∉ done) :
    ∃ next, removeRedundantLoad cur l = some next ∧ Progress g (done ++ [l]) next := by
  rcases h.step_eq hg hl hnot with ⟨hc, hstep⟩ | ⟨c, q, hc, hroot, _, _, hstep⟩
  · exact ⟨cur, hstep, h.skip hl hc⟩
  · exact ⟨_, hstep, h.removeChain hg hc hnot hroot⟩

end

end Step

/-! ## The whole run -/

section Run

variable {g cur : Graph} {done rest : List ℕ} {m x : ℕ}

theorem Progress.start (g : Graph) : Progress g [] g where
  type _ := rfl
  controls _ _ := rfl
  mem _ hm := hm
  inputs m _ := by
    refine forall₂_same.mpr fun link _ => ?_
    cases link with
    | none => exact .none
    | some a => exact .some (.self (bypass_not_mem not_mem_nil))
  done_mem := by
    intro l hl
    cases hl
  ids m := by
    refine ⟨fun hm => ⟨hm, ?_⟩, And.left⟩
    rintro (⟨hl, _⟩ | ⟨⟨l, hl, _⟩, _⟩ | ⟨⟨l, hl, _⟩, _⟩) <;> cases hl

theorem Progress.run (hg : Unfolded g) (hsplit : done ++ rest = g.ids) (h : Progress g done cur) :
    ∃ final, rest.foldlM removeRedundantLoad cur = some final ∧ Progress g g.ids final := by
  induction rest generalizing done cur with
  | nil =>
    rw [append_nil] at hsplit
    exact ⟨cur, rfl, hsplit ▸ h⟩
  | cons l rest ih =>
    have hl : l ∈ g.ids := by
      rw [← hsplit]
      exact mem_append_right done (mem_cons_self ..)
    have hnot : l ∉ done := by
      intro hmem
      have hnodup := hg.nodup
      rw [← hsplit] at hnodup
      exact (nodup_append.mp hnodup).2.2 l hmem l (mem_cons_self ..) rfl
    rcases h.step hg hl hnot with ⟨next, hstep, hnext⟩
    rcases ih (by rw [append_assoc, singleton_append, hsplit]) hnext with ⟨final, hrun, hfinal⟩
    refine ⟨final, ?_, hfinal⟩
    rw [foldlM_cons, hstep]
    exact hrun

theorem Relinked.netOutput_not_hasOutNodes (hg : Unfolded g) (h : Relinked g done cur)
    (hx : (g.node x).type = .netOutput) : ¬ cur.hasOutNodes x = true := by
  intro hout
  rcases hasOutNodes_iff.mp hout with ⟨m, hm, ⟨b, hb, rfl⟩ | hcontrol⟩
  · rcases h.link_back hm hb with ⟨a, ha, hroot⟩
    rcases hg.root_cases hroot (hg.linked m a (h.mem m hm) ha) with ⟨_, rfl | ⟨_, htype⟩⟩
    · exact hg.netOutput m b (h.mem m hm) ha hx
    · rcases htype with htype | htype <;> rw [hx] at htype <;> cases htype
  · rw [h.controls m hm] at hcontrol
    have hother := hg.controls m (h.mem m hm) x hcontrol
    rw [hx] at hother
    cases hother

theorem Relinked.removeNetOutputs (hg : Unfolded g) (h : Relinked g done cur) (nodes : List ℕ) :
    Relinked g done (nodes.foldl removeNetOutput cur) ∧ ∀ m, m ∈ (nodes.foldl removeNetOutput cur).ids ↔
      m ∈ cur.ids ∧ ¬ (m ∈ nodes ∧ (g.node m).type = .netOutput) := by
  induction nodes generalizing cur with
  | nil => exact ⟨h, fun m => by simp⟩
  | cons x nodes ih =>
    by_cases hx : (cur.node x).type = .netOutput
    · have hstep : removeNetOutput cur x = cur.removeUnusedNode x := if_pos hx
      rw [foldl_cons, hstep]
      rcases ih (h.removeUnusedNode x) with ⟨hlink, hids⟩
      refine ⟨hlink, fun m => ?_⟩
      rw [h.type] at hx
      have hout := h.netOutput_not_hasOutNodes hg hx
      rw [hids, mem_removeUnusedNode, mem_cons]
      by_cases hm : m = x
      · subst hm
        tauto
      · tauto
    · have hstep : removeNetOutput cur x = cur := if_neg hx
      rw [foldl_cons, hstep]
      rcases ih h with ⟨hlink, hids⟩
      refine ⟨hlink, fun m => ?_⟩
      rw [h.type] at hx
      rw [hids, mem_cons]
      by_cases hm : m = x
      · subst hm
        tauto
      · tauto

/-- The rewrite succeeds; the links and the nodes of its result. -/
theorem removeRedundantLoads_spec (hg : Unfolded g) :
    ∃ final, removeRedundantLoads g = some final ∧ Relinked g g.ids final ∧
      ∀ m, m ∈ final.ids ↔ m ∈ g.ids ∧ ¬ Gone g g.ids m ∧ (g.node m).type ≠ .netOutput := by
  rcases (Progress.start g).run hg (nil_append g.ids) with ⟨cur, hrun, hcur⟩
  rcases hcur.toRelinked.removeNetOutputs hg cur.ids with ⟨hlink, hids⟩
  refine ⟨_, by rw [removeRedundantLoads, hrun]; rfl, hlink, fun m => ?_⟩
  rw [hids, hcur.ids]
  tauto

end Run

end GraphAutofusion.Autofuse.RedundantLoads
