import GraphAutofusion.Autofuse.RedundantLoadsRun
import Mathlib.Data.Set.Basic

/-!
# Autofuse.RedundantLoadsValues — what the readers of a removed load get

A load behind a store reads the cell that its address map gives, and finds there what the last index
of the store with the same address has written. The readers of the load get what was stored at their
own index. Both are the same for all values exactly if that last index is their own.
-/

namespace GraphAutofusion.Autofuse.RedundantLoads

open Lib List Option

/-- The index tuples of a view in the order they are visited. -/
def View.space (view : View) : List (List ℕ) := indexTuples view.repeats

/-- The index of the store whose value a load finds at its own index. -/
def Graph.writer (g : Graph) (load : ℕ) (c : Chain) (j : List ℕ) : Option (List ℕ) :=
  lastWriter (g.node c.store).view.address (g.node c.store).view.space ((g.node load).view.address j)

/-! ## Values -/

section Values

variable {V : Type}

/-- The buffer of an output after its store. -/
def Graph.buffer (g : Graph) (initial : ℕ → ℤ → V) (value : OutAnchor → List ℕ → V) (c : Chain) :
    ℤ → V :=
  afterWrites (g.node c.store).view.address (value c.src) (initial c.output) (g.node c.store).view.space

/-- Values of all tensors for which the loads behind stores read the buffers. -/
def Graph.Holds (g : Graph) (initial : ℕ → ℤ → V) (value : OutAnchor → List ℕ → V) : Prop :=
  ∀ (a : OutAnchor) (c : Chain), g.chain a.node = some c → ∀ j,
    value a j = g.buffer initial value c ((g.node a.node).view.address j)

end Values

/-- What the second graph owes to the first. -/
structure Preserves (g g' : Graph) : Prop where
  /-- Who was fed by a removed load gets the same value at every index. -/
  fed : ∀ (V : Type) (initial : ℕ → ℤ → V) (value : OutAnchor → List ℕ → V), g.Holds initial value →
    ∀ (m i : ℕ) (a : OutAnchor), m ∈ g'.ids → (g.node m).inputs[i]? = some (some a) →
      (g.node a.node).type = .load → a.node ∉ g'.ids →
        ∃ b : OutAnchor, (g'.node m).inputs[i]? = some (some b) ∧ b.node ∈ g'.ids ∧
          ∀ j ∈ (g.node a.node).view.space, value b j = value a j
  /-- Stores and outputs with another reader stay. -/
  kept : ∀ x ∈ g.ids, (g.node x).type = .output ∨ (g.node x).type = .store →
    (∃ r ∈ g.ids, (g.node r).Reads x ∧ (r ∈ g'.ids ∨ (g.node r).type = .netOutput)) → x ∈ g'.ids
  /-- All other links stay. -/
  unchanged : ∀ (m i : ℕ) (a : OutAnchor), m ∈ g'.ids → (g.node m).inputs[i]? = some (some a) →
    a.node ∈ g'.ids → (g'.node m).inputs[i]? = some (some a)

/-! ## Tracing an index through the buffers -/

/-- What is found at the first index of the first anchor was computed at the second index of the
second one. -/
inductive Graph.Traces (g : Graph) : OutAnchor → List ℕ → OutAnchor → List ℕ → Prop where
  | stays {a : OutAnchor} {j : List ℕ} (h : g.chain a.node = none) : g.Traces a j a j
  | through {a b : OutAnchor} {i j k : List ℕ} {c : Chain} (hc : g.chain a.node = some c)
      (hi : g.writer a.node c j = some i) (h : g.Traces c.src i b k) : g.Traces a j b k

/-- Every index of a removed load with a reader that stays leads to itself. -/
def Graph.SameIndex (g : Graph) : Prop :=
  ∀ (m : ℕ) (a : OutAnchor), m ∈ g.ids → ¬ Gone g g.ids m → (g.node m).type ≠ .netOutput →
    some a ∈ (g.node m).inputs → (g.chain a.node).isSome →
      ∀ j ∈ (g.node a.node).view.space, ∃ b, g.Traces a j b j

section Tracing

variable {g g' : Graph} {a b : OutAnchor} {c : Chain} {j k : List ℕ}

theorem Graph.Traces.through_iff (hc : g.chain a.node = some c) :
    g.Traces a j b k ↔ ∃ i, g.writer a.node c j = some i ∧ g.Traces c.src i b k := by
  constructor
  · intro h
    cases h with
    | stays hnone =>
      rw [hc] at hnone
      cases hnone
    | through hc' hi h =>
      rw [hc, some.injEq] at hc'
      subst hc'
      exact ⟨_, hi, h⟩
  · rintro ⟨i, hi, h⟩
    exact .through hc hi h

theorem Graph.Traces.stays_iff (hc : g.chain a.node = none) : g.Traces a j b k ↔ b = a ∧ k = j := by
  constructor
  · intro h
    cases h with
    | stays => exact ⟨rfl, rfl⟩
    | through hc' =>
      rw [hc] at hc'
      cases hc'
  · rintro ⟨rfl, rfl⟩
    exact .stays hc

/-- A trace runs along the chain that the rewrite bypasses. -/
theorem Graph.Traces.root (hg : Unfolded g) (h : g.Traces a j b k) (ha : a.node ∈ g.ids) :
    Root (g.bypass g.ids) a b := by
  induction h with
  | stays hnone => exact .self (bypass_none hnone)
  | through hc _ _ ih =>
    apply Root.of_parent
    rw [bypass_chain ha hc]
    exact ih ((hg.isChain ha hc).src_mem hg)

theorem Graph.Holds.buffer_eq {V : Type} {initial : ℕ → ℤ → V} {value : OutAnchor → List ℕ → V}
    (h : g.Holds initial value) (hc : g.chain a.node = some c) :
    value a j = (g.writer a.node c j).elim (initial c.output ((g.node a.node).view.address j))
      (value c.src) := by
  rw [h a c hc j, Graph.buffer, afterWrites_apply]
  rfl

theorem Graph.Holds.traces {V : Type} {initial : ℕ → ℤ → V} {value : OutAnchor → List ℕ → V}
    (h : g.Holds initial value) (ht : g.Traces a j b k) : value a j = value b k := by
  induction ht with
  | stays => rfl
  | through hc hi _ ih =>
    rw [h.buffer_eq hc, hi]
    exact ih

/-- Every tensor holds the places its elements come from. -/
theorem holds_origins (g : Graph) :
    g.Holds (fun _ _ => ∅) fun a j => {p : OutAnchor × List ℕ | g.Traces a j p.1 p.2} := by
  intro a c hc j
  rw [Graph.buffer, afterWrites_apply]
  show _ = (g.writer a.node c j).elim _ _
  cases hi : g.writer a.node c j with
  | none =>
    refine Set.eq_empty_of_forall_notMem fun p hp => ?_
    rcases (Graph.Traces.through_iff hc).mp hp with ⟨i, hi', _⟩
    rw [hi] at hi'
    cases hi'
  | some i =>
    apply Set.ext
    intro p
    constructor
    · intro hp
      rcases (Graph.Traces.through_iff hc).mp hp with ⟨i', hi', h⟩
      rw [hi, some.injEq] at hi'
      rwa [← hi'] at h
    · exact fun hp => .through hc hi hp

end Tracing

/-! ## The rewrite -/

section Rewrite

variable {g g' : Graph} {a b : OutAnchor} {m i x : ℕ}

/-- What the spec of the run says about the result. -/
def IsResult (g g' : Graph) : Prop :=
  Relinked g g.ids g' ∧
    ∀ m, m ∈ g'.ids ↔ m ∈ g.ids ∧ ¬ Gone g g.ids m ∧ (g.node m).type ≠ .netOutput

section

variable (hg : Unfolded g)
include hg

theorem gone_load (htype : (g.node m).type = .load) (h : Gone g g.ids m) : (g.chain m).isSome := by
  rcases h.type hg (fun _ hl => hl) with ⟨_, hload⟩ | ⟨hother, _⟩ | ⟨hother, _⟩
  · exact hload.2
  · rw [htype] at hother
    cases hother
  · rw [htype] at hother
    cases hother

theorem gone_output (htype : (g.node m).type = .output) (h : Gone g g.ids m) :
    OutputGone g g.ids m := by
  rcases h.type hg (fun _ hl => hl) with ⟨hother, _⟩ | ⟨_, houtput⟩ | ⟨hother, _⟩
  · rw [htype] at hother
    cases hother
  · exact houtput
  · rw [htype] at hother
    cases hother

theorem gone_store (htype : (g.node m).type = .store) (h : Gone g g.ids m) :
    StoreGone g g.ids m := by
  rcases h.type hg (fun _ hl => hl) with ⟨hother, _⟩ | ⟨hother, _⟩ | ⟨_, hstore⟩
  · rw [htype] at hother
    cases hother
  · rw [htype] at hother
    cases hother
  · exact hstore

/-- A link of the result ends where no processed load is left. -/
theorem root_stays (hm : m ∈ g.ids) (ha : some a ∈ (g.node m).inputs)
    (h : Root (g.bypass g.ids) a b) (hchain : (g.chain a.node).isSome) :
    b.node ∈ g.ids ∧ ¬ Gone g g.ids b.node ∧ (g.node b.node).type ≠ .netOutput ∧
      g.chain b.node = none := by
  have hamem := hg.linked m a hm ha
  rcases hg.root_cases h hamem with ⟨hb, hcases⟩
  have hnone : g.chain b.node = none := by
    cases hc : g.chain b.node with
    | none => rfl
    | some c =>
      have hself := h.parent_eq
      rw [bypass_chain hb hc] at hself
      have hroot : Root (g.bypass []) c.src c.src := .self (bypass_not_mem not_mem_nil)
      exact absurd (congrArg OutAnchor.node hself) ((hg.isChain hb hc).root_ne hg hroot)
  have htype : (g.node b.node).type = .load ∨ (g.node b.node).type = .other := by
    rcases hcases with rfl | ⟨_, htype⟩
    · rw [hnone] at hchain
      cases hchain
    · exact htype
  refine ⟨hb, fun hgone => ?_, ?_, hnone⟩
  · rcases hgone.type hg (fun _ hl => hl) with ⟨_, hload⟩ | ⟨hother, _⟩ | ⟨hother, _⟩
    · rw [LoadGone, hnone] at hload
      cases hload.2
    · rcases htype with htype | htype <;> rw [htype] at hother <;> cases hother
    · rcases htype with htype | htype <;> rw [htype] at hother <;> cases hother
  · rcases htype with htype | htype <;> rw [htype] <;> decide

omit hg in
theorem IsResult.link (h : IsResult g g') (hm : m ∈ g'.ids)
    (ha : (g.node m).inputs[i]? = some (some a)) :
    ∃ b, (g'.node m).inputs[i]? = some (some b) ∧ Root (g.bypass g.ids) a b := by
  have hrel := h.1.input hm i
  rw [ha] at hrel
  generalize hlink : (g'.node m).inputs[i]? = link at hrel
  cases hrel with | some hrel =>
  cases hrel with | some hroot => exact ⟨_, rfl, hroot⟩

theorem IsResult.kept (h : IsResult g g') (hx : x ∈ g.ids)
    (htype : (g.node x).type = .output ∨ (g.node x).type = .store)
    (hreader : ∃ r ∈ g.ids, (g.node r).Reads x ∧ (r ∈ g'.ids ∨ (g.node r).type = .netOutput)) :
    x ∈ g'.ids := by
  rcases hreader with ⟨r, hr, hreads, hstays⟩
  -- a reader that stays is none of those that go before the node itself goes
  have hreader : ¬ Gone g g.ids r := by
    rcases hstays with hmem | hnet
    · exact ((h.2 r).mp hmem).2.1
    · intro hgone
      rcases hgone.type hg (fun _ hl => hl) with ⟨hother, _⟩ | ⟨hother, _⟩ | ⟨hother, _⟩ <;>
        rw [hnet] at hother <;> cases hother
  refine (h.2 x).mpr ⟨hx, fun hgone => ?_, ?_⟩
  · rcases htype with htype | htype
    · exact hreader (.inl ((gone_output hg htype hgone).2 r hr hreads))
    · exact hreader (.inr (.inl ((gone_store hg htype hgone).2 r hr hreads)))
  · rcases htype with htype | htype <;> rw [htype] <;> decide

omit hg in
theorem IsResult.unchanged (h : IsResult g g') (hm : m ∈ g'.ids)
    (ha : (g.node m).inputs[i]? = some (some a)) (hamem : a.node ∈ g'.ids) :
    (g'.node m).inputs[i]? = some (some a) := by
  rcases h.link hm ha with ⟨b, hb, hroot⟩
  rcases (h.2 a.node).mp hamem with ⟨hamem, hstays, _⟩
  have hself : g.bypass g.ids a = a := by
    by_contra hne
    rcases bypass_ne hne with ⟨hmem, c, hc, _⟩
    exact hstays (.inl ⟨hmem, by rw [hc]; rfl⟩)
  rw [hb, hroot.unique (.self hself)]

theorem IsResult.fed (h : IsResult g g') (hsame : g.SameIndex) {V : Type}
    {initial : ℕ → ℤ → V} {value : OutAnchor → List ℕ → V} (hvalue : g.Holds initial value)
    (hm : m ∈ g'.ids) (ha : (g.node m).inputs[i]? = some (some a))
    (hload : (g.node a.node).type = .load) (hgone : a.node ∉ g'.ids) :
    ∃ b : OutAnchor, (g'.node m).inputs[i]? = some (some b) ∧ b.node ∈ g'.ids ∧
      ∀ j ∈ (g.node a.node).view.space, value b j = value a j := by
  rcases (h.2 m).mp hm with ⟨hmem, hstays, hnet⟩
  have hain := mem_of_getElem? ha
  have hamem := hg.linked m a hmem hain
  have hchain : (g.chain a.node).isSome := by
    apply gone_load hg hload
    by_contra hstay
    exact hgone ((h.2 a.node).mpr ⟨hamem, hstay, by rw [hload]; decide⟩)
  rcases h.link hm ha with ⟨b, hb, hroot⟩
  rcases root_stays hg hmem hain hroot hchain with ⟨hbmem, hbstays, hbtype, _⟩
  refine ⟨b, hb, (h.2 b.node).mpr ⟨hbmem, hbstays, hbtype⟩, fun j hj => ?_⟩
  rcases hsame m a hmem hstays hnet hain hchain j hj with ⟨b', htrace⟩
  rw [hroot.unique (htrace.root hg hamem), hvalue.traces htrace]

theorem IsResult.preserves (h : IsResult g g') (hsame : g.SameIndex) : Preserves g g' where
  fed _ _ _ hvalue _ _ _ hm ha hload hgone := h.fed hg hsame hvalue hm ha hload hgone
  kept _ hx htype hreader := h.kept hg hx htype hreader
  unchanged _ _ _ hm ha hamem := h.unchanged hm ha hamem

/-- Preserved origins: the index where the value was computed is the index where it is read. -/
theorem Preserves.sameIndex (h : IsResult g g') (hp : Preserves g g') : g.SameIndex := by
  intro m a hm hstays hnet ha hchain j hj
  rcases mem_iff_getElem?.mp ha with ⟨i, hi⟩
  have hm' := (h.2 m).mpr ⟨hm, hstays, hnet⟩
  rcases isSome_iff_exists.mp hchain with ⟨c, hc⟩
  have hload := (hg.isChain (hg.linked m a hm ha) hc).load_type
  have hgone : a.node ∉ g'.ids := fun hmem =>
    ((h.2 a.node).mp hmem).2.1 (.inl ⟨hg.linked m a hm ha, hchain⟩)
  rcases hp.fed _ _ _ (holds_origins g) m i a hm' hi hload hgone with ⟨b, hb, hbmem, hvalue⟩
  have hnone : g.chain b.node = none := by
    rcases (h.2 b.node).mp hbmem with ⟨hbmem, hbstays, _⟩
    cases hc : g.chain b.node with
    | none => rfl
    | some c => exact absurd (.inl ⟨hbmem, by rw [hc]; rfl⟩) hbstays
  have horigin : (b, j) ∈ {p : OutAnchor × List ℕ | g.Traces b j p.1 p.2} := .stays hnone
  have hequal : {p : OutAnchor × List ℕ | g.Traces b j p.1 p.2} = {p | g.Traces a j p.1 p.2} :=
    hvalue j hj
  rw [hequal] at horigin
  exact ⟨b, horigin⟩

end

/-- The rewrite preserves what is read exactly if every index of a removed load leads to itself. -/
theorem removeRedundantLoads_preserves_iff (hg : Unfolded g) :
    (∃ g', removeRedundantLoads g = some g' ∧ Preserves g g') ↔ g.SameIndex := by
  rcases removeRedundantLoads_spec hg with ⟨final, hrun, hresult⟩
  constructor
  · rintro ⟨g', hrun', hp⟩
    rw [hrun, Option.some.injEq] at hrun'
    subst hrun'
    exact hp.sameIndex hg hresult
  · intro hsame
    exact ⟨final, hrun, IsResult.preserves hg hresult hsame⟩

/-! ### One chain

A store of four elements in a row, the output, and a load with a view of its own. -/

def chainGraph (view : View) : Graph where
  ids := [0, 1, 2, 3, 4]
  node id := (([{},
    { type := .store, view := ⟨0, [4], [1]⟩, inputs := [some ⟨0, 0⟩] },
    { type := .output, inputs := [some ⟨1, 0⟩] },
    { type := .load, view := view, inputs := [some ⟨2, 0⟩] },
    { inputs := [some ⟨3, 0⟩] }] : List Node)[id]?).getD {}

theorem chainGraph_links {view : View} (hm : m ∈ (chainGraph view).ids)
    (ha : some a ∈ ((chainGraph view).node m).inputs) : m = a.node + 1 ∧ a.node < 4 := by
  simp only [chainGraph, mem_cons, not_mem_nil, or_false] at hm
  rcases hm with rfl | rfl | rfl | rfl | rfl
  · cases ha
  all_goals
    rw [some.inj (mem_singleton.mp ha)]
    exact ⟨rfl, by decide⟩

theorem unfolded_chainGraph (view : View) : Unfolded (chainGraph view) where
  nodup := by
    show [0, 1, 2, 3, 4].Nodup
    decide
  linked m a hm ha := by
    have hlt := (chainGraph_links hm ha).2
    simp only [chainGraph, mem_cons, not_mem_nil, or_false]
    omega
  acyclic := ⟨id, fun m a hm ha => by
    rw [(chainGraph_links hm ha).1]
    exact Nat.lt_succ_self _⟩
  single m hm htype := by
    simp only [chainGraph, mem_cons, not_mem_nil, or_false] at hm
    rcases hm with rfl | rfl | rfl | rfl | rfl
    · rcases htype with htype | htype | htype <;> cases htype
    all_goals exact ⟨_, rfl⟩
  storeInput m a hm htype ha := by
    simp only [chainGraph, mem_cons, not_mem_nil, or_false] at hm
    rcases hm with rfl | rfl | rfl | rfl | rfl
    · cases ha
    · rw [Option.some.inj (mem_singleton.mp ha)]
      exact .inr rfl
    all_goals cases htype
  netOutput m a hm ha := by
    simp only [chainGraph, mem_cons, not_mem_nil, or_false] at hm
    rcases hm with rfl | rfl | rfl | rfl | rfl
    · cases ha
    all_goals
      rw [Option.some.inj (mem_singleton.mp ha)]
      exact fun h => nomatch h
  controls m hm c hc := by
    simp only [chainGraph, mem_cons, not_mem_nil, or_false] at hm
    rcases hm with rfl | rfl | rfl | rfl | rfl <;> cases hc

theorem chainGraph_chain (view : View) : (chainGraph view).chain 3 = some ⟨2, 1, ⟨0, 0⟩⟩ := rfl

theorem chainGraph_chain_zero (view : View) : (chainGraph view).chain 0 = none := rfl

/-- The load has the view of the store. -/
theorem removeRedundantLoads_preserves_iff_whole :
    ∃ g', removeRedundantLoads (chainGraph ⟨0, [4], [1]⟩) = some g' ∧
      Preserves (chainGraph ⟨0, [4], [1]⟩) g' := by
  refine (removeRedundantLoads_preserves_iff (unfolded_chainGraph _)).mpr ?_
  intro m a hm _ _ ha hchain j hj
  have hlt := (chainGraph_links hm ha).2
  have hnode : a.node = 3 := by
    by_contra hne
    have hcases : a.node = 0 ∨ a.node = 1 ∨ a.node = 2 := by omega
    rcases hcases with h | h | h <;> rw [h] at hchain <;> cases hchain
  refine ⟨⟨0, 0⟩, .through (by rw [hnode]; exact chainGraph_chain _) ?_ (.stays (chainGraph_chain_zero _))⟩
  rw [hnode] at hj ⊢
  have hspace : j = [0] ∨ j = [1] ∨ j = [2] ∨ j = [3] := by
    have hmem : j ∈ [[0], [1], [2], [3]] := hj
    simpa using hmem
  rcases hspace with rfl | rfl | rfl | rfl <;> rfl

/-- The load reads the last two of the four elements, its reader gets the first two. -/
theorem not_removeRedundantLoads_preserves_slice :
    ¬ ∃ g', removeRedundantLoads (chainGraph ⟨2, [2], [1]⟩) = some g' ∧
      Preserves (chainGraph ⟨2, [2], [1]⟩) g' := by
  have hg := unfolded_chainGraph ⟨2, [2], [1]⟩
  rintro ⟨g', hrun, hp⟩
  rcases removeRedundantLoads_spec hg with ⟨final, hrun', hresult⟩
  rw [hrun, Option.some.injEq] at hrun'
  subst hrun'
  have hstays : ¬ Gone (chainGraph ⟨2, [2], [1]⟩) (chainGraph ⟨2, [2], [1]⟩).ids 4 := by
    intro hgone
    rcases hgone.type hg (fun _ hl => hl) with ⟨htype, _⟩ | ⟨htype, _⟩ | ⟨htype, _⟩ <;> cases htype
  have hsame := hp.sameIndex hg hresult
  rcases hsame 4 ⟨3, 0⟩ (by decide) hstays (by decide) (mem_singleton_self _) rfl [0] (by decide)
    with ⟨b, htrace⟩
  rcases (Graph.Traces.through_iff (chainGraph_chain _)).mp htrace with ⟨i, hi, hrest⟩
  rw [((Graph.Traces.stays_iff (chainGraph_chain_zero _)).mp hrest).2.symm] at hi
  exact absurd hi (by decide)

end Rewrite

end GraphAutofusion.Autofuse.RedundantLoads
