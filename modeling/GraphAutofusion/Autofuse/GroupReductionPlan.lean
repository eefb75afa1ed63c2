import GraphAutofusion.Autofuse.GroupReductionClasses

/-!
# Autofuse.GroupReductionPlan — the loop that merges the cheapest pair

Each entry of a heap stands for a block of groups: the groups below its root, with the sum of their
node counts as cost. The blocks of a heap are its class, and the global set has the cheapest merge of
every heap with two entries. A round joins two blocks of one class.
-/

namespace GraphAutofusion.Autofuse.GroupReduction

open Lib Symbolizer Function List

/-! ## Heaps -/

section Heaps

variable {heap : MinHeap} {a b e : Element} {c : ℕ}

theorem Element.le_trans {a b c : Element} (hab : a.le b) (hbc : b.le c) : a.le c := by
  rcases hab with hab | ⟨hab, hab'⟩ <;> rcases hbc with hbc | ⟨hbc, hbc'⟩
  · exact .inl (hab.trans hbc)
  · exact .inl (hbc ▸ hab)
  · exact .inl (hab ▸ hbc)
  · exact .inr ⟨hab.trans hbc, hab'.trans hbc'⟩

theorem Element.le_total (a b : Element) : a.le b ∨ b.le a := by
  rcases Nat.lt_trichotomy a.1 b.1 with h | h | h
  · exact .inl (.inl h)
  · rcases Nat.le_total a.2 b.2 with h' | h'
    · exact .inl (.inr ⟨h, h'⟩)
    · exact .inr (.inr ⟨h.symm, h'⟩)
  · exact .inr (.inl h)

theorem Element.le_fst (h : a.le b) : a.1 ≤ b.1 := by
  rcases h with h | ⟨h, _⟩
  · exact le_of_lt h
  · exact le_of_eq h

instance : IsTrans Element Element.le := ⟨fun _ _ _ => Element.le_trans⟩

instance : Std.Total Element.le := ⟨Element.le_total⟩

theorem emplace_perm (heap : MinHeap) (e : Element) : (heap.emplace e).Perm (e :: heap) :=
  perm_orderedInsert Element.le e heap

theorem mem_setInsert {α : Type} [DecidableEq α] {le : α → α → Prop} [DecidableRel le] {s : List α}
    {a e : α} : a ∈ setInsert le s e ↔ a = e ∨ a ∈ s := by
  rw [setInsert]
  split
  case isTrue h =>
    constructor
    · exact .inr
    · rintro (rfl | ha)
      · exact contains_iff_mem.mp h
      · exact ha
  case isFalse => exact mem_orderedInsert le

theorem pairwise_setInsert {α : Type} [DecidableEq α] {le : α → α → Prop} [DecidableRel le]
    [Std.Total le] [IsTrans α le] {s : List α} (h : s.Pairwise le) (e : α) :
    (setInsert le s e).Pairwise le := by
  rw [setInsert]
  split
  · exact h
  · exact h.orderedInsert e s

theorem getMinMergeCost_eq_some :
    getMinMergeCost heap = some c ↔ ∃ e1 e2 rest, heap = e1 :: e2 :: rest ∧ c = e1.1 + e2.1 := by
  constructor
  · intro h
    match heap with
    | [] => cases h
    | [_] => cases h
    | e1 :: e2 :: rest => exact ⟨e1, e2, rest, rfl, (Option.some.inj h).symm⟩
  · rintro ⟨e1, e2, rest, rfl, rfl⟩
    rfl

theorem getMinMergeCost_of_length (h : 1 < heap.length) : ∃ c, getMinMergeCost heap = some c := by
  match heap with
  | [] => cases h
  | [_] => exact absurd h (lt_irrefl 1)
  | e1 :: e2 :: _ => exact ⟨_, rfl⟩

/-- The two top entries are the cheapest pair. -/
theorem cost_le_of_pairwise (hsorted : heap.Pairwise Element.le) (hcost : getMinMergeCost heap = some c)
    {i j : ℕ} (hij : i < j) (hi : heap[i]? = some a) (hj : heap[j]? = some b) : c ≤ a.1 + b.1 := by
  rcases getMinMergeCost_eq_some.mp hcost with ⟨e1, e2, rest, rfl, rfl⟩
  rw [pairwise_cons] at hsorted
  have hfirst : e1.1 ≤ a.1 := by
    cases i with
    | zero => rw [Option.some.inj hi]
    | succ i => exact Element.le_fst (hsorted.1 a (mem_of_getElem? hi))
  have hsecond : e2.1 ≤ b.1 := by
    match j, hij, hj with
    | 1, _, hj => rw [Option.some.inj hj]
    | j + 2, _, hj =>
      exact Element.le_fst ((pairwise_cons.mp hsorted.2).1 b (mem_of_getElem? hj))
  exact Nat.add_le_add hfirst hsecond

end Heaps

/-! ## Blocks -/

/-- A heap whose entries stand for blocks that together are `keys`. -/
structure HeapOk (count : ℕ → ℕ) (parent : ℕ → ℕ) (block : ℕ → List ℕ) (keys : List ℕ)
    (heap : MinHeap) : Prop where
  sorted : heap.Pairwise Element.le
  cost : ∀ e ∈ heap, e.1 = ((block e.2).map count).sum
  self : ∀ e ∈ heap, e.2 ∈ block e.2
  within : ∀ e ∈ heap, ∀ m ∈ block e.2, Within parent ((block e.2).length - 1) m e.2
  perm : (heap.flatMap fun e => block e.2).Perm keys

section Blocks

variable {count parent : ℕ → ℕ} {block : ℕ → List ℕ} {keys : List ℕ} {heap : MinHeap} {e e1 e2 : Element}
  {fuel : ℕ}

section

variable (h : HeapOk count parent block keys heap)
include h

theorem HeapOk.root (he : e ∈ heap) : parent e.2 = e.2 :=
  (h.within e he e.2 (h.self e he)).1

theorem HeapOk.block_subset (he : e ∈ heap) {m : ℕ} (hm : m ∈ block e.2) : m ∈ keys :=
  h.perm.mem_iff.mp (mem_flatMap.mpr ⟨e, he, hm⟩)

theorem HeapOk.index_mem (he : e ∈ heap) : e.2 ∈ keys :=
  h.block_subset he (h.self e he)

theorem HeapOk.nodup_indices (hkeys : keys.Nodup) : (heap.map Prod.snd).Nodup := by
  have hflat := h.perm.nodup_iff.mpr hkeys
  rw [nodup_flatMap] at hflat
  rw [Nodup, pairwise_map]
  refine hflat.2.imp_of_mem fun {a b} ha hb hdisjoint heq => ?_
  have hb' := h.self b hb
  rw [← heq] at hb'
  have hdisjoint' : List.Disjoint (block a.2) (block b.2) := hdisjoint
  exact hdisjoint' (h.self a ha) (heq ▸ hb')

theorem HeapOk.nonempty (hkeys : keys ≠ []) : heap ≠ [] := by
  rintro rfl
  exact hkeys (Perm.nil_eq h.perm).symm

/-- Joining two roots outside of a heap leaves the heap as it is. -/
theorem HeapOk.frame {x y : ℕ} {joined : List ℕ}
    (hx : parent x = x) (hout : ∀ e ∈ heap, e.2 ≠ x ∧ e.2 ≠ y) :
    HeapOk count (update parent x y) (update block y joined) keys heap := by
  have hblock : ∀ e ∈ heap, update block y joined e.2 = block e.2 := fun e he =>
    update_of_ne (hout e he).2 _ _
  constructor
  · exact h.sorted
  · intro e he
    rw [hblock e he]
    exact h.cost e he
  · intro e he
    rw [hblock e he]
    exact h.self e he
  · intro e he m hm
    rw [hblock e he] at hm ⊢
    have hroot : Within (update parent x y) 0 e.2 e.2 := by
      apply Within.self
      rw [update_of_ne (hout e he).1]
      exact h.root he
    have hagree : ∀ z, parent z ≠ z → update parent x y z = parent z := by
      intro z hz
      refine update_of_ne (fun heq => hz ?_) _ _
      rw [heq, hx]
    exact (h.within e he m hm).extend hagree hroot
  · have hflat : (heap.flatMap fun e => update block y joined e.2) =
        heap.flatMap fun e => block e.2 := by
      rw [flatMap_def, flatMap_def, map_congr_left hblock]
    rw [hflat]
    exact h.perm

end

/-- The two top entries become one. -/
theorem HeapOk.merge (h : HeapOk count parent block keys (e1 :: e2 :: heap)) (hkeys : keys.Nodup) :
    HeapOk count (update parent e1.2 e2.2)
      (update block e2.2 (block e1.2 ++ block e2.2)) keys
      (MinHeap.emplace heap (e1.1 + e2.1, e2.2)) := by
  have hmem1 : e1 ∈ e1 :: e2 :: heap := mem_cons_self
  have hmem2 : e2 ∈ e1 :: e2 :: heap := mem_cons_of_mem e1 mem_cons_self
  have hindices := h.nodup_indices hkeys
  simp only [map_cons, nodup_cons, mem_cons, not_or] at hindices
  rcases hindices with ⟨⟨hne, hout1⟩, hout2, _⟩
  have hsub : ∀ e ∈ heap, e ∈ e1 :: e2 :: heap := fun e he =>
    mem_cons_of_mem e1 (mem_cons_of_mem e2 he)
  -- the entries below the two
  have hrest : HeapOk count parent block (heap.flatMap fun e => block e.2) heap := by
    refine ⟨(pairwise_cons.mp (pairwise_cons.mp h.sorted).2).2, ?_, ?_, ?_, Perm.refl _⟩
    · exact fun e he => h.cost e (hsub e he)
    · exact fun e he => h.self e (hsub e he)
    · exact fun e he => h.within e (hsub e he)
  have hframe : HeapOk count (update parent e1.2 e2.2)
      (update block e2.2 (block e1.2 ++ block e2.2)) (heap.flatMap fun e => block e.2) heap :=
    hrest.frame (h.root hmem1) fun e he => ⟨fun heq => hout1 (heq ▸ mem_map_of_mem he),
      fun heq => hout2 (heq ▸ mem_map_of_mem he)⟩
  have hself : update block e2.2 (block e1.2 ++ block e2.2) e2.2 = block e1.2 ++ block e2.2 :=
    update_self _ _ _
  have hagree : ∀ z, parent z ≠ z → update parent e1.2 e2.2 z = parent z := by
    intro z hz
    refine update_of_ne (fun heq => hz ?_) _ _
    rw [heq, h.root hmem1]
  have hroot : update parent e1.2 e2.2 e2.2 = e2.2 := by
    rw [update_of_ne (Ne.symm hne)]
    exact h.root hmem2
  have hlength1 := length_pos_of_mem (h.self e1 hmem1)
  have hlength2 := length_pos_of_mem (h.self e2 hmem2)
  have hmem : ∀ e, e ∈ MinHeap.emplace heap (e1.1 + e2.1, e2.2) ↔ e = (e1.1 + e2.1, e2.2) ∨ e ∈ heap :=
    fun e => mem_orderedInsert Element.le
  constructor
  · exact hrest.sorted.orderedInsert _ _
  · intro e he
    rcases (hmem e).mp he with rfl | he
    · rw [hself, map_append, sum_append, ← h.cost e1 hmem1, ← h.cost e2 hmem2]
    · exact hframe.cost e he
  · intro e he
    rcases (hmem e).mp he with rfl | he
    · rw [hself]
      exact mem_append_right _ (h.self e2 hmem2)
    · exact hframe.self e he
  · intro e he m hm
    rcases (hmem e).mp he with rfl | he
    · rw [hself] at hm ⊢
      rw [length_append]
      rcases mem_append.mp hm with hm | hm
      · -- one step more than before
        have hstep : Within (update parent e1.2 e2.2) 1 e1.2 e2.2 := by
          refine ⟨hroot, ?_⟩
          rw [iterate_one, update_self]
        exact ((h.within e1 hmem1 m hm).extend hagree hstep).mono (by omega)
      · exact ((h.within e2 hmem2 m hm).extend hagree (.self hroot (k := 0))).mono (by omega)
    · exact hframe.within e he m hm
  · have hflat := (emplace_perm heap (e1.1 + e2.1, e2.2)).flatMap_right
      fun e => update block e2.2 (block e1.2 ++ block e2.2) e.2
    refine hflat.trans ?_
    rw [flatMap_cons, hself]
    refine (hframe.perm.append_left _).trans ?_
    have hperm := h.perm
    rw [flatMap_cons, flatMap_cons, ← append_assoc] at hperm
    exact hperm

/-- The union of two roots takes no search. -/
theorem mergeTop_eq (h : HeapOk count parent block keys (e1 :: e2 :: heap)) (hkeys : keys.Nodup) :
    mergeTop (fuel + 1) parent (e1 :: e2 :: heap) =
      some (update parent e1.2 e2.2, MinHeap.emplace heap (e1.1 + e2.1, e2.2)) := by
  have hindices := h.nodup_indices hkeys
  simp only [map_cons, nodup_cons, mem_cons, not_or] at hindices
  have hroot1 := h.root mem_cons_self
  have hroot2 := h.root (mem_cons_of_mem e1 mem_cons_self)
  have hfind : ∀ (p : ℕ → ℕ) (x : ℕ), p x = x → findRoot (fuel + 1) p x = some (x, p) :=
    fun p x hx => if_pos hx
  have hroot : update parent e1.2 e2.2 e2.2 = e2.2 := by
    rw [update_of_ne (Ne.symm hindices.1.1)]
    exact hroot2
  simp only [mergeTop, hfind parent e2.2 hroot2, hfind parent e1.2 hroot1, hfind _ e2.2 hroot,
    Option.bind_some, Option.map_some]

end Blocks

/-! ## Rounds -/

/-- The state between two rounds. -/
structure PlanOk (count : ℕ → ℕ) (classes : List (List ℕ)) (block : ℕ → List ℕ) (s : PlanState) :
    Prop where
  length : s.heaps.length = classes.length
  heaps : ∀ (g : ℕ) (keys : List ℕ) (heap : MinHeap), classes[g]? = some keys →
    s.heaps[g]? = some heap → HeapOk count s.idxToParent block keys heap
  nodup : s.globalHeap.Nodup
  sorted : s.globalHeap.Pairwise Element.le
  global : ∀ e : Element, e ∈ s.globalHeap ↔
    ∃ heap, s.heaps[e.2]? = some heap ∧ getMinMergeCost heap = some e.1

/-- The number of blocks. -/
def PlanState.entries (s : PlanState) : ℕ := (s.heaps.map List.length).sum

section Rounds

variable {count : ℕ → ℕ} {classes : List (List ℕ)} {block : ℕ → List ℕ} {s : PlanState}
  {c g : ℕ} {rest : List Element} {heap heap' : MinHeap}

theorem sum_length_set {α : Type} {l : List (List α)} {a b : List α} (h : l[g]? = some a) :
    ((l.set g b).map List.length).sum + a.length = (l.map List.length).sum + b.length := by
  induction l generalizing g with
  | nil => cases h
  | cons x l ih =>
    cases g with
    | zero =>
      rw [getElem?_cons_zero, Option.some.injEq] at h
      subst h
      simp only [set_cons_zero, map_cons, sum_cons]
      omega
    | succ g =>
      rw [getElem?_cons_succ] at h
      have := ih h
      simp only [set_cons_succ, map_cons, sum_cons]
      omega

theorem nodup_setInsert {α : Type} [DecidableEq α] {le : α → α → Prop} [DecidableRel le] {l : List α}
    (h : l.Nodup) (e : α) : (setInsert le l e).Nodup := by
  rw [setInsert]
  split
  case isTrue => exact h
  case isFalse hnot =>
    rw [(perm_orderedInsert le e l).nodup_iff, nodup_cons]
    exact ⟨fun hmem => hnot (contains_iff_mem.mpr hmem), h⟩

/-- Two classes have no group in common. -/
theorem class_unique (hnodup : classes.flatten.Nodup) {g g' x : ℕ} {keys keys' : List ℕ}
    (hk : classes[g]? = some keys) (hk' : classes[g']? = some keys') (hx : x ∈ keys) (hx' : x ∈ keys') :
    g = g' := by
  rcases List.getElem?_eq_some_iff.mp hk with ⟨hlt, rfl⟩
  rcases List.getElem?_eq_some_iff.mp hk' with ⟨hlt', rfl⟩
  have hdisjoint := pairwise_iff_getElem.mp (nodup_flatten.mp hnodup).2
  rcases Nat.lt_trichotomy g g' with h | h | h
  · exact absurd hx' (hdisjoint g g' hlt hlt' h hx)
  · exact h
  · exact absurd hx (hdisjoint g' g hlt' hlt h hx')

section

variable (h : PlanOk count classes block s)
include h

theorem PlanOk.class_of_heap (hheap : s.heaps[g]? = some heap) :
    ∃ keys, classes[g]? = some keys ∧ keys ∈ classes := by
  rcases List.getElem?_eq_some_iff.mp hheap with ⟨hlt, _⟩
  rw [h.length] at hlt
  exact ⟨classes[g], getElem?_eq_getElem hlt, getElem_mem hlt⟩

/-- The class that comes first has the cheapest pair of all classes. -/
theorem PlanOk.cheapest (hglobal : s.globalHeap = (c, g) :: rest)
    {g' i j : ℕ} {a b : Element} (hheap : s.heaps[g']? = some heap')
    (hij : i < j) (ha : heap'[i]? = some a) (hb : heap'[j]? = some b) : c ≤ a.1 + b.1 := by
  have hlength : 1 < heap'.length := by
    have hj := (List.getElem?_eq_some_iff.mp hb).1
    omega
  rcases getMinMergeCost_of_length hlength with ⟨c', hc'⟩
  have hmem : (c', g') ∈ s.globalHeap := (h.global (c', g')).mpr ⟨heap', hheap, hc'⟩
  rcases h.class_of_heap hheap with ⟨keys, hkeys, _⟩
  have hok := h.heaps g' keys heap' hkeys hheap
  have hle : c ≤ c' := by
    have hsorted := h.sorted
    rw [hglobal] at hmem hsorted
    rcases mem_cons.mp hmem with heq | hmem
    · exact le_of_eq (Prod.mk.inj heq).1.symm
    · exact Element.le_fst ((pairwise_cons.mp hsorted).1 _ hmem)
  exact le_trans hle (cost_le_of_pairwise hok.sorted hc' hij ha hb)

/-- The state after the round of a class. -/
theorem PlanOk.afterRound (hclasses : classes.flatten.Nodup)
    {e1 e2 : Element} (hheap : s.heaps[g]? = some (e1 :: e2 :: heap)) {global : List Element}
    (hnodup : global.Nodup) (hsorted : global.Pairwise Element.le)
    (hglobal : ∀ e : Element, e ∈ global ↔ (e.2 ≠ g ∧ e ∈ s.globalHeap) ∨
      (e.2 = g ∧ getMinMergeCost (MinHeap.emplace heap (e1.1 + e2.1, e2.2)) = some e.1)) :
    PlanOk count classes (update block e2.2 (block e1.2 ++ block e2.2))
      { idxToParent := update s.idxToParent e1.2 e2.2
        heaps := s.heaps.set g (MinHeap.emplace heap (e1.1 + e2.1, e2.2))
        globalHeap := global } := by
  rcases h.class_of_heap hheap with ⟨keys, hkeys, hmem⟩
  have hok := h.heaps g keys _ hkeys hheap
  have hlt := (List.getElem?_eq_some_iff.mp hheap).1
  constructor
  · exact (length_set ..).trans h.length
  · intro g' keys' heap' hkeys' hheap'
    by_cases hg : g = g'
    · subst hg
      rw [getElem?_set_self hlt, Option.some.injEq] at hheap'
      rw [hkeys, Option.some.injEq] at hkeys'
      subst hheap' hkeys'
      exact hok.merge ((nodup_flatten.mp hclasses).1 keys hmem)
    · -- the heaps of the other classes have none of the two roots
      have hheap' : s.heaps[g']? = some heap' := by rwa [getElem?_set_ne hg] at hheap'
      have hok' := h.heaps g' keys' heap' hkeys' hheap'
      refine hok'.frame (hok.root mem_cons_self) fun e he => ⟨fun heq => ?_, fun heq => ?_⟩
      · refine hg (class_unique hclasses hkeys hkeys' (hok.index_mem mem_cons_self) ?_)
        rw [← heq]
        exact hok'.index_mem he
      · refine hg (class_unique hclasses hkeys hkeys'
          (hok.index_mem (mem_cons_of_mem e1 mem_cons_self)) ?_)
        rw [← heq]
        exact hok'.index_mem he
  · exact hnodup
  · exact hsorted
  · intro e
    rw [hglobal]
    by_cases he : e.2 = g
    · rw [he]
      dsimp only
      rw [getElem?_set_self hlt]
      simp
    · dsimp only
      rw [getElem?_set_ne (Ne.symm he), h.global]
      simp [he]

/-- A round succeeds, joins the two top blocks of its class and keeps the state in order. -/
theorem PlanOk.round (hclasses : classes.flatten.Nodup)
    (hglobal : s.globalHeap = (c, g) :: rest) (fuel : ℕ) :
    ∃ s' block', mergeRound (fuel + 1) s g rest = some s' ∧ PlanOk count classes block' s' ∧
      s'.entries + 1 = s.entries ∧ ∃ (e1 e2 : Element) (heap : MinHeap),
        s.heaps[g]? = some (e1 :: e2 :: heap) ∧ c = e1.1 + e2.1 ∧
          s'.idxToParent = update s.idxToParent e1.2 e2.2 := by
  have hmem : (c, g) ∈ s.globalHeap := by
    rw [hglobal]
    exact mem_cons_self
  rcases (h.global (c, g)).mp hmem with ⟨top, hheap, hcost⟩
  rcases getMinMergeCost_eq_some.mp hcost with ⟨e1, e2, heap, rfl, hc⟩
  rcases h.class_of_heap hheap with ⟨keys, hkeys, hkmem⟩
  have hok := h.heaps g keys _ hkeys hheap
  have hnodup := h.nodup
  have hsorted := h.sorted
  rw [hglobal, nodup_cons] at hnodup
  rw [hglobal, pairwise_cons] at hsorted
  -- no other entry of the set is about this class
  have hrest : ∀ e : Element, e ∈ rest ↔ e.2 ≠ g ∧ e ∈ s.globalHeap := by
    intro e
    rw [hglobal, mem_cons]
    constructor
    · intro he
      refine ⟨fun heq => ?_, .inr he⟩
      have he' : e ∈ s.globalHeap := by
        rw [hglobal]
        exact mem_cons_of_mem _ he
      rcases (h.global e).mp he' with ⟨heap', hheap', hcost'⟩
      rw [heq, hheap, Option.some.injEq] at hheap'
      rw [← hheap', hcost, Option.some.injEq] at hcost'
      have hsame : e = (c, g) := Prod.ext hcost'.symm heq
      exact hnodup.1 (hsame ▸ he)
    · rintro ⟨hne, rfl | he⟩
      · exact absurd rfl hne
      · exact he
  have hentries : ∀ s' : PlanState,
      s'.heaps = s.heaps.set g (MinHeap.emplace heap (e1.1 + e2.1, e2.2)) →
        s'.entries + 1 = s.entries := by
    intro s' hs'
    have hsum := sum_length_set (b := MinHeap.emplace heap (e1.1 + e2.1, e2.2)) hheap
    rw [(emplace_perm _ _).length_eq] at hsum
    simp only [length_cons] at hsum
    rw [PlanState.entries, PlanState.entries, hs']
    omega
  have hrun : mergeRound (fuel + 1) s g rest =
      if 1 < (MinHeap.emplace heap (e1.1 + e2.1, e2.2)).length then
        (getMinMergeCost (MinHeap.emplace heap (e1.1 + e2.1, e2.2))).map fun cost =>
          { idxToParent := update s.idxToParent e1.2 e2.2
            heaps := s.heaps.set g (MinHeap.emplace heap (e1.1 + e2.1, e2.2))
            globalHeap := setInsert Element.le rest (cost, g) }
      else some {
        idxToParent := update s.idxToParent e1.2 e2.2
        heaps := s.heaps.set g (MinHeap.emplace heap (e1.1 + e2.1, e2.2))
        globalHeap := rest } := by
    rw [mergeRound, hheap, Option.bind_some,
      mergeTop_eq hok ((nodup_flatten.mp hclasses).1 keys hkmem), Option.bind_some]
  rw [hrun]
  split
  case isTrue hlength =>
    rcases getMinMergeCost_of_length hlength with ⟨cost, hcost'⟩
    rw [hcost']
    refine ⟨_, _, rfl, h.afterRound hclasses hheap (nodup_setInsert hnodup.2 _)
      (pairwise_setInsert hsorted.2 _) fun e => ?_, hentries _ rfl, e1, e2, heap, hheap, hc, rfl⟩
    rw [mem_setInsert, hrest, hcost']
    constructor
    · rintro (rfl | hold)
      · exact .inr ⟨rfl, rfl⟩
      · exact .inl hold
    · rintro (hold | ⟨he, hsome⟩)
      · exact .inr hold
      · exact .inl (Prod.ext (Option.some.inj hsome).symm he)
  case isFalse hlength =>
    refine ⟨_, _, rfl, h.afterRound hclasses hheap hnodup.2 hsorted.2 fun e => ?_, hentries _ rfl,
      e1, e2, heap, hheap, hc, rfl⟩
    rw [hrest]
    constructor
    · exact .inl
    · rintro (hold | ⟨_, hsome⟩)
      · exact hold
      · rcases getMinMergeCost_eq_some.mp hsome with ⟨_, _, _, heq, _⟩
        rw [heq] at hlength
        exact absurd (Nat.succ_lt_succ (Nat.succ_pos _)) hlength

end

/-! ## The loop -/

section

variable (h : PlanOk count classes block s)
include h

theorem PlanOk.length_pos (hne : ∀ keys ∈ classes, keys ≠ [])
    (hheap : heap ∈ s.heaps) : 1 ≤ heap.length := by
  rcases mem_iff_getElem?.mp hheap with ⟨g, hg⟩
  rcases h.class_of_heap hg with ⟨keys, hkeys, hmem⟩
  exact length_pos_iff.mpr ((h.heaps g keys heap hkeys hg).nonempty (hne keys hmem))

theorem PlanOk.le_entries (hne : ∀ keys ∈ classes, keys ≠ []) : classes.length ≤ s.entries := by
  rw [← h.length, ← length_map (f := List.length)]
  refine length_le_sum_of_one_le _ fun n hn => ?_
  rcases mem_map.mp hn with ⟨heap, hheap, rfl⟩
  exact h.length_pos hne hheap

/-- When the set is empty every class is one block. -/
theorem PlanOk.entries_of_empty (hne : ∀ keys ∈ classes, keys ≠ [])
    (hglobal : s.globalHeap = []) : s.entries = classes.length := by
  have hall : s.heaps.map List.length = replicate s.heaps.length 1 := by
    refine eq_replicate_iff.mpr ⟨length_map _, fun n hn => ?_⟩
    rcases mem_map.mp hn with ⟨heap, hheap, rfl⟩
    have hpos := h.length_pos hne hheap
    rcases mem_iff_getElem?.mp hheap with ⟨g, hg⟩
    have hle : ¬ 1 < heap.length := by
      intro hlt
      rcases getMinMergeCost_of_length hlt with ⟨c, hc⟩
      have hmem := (h.global (c, g)).mpr ⟨heap, hg, hc⟩
      rw [hglobal] at hmem
      cases hmem
    omega
  rw [PlanState.entries, hall, sum_replicate_nat, mul_one, h.length]

/-- The loop joins as many blocks as asked for, or until every class is one block. -/
theorem PlanOk.run (hclasses : classes.flatten.Nodup)
    (hne : ∀ keys ∈ classes, keys ≠ []) (fuel reductions : ℕ) :
    ∃ s' block', mergeLoop (fuel + 1) reductions s = some s' ∧ PlanOk count classes block' s' ∧
      s'.entries = max (s.entries - reductions) classes.length := by
  induction reductions generalizing s block with
  | zero =>
    refine ⟨s, block, rfl, h, ?_⟩
    rw [Nat.sub_zero, Nat.max_eq_left (h.le_entries hne)]
  | succ reductions ih =>
    cases hglobal : s.globalHeap with
    | nil =>
      refine ⟨s, block, by rw [mergeLoop, hglobal], h, ?_⟩
      rw [h.entries_of_empty hne hglobal]
      exact (Nat.max_eq_right (Nat.sub_le _ _)).symm
    | cons e rest =>
      rcases e with ⟨c, g⟩
      rcases h.round hclasses hglobal fuel with ⟨s₁, block₁, hround, hok, hentries, _⟩
      rcases ih hok with ⟨s', block', hrun, hok', hcount⟩
      refine ⟨s', block', ?_, hok', ?_⟩
      · rw [mergeLoop, hglobal]
        show (mergeRound (fuel + 1) s g rest).bind _ = _
        rw [hround]
        exact hrun
      · rw [hcount]
        congr 1
        omega

end

end Rounds

/-! ## The start -/

section Start

variable {E : Type} {staticCheckEq : E → E → TriBool} {groups : List (Group E)}
  {mergeable : List MergeableGraphs}

theorem foldl_emplace (l : List Element) (heap : MinHeap) (h : heap.Pairwise Element.le) :
    (l.foldl MinHeap.emplace heap).Pairwise Element.le ∧
      (l.foldl MinHeap.emplace heap).Perm (l ++ heap) := by
  induction l generalizing heap with
  | nil => exact ⟨h, Perm.refl _⟩
  | cons e l ih =>
    rcases ih (heap.emplace e) (h.orderedInsert e heap) with ⟨hsorted, hperm⟩
    refine ⟨hsorted, hperm.trans ?_⟩
    exact ((emplace_perm heap e).append_left l).trans perm_middle

/-- At first every group is a block. -/
theorem heapOk_start {count parent : ℕ → ℕ} {c : MergeableGraphs}
    (hcounts : c.nodeCounts = c.graphIndices.map count)
    (hparent : ∀ i ∈ c.graphIndices, parent i = i) :
    HeapOk count parent (fun i => [i]) c.graphIndices c.heap ∧ c.heap.length = c.graphIndices.length := by
  have hzip : c.nodeCounts.zip c.graphIndices = c.graphIndices.map fun i => (count i, i) := by
    have h : (c.graphIndices.map count).zip (c.graphIndices.map id) =
        c.graphIndices.map fun i => (count i, id i) := zip_map'
    rw [map_id] at h
    rw [hcounts, h]
    rfl
  have hfold := foldl_emplace (c.nodeCounts.zip c.graphIndices) [] List.Pairwise.nil
  rw [append_nil, hzip] at hfold
  have hheap : c.heap = (c.graphIndices.map fun i => (count i, i)).foldl MinHeap.emplace [] := by
    rw [MergeableGraphs.heap, hzip]
  have hmem : ∀ e : Element, e ∈ c.heap → ∃ i ∈ c.graphIndices, e = (count i, i) := by
    intro e he
    rw [hheap] at he
    rcases mem_map.mp (hfold.2.mem_iff.mp he) with ⟨i, hi, heq⟩
    exact ⟨i, hi, heq.symm⟩
  refine ⟨⟨hheap ▸ hfold.1, ?_, ?_, ?_, ?_⟩, ?_⟩
  · intro e he
    rcases hmem e he with ⟨i, _, rfl⟩
    rfl
  · intro e _
    exact mem_singleton_self _
  · intro e he m hm
    rcases hmem e he with ⟨i, hi, rfl⟩
    rw [mem_singleton.mp hm]
    exact .self (hparent i hi)
  · rw [hheap, ← map_eq_flatMap]
    have hperm := hfold.2.map Prod.snd
    rw [map_map] at hperm
    have hid : c.graphIndices.map (Prod.snd ∘ fun i => (count i, i)) = c.graphIndices :=
      map_id c.graphIndices
    rwa [hid] at hperm
  · rw [hheap, hfold.2.length_eq, length_map]

theorem foldlM_costs (heaps : List MinHeap) (k : ℕ) (global : List Element)
    (hlength : ∀ heap ∈ heaps, 1 < heap.length) (hnodup : global.Nodup)
    (hsorted : global.Pairwise Element.le) :
    ∃ global', (heaps.zipIdx k).foldlM (fun (globalHeap : List Element) (x : MinHeap × ℕ) =>
        (getMinMergeCost x.1).map fun cost => setInsert Element.le globalHeap (cost, x.2)) global =
          some global' ∧
      global'.Nodup ∧ global'.Pairwise Element.le ∧ ∀ e : Element, e ∈ global' ↔ e ∈ global ∨
        ∃ (i : ℕ) (heap : MinHeap), heaps[i]? = some heap ∧ e.2 = k + i ∧
          getMinMergeCost heap = some e.1 := by
  induction heaps generalizing k global with
  | nil =>
    refine ⟨global, rfl, hnodup, hsorted, fun e => ⟨.inl, ?_⟩⟩
    rintro (he | ⟨i, heap, hheap, _⟩)
    · exact he
    · cases hheap
  | cons heap heaps ih =>
    rcases getMinMergeCost_of_length (hlength heap mem_cons_self) with ⟨cost, hcost⟩
    rcases ih (k + 1) (setInsert Element.le global (cost, k))
      (fun h hh => hlength h (mem_cons_of_mem _ hh)) (nodup_setInsert hnodup _)
      (pairwise_setInsert hsorted _) with ⟨global', hrun, hnodup', hsorted', hmem⟩
    refine ⟨global', ?_, hnodup', hsorted', fun e => ?_⟩
    · rw [zipIdx_cons, foldlM_cons, hcost]
      exact hrun
    · rw [hmem, mem_setInsert]
      constructor
      · rintro ((rfl | he) | ⟨i, h, hget, hk, hc⟩)
        · exact .inr ⟨0, heap, rfl, rfl, hcost⟩
        · exact .inl he
        · exact .inr ⟨i + 1, h, hget, by omega, hc⟩
      · rintro (he | ⟨i, h, hget, hk, hc⟩)
        · exact .inl (.inr he)
        · cases i with
          | zero =>
            rw [getElem?_cons_zero, Option.some.injEq] at hget
            rw [← hget, hcost, Option.some.injEq] at hc
            exact .inl (.inl (Prod.ext hc.symm hk))
          | succ i => exact .inr ⟨i, h, hget, by omega, hc⟩

theorem planStart_ok (hc : Classes staticCheckEq groups mergeable) :
    ∃ s, planStart mergeable = some s ∧
      PlanOk (countAt groups) (mergeable.map MergeableGraphs.graphIndices) (fun i => [i]) s ∧
      s.entries = (mergeable.map fun c => c.graphIndices.length).sum := by
  let parent : ℕ → ℕ := fun idx =>
    if (mergeable.flatMap MergeableGraphs.graphIndices).contains idx then idx else 0
  have hok : ∀ c ∈ mergeable, HeapOk (countAt groups) parent (fun i => [i]) c.graphIndices c.heap ∧
      c.heap.length = c.graphIndices.length := by
    intro c hcmem
    refine heapOk_start (hc.counts c hcmem) fun i hi => ?_
    exact if_pos (contains_iff_mem.mpr (mem_flatMap.mpr ⟨c, hcmem, hi⟩))
  have hlength : ∀ heap ∈ mergeable.map MergeableGraphs.heap, 1 < heap.length := by
    intro heap hheap
    rcases mem_map.mp hheap with ⟨c, hcmem, rfl⟩
    rw [(hok c hcmem).2]
    exact hc.size c hcmem
  rcases foldlM_costs (mergeable.map MergeableGraphs.heap) 0 [] hlength nodup_nil List.Pairwise.nil
    with ⟨global, hrun, hnodup, hsorted, hmem⟩
  refine ⟨⟨parent, mergeable.map MergeableGraphs.heap, global⟩, ?_, ?_, ?_⟩
  · show Option.map _ _ = _
    rw [hrun]
    rfl
  · constructor
    · rw [length_map, length_map]
    · intro g keys heap hkeys hheap
      rw [getElem?_map] at hkeys hheap
      rcases Option.map_eq_some_iff.mp hkeys with ⟨c, hget, rfl⟩
      rw [hget, Option.map_some, Option.some.injEq] at hheap
      rw [← hheap]
      exact (hok c (mem_of_getElem? hget)).1
    · exact hnodup
    · exact hsorted
    · intro e
      rw [hmem]
      constructor
      · rintro (he | ⟨i, heap, hget, hi, hcost⟩)
        · cases he
        · rw [zero_add] at hi
          exact ⟨heap, hi ▸ hget, hcost⟩
      · rintro ⟨heap, hget, hcost⟩
        exact .inr ⟨e.2, heap, hget, (zero_add _).symm, hcost⟩
  · rw [PlanState.entries, map_map]
    congr 1
    exact map_congr_left fun c hcmem => (hok c hcmem).2

end Start

end GraphAutofusion.Autofuse.GroupReduction
