import GraphAutofusion.GraphMetadef.QuickListRing

/-!
# GraphMetadef.QuickListRun — what the calls do to the rings

Every call rewrites the links around one place of one list, so that the other lists keep their rings.
Over a run whose moves are proper the lists hold what plain sequences would hold.
-/

namespace GraphAutofusion.GraphMetadef.QuickListRing

open Lib Function List Option

set_option linter.unusedSectionVars false

variable {α ι : Type} [DecidableEq α] [DecidableEq ι] {heads : ι → α} {s s' : State α ι}
  {seqs : ι → List α} {i j : ι} {x y h a b : α} {l r xs : List α} {mode : ListMode}

/-! ## Changing one list -/

section

variable (hrep : Represents heads s seqs)
include hrep

/-- A call that changes one list and leaves the links of all others. -/
theorem Represents.update
    (hring : Ring s'.next s'.prev (s.lists i).head xs)
    (hlist : s'.lists i = ⟨(s.lists i).head, xs.getLastD (s.lists i).head, xs.length⟩)
    (hother : ∀ j, j ≠ i → s'.lists j = s.lists j)
    (hmem : ∀ x ∈ xs, x ∈ seqs i ∨ Free heads seqs x)
    (hframe : ∀ j, j ≠ i → ∀ y ∈ (s.lists j).head :: seqs j, s'.next y = s.next y ∧ s'.prev y = s.prev y)
    (howner : ∀ x, (∀ k, x ≠ heads k) → (s'.owner x = some i ↔ x ∈ xs))
    (howner' : ∀ j, j ≠ i → ∀ x, (∀ k, x ≠ heads k) → (s'.owner x = some j ↔ s.owner x = some j)) :
    Represents heads s' (Function.update seqs i xs) := by
  -- a member of the changed list is in no other list
  have hapart : ∀ j, j ≠ i → ∀ x ∈ (s.lists i).head :: xs, x ∉ (s.lists j).head :: seqs j := by
    intro j hj x hx
    have hold := hrep.separate i j (Ne.symm hj) x
    rcases mem_cons.mp hx with rfl | hx
    · exact hold mem_cons_self
    · rcases hmem x hx with hx | hfree
      · exact hold (mem_cons_of_mem _ hx)
      · rw [mem_cons, not_or]
        rcases hrep.head_mem j with ⟨k, hk⟩
        exact ⟨hk ▸ (hfree k).1, (hfree j).2⟩
  have hhead : ∀ j, (s'.lists j).head = (s.lists j).head := by
    intro j
    by_cases hj : j = i
    · rw [hj, hlist]
    · rw [hother j hj]
  have hrings : ∀ j, Ring s'.next s'.prev (s'.lists j).head (Function.update seqs i xs j) := by
    intro j
    rw [hhead, update_apply]
    split
    · next hj =>
      rw [hj]
      exact hring
    · next hj =>
      exact (hrep.ring j).congr (fun y hy => (hframe j hj y hy).1) fun y hy => (hframe j hj y hy).2
  refine ⟨hrings, fun j => ?_, fun j => ?_, fun j x hx => ?_, fun j => ?_, fun j x hx => ?_, ?_⟩
  · rw [(hrings j).prev_head]
    by_cases hj : j = i
    · rw [hj, hlist, update_self]
    · rw [update_of_ne hj, hother j hj, hrep.tail j, (hrep.ring j).prev_head]
  · by_cases hj : j = i
    · rw [hj, hlist, update_self]
    · rw [update_of_ne hj, hother j hj]
      exact hrep.totalSize j
  · by_cases hj : j = i
    · rw [hj, update_self]
      exact howner x hx
    · rw [update_of_ne hj, howner' j hj x hx]
      exact hrep.owner j x hx
  · rw [hhead]
    exact hrep.head_mem j
  · rw [update_apply] at hx
    split at hx
    · rcases hmem x hx with hx | hfree
      · exact hrep.item i x hx
      · exact fun k => (hfree k).1
    · exact hrep.item j x hx
  · intro j k hjk x hx
    rw [hhead, update_apply] at hx ⊢
    split at hx
    · next hj =>
      have hk : k ≠ i := fun hk => hjk (hj.trans hk.symm)
      rw [if_neg hk]
      rw [hj] at hx
      exact hapart k hk x hx
    · next hj =>
      split
      · next hk =>
        rw [hk]
        exact fun hmem' => hapart j hj x hmem' hx
      · exact hrep.separate j k hjk x hx

theorem Represents.tail_eq : (s.lists i).tail = (seqs i).getLastD (s.lists i).head := by
  have htail := hrep.tail i
  rw [(hrep.ring i).prev_head] at htail
  exact some.inj htail

theorem Represents.ne_of_other (hj : j ≠ i)
    (hx : x ∈ (s.lists i).head :: seqs i) (hy : y ∈ (s.lists j).head :: seqs j) : y ≠ x := by
  rintro rfl
  exact hrep.separate j i hj y hy hx

end

theorem Free.not_mem (hfree : Free heads seqs x) (hrep : Represents heads s seqs) (i : ι) :
    x ∉ (s.lists i).head :: seqs i := by
  rw [mem_cons, not_or]
  rcases hrep.head_mem i with ⟨k, hk⟩
  exact ⟨hk ▸ (hfree k).1, (hfree i).2⟩

/-- The links after an element was put in between `a` and `b`. -/
structure Linked (s s' : State α ι) (a x b : α) : Prop where
  next : ∀ y, s'.next y = if y = a then some x else if y = x then some b else s.next y
  prev : ∀ y, s'.prev y = if y = b then some x else if y = x then some a else s.prev y

theorem Linked.ring (hlink : Linked s s' (l.getLastD h) x (r.headD h))
    (hring : Ring s.next s.prev h (l ++ r)) (hx : x ∉ h :: (l ++ r)) :
    Ring s'.next s'.prev h (l ++ x :: r) := by
  have hxa : x ≠ l.getLastD h := by
    intro heq
    apply hx
    rw [heq, ← cons_append]
    exact mem_append_left _ (getLastD_mem l h)
  have hxb : x ≠ r.headD h := by
    intro heq
    apply hx
    rw [heq]
    rcases mem_cons.mp (headD_mem r h) with hmem | hmem
    · rw [hmem]
      exact mem_cons_self
    · exact mem_cons_of_mem _ (mem_append_right _ hmem)
  refine hring.insert hx ?_ ?_ ?_ ?_ ?_ ?_
  · rw [hlink.next, if_pos rfl]
  · rw [hlink.next, if_neg hxa, if_pos rfl]
  · intro y hya hyx
    rw [hlink.next, if_neg hya, if_neg hyx]
  · rw [hlink.prev, if_pos rfl]
  · rw [hlink.prev, if_neg hxb, if_pos rfl]
  · intro y hyb hyx
    rw [hlink.prev, if_neg hyb, if_neg hyx]

theorem mem_of_getLastD (hi : seqs i = l ++ r) : l.getLastD h ∈ h :: seqs i := by
  rw [hi, ← cons_append]
  exact mem_append_left _ (getLastD_mem l h)

theorem mem_of_headD (hi : seqs i = l ++ r) : r.headD h ∈ h :: seqs i := by
  rcases mem_cons.mp (headD_mem r h) with hmem | hmem
  · rw [hmem]
    exact mem_cons_self
  · rw [hi]
    exact mem_cons_of_mem _ (mem_append_right _ hmem)

/-- A free element is put in between two neighbours. -/
theorem Represents.link (hrep : Represents heads s seqs) (hfree : Free heads seqs x) (hi : seqs i = l ++ r)
    (hlink : Linked s s' (l.getLastD (s.lists i).head) x (r.headD (s.lists i).head))
    (hlist : s'.lists i = ⟨(s.lists i).head, (l ++ x :: r).getLastD (s.lists i).head,
      (s.lists i).totalSize + 1⟩)
    (hother : ∀ j, j ≠ i → s'.lists j = s.lists j)
    (howner : s'.owner = Function.update s.owner x (some i)) :
    Represents heads s' (Function.update seqs i (l ++ x :: r)) := by
  have hx : x ∉ (s.lists i).head :: (l ++ r) := hi ▸ hfree.not_mem hrep i
  have hring : Ring s.next s.prev (s.lists i).head (l ++ r) := hi ▸ hrep.ring i
  refine hrep.update (hlink.ring hring hx) ?_ hother ?_ ?_ ?_ ?_
  · rw [hlist, hrep.totalSize, hi]
    simp [Nat.add_assoc]
  · intro y hy
    rw [hi]
    rcases mem_append.mp hy with hy | hy
    · exact .inl (mem_append_left _ hy)
    · rcases mem_cons.mp hy with rfl | hy
      · exact .inr hfree
      · exact .inl (mem_append_right _ hy)
  · intro j hj y hy
    have hyx : y ≠ x := fun heq => hfree.not_mem hrep j (heq ▸ hy)
    rw [hlink.next, hlink.prev, if_neg hyx, if_neg hyx,
      if_neg (hrep.ne_of_other hj (mem_of_getLastD hi) hy),
      if_neg (hrep.ne_of_other hj (mem_of_headD hi) hy)]
    exact ⟨rfl, rfl⟩
  · intro y hy
    rw [howner, update_apply]
    split
    · next heq => simp [heq]
    · next hne =>
      rw [hrep.owner i y hy, hi]
      simp [hne]
  · intro j hj y hy
    rw [howner, update_apply]
    split
    · next heq =>
      rw [hrep.owner j y hy, heq]
      exact iff_of_false (fun h => hj (Option.some.inj h).symm) (hfree j).2
    · exact Iff.rfl

/-! ## Adding elements -/

theorem pushBack_eq : s.pushBack i x mode =
    { next := update (update s.next (s.lists i).tail (some x)) x
        (some (s.lists i).head)
      prev := update (update s.prev x (some (s.lists i).tail)) (s.lists i).head (some x)
      owner := update s.owner x (some i)
      mode := update s.mode x mode
      lists := update s.lists i ⟨(s.lists i).head, x, (s.lists i).totalSize + 1⟩ } := by
  simp [State.pushBack]

theorem pushBack_represents (hrep : Represents heads s seqs) (hfree : Free heads seqs x) :
    Represents heads (s.pushBack i x mode) (update seqs i (seqs i ++ [x])) := by
  have hx := hfree.not_mem hrep i
  have hi : seqs i = seqs i ++ [] := (append_nil _).symm
  have hxt : x ≠ (seqs i).getLastD (s.lists i).head := fun heq => hx (heq ▸ getLastD_mem _ _)
  rw [pushBack_eq]
  refine hrep.link hfree hi ⟨fun y => ?_, fun y => ?_⟩ ?_ ?_ rfl
  · dsimp only
    rw [hrep.tail_eq, update_apply, update_apply]
    by_cases hyx : y = x
    · rw [if_pos hyx, if_neg fun heq => hxt (hyx.symm.trans heq), if_pos hyx]
      rfl
    · rw [if_neg hyx, if_neg hyx]
  · dsimp only
    rw [hrep.tail_eq, update_apply, update_apply]
    rfl
  · rw [getLastD_append_cons]
    exact update_self ..
  · exact fun j hj => update_of_ne hj ..

theorem Linked.of_eq (hxa : x ≠ a) (hnext : s'.next = update (update s.next a (some x)) x (some b))
    (hprev : s'.prev = update (update s.prev x (some a)) b (some x)) : Linked s s' a x b where
  next := by
    intro y
    rw [hnext, update_apply, update_apply]
    by_cases hya : y = a
    · rw [if_neg fun hyx => hxa (hyx.symm.trans hya), if_pos hya, if_pos hya]
    · rw [if_neg hya, if_neg hya]
  prev := by
    intro y
    rw [hprev, update_apply, update_apply]

/-- A place in front of the first member has nothing before it. -/
theorem eq_nil_of_headD (hnodup : (h :: (l ++ r)).Nodup) (heq : (l ++ r).headD h = r.headD h) : l = [] := by
  cases l with
  | nil => rfl
  | cons b l =>
    have hmem := headD_mem r h
    rw [← heq] at hmem
    rw [nodup_cons, nodup_append] at hnodup
    exfalso
    rcases mem_cons.mp hmem with hb | hb
    · exact hnodup.1 (hb ▸ mem_append_left _ mem_cons_self)
    · exact hnodup.2.2.2 b mem_cons_self b hb rfl

theorem eq_nil_of_headD_eq (hnodup : (h :: (l ++ r)).Nodup) (heq : r.headD h = h) : r = [] := by
  cases r with
  | nil => rfl
  | cons b r =>
    rw [nodup_cons] at hnodup
    exact absurd (heq ▸ mem_append_right _ mem_cons_self) hnodup.1

section

variable (hrep : Represents heads s seqs)
include hrep

/-- What all cases of `insert` make of the links: the element goes in between the neighbours of the place,
and becomes the tail where nothing follows. -/
theorem insertLinks_spec (hfree : Free heads seqs x)
    (hi : seqs i = l ++ r) (ha : a = r.headD (s.lists i).head) :
    ∃ s₁, s.insertLinks i a x = some s₁ ∧
      Linked s s₁ (l.getLastD (s.lists i).head) x (r.headD (s.lists i).head) ∧
      s₁.lists = update s.lists i ⟨(s.lists i).head,
        (l ++ x :: r).getLastD (s.lists i).head, (s.lists i).totalSize⟩ ∧ s₁.owner = s.owner := by
  have hx := hfree.not_mem hrep i
  have hring : Ring s.next s.prev (s.lists i).head (l ++ r) := hi ▸ hrep.ring i
  have hxl : x ≠ l.getLastD (s.lists i).head := fun heq => hx (heq ▸ mem_of_getLastD hi)
  have htail : (s.lists i).tail = (l ++ r).getLastD (s.lists i).head := hi ▸ hrep.tail_eq
  -- the tail stays where something follows
  have hkeep : r ≠ [] → s.lists = update s.lists i ⟨(s.lists i).head,
      (l ++ x :: r).getLastD (s.lists i).head, (s.lists i).totalSize⟩ := by
    intro hr
    rw [getLastD_insert hr, ← htail]
    exact (update_eq_self i s.lists).symm
  by_cases hfirst : s.next (s.lists i).head = some a
  · have hl : l = [] := by
      rw [hring.next_head, ha] at hfirst
      exact eq_nil_of_headD hring.nodup (some.inj hfirst)
    subst hl
    refine ⟨_, if_pos hfirst, ?_, ?_, ?_⟩
    · subst ha
      split
      · exact .of_eq hxl rfl rfl
      · exact .of_eq hxl rfl rfl
    · split
      · next hempty =>
        -- the list was empty
        have hr : r = [] := (getLastD_eq_iff hring.nodup).mp (htail.symm.trans hempty)
        subst hr
        rfl
      · next hne =>
        refine hkeep fun hr => hne ?_
        rw [htail, hr]
        rfl
    · split <;> rfl
  · by_cases hend : a = (s.lists i).head
    · have hr : r = [] := eq_nil_of_headD_eq hring.nodup (ha.symm.trans hend)
      subst hr
      rw [getLastD_append_nil] at htail
      refine ⟨_, (if_neg hfirst).trans (if_pos hend), .of_eq hxl ?_ ?_, ?_, rfl⟩
      · dsimp only [State.setNext, State.setPrev, State.setTail]
        rw [htail, hring.next_between, update_comm hxl]
      · dsimp only [State.setNext, State.setPrev, State.setTail]
        rw [htail]
        rfl
      · rw [getLastD_append_cons]
        rfl
    · have hr : r ≠ [] := by
        rintro rfl
        exact hend ha
      have hprev := hring.prev_between
      rw [← ha] at hprev
      rw [State.insertLinks, if_neg hfirst, if_neg hend, hprev]
      refine ⟨_, rfl, .of_eq hxl ?_ ?_, hkeep hr, rfl⟩
      · dsimp only [State.setNext, State.setPrev]
        rw [update_comm hxl, ha]
      · dsimp only [State.setNext, State.setPrev]
        rw [ha]

/-- An element is put in front of a position. -/
theorem insert_represents (hfree : Free heads seqs x)
    (hi : seqs i = l ++ r) (ha : a = r.headD (s.lists i).head) :
    ∃ s', s.insert i a x mode = some s' ∧ Represents heads s' (Function.update seqs i (l ++ x :: r)) := by
  rcases insertLinks_spec hrep hfree hi ha with ⟨s₁, hrun, hlink, hlist, howner⟩
  rw [State.insert, hrun]
  refine ⟨_, rfl, hrep.link hfree hi ⟨hlink.next, hlink.prev⟩ ?_ ?_ ?_⟩
  · dsimp only [State.setOwner, State.setMode, State.setTotalSize]
    rw [update_self, hlist, update_self]
  · intro j hj
    dsimp only [State.setOwner, State.setMode, State.setTotalSize]
    rw [update_of_ne hj, hlist, update_of_ne hj]
  · dsimp only [State.setOwner, State.setMode, State.setTotalSize]
    rw [howner]

theorem pushFront_represents (hfree : Free heads seqs x) :
    ∃ s', s.pushFront i x mode = some s' ∧ Represents heads s' (update seqs i (x :: seqs i)) := by
  rw [State.pushFront, (hrep.ring i).next_head]
  exact insert_represents hrep hfree (l := []) rfl rfl

end

/-! ## Erasing -/

/-- The links after an element was taken out from between `a` and `b`. -/
structure Unlinked (s s' : State α ι) (a x b : α) : Prop where
  before : s'.next a = some b
  after : s'.prev b = some a
  next : ∀ y, y ≠ a → y ≠ x → s'.next y = s.next y
  prev : ∀ y, y ≠ b → y ≠ x → s'.prev y = s.prev y

section

variable (hrep : Represents heads s seqs)
include hrep

/-- The neighbours of an element of a list. -/
theorem Represents.prev_of_mem (hi : seqs i = l ++ x :: r) :
    s.prev x = some (l.getLastD (s.lists i).head) := by
  have hring : Ring s.next s.prev (s.lists i).head (l ++ x :: r) := hi ▸ hrep.ring i
  exact hring.prev_between

theorem Represents.next_of_mem (hi : seqs i = l ++ x :: r) :
    s.next x = some (r.headD (s.lists i).head) := by
  have hring : Ring s.next s.prev (s.lists i).head ((l ++ [x]) ++ r) := by
    rw [append_assoc]
    exact hi ▸ hrep.ring i
  have hmid := hring.next_between
  rwa [getLastD_append_cons] at hmid

/-- An element is the tail when nothing follows it. -/
theorem Represents.tail_eq_iff (hi : seqs i = l ++ x :: r) : (s.lists i).tail = x ↔ r = [] := by
  have hnodup : (l ++ x :: r).Nodup := hi ▸ (nodup_cons.mp (hrep.ring i).nodup).2
  rw [hrep.tail_eq, hi, getLastD_append_cons]
  exact getLastD_eq_iff (l := []) (nodup_append.mp hnodup).2.1

/-- An element of a list leaves it. -/
theorem erase_spec (hi : seqs i = l ++ x :: r) :
    ∃ s', s.erase i x = some s' ∧
      Unlinked s s' (l.getLastD (s.lists i).head) x (r.headD (s.lists i).head) ∧
      s'.owner = update s.owner x none ∧
      s'.lists = update s.lists i ⟨(s.lists i).head, (l ++ r).getLastD (s.lists i).head,
        (s.lists i).totalSize - 1⟩ := by
  have hmem : x ∈ seqs i := hi ▸ mem_append_right _ mem_cons_self
  have howner : s.owner x = some i := (hrep.owner i x (hrep.item i x hmem)).mpr hmem
  have hlast := hrep.tail_eq_iff hi
  rw [State.erase, if_pos howner, hrep.prev_of_mem hi]
  dsimp only
  have hstep : (if (s.lists i).tail = x then s.setTail i (l.getLastD (s.lists i).head) else s).next x =
      some (r.headD (s.lists i).head) := by
    split <;> exact hrep.next_of_mem hi
  rw [hstep]
  refine ⟨_, rfl, ⟨?_, ?_, ?_, ?_⟩, ?_, ?_⟩
  · exact update_self ..
  · exact update_self ..
  · intro y hya hyx
    dsimp only [State.setOwner, State.setMode, State.setTotalSize, State.setNext, State.setPrev,
      State.setTail]
    rw [update_of_ne hya, update_of_ne hyx]
    split <;> rfl
  · intro y hyb hyx
    dsimp only [State.setOwner, State.setMode, State.setTotalSize, State.setNext, State.setPrev,
      State.setTail]
    rw [update_of_ne hyb, update_of_ne hyx]
    split <;> rfl
  · dsimp only [State.setOwner, State.setMode, State.setTotalSize, State.setNext, State.setPrev,
      State.setTail]
    split <;> rfl
  · dsimp only [State.setOwner, State.setMode, State.setTotalSize, State.setNext, State.setPrev,
      State.setTail]
    split
    · next heq =>
      dsimp only
      rw [hlast.mp heq, getLastD_append_nil, update_self, update_idem]
    · next hne =>
      have hr : r ≠ [] := mt hlast.mpr hne
      rw [← getLastD_insert (x := x) hr, ← hi, ← hrep.tail_eq]

omit hrep in
theorem mem_erase_of_nodup (hi : seqs i = l ++ x :: r) (hnodup : (seqs i).Nodup) :
    (seqs i).erase x = l ++ r := by
  rw [hi] at hnodup ⊢
  have hx : x ∉ l := fun hmem => (nodup_append.mp hnodup).2.2 x hmem x mem_cons_self rfl
  rw [erase_append_right _ hx, erase_cons_head]

theorem Unlinked.frame (hi : seqs i = l ++ x :: r)
    (hunlink : Unlinked s s' (l.getLastD (s.lists i).head) x (r.headD (s.lists i).head)) {j : ι}
    (hj : j ≠ i) (hy : y ∈ (s.lists j).head :: seqs j) : s'.next y = s.next y ∧ s'.prev y = s.prev y := by
  have hmem : x ∈ (s.lists i).head :: seqs i :=
    mem_cons_of_mem _ (hi ▸ mem_append_right _ mem_cons_self)
  have hi' : seqs i = (l ++ [x]) ++ r := by rw [hi, append_assoc]; rfl
  have hyx := hrep.ne_of_other hj hmem hy
  exact ⟨hunlink.next y (hrep.ne_of_other hj (mem_of_getLastD hi) hy) hyx,
    hunlink.prev y (hrep.ne_of_other hj (mem_of_headD hi') hy) hyx⟩

theorem erase_represents_mem (hi : seqs i = l ++ x :: r) :
    ∃ s', s.erase i x = some s' ∧ Represents heads s' (update seqs i (l ++ r)) := by
  rcases erase_spec hrep hi with ⟨s', hrun, hunlink, howner, hlists⟩
  have hring : Ring s.next s.prev (s.lists i).head (l ++ x :: r) := hi ▸ hrep.ring i
  have hnodup := (nodup_cons.mp hring.nodup).2
  have hx : x ∉ l ++ r := by
    have hperm : (l ++ x :: r).Perm (x :: (l ++ r)) := perm_middle
    exact (nodup_cons.mp (hperm.nodup_iff.mp hnodup)).1
  refine ⟨s', hrun, hrep.update (hring.remove hunlink.before hunlink.next hunlink.after hunlink.prev)
    ?_ ?_ ?_ (fun j hj y hy => hunlink.frame hrep hi hj hy) ?_ ?_⟩
  · rw [hlists, update_self, hrep.totalSize, hi]
    simp
  · exact fun j hj => hlists ▸ update_of_ne hj ..
  · intro y hy
    rw [hi]
    rcases mem_append.mp hy with hy | hy
    · exact .inl (mem_append_left _ hy)
    · exact .inl (mem_append_right _ (mem_cons_of_mem _ hy))
  · intro y hy
    rw [howner, update_apply]
    split
    · next heq =>
      rw [heq]
      exact iff_of_false (fun hn => by cases hn) hx
    · next hne =>
      rw [hrep.owner i y hy, hi]
      simp [hne]
  · intro j hj y hy
    rw [howner, update_apply]
    split
    · next heq =>
      have hmem : x ∈ seqs i := hi ▸ mem_append_right _ mem_cons_self
      rw [heq, (hrep.owner i x (hrep.item i x hmem)).mpr hmem]
      exact iff_of_false (fun hn => by cases hn) fun hn => hj (some.inj hn).symm
    · exact Iff.rfl

theorem erase_represents (hx : ∀ k, x ≠ heads k) :
    ∃ s', s.erase i x = some s' ∧ Represents heads s' (update seqs i ((seqs i).erase x)) := by
  by_cases hmem : x ∈ seqs i
  · rcases append_of_mem hmem with ⟨l, r, hi⟩
    rw [mem_erase_of_nodup hi (nodup_cons.mp (hrep.ring i).nodup).2]
    exact erase_represents_mem hrep hi
  · rw [erase_of_not_mem hmem, update_eq_self]
    have howner : ¬ s.owner x = some i := fun ho => hmem ((hrep.owner i x hx).mp ho)
    exact ⟨s, if_neg howner, hrep⟩

end

/-! ## Moving -/

/-- The first part of `move` takes the element out, but the list still owns and counts it. -/
theorem unlink_spec (hrep : Represents heads s seqs) (hi : seqs i = l ++ x :: r) {s₁ : State α ι}
    (hs₁ : s₁ = s.unlink i x (r.headD (s.lists i).head) (l.getLastD (s.lists i).head)) :
    Unlinked s s₁ (l.getLastD (s.lists i).head) x (r.headD (s.lists i).head) ∧ s₁.owner = s.owner ∧
      s₁.lists = update s.lists i ⟨(s.lists i).head, (l ++ r).getLastD (s.lists i).head,
        (s.lists i).totalSize⟩ := by
  have hlast := hrep.tail_eq_iff hi
  rw [State.unlink] at hs₁
  by_cases heq : (s.lists i).tail = x
  · replace hs₁ := hs₁.trans (if_pos heq)
    subst hs₁
    refine ⟨⟨update_self .., update_self .., fun y hya _ => update_of_ne hya ..,
      fun y hyb _ => update_of_ne hyb ..⟩, rfl, ?_⟩
    rw [hlast.mp heq, getLastD_append_nil]
    rfl
  · replace hs₁ := hs₁.trans (if_neg heq)
    subst hs₁
    refine ⟨⟨update_self .., update_self .., fun y hya _ => update_of_ne hya ..,
      fun y hyb _ => update_of_ne hyb ..⟩, rfl, ?_⟩
    have hr : r ≠ [] := mt hlast.mpr heq
    rw [← getLastD_insert (x := x) hr, ← hi, ← hrep.tail_eq]
    exact (update_eq_self i s.lists).symm

/-- The second part puts the element next to a position: in front of one that something follows, or
behind one. -/
def State.relink (s : State α ι) (i : ι) (src dst : α) (beforeFlag : Bool) : Option (State α ι) :=
  if beforeFlag then
    match s.prev dst with
    | none => none
    | some dstPrev =>
      let s := (s.setPrev dst (some src)).setNext dstPrev (some src)
      some ((s.setPrev src (some dstPrev)).setNext src (some dst))
  else
    match s.next dst with
    | none => none
    | some dstNext =>
      let s := (s.setPrev dstNext (some src)).setNext dst (some src)
      let s := (s.setPrev src (some dst)).setNext src (some dstNext)
      some (if (s.lists i).tail = dst then s.setTail i src else s)

variable {beforeFlag : Bool}

theorem move_eq {next prev : α} (hn : s.next x = some next) (hp : s.prev x = some prev) :
    s.move i x y beforeFlag = (s.unlink i x next prev).relink i x y beforeFlag := by
  rw [State.move, hn, hp]
  rfl

/-- A place next to a position, in a list without the moved element. -/
def Beside (h dst : α) (beforeFlag : Bool) (l r : List α) : Prop :=
  if beforeFlag then r ≠ [] ∧ dst = r.headD h else dst = l.getLastD h

theorem relink_spec {s₁ : State α ι} {dst : α} {n : ℕ}
    (hring : Ring s₁.next s₁.prev h (l ++ r)) (hx : x ∉ h :: (l ++ r))
    (hlist : s₁.lists i = ⟨h, (l ++ r).getLastD h, n⟩) (hdst : Beside h dst beforeFlag l r) :
    ∃ s', s₁.relink i x dst beforeFlag = some s' ∧ Linked s₁ s' (l.getLastD h) x (r.headD h) ∧
      s'.owner = s₁.owner ∧ s'.lists = update s₁.lists i ⟨h, (l ++ x :: r).getLastD h, n⟩ := by
  have hxa : x ≠ l.getLastD h := by
    intro heq
    apply hx
    rw [heq, ← cons_append]
    exact mem_append_left _ (getLastD_mem l h)
  have hxb : r.headD h ≠ x := by
    intro heq
    apply hx
    rw [← heq]
    rcases mem_cons.mp (headD_mem r h) with hmem | hmem
    · rw [hmem]
      exact mem_cons_self
    · exact mem_cons_of_mem _ (mem_append_right _ hmem)
  cases beforeFlag with
  | true =>
    rcases hdst with ⟨hr, rfl⟩
    rw [State.relink, if_pos rfl, hring.prev_between]
    refine ⟨_, rfl, .of_eq hxa rfl ?_, rfl, ?_⟩
    · dsimp only [State.setNext, State.setPrev]
      rw [update_comm hxb]
    · rw [getLastD_insert hr, ← hlist]
      exact (update_eq_self i s₁.lists).symm
  | false =>
    obtain rfl : dst = l.getLastD h := hdst
    rw [State.relink, if_neg Bool.false_ne_true, hring.next_between]
    dsimp only [State.setNext, State.setPrev, State.setTail]
    rw [hlist]
    dsimp only
    -- the position was the last one when nothing follows it
    by_cases heq : (l ++ r).getLastD h = l.getLastD h
    · have hr : r = [] := (getLastD_eq_iff hring.nodup).mp heq
      rw [if_pos heq]
      refine ⟨_, rfl, .of_eq hxa rfl ?_, rfl, ?_⟩
      · dsimp only
        rw [update_comm hxb]
      · rw [hr, getLastD_append_cons]
        rfl
    · have hr : r ≠ [] := mt (getLastD_eq_iff hring.nodup).mpr heq
      rw [if_neg heq]
      refine ⟨_, rfl, .of_eq hxa rfl ?_, rfl, ?_⟩
      · dsimp only
        rw [update_comm hxb]
      · rw [getLastD_insert hr, ← hlist]
        exact (update_eq_self i s₁.lists).symm

/-- An element of a list goes to another place of it. -/
theorem move_represents {dst : α} {l' r' : List α} (hrep : Represents heads s seqs)
    (hi : seqs i = l ++ x :: r) (hm : l ++ r = l' ++ r')
    (hdst : Beside (s.lists i).head dst beforeFlag l' r') :
    ∃ s', s.move i x dst beforeFlag = some s' ∧
      Represents heads s' (update seqs i (l' ++ x :: r')) := by
  rw [move_eq (hrep.next_of_mem hi) (hrep.prev_of_mem hi)]
  rcases unlink_spec hrep hi rfl with ⟨hunlink, howner, hlists⟩
  generalize s.unlink i x _ _ = s₁ at *
  have hold : Ring s.next s.prev (s.lists i).head (l ++ x :: r) := hi ▸ hrep.ring i
  have hring : Ring s₁.next s₁.prev (s.lists i).head (l' ++ r') :=
    hm ▸ hold.remove hunlink.before hunlink.next hunlink.after hunlink.prev
  have hperm : (l ++ x :: r).Perm (l' ++ x :: r') :=
    perm_middle.trans (by rw [hm]; exact perm_middle.symm)
  have hx : x ∉ (s.lists i).head :: (l' ++ r') := by
    have hnodup : ((s.lists i).head :: x :: (l ++ r)).Nodup :=
      (Perm.cons _ perm_middle).nodup_iff.mp hold.nodup
    rw [nodup_cons, nodup_cons, mem_cons, not_or] at hnodup
    rw [mem_cons, not_or, ← hm]
    exact ⟨fun heq => hnodup.1.1 heq.symm, hnodup.2.1⟩
  rcases relink_spec hring hx (by rw [hlists, update_self, hm]) hdst with
    ⟨s', hrun, hlink, howner', hlists'⟩
  have hlen : (s.lists i).totalSize = (l' ++ x :: r').length := by
    rw [hrep.totalSize, hi]
    exact hperm.length_eq
  refine ⟨s', hrun, hrep.update (hlink.ring hring hx) ?_ ?_ ?_ ?_ ?_ ?_⟩
  · rw [hlists', update_self, hlen]
  · intro j hj
    rw [hlists', update_of_ne hj, hlists, update_of_ne hj]
  · exact fun y hy => .inl (hi ▸ hperm.mem_iff.mpr hy)
  · intro j hj y hy
    -- the neighbours of the new place are of the same list, too
    have hapart : ∀ z ∈ (s.lists i).head :: (l' ++ r'), y ≠ z := by
      intro z hz
      refine hrep.ne_of_other hj ?_ hy
      rw [hi]
      rcases mem_cons.mp hz with rfl | hz
      · exact mem_cons_self
      · refine mem_cons_of_mem _ (hperm.mem_iff.mpr ?_)
        exact perm_middle.mem_iff.mpr (mem_cons_of_mem _ hz)
    have hyx : y ≠ x := hrep.ne_of_other hj
      (mem_cons_of_mem _ (hi ▸ mem_append_right _ mem_cons_self)) hy
    have hya : y ≠ l'.getLastD (s.lists i).head := by
      apply hapart
      rw [← cons_append]
      exact mem_append_left _ (getLastD_mem _ _)
    have hyb : y ≠ r'.headD (s.lists i).head := by
      apply hapart
      rcases mem_cons.mp (headD_mem r' (s.lists i).head) with hmem | hmem
      · rw [hmem]
        exact mem_cons_self
      · exact mem_cons_of_mem _ (mem_append_right _ hmem)
    rw [hlink.next, hlink.prev, if_neg hya, if_neg hyx, if_neg hyb, if_neg hyx]
    exact hunlink.frame hrep hi hj hy
  · intro y hy
    rw [howner', howner, hrep.owner i y hy, hi]
    exact hperm.mem_iff
  · intro j hj y hy
    rw [howner', howner]

/-! ## Positions -/

/-- Where an element goes in front of a position. -/
theorem insertBefore_place {pos : Option α} (xs : List α) (x h : α) (hpos : ∀ p ∈ pos, p ∈ xs) :
    ∃ l r, xs = l ++ r ∧ insertBefore pos x xs = l ++ x :: r ∧ pos.getD h = r.headD h ∧
      (pos ≠ none → r ≠ []) := by
  cases pos with
  | none => exact ⟨xs, [], (append_nil _).symm, rfl, rfl, fun hne => absurd rfl hne⟩
  | some p =>
    rcases eq_append_cons_of_mem (hpos p rfl) with ⟨l, r, hsplit, hp⟩
    refine ⟨l, p :: r, hsplit, ?_, rfl, fun _ => cons_ne_nil p r⟩
    rw [insertBefore, hsplit, idxOf_middle hp, insertIdx_length]

theorem insertAfter_place {pos : Option α} (xs : List α) (x h : α) (hpos : ∀ p ∈ pos, p ∈ xs) :
    ∃ l r, xs = l ++ r ∧ insertAfter pos x xs = l ++ x :: r ∧ pos.getD h = l.getLastD h := by
  cases pos with
  | none => exact ⟨[], xs, rfl, rfl, rfl⟩
  | some p =>
    rcases eq_append_cons_of_mem (hpos p rfl) with ⟨l, r, hsplit, hp⟩
    have hsplit' : xs = (l ++ [p]) ++ r := by
      rw [append_assoc]
      exact hsplit
    refine ⟨l ++ [p], r, hsplit', ?_, ?_⟩
    · have hins := insertIdx_length (l ++ [p]) r x
      rw [length_append] at hins
      rw [insertAfter, hsplit, idxOf_middle hp, ← hsplit, hsplit']
      exact hins
    · rw [getLastD_append_cons]
      rfl

theorem moveIn_place {dst : Option α} (h : α) (hi : seqs i = l ++ x :: r)
    (hnodup : (seqs i).Nodup) (hdst : ∀ d ∈ dst, d ∈ seqs i) (hself : dst ≠ some x)
    (hend : ¬ (dst = none ∧ beforeFlag = true)) :
    ∃ l' r', l ++ r = l' ++ r' ∧ moveIn x dst beforeFlag (seqs i) = l' ++ x :: r' ∧
      Beside h (dst.getD h) beforeFlag l' r' := by
  rw [moveIn, if_neg hself, mem_erase_of_nodup hi hnodup]
  have hdst' : ∀ d ∈ dst, d ∈ l ++ r := by
    intro d hd
    have hmem := hdst d hd
    rw [hi] at hmem
    rcases mem_cons.mp (perm_middle.mem_iff.mp hmem) with rfl | hmem
    · exact absurd hd hself
    · exact hmem
  cases beforeFlag with
  | true =>
    rcases insertBefore_place (l ++ r) x h hdst' with ⟨l', r', hsplit, hins, hpos, hr⟩
    exact ⟨l', r', hsplit, hins, hr fun hnone => hend ⟨hnone, rfl⟩, hpos⟩
  | false =>
    rcases insertAfter_place (l ++ r) x h hdst' with ⟨l', r', hsplit, hins, hpos⟩
    exact ⟨l', r', hsplit, hins, hpos⟩

/-! ## Clearing and sorting -/

theorem clear_represents (hrep : Represents heads s seqs) :
    ∃ s', s.clear i = some s' ∧ Represents heads s' (update seqs i []) := by
  have hloop : ∀ (xs : List α) {s : State α ι} {seqs : ι → List α}, Represents heads s seqs →
      seqs i = xs → ∃ s', State.clearLoop i xs.length s (xs.headD (s.lists i).head) = some s' ∧
        Represents heads s' (update seqs i []) := by
    intro xs
    induction xs with
    | nil =>
      intro s seqs hrep hi
      exact ⟨s, if_pos rfl, by rwa [← hi, update_eq_self]⟩
    | cons x xs ih =>
      intro s seqs hrep hi
      have hne : x ≠ (s.lists i).head := by
        have hnodup := (hrep.ring i).nodup
        rw [hi, nodup_cons, mem_cons, not_or] at hnodup
        exact fun heq => hnodup.1.1 heq.symm
      rcases erase_spec hrep (l := []) hi with ⟨s₁, hrun, -, -, hlists⟩
      rcases erase_represents_mem hrep (l := []) hi with ⟨s₁', hrun', hrep₁⟩
      obtain rfl : s₁ = s₁' := some.inj (hrun.symm.trans hrun')
      rcases ih hrep₁ (update_self ..) with ⟨s', hrest, hrep'⟩
      refine ⟨s', ?_, by rwa [update_idem] at hrep'⟩
      rw [headD_cons, length_cons, State.clearLoop, if_neg hne,
        hrep.next_of_mem (l := []) hi, hrun]
      rw [hlists, update_self] at hrest
      exact hrest
  rw [State.clear, (hrep.ring i).next_head, hrep.totalSize]
  exact hloop _ hrep rfl

/-- The elements of a list go into the counters, from the first on. -/
theorem sortLoop_represents {comp : α → α → Bool} (hcomp : StrictWeak comp) (xs : List α)
    {s : State α ι} {seqs : ι → List α} {counters : List (List α)} {done : List α}
    (hrep : Represents heads s seqs) (hi : seqs i = x :: xs) (hold : HoldsBlocks comp counters done) :
    ∃ s' counters', State.sortLoop comp i (x :: xs).length s counters = some (s', counters') ∧
      Represents heads s' (update seqs i []) ∧
      HoldsBlocks comp counters' (done ++ x :: xs) := by
  induction xs generalizing x s seqs counters done with
  | nil =>
    rcases erase_represents_mem hrep (l := []) hi with ⟨s₁, hrun, hrep₁⟩
    have hempty : s₁.next (s₁.lists i).head = some (s₁.lists i).head := by
      rw [(hrep₁.ring i).next_head, update_self]
      rfl
    refine ⟨s₁, carryInto comp counters [x], ?_, hrep₁, carryInto_holds hcomp (z := [x]) hold⟩
    rw [length_singleton, State.sortLoop, (hrep.ring i).next_head, hi, headD_cons]
    dsimp only
    rw [hrun]
    exact if_pos hempty
  | cons y xs ih =>
    rcases erase_represents_mem hrep (l := []) hi with ⟨s₁, hrun, hrep₁⟩
    have hnext : ¬ s₁.next (s₁.lists i).head = some (s₁.lists i).head := by
      have hring := hrep₁.ring i
      rw [update_self] at hring
      have hnodup := hring.nodup
      rw [hring.next_head]
      rw [nil_append, nodup_cons, mem_cons, not_or] at hnodup
      exact fun heq => hnodup.1.1 (some.inj heq).symm
    have hold₁ := carryInto_holds hcomp (z := [x]) hold
    rcases ih hrep₁ (update_self ..) hold₁ with ⟨s', counters', hrest, hrep', hold'⟩
    refine ⟨s', counters', ?_, by rwa [update_idem] at hrep', by
      rwa [append_assoc] at hold'⟩
    rw [length_cons, State.sortLoop, (hrep.ring i).next_head, hi, headD_cons]
    dsimp only
    rw [hrun]
    exact (if_neg hnext).trans hrest

theorem pushAll_represents (xs : List α) {s : State α ι} {seqs : ι → List α}
    (hrep : Represents heads s seqs) (hfree : ∀ x ∈ xs, Free heads seqs x) (hnodup : xs.Nodup) :
    Represents heads (State.pushAll i s xs) (update seqs i (seqs i ++ xs)) := by
  induction xs generalizing s seqs with
  | nil => rwa [append_nil, update_eq_self]
  | cons x xs ih =>
    rw [nodup_cons] at hnodup
    have hpush : Represents heads (s.pushBack i x .kWorkMode) (update seqs i (seqs i ++ [x])) :=
      pushBack_represents hrep (hfree x mem_cons_self)
    have hrest := ih hpush (fun y hy k => ?_) hnodup.2
    · rwa [update_idem, update_self, append_assoc] at hrest
    · have hy' := hfree y (mem_cons_of_mem _ hy) k
      refine ⟨hy'.1, ?_⟩
      rw [update_apply]
      split
      · next hk =>
        rw [mem_append, mem_singleton, not_or, ← hk]
        exact ⟨hy'.2, fun heq => hnodup.1 (heq ▸ hy)⟩
      · exact hy'.2

theorem sort_represents {comp : α → α → Bool} (hcomp : StrictWeak comp)
    (hrep : Represents heads s seqs) :
    ∃ s', s.sort i comp = some s' ∧
      Represents heads s' (update seqs i (stableSort comp (seqs i))) := by
  rw [State.sort, hrep.totalSize]
  cases hi : seqs i with
  | nil =>
    refine ⟨s, rfl, ?_⟩
    have hsame : stableSort comp [] = seqs i := hi.symm
    rwa [hsame, update_eq_self]
  | cons x xs =>
    by_cases hsmall : (x :: xs).length ≤ 1
    · rw [if_pos hsmall]
      have hxs : xs = [] := length_eq_zero_iff.mp (Nat.le_zero.mp (Nat.le_of_succ_le_succ hsmall))
      have hsame : stableSort comp (x :: xs) = seqs i := by
        rw [hi, hxs]
        rfl
      exact ⟨s, rfl, by rwa [hsame, update_eq_self]⟩
    rw [if_neg hsmall]
    have hnil : HoldsBlocks comp [] [] := ⟨[], rfl, rfl⟩
    rcases sortLoop_represents hcomp xs hrep hi hnil with
      ⟨s₁, counters, hloop, hrep₁, hold⟩
    rcases clear_represents (i := i) hrep₁ with ⟨s₂, hclear, hrep₂⟩
    rw [update_idem] at hrep₂
    rw [hloop]
    dsimp only
    rw [hclear]
    refine ⟨_, rfl, ?_⟩
    rw [mergeCounters_eq hcomp hold, nil_append]
    have hperm : (stableSort comp (x :: xs)).Perm (seqs i) := hi ▸ perm_insertionSort ..
    have hpush := pushAll_represents (i := i) (stableSort comp (x :: xs)) hrep₂ ?_ ?_
    · rwa [update_self, nil_append, update_idem] at hpush
    · intro y hy k
      -- the elements of the list are free now
      have hmem := hperm.mem_iff.mp hy
      refine ⟨hrep.item i y hmem k, ?_⟩
      rw [update_apply]
      split
      · exact not_mem_nil
      · next hk =>
        exact fun hk' => hrep.separate i k (Ne.symm hk) y (mem_cons_of_mem _ hmem)
          (mem_cons_of_mem _ hk')
    · exact hperm.nodup_iff.mpr (nodup_cons.mp (hrep.ring i).nodup).2

/-! ## Swapping -/

theorem walk_ring (hring : Ring s.next s.prev h (l ++ r)) :
    s.walk h r.length (r.headD h) = some r := by
  induction r generalizing l with
  | nil => exact if_pos rfl
  | cons x r ih =>
    have hne : x ≠ h := by
      have hnodup := (nodup_cons.mp hring.nodup).1
      exact fun heq => hnodup (heq ▸ mem_append_right _ mem_cons_self)
    have hring' : Ring s.next s.prev h ((l ++ [x]) ++ r) := by
      rw [append_assoc]
      exact hring
    have hnext := hring'.next_between
    rw [getLastD_append_cons] at hnext
    rw [headD_cons, length_cons, State.walk, if_neg hne]
    have hstep : s.next x = some (r.headD h) := hnext
    rw [hstep]
    dsimp only
    rw [ih hring']
    rfl

theorem elements_eq (hrep : Represents heads s seqs) : s.elements i = some (seqs i) := by
  rw [State.elements, (hrep.ring i).next_head, hrep.totalSize]
  exact walk_ring (l := []) (hrep.ring i)

theorem setOwners_eq (items : List α) : (s.setOwners items i).next = s.next ∧
    (s.setOwners items i).prev = s.prev ∧ (s.setOwners items i).lists = s.lists ∧
    ∀ x, (s.setOwners items i).owner x = if x ∈ items then some i else s.owner x := by
  induction items generalizing s with
  | nil => exact ⟨rfl, rfl, rfl, fun x => rfl⟩
  | cons a items ih =>
    rcases ih (s := s.setOwner a (some i)) with ⟨hnext, hprev, hlists, howner⟩
    refine ⟨hnext, hprev, hlists, fun x => (howner x).trans ?_⟩
    dsimp only [State.setOwner]
    rw [update_apply]
    by_cases hx : x ∈ items
    · rw [if_pos hx, if_pos (mem_cons_of_mem _ hx)]
    · rw [if_neg hx]
      simp [hx]

theorem walk_congr (hnext : s'.next = s.next) (n : ℕ) (h cur : α) : s'.walk h n cur = s.walk h n cur := by
  induction n generalizing cur with
  | zero => rfl
  | succ n ih =>
    rw [State.walk, State.walk, hnext]
    simp only [ih]

/-- Two lists change places when their links and counts do and the owner of every element with them. -/
theorem Represents.swap (hrep : Represents heads s seqs) (hnext : s'.next = s.next)
    (hprev : s'.prev = s.prev) (hlists : ∀ k, s'.lists k = s.lists (Equiv.swap i j k))
    (howner : ∀ x, (∀ k, x ≠ heads k) → ∀ k, (s'.owner x = some k ↔ x ∈ seqs (Equiv.swap i j k))) :
    Represents heads s' (seqs ∘ Equiv.swap i j) where
  ring k := by
    rw [hnext, hprev, hlists]
    exact hrep.ring _
  tail k := by
    rw [hprev, hlists]
    exact hrep.tail _
  totalSize k := by
    rw [hlists]
    exact hrep.totalSize _
  owner k x hx := howner x hx k
  head_mem k := by
    rw [hlists]
    exact hrep.head_mem _
  item k := hrep.item _
  separate k k' hk := by
    rw [hlists, hlists]
    exact hrep.separate _ _ fun heq => hk ((Equiv.swap i j).injective heq)

theorem swap_represents (hrep : Represents heads s seqs) :
    ∃ s', s.swap i j = some s' ∧
      Represents heads s' (update (update seqs i (seqs j)) j (seqs i)) := by
  have hseqs : update (update seqs i (seqs j)) j (seqs i) = seqs ∘ Equiv.swap j i :=
    (Equiv.comp_swap_eq_update j i seqs).symm
  rcases setOwners_eq (s := s) (i := i) (seqs j) with ⟨hnext, hprev, hlists, howner⟩
  rcases setOwners_eq (s := s.setOwners (seqs j) i) (i := j) (seqs i) with
    ⟨hnext', hprev', hlists', howner'⟩
  have hitems : (s.setOwners (seqs j) i).elements i = some (seqs i) := by
    rw [← elements_eq hrep, State.elements, State.elements, hnext, hlists]
    simp only [walk_congr hnext]
  rw [State.swap, elements_eq hrep]
  dsimp only
  rw [hitems, hseqs]
  refine ⟨_, rfl, hrep.swap (hnext'.trans hnext) (hprev'.trans hprev) ?_ ?_⟩
  · intro k
    dsimp only [State.setOwner]
    rw [hlists', hlists]
    exact congrFun (Equiv.comp_swap_eq_update j i s.lists).symm k
  · intro x hx k
    -- a head is no element
    have hhead : ∀ k, x ≠ (s.lists k).head := by
      intro k
      rcases hrep.head_mem k with ⟨k', hk'⟩
      exact hk' ▸ hx k'
    dsimp only [State.setOwner]
    rw [update_self, update_self, update_of_ne (hhead i), hlists',
      hlists, update_of_ne (hhead j), howner', howner]
    have hone : ∀ m k, x ∈ seqs m → (x ∈ seqs k ↔ m = k) := by
      intro m k hm
      rw [← hrep.owner k x hx, (hrep.owner m x hx).mpr hm]
      exact some_inj
    by_cases hi : x ∈ seqs i
    · rw [if_pos hi, hone i _ hi, eq_comm (a := i), Equiv.swap_apply_eq_iff, Equiv.swap_apply_right,
        eq_comm, some_inj]
    rw [if_neg hi]
    by_cases hj : x ∈ seqs j
    · rw [if_pos hj, hone j _ hj, eq_comm (a := j), Equiv.swap_apply_eq_iff, Equiv.swap_apply_left,
        some_inj]
      exact eq_comm
    rw [if_neg hj, hrep.owner k x hx]
    by_cases hkj : k = j
    · rw [hkj, Equiv.swap_apply_left]
      exact iff_of_false hj hi
    · by_cases hki : k = i
      · rw [hki, Equiv.swap_apply_right]
        exact iff_of_false hi hj
      · rw [Equiv.swap_apply_of_ne_of_ne hkj hki]

/-! ## Runs -/

theorem Initial.represents (h : Initial heads s) : Represents heads s fun _ => [] where
  ring i := by
    rw [h.lists]
    exact ring_nil (h.next i) (h.prev i)
  tail i := by
    rw [h.lists]
    exact (h.prev i).symm
  totalSize i := by
    rw [h.lists]
    rfl
  owner i x hx := by
    rw [h.owner x hx]
    exact iff_of_false (fun hn => by cases hn) not_mem_nil
  head_mem i := ⟨i, by rw [h.lists]⟩
  item i x hx := absurd hx not_mem_nil
  separate i j hij x hx := by
    rw [h.lists, mem_singleton] at hx ⊢
    exact fun heq => hij (h.distinct (hx.symm.trans heq))

theorem Op.run_represents {op : Op α ι} (hrep : Represents heads s seqs) (hvalid : op.Valid heads seqs)
    (hmoves : op.MovesProperly) : ∃ s', op.run s = some s' ∧ Represents heads s' (op.plain seqs) := by
  cases op with
  | pushBack i x mode => exact ⟨_, rfl, pushBack_represents hrep hvalid⟩
  | pushFront i x mode => exact pushFront_represents hrep hvalid
  | insert i pos x mode =>
    rcases insertBefore_place (seqs i) x (s.lists i).head hvalid.2 with ⟨l, r, hi, hins, hpos, -⟩
    rw [Op.plain, hins]
    exact insert_represents hrep hvalid.1 hi hpos
  | move i src dst beforeFlag =>
    rcases append_of_mem hvalid.1 with ⟨l, r, hi⟩
    rcases moveIn_place (s.lists i).head hi (nodup_cons.mp (hrep.ring i).nodup).2 hvalid.2
      hmoves.1 hmoves.2 with ⟨l', r', hm, hmove, hdst⟩
    rw [Op.plain, hmove]
    exact move_represents hrep hi hm hdst
  | erase i x => exact erase_represents hrep hvalid
  | sort i comp => exact sort_represents hvalid hrep
  | swap i j => exact swap_represents hrep
  | clear i => exact clear_represents hrep

theorem runOps_represents_from {ops : List (Op α ι)} (hrep : Represents heads s seqs)
    (hops : ProperRun heads seqs ops) :
    ∃ s', runOps s ops = some s' ∧ Represents heads s' (plainOps seqs ops) := by
  induction ops generalizing s seqs with
  | nil => exact ⟨s, rfl, hrep⟩
  | cons op ops ih =>
    rcases hops with ⟨hvalid, hmoves, hrest⟩
    rcases Op.run_represents hrep hvalid hmoves with ⟨s₁, hrun, hrep₁⟩
    rcases ih hrep₁ hrest with ⟨s', hrun', hrep'⟩
    exact ⟨s', by rw [runOps, hrun]; exact hrun', hrep'⟩

/-- New lists, run through any calls whose moves are proper, hold what plain sequences would hold. -/
theorem quickList_represents {ops : List (Op α ι)} (hinit : Initial heads s)
    (hops : ProperRun heads (fun _ => []) ops) :
    ∃ s', runOps s ops = some s' ∧ Represents heads s' (plainOps (fun _ => []) ops) :=
  runOps_represents_from hinit.represents hops

/-- Two elements, the first put behind the second, and the other one erased. -/
theorem quickList_represents_twoElements :
    ∃ s', runOps (State.mk (fun _ => some 0) (fun _ => some 0) (fun _ => none) (fun _ => .kFreeMode)
        fun _ => ⟨0, 0, 0⟩)
        [.pushBack () 1 .kWorkMode, .pushBack () 2 .kWorkMode, .move () 1 (some 2) false,
          .erase () (2 : ℕ)] = some s' ∧ Represents (fun _ => 0) s' fun _ => [1] := by
  -- the plain sequence of the calls is the second element put away
  exact @quickList_represents ℕ Unit _ _ (fun _ => 0) _ [.pushBack () 1 .kWorkMode,
    .pushBack () 2 .kWorkMode, .move () 1 (some 2) false, .erase () (2 : ℕ)]
    ⟨fun _ _ _ => rfl, fun _ => rfl, fun _ => rfl, fun _ => rfl, fun _ _ => rfl⟩
    (by simp [ProperRun, Op.Valid, Op.MovesProperly, Op.plain, Free])

/-- A move in front of the end leaves the tail where it was, so that it is no longer the element in front
of the head. -/
theorem not_quickList_represents :
    ∃ (s : State ℕ Unit) (ops : List (Op ℕ Unit)) (s' : State ℕ Unit), Initial (fun _ => 0) s ∧
      ValidRun (fun _ => 0) (fun _ => []) ops ∧ runOps s ops = some s' ∧
      some (s'.lists ()).tail ≠ s'.prev (s'.lists ()).head ∧
      ¬ Represents (fun _ => 0) s' (plainOps (fun _ => []) ops) := by
  refine ⟨⟨fun _ => some 0, fun _ => some 0, fun _ => none, fun _ => .kFreeMode, fun _ => ⟨0, 0, 0⟩⟩,
    [.pushBack () 1 .kWorkMode, .pushBack () 2 .kWorkMode, .move () 1 none true], _,
    ⟨fun _ _ _ => rfl, fun _ => rfl, fun _ => rfl, fun _ => rfl, fun _ _ => rfl⟩,
    by simp [ValidRun, Op.Valid, Op.plain, Free], rfl, by decide, fun hrep => ?_⟩
  exact absurd (hrep.tail ()) (by decide)

end GraphAutofusion.GraphMetadef.QuickListRing
