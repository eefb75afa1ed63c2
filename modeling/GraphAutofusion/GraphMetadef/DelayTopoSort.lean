import GraphAutofusion.GraphMetadef.ExecuteGraph

/-!
# GraphMetadef.DelayTopoSort — moving nodes to their first consumer

After the sorting a node may be delayed to its first consumer, together with the nodes that were
delayed to it before. Each position has a group of nodes that ends with the node of that position.
A group moves in front of a later one, over groups that hold none of its consumers.
-/

namespace GraphAutofusion.GraphMetadef

open Lib List Option Function

variable {Name : Type*} [DecidableEq Name]

/-- The ids of the nodes become their positions. -/
def setIds (id : Name → ℤ) (nodes : List Name) : Name → ℤ :=
  nodes.zipIdx.foldl (fun id p => Function.update id p.1 p.2) id

namespace ExecuteGraph

variable (g : ExecuteGraph Name)

/-- All connected data inputs come from long living nodes, and there is one. -/
def inputIsLongLifeTimeNode (node : Name) : Bool :=
  let peers := ((g.inDataEdges node).take (g.dataInNum node)).reduceOption
  peers.all g.isLongLifeTime && peers ≠ []

/-- The smallest id, where `0` counts as none. -/
def minIndex (id : Name → ℤ) (outs : List Name) : ℤ :=
  outs.foldl (fun minIndex n => if minIndex = 0 ∨ id n < minIndex then id n else minIndex) 0

/-- The id of the first consumer of the last node, and the number of its out edges. A negative id
is no position; neither is `0` behind another one. -/
def getOutNodeIndex (id : Name → ℤ) (nodes : List Name) : Option (ℕ × ℕ) :=
  match nodes.getLast? with
  | none => none
  | some node =>
    if nodes.length = 1 ∧ ¬ g.inputIsLongLifeTimeNode node then none
    else if nodes.length ≠ 1 ∧ g.dataInNum node ≠ 1 then none
    else if g.getAllOutNodes node = [] then none
    else some ((minIndex id (g.getAllOutNodes node)).toNat, (g.getAllOutNodes node).length)

/-- The group at `i` is moved in front of the one of its first consumer, unless this is the next
one. -/
def delayNode (id : Name → ℤ) (delayNodes : List (Bool × List Name)) (i : ℕ) :
    List (Bool × List Name) :=
  match delayNodes[i]? with
  | some (true, group) =>
    match g.getOutNodeIndex id group with
    | some (delayToIndex, outCount) =>
      if delayToIndex < delayNodes.length ∧ i + 1 < delayToIndex then
        -- a node with several consumers cannot be delayed any further
        (delayNodes.modify delayToIndex fun d => (d.1 && outCount ≤ 1, group ++ d.2)).modify i
          fun d => (d.1, [])
      else delayNodes
    | none => delayNodes
  | _ => delayNodes

def delayTopoSort (id : Name → ℤ) (nodes : List Name) : List Name :=
  ((range nodes.length).foldl (g.delayNode (setIds id nodes))
    (nodes.map fun node => (true, [node]))).flatMap Prod.snd

end ExecuteGraph

/-! ## Ids -/

variable {n : Name}

theorem foldl_update_of_notMem {nodes : List Name} {k : ℕ} (id : Name → ℤ) (hn : n ∉ nodes) :
    (nodes.zipIdx k).foldl (fun id p => update id p.1 (p.2 : ℤ)) id n = id n := by
  induction nodes generalizing id k with
  | nil => rfl
  | cons x nodes ih =>
    rw [mem_cons, not_or] at hn
    rw [zipIdx_cons, foldl_cons, ih _ hn.2, update_of_ne hn.1]

theorem foldl_update_getElem {nodes : List Name} (hnodup : nodes.Nodup) {k i : ℕ} (id : Name → ℤ)
    (hn : nodes[i]? = some n) :
    (nodes.zipIdx k).foldl (fun id p => update id p.1 (p.2 : ℤ)) id n = (k + i : ℕ) := by
  induction nodes generalizing id k i with
  | nil => simp at hn
  | cons x nodes ih =>
    rw [nodup_cons] at hnodup
    rw [zipIdx_cons, foldl_cons]
    cases i with
    | zero =>
      obtain rfl : x = n := by simpa using hn
      rw [foldl_update_of_notMem _ hnodup.1, update_self]
      rfl
    | succ i =>
      rw [ih hnodup.2 _ (by simpa using hn)]
      congr 1
      omega

theorem setIds_getElem {nodes : List Name} (hnodup : nodes.Nodup) (id : Name → ℤ) {i : ℕ}
    (hn : nodes[i]? = some n) : setIds id nodes n = i := by
  unfold setIds
  rw [foldl_update_getElem hnodup id hn, zero_add]

theorem setIds_idxOf {nodes : List Name} (hnodup : nodes.Nodup) (id : Name → ℤ)
    (hn : n ∈ nodes) : setIds id nodes n = nodes.idxOf n := by
  have hlt : nodes.idxOf n < nodes.length := idxOf_lt_length_of_mem hn
  refine setIds_getElem hnodup id ?_
  rw [getElem?_eq_getElem hlt, getElem_idxOf hlt]

/-! ## The first consumer -/

section MinIndex

variable {id : Name → ℤ} {outs : List Name}

omit [DecidableEq Name] in
theorem foldl_minIndex (hpos : ∀ n ∈ outs, 0 < id n) {m : ℤ} (hm : 0 ≤ m) :
    let r := outs.foldl (fun minIndex n => if minIndex = 0 ∨ id n < minIndex then id n else minIndex) m
    (0 < m → 0 < r ∧ r ≤ m) ∧ (outs ≠ [] → 0 < r) ∧ ∀ n ∈ outs, r ≤ id n := by
  induction outs generalizing m with
  | nil => simp
  | cons x outs ih =>
    have hx : 0 < id x := hpos x mem_cons_self
    have hrest : ∀ n ∈ outs, 0 < id n := fun n hn => hpos n (mem_cons_of_mem _ hn)
    rw [foldl_cons]
    by_cases hc : m = 0 ∨ id x < m
    · rw [if_pos hc]
      obtain ⟨hstart, -, hle⟩ := ih hrest (le_of_lt hx)
      obtain ⟨hpos', hle'⟩ := hstart hx
      refine ⟨fun hm0 => ⟨hpos', ?_⟩, fun _ => hpos', fun n hn => ?_⟩
      · rcases hc with hc | hc <;> omega
      · rcases mem_cons.mp hn with rfl | hn
        · exact hle'
        · exact hle n hn
    · rw [if_neg hc]
      have hm0 : 0 < m := by omega
      obtain ⟨hstart, -, hle⟩ := ih hrest hm
      obtain ⟨hpos', hle'⟩ := hstart hm0
      refine ⟨fun _ => ⟨hpos', hle'⟩, fun _ => hpos', fun n hn => ?_⟩
      rcases mem_cons.mp hn with rfl | hn
      · omega
      · exact hle n hn

omit [DecidableEq Name] in
theorem minIndex_le (hpos : ∀ n ∈ outs, 0 < id n) (hn : n ∈ outs) :
    0 < ExecuteGraph.minIndex id outs ∧ ExecuteGraph.minIndex id outs ≤ id n := by
  obtain ⟨-, hlt, hle⟩ := foldl_minIndex hpos (le_refl 0)
  exact ⟨hlt (ne_nil_of_mem hn), hle n hn⟩

end MinIndex

/-! ## What a move keeps -/

section Moves

variable (g : ExecuteGraph Name) (nodes : List Name)

/-- The groups after the positions below `k` were served. -/
structure DelayInv (k : ℕ) (d : List (Bool × List Name)) : Prop where
  length : d.length = nodes.length
  perm : (d.flatMap Prod.snd).Perm nodes
  forward : Forward g.Edge (d.flatMap Prod.snd)
  /-- A group ends with the node of its position. -/
  last : ∀ (i : ℕ) f l, d[i]? = some (f, l) → l ≠ [] → l.getLast? = nodes[i]?
  nonempty : ∀ (i : ℕ) f l, k ≤ i → d[i]? = some (f, l) → l ≠ []
  pos : ∀ (i : ℕ) f l, d[i]? = some (f, l) → ∀ n ∈ l, nodes.idxOf n ≤ i
  /-- In a group that may move, only the last node has consumers outside. -/
  inside : ∀ (i : ℕ) l, d[i]? = some (true, l) → ∀ n ∈ l, l.getLast? ≠ some n → ∀ m, g.Edge n m → m ∈ l

variable {g nodes} {d : List (Bool × List Name)} {id : Name → ℤ} {group : List Name} {i k t c : ℕ}

theorem modify_middle {β : Type*} (front back : List β) (x : β) (f : β → β) :
    (front ++ x :: back).modify front.length f = front ++ f x :: back := by
  induction front with
  | nil => rfl
  | cons y front ih => simp [ih]

theorem getOutNodeIndex_eq_some (h : g.getOutNodeIndex id group = some (t, c)) :
    ∃ node, group.getLast? = some node ∧ g.getAllOutNodes node ≠ [] ∧
      t = (ExecuteGraph.minIndex id (g.getAllOutNodes node)).toNat ∧
      c = (g.getAllOutNodes node).length := by
  unfold ExecuteGraph.getOutNodeIndex at h
  split at h
  · exact nomatch h
  · next node hlast =>
    split at h
    · exact nomatch h
    · split at h
      · exact nomatch h
      · split at h
        · exact nomatch h
        · next hne =>
          simp only [some.injEq, Prod.mk.injEq] at h
          exact ⟨node, hlast, hne, h.1.symm, h.2.symm⟩

/-- A round leaves the groups alone or moves the group of its position. -/
theorem delayNode_cases (id : Name → ℤ) (d : List (Bool × List Name)) (i : ℕ) :
    g.delayNode id d i = d ∨ ∃ group t c, d[i]? = some (true, group) ∧
      g.getOutNodeIndex id group = some (t, c) ∧ t < d.length ∧ i + 1 < t ∧
      g.delayNode id d i = (d.modify t fun d => (d.1 && c ≤ 1, group ++ d.2)).modify i
        fun d => (d.1, []) := by
  unfold ExecuteGraph.delayNode
  split
  · next group hi =>
    split
    · next t c hout =>
      split
      · next hlt => exact .inr ⟨group, t, c, hi, hout, hlt.1, hlt.2, rfl⟩
      · exact .inl rfl
    · exact .inl rfl
  · exact .inl rfl

/-- The first consumer of a node that stands in order: all consumers stand at its position or
behind it. -/
theorem minIndex_toNat (hnodup : nodes.Nodup) (hmem : ∀ n, n ∈ nodes ↔ n ∈ g.nodes)
    (horder : ∀ a b, g.Edge a b → nodes.idxOf a < nodes.idxOf b) (id : Name → ℤ) {node m : Name}
    (hm : g.Edge node m) :
    (ExecuteGraph.minIndex (setIds id nodes) (g.getAllOutNodes node)).toNat ≤ nodes.idxOf m := by
  have hid : ∀ n ∈ g.getAllOutNodes node, setIds id nodes n = nodes.idxOf n := fun n hn =>
    setIds_idxOf hnodup id ((hmem n).mpr (g.ends node n hn).2)
  have hpos : ∀ n ∈ g.getAllOutNodes node, 0 < setIds id nodes n := by
    intro n hn
    have := horder node n hn
    rw [hid n hn]
    omega
  have := (minIndex_le hpos hm).2
  rw [hid m hm] at this
  omega

theorem DelayInv.init (hforward : Forward g.Edge nodes) (hnodup : nodes.Nodup) :
    DelayInv g nodes 0 (nodes.map fun node => (true, [node])) := by
  have hflat : (nodes.map fun node => (true, [node])).flatMap Prod.snd = nodes := by
    rw [flatMap_map]
    simp
  have hget : ∀ (i : ℕ) f l, (nodes.map fun node => (true, [node]))[i]? = some (f, l) →
      ∃ n, nodes[i]? = some n ∧ f = true ∧ l = [n] := by
    intro i f l h
    rw [getElem?_map, map_eq_some_iff] at h
    obtain ⟨n, hn, heq⟩ := h
    rw [Prod.mk.injEq] at heq
    exact ⟨n, hn, heq.1.symm, heq.2.symm⟩
  refine ⟨length_map _, by rw [hflat], by rwa [hflat], fun i f l h _ => ?_,
    fun i f l _ h => ?_, fun i f l h n hn => ?_, fun i l h n hn hlast m hm => ?_⟩
  · obtain ⟨n, hn, -, rfl⟩ := hget i f l h
    rw [hn]
    rfl
  · obtain ⟨n, -, -, rfl⟩ := hget i f l h
    exact cons_ne_nil n []
  · obtain ⟨m, hm, -, rfl⟩ := hget i f l h
    obtain rfl := mem_singleton.mp hn
    obtain ⟨hlt, rfl⟩ := List.getElem?_eq_some_iff.mp hm
    exact le_of_eq (hnodup.idxOf_getElem i hlt)
  · obtain ⟨m', -, -, rfl⟩ := hget i true l h
    obtain rfl := mem_singleton.mp hn
    exact absurd rfl hlast

omit [DecidableEq Name] in
theorem getElem?_moved {j : ℕ} (hit : i ≠ t) (hi : d[i]? = some (true, group)) {ft : Bool}
    {lt : List Name} (ht : d[t]? = some (ft, lt)) :
    ((d.modify t fun d => (d.1 && c ≤ 1, group ++ d.2)).modify i fun d => (d.1, []))[j]?
      = if j = i then some (true, []) else if j = t then some (ft && c ≤ 1, group ++ lt) else d[j]? := by
  rw [getElem?_modify, getElem?_modify]
  by_cases hji : j = i
  · subst hji
    simp [hi, Ne.symm hit]
  · by_cases hjt : j = t
    · subst hjt
      simp [ht, hit, hji]
    · simp [hji, hjt, Ne.symm hji, Ne.symm hjt]

omit [DecidableEq Name] in
/-- The groups as a list, before and after the move. -/
theorem flatMap_moved (hit : i < t) (ht : t < d.length) (hi : d[i]? = some (true, group)) :
    ∃ front mid back, d.flatMap Prod.snd = front ++ (group ++ (mid ++ back)) ∧
      ((d.modify t fun d => (d.1 && c ≤ 1, group ++ d.2)).modify i fun d => (d.1, [])).flatMap Prod.snd
        = front ++ (mid ++ (group ++ back)) ∧
      ∀ n ∈ mid, ∃ (j : ℕ) (f : Bool) (l : List Name), j < t ∧ d[j]? = some (f, l) ∧ n ∈ l := by
  obtain ⟨l, y, back, hd, hlen, -⟩ := exists_of_modify (fun x => x) ht
  have hil : i < l.length := hlen ▸ hit
  obtain ⟨front, x, mid, hl, hflen, -⟩ := exists_of_modify (fun x => x) hil
  have hx : x = (true, group) := by
    rw [hd, hl, append_assoc, ← hflen] at hi
    simpa using hi
  subst hx
  have hmove : (d.modify t fun d => (d.1 && c ≤ 1, group ++ d.2)).modify i (fun d => (d.1, []))
      = front ++ (true, []) :: (mid ++ (y.1 && c ≤ 1, group ++ y.2) :: back) := by
    rw [hd, ← hlen, modify_middle, hl, ← hflen, append_assoc, cons_append, modify_middle]
  refine ⟨front.flatMap Prod.snd, mid.flatMap Prod.snd, y.2 ++ back.flatMap Prod.snd, ?_, ?_, ?_⟩
  · rw [hd, hl]
    simp
  · rw [hmove]
    simp
  · intro n hn
    obtain ⟨⟨f, g'⟩, hmem, hin⟩ := mem_flatMap.mp hn
    obtain ⟨j, hj⟩ := mem_iff_getElem?.mp hmem
    have hjlt : j < mid.length := (List.getElem?_eq_some_iff.mp hj).1
    refine ⟨front.length + 1 + j, f, g', ?_, ?_, hin⟩
    · rw [← hlen, hl, length_append, length_cons]
      omega
    · rw [hd, hl, append_assoc, getElem?_append_right (by omega)]
      have : front.length + 1 + j - front.length = j + 1 := by omega
      rw [this, cons_append, getElem?_cons_succ, getElem?_append_left hjlt]
      exact hj

theorem DelayInv.step (hnodup : nodes.Nodup) (hmem : ∀ n, n ∈ nodes ↔ n ∈ g.nodes)
    (horder : ∀ a b, g.Edge a b → nodes.idxOf a < nodes.idxOf b) (id : Name → ℤ)
    (h : DelayInv g nodes k d) : DelayInv g nodes (k + 1) (g.delayNode (setIds id nodes) d k) := by
  rcases delayNode_cases (setIds id nodes) d k with heq | ⟨group, t, c, hk, hout, ht, hkt, heq⟩
  · rw [heq]
    exact { h with nonempty := fun i f l hle => h.nonempty i f l (Nat.le_of_succ_le hle) }
  rw [heq]
  obtain ⟨node, hlast, -, htn, hc⟩ := getOutNodeIndex_eq_some hout
  obtain ⟨ft, lt, hdt⟩ : ∃ ft lt, d[t]? = some (ft, lt) :=
    ⟨d[t].1, d[t].2, getElem?_eq_getElem ht⟩
  have hltne : lt ≠ [] := h.nonempty t ft lt (by omega) hdt
  have hconsumer : ∀ m, g.Edge node m → t ≤ nodes.idxOf m := fun m hm => by
    rw [htn]
    exact minIndex_toNat hnodup hmem horder id hm
  have hget := fun j : ℕ => @getElem?_moved _ d group k t c j (by omega) hk ft lt hdt
  obtain ⟨front, mid, back, hbefore, hafter, hmid⟩ :=
    @flatMap_moved _ d group k t c (by omega) ht hk
  have hall : (d.flatMap Prod.snd).Nodup := h.perm.nodup_iff.mpr hnodup
  rw [hbefore] at hall
  -- the groups that are jumped over hold no consumer of the moved ones
  have hfree : ∀ a ∈ group, ∀ b ∈ mid, ¬ g.Edge a b := by
    intro a ha b hb hedge
    by_cases hal : group.getLast? = some a
    · obtain rfl : node = a := by simpa [hlast] using hal
      obtain ⟨j, f, l, hjt, hj, hbl⟩ := hmid b hb
      have hle := hconsumer b hedge
      have hpos := h.pos j f l hj b hbl
      omega
    · have hbg : b ∈ group := h.inside k group hk a ha hal b hedge
      have hdisj := (nodup_append.mp (nodup_append.mp hall).2.1).2.2
      exact hdisj b hbg b (mem_append.mpr (.inl hb)) rfl
  refine ⟨?_, ?_, ?_, fun j f l hj hne => ?_, fun j f l hkj hj => ?_, fun j f l hj n hn => ?_,
    fun j l hj n hn hnl m hm => ?_⟩
  · rw [length_modify, length_modify]
    exact h.length
  · rw [hafter]
    refine Perm.trans (Perm.append_left front ?_) (hbefore ▸ h.perm)
    rw [← append_assoc, ← append_assoc]
    exact perm_append_comm.append_right back
  · rw [hafter]
    exact Forward.swap_blocks (hbefore ▸ h.forward) hfree
  · rw [hget] at hj
    split at hj
    · simp only [some.injEq, Prod.mk.injEq] at hj
      exact absurd hj.2.symm hne
    · split at hj
      · next hjt =>
        simp only [some.injEq, Prod.mk.injEq] at hj
        rw [← hj.2, getLast?_append_of_ne_nil _ hltne, hjt]
        exact h.last t ft lt hdt hltne
      · exact h.last j f l hj hne
  · rw [hget, if_neg (by omega)] at hj
    split at hj
    · simp only [some.injEq, Prod.mk.injEq] at hj
      rw [← hj.2]
      exact append_ne_nil_of_right_ne_nil group hltne
    · exact h.nonempty j f l (by omega) hj
  · rw [hget] at hj
    split at hj
    · simp only [some.injEq, Prod.mk.injEq] at hj
      rw [← hj.2] at hn
      exact nomatch hn
    · split at hj
      · next hjt =>
        simp only [some.injEq, Prod.mk.injEq] at hj
        rw [← hj.2] at hn
        subst hjt
        rcases mem_append.mp hn with hn | hn
        · have := h.pos k true group hk n hn
          omega
        · exact h.pos j ft lt hdt n hn
      · exact h.pos j f l hj n hn
  · rw [hget] at hj
    split at hj
    · simp only [some.injEq, Prod.mk.injEq] at hj
      rw [← hj.2] at hn
      exact nomatch hn
    · split at hj
      · simp only [some.injEq, Prod.mk.injEq, Bool.and_eq_true, decide_eq_true_iff] at hj
        obtain ⟨⟨hft, hc1⟩, hl⟩ := hj
        subst hl
        rw [getLast?_append_of_ne_nil _ hltne] at hnl
        rcases mem_append.mp hn with hn | hn
        · by_cases hng : group.getLast? = some n
          · -- the last node of the moved group: its only consumer is the node it moves to
            obtain rfl : node = n := by simpa [hlast] using hng
            have hone : g.getAllOutNodes node = [m] := by
              have hin : m ∈ g.getAllOutNodes node := hm
              rcases hlist : g.getAllOutNodes node with _ | ⟨x, xs⟩
              · rw [hlist] at hin
                exact nomatch hin
              · rw [hlist, length_cons] at hc
                obtain rfl : xs = [] := length_eq_zero_iff.mp (by omega)
                rw [hlist, mem_singleton] at hin
                rw [hin]
            have hmn : m ∈ nodes := (hmem m).mpr hm.mem.2
            have hidx : t = nodes.idxOf m := by
              rw [htn, hone]
              simp [ExecuteGraph.minIndex, setIds_idxOf hnodup id hmn]
            have hlt : lt.getLast? = some m := by
              rw [h.last t ft lt hdt hltne, hidx,
                getElem?_eq_getElem (idxOf_lt_length_of_mem hmn), getElem_idxOf]
            exact mem_append.mpr (.inr (mem_of_getLast? hlt))
          · exact mem_append.mpr (.inl (h.inside k group hk n hn hng m hm))
        · subst hft
          exact mem_append.mpr (.inr (h.inside t lt hdt n hn hnl m hm))
      · exact h.inside j l hj n hn hnl m hm

theorem DelayInv.run (hnodup : nodes.Nodup) (hmem : ∀ n, n ∈ nodes ↔ n ∈ g.nodes)
    (horder : ∀ a b, g.Edge a b → nodes.idxOf a < nodes.idxOf b) (id : Name → ℤ) (m : ℕ)
    (h : DelayInv g nodes k d) :
    DelayInv g nodes (k + m) ((range' k m).foldl (g.delayNode (setIds id nodes)) d) := by
  induction m generalizing k d with
  | zero => exact h
  | succ m ih =>
    rw [range'_succ, foldl_cons]
    have hrest := ih (h.step hnodup hmem horder id)
    rwa [add_assoc, add_comm 1 m] at hrest

/-- Delaying keeps the nodes, and no edge goes back afterwards. -/
theorem delayTopoSort_spec (hperm : nodes.Perm g.nodes) (hforward : Forward g.Edge nodes)
    (hirr : ∀ a, ¬ g.Edge a a) (id : Name → ℤ) :
    (g.delayTopoSort id nodes).Perm g.nodes ∧ Forward g.Edge (g.delayTopoSort id nodes) := by
  have hnodup : nodes.Nodup := hperm.nodup_iff.mpr g.nodup
  have horder : ∀ a b, g.Edge a b → nodes.idxOf a < nodes.idxOf b := fun a b hab =>
    hforward.idxOf_lt (fun a _ => hirr a) (hperm.mem_iff.mpr hab.mem.1) hab
  have hrun := (DelayInv.init hforward hnodup).run hnodup (fun n => hperm.mem_iff) horder id
    nodes.length
  rw [← range_eq_range'] at hrun
  exact ⟨hrun.perm.trans hperm, hrun.forward⟩

end Moves

end GraphAutofusion.GraphMetadef
