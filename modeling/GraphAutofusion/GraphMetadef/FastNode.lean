import Mathlib.Algebra.GroupWithZero.Nat
import Mathlib.Data.List.Basic
import Mathlib.Data.Bool.Basic

/-!
# GraphMetadef.FastNode — the edges that a node records

A node has a slot for each data input, a vector of slots for each data output and one for the control
edges of either direction. An edge remembers the index of its slot as a 32-bit integer. A slot whose
edge is erased stays behind empty.
-/

namespace GraphAutofusion.GraphMetadef

open List Option

def kControlEdgeIndex : ℤ := -1

/-- A size as a 32-bit index. -/
def int32 (n : ℕ) : ℤ := (BitVec.ofNat 32 n).toInt

/-- The comparison as sizes: a negative index is behind every vector. -/
def InVector {α : Type*} (index : ℤ) (xs : List α) : Prop := 0 ≤ index ∧ index.toNat < xs.length

instance {α : Type*} (index : ℤ) (xs : List α) : Decidable (InVector index xs) :=
  inferInstanceAs (Decidable (_ ∧ _))

def slotAt (xs : List (Option ℕ)) (index : ℤ) : Option ℕ :=
  if 0 ≤ index then (xs[index.toNat]?).join else none

def countEdges (xs : List (Option ℕ)) : ℕ := xs.countP Option.isSome

inductive DirectionType where
  | kDirectionInType
  | kDirectionOutType
deriving DecidableEq, Repr

structure Edge where
  src : Option ℕ
  dst : Option ℕ
  srcOutput : ℤ
  dstInput : ℤ
  inEdgeIndex : ℤ
  outEdgeIndex : ℤ
deriving DecidableEq, Repr

structure FastNode where
  isData : Bool
  hasNode : Bool
  dataInNum : ℕ
  dataOutNum : ℕ
  inDataEdges : List (Option ℕ)
  outDataEdges : List (List (Option ℕ))
  inControlEdges : List (Option ℕ)
  outControlEdges : List (Option ℕ)
  inDataEdgesCount : ℕ
  inControlEdgeCount : ℕ
  outControlEdgesCount : ℕ
  totalNum : ℕ
  perEdgesNum : List ℕ
deriving DecidableEq, Repr

variable (hasNode isData : Bool)

namespace FastNode

/-- A node of the cache is cleared when it is used again. -/
def init (dataInNum dataOutNum : ℕ) : FastNode where
  isData := isData
  hasNode := hasNode
  dataInNum := dataInNum
  dataOutNum := dataOutNum
  inDataEdges := replicate dataInNum none
  outDataEdges := replicate dataOutNum []
  inControlEdges := []
  outControlEdges := []
  inDataEdgesCount := 0
  inControlEdgeCount := 0
  outControlEdgesCount := 0
  totalNum := 0
  perEdgesNum := replicate dataOutNum 0

def checkDataIndexIsValid (n : FastNode) (index : ℤ) : DirectionType → Bool
  | .kDirectionOutType => decide (0 ≤ index) && decide (index < int32 n.dataOutNum)
  | .kDirectionInType => decide (0 ≤ index) && decide (index < int32 n.dataInNum)

def recordInControlEdge (n : FastNode) (id : ℕ) (edge : Edge) : Edge × Option FastNode :=
  ({ edge with inEdgeIndex := int32 n.inControlEdges.length },
    some { n with
      inControlEdges := n.inControlEdges ++ [some id]
      inControlEdgeCount := n.inControlEdgeCount + 1 })

def recordOutControlEdge (n : FastNode) (id : ℕ) (edge : Edge) : Edge × Option FastNode :=
  ({ edge with outEdgeIndex := int32 n.outControlEdges.length },
    some { n with
      outControlEdges := n.outControlEdges ++ [some id]
      outControlEdgesCount := n.outControlEdgesCount + 1 })

def recordInDataEdge (n : FastNode) (id : ℕ) (index : ℤ) : Option FastNode :=
  if ¬ n.checkDataIndexIsValid index .kDirectionInType then none
  -- the input must be empty
  else if slotAt n.inDataEdges index ≠ none then none
  else some { n with
    inDataEdges := n.inDataEdges.set index.toNat (some id)
    inDataEdgesCount := n.inDataEdgesCount + 1 }

def recordOutDataEdge (n : FastNode) (id : ℕ) (index : ℤ) : Option FastNode :=
  if ¬ n.checkDataIndexIsValid index .kDirectionOutType then none
  else some { n with
    outDataEdges := n.outDataEdges.modify index.toNat fun xs => xs ++ [some id]
    totalNum := n.totalNum + 1
    perEdgesNum := n.perEdgesNum.modify index.toNat fun c => c + 1 }

/-- The edge with the index of its slot, and the node when the edge could be recorded. -/
def recordEdge (n : FastNode) (id : ℕ) (edge : Edge) : DirectionType → Edge × Option FastNode
  | .kDirectionInType =>
    if edge.dstInput = kControlEdgeIndex then n.recordInControlEdge id edge
    else ({ edge with inEdgeIndex := 0 }, n.recordInDataEdge id edge.dstInput)
  | .kDirectionOutType =>
    if edge.srcOutput = kControlEdgeIndex then n.recordOutControlEdge id edge
    else if ¬ InVector edge.srcOutput n.outDataEdges then (edge, none)
    else
      ({ edge with
          outEdgeIndex := int32 (n.outDataEdges.getD edge.srcOutput.toNat []).length },
        n.recordOutDataEdge id edge.srcOutput)

def eraseInControlEdge (n : FastNode) (id : ℕ) (edge : Edge) : Option FastNode :=
  if InVector edge.inEdgeIndex n.inControlEdges ∧
      slotAt n.inControlEdges edge.inEdgeIndex = some id then
    some { n with
      inControlEdges := n.inControlEdges.set edge.inEdgeIndex.toNat none
      inControlEdgeCount := n.inControlEdgeCount - 1 }
  else none

def eraseOutControlEdge (n : FastNode) (id : ℕ) (edge : Edge) : Option FastNode :=
  if InVector edge.outEdgeIndex n.outControlEdges ∧
      slotAt n.outControlEdges edge.outEdgeIndex = some id then
    some { n with
      outControlEdges := n.outControlEdges.set edge.outEdgeIndex.toNat none
      outControlEdgesCount := n.outControlEdgesCount - 1 }
  else none

def eraseInDataEdge (n : FastNode) (id : ℕ) (edge : Edge) : Option FastNode :=
  if ¬ n.checkDataIndexIsValid edge.dstInput .kDirectionInType then none
  else if slotAt n.inDataEdges edge.dstInput = some id then
    some { n with
      inDataEdges := n.inDataEdges.set edge.dstInput.toNat none
      inDataEdgesCount := n.inDataEdgesCount - 1 }
  else none

def eraseOutDataEdge (n : FastNode) (id : ℕ) (edge : Edge) (index : ℤ) : Option FastNode :=
  if ¬ n.checkDataIndexIsValid index .kDirectionOutType then none
  else if InVector edge.outEdgeIndex (n.outDataEdges.getD index.toNat []) ∧
      slotAt (n.outDataEdges.getD index.toNat []) edge.outEdgeIndex = some id then
    some { n with
      outDataEdges := n.outDataEdges.modify index.toNat fun xs =>
        xs.set edge.outEdgeIndex.toNat none
      totalNum := n.totalNum - 1
      perEdgesNum := n.perEdgesNum.modify index.toNat fun c => c - 1 }
  else none

def eraseEdge (n : FastNode) (id : ℕ) (edge : Edge) : DirectionType → Option FastNode
  | .kDirectionOutType =>
    if edge.srcOutput = kControlEdgeIndex then n.eraseOutControlEdge id edge
    else n.eraseOutDataEdge id edge edge.srcOutput
  | .kDirectionInType =>
    if edge.dstInput = kControlEdgeIndex then n.eraseInControlEdge id edge
    else n.eraseInDataEdge id edge

def checkAllInputParamter (n : FastNode) (type : DirectionType) (ioIdx curIndex replaceIndex : ℤ) :
    Bool :=
  if ioIdx < -1 then false
  else
    let ioSize := match type with
      | .kDirectionInType => n.dataInNum
      | .kDirectionOutType => n.dataOutNum
    if ioIdx ≠ kControlEdgeIndex ∧ ioSize ≤ ioIdx.toNat then false
    else
      let edgeSize :=
        if ioIdx = kControlEdgeIndex then
          match type with
          | .kDirectionInType => n.inControlEdges.length
          | .kDirectionOutType => n.outControlEdges.length
        else
          match type with
          | .kDirectionInType => 1
          | .kDirectionOutType => (n.outDataEdges.getD ioIdx.toNat []).length
      decide (0 ≤ replaceIndex ∧ replaceIndex.toNat < edgeSize) &&
        decide (0 ≤ curIndex ∧ curIndex.toNat < edgeSize)

/-- The content of one slot is moved to another one, which is not looked at. -/
def moveSlot (xs : List (Option ℕ)) (curIndex replaceIndex : ℤ) : List (Option ℕ) :=
  (xs.set replaceIndex.toNat (slotAt xs curIndex)).set curIndex.toNat none

/-- The node and the edge, if any, whose index becomes the new one. -/
def moveEdge (n : FastNode) (type : DirectionType) (ioIdx curIndex replaceIndex : ℤ) :
    Option (FastNode × Option ℕ) :=
  if ¬ n.checkAllInputParamter type ioIdx curIndex replaceIndex then none
  else
    match type with
    | .kDirectionInType =>
      if ioIdx = kControlEdgeIndex then
        let slots := moveSlot n.inControlEdges curIndex replaceIndex
        some ({ n with inControlEdges := slots }, slotAt slots replaceIndex)
      else some (n, none)
    | .kDirectionOutType =>
      if ioIdx = kControlEdgeIndex then
        let slots := moveSlot n.outControlEdges curIndex replaceIndex
        some ({ n with outControlEdges := slots }, slotAt slots replaceIndex)
      else
        let slots := moveSlot (n.outDataEdges.getD ioIdx.toNat []) curIndex replaceIndex
        some ({ n with outDataEdges := n.outDataEdges.set ioIdx.toNat slots },
          slotAt slots replaceIndex)

/-! ## Slots and counters -/

def outEdges (n : FastNode) (port : ℤ) : List (Option ℕ) :=
  if port = kControlEdgeIndex then n.outControlEdges
  else if 0 ≤ port then n.outDataEdges.getD port.toNat [] else []

def outSlot (n : FastNode) (port index : ℤ) : Option ℕ := slotAt (n.outEdges port) index

/-- A data input has one slot. -/
def inSlot (n : FastNode) (port index : ℤ) : Option ℕ :=
  if port = kControlEdgeIndex then slotAt n.inControlEdges index else slotAt n.inDataEdges port

def counters (n : FastNode) : ℕ × ℕ × ℕ × ℕ × List ℕ :=
  (n.inDataEdgesCount, n.inControlEdgeCount, n.outControlEdgesCount, n.totalNum, n.perEdgesNum)

/-- Every counter is the number of slots that hold an edge. -/
structure Counted (n : FastNode) : Prop where
  in_length : n.inDataEdges.length = n.dataInNum
  out_length : n.outDataEdges.length = n.dataOutNum
  in_data : n.inDataEdgesCount = countEdges n.inDataEdges
  in_control : n.inControlEdgeCount = countEdges n.inControlEdges
  out_control : n.outControlEdgesCount = countEdges n.outControlEdges
  per_port : n.perEdgesNum = n.outDataEdges.map countEdges
  total : n.totalNum = (n.outDataEdges.map countEdges).sum

/-- Edges are only at ports that pass the check. -/
structure Sound (n : FastNode) : Prop extends Counted n where
  valid_out : ∀ p k e, n.outSlot p k = some e →
    p = kControlEdgeIndex ∨ n.checkDataIndexIsValid p .kDirectionOutType = true
  valid_in : ∀ p k e, n.inSlot p k = some e →
    p = kControlEdgeIndex ∨ n.checkDataIndexIsValid p .kDirectionInType = true

end FastNode

theorem int32_le (n : ℕ) : int32 n ≤ n := by
  unfold int32
  rw [BitVec.toInt_eq_toNat_cond, BitVec.toNat_ofNat]
  have hle : n % 2 ^ 32 ≤ n := Nat.mod_le _ _
  split <;> omega

theorem int32_of_lt {n : ℕ} (h : n < 2 ^ 31) : int32 n = n := by
  unfold int32
  rw [BitVec.toInt_eq_toNat_cond, BitVec.toNat_ofNat, Nat.mod_eq_of_lt (by omega), if_pos (by omega)]

/-! ## Vectors of slots -/

section Slots

variable {xs : List (Option ℕ)} {index i j : ℤ} {e : ℕ} {v : Option ℕ}

theorem inVector_of_slotAt (h : slotAt xs index = some e) : InVector index xs := by
  unfold slotAt at h
  split at h
  · rename_i h0
    refine ⟨h0, ?_⟩
    by_contra hlt
    rw [getElem?_eq_none (Nat.not_lt.mp hlt)] at h
    exact nomatch h
  · exact nomatch h

theorem slotAt_append : slotAt (xs ++ [some e]) index
    = if index = xs.length then some e else slotAt xs index := by
  unfold slotAt
  by_cases h0 : 0 ≤ index
  · rw [if_pos h0, if_pos h0]
    by_cases hlt : index.toNat < xs.length
    · have hne : ¬ index = xs.length := by omega
      rw [if_neg hne, getElem?_append_left hlt]
    rw [getElem?_append_right (Nat.not_lt.mp hlt)]
    by_cases heq : index = xs.length
    · have hzero : index.toNat - xs.length = 0 := by omega
      rw [if_pos heq, hzero]
      rfl
    · have hpos : index.toNat - xs.length ≠ 0 := by omega
      rw [if_neg heq, getElem?_eq_none (Nat.not_lt.mp hlt)]
      obtain ⟨k, hk⟩ := Nat.exists_eq_succ_of_ne_zero hpos
      rw [hk]
      rfl
  · have hne : ¬ index = xs.length := by omega
    rw [if_neg h0, if_neg h0, if_neg hne]

theorem slotAt_set (hi : InVector i xs) :
    slotAt (xs.set i.toNat v) j = if j = i then v else slotAt xs j := by
  obtain ⟨hi0, hlt⟩ := hi
  unfold slotAt
  by_cases h0 : 0 ≤ j
  · rw [if_pos h0, if_pos h0, getElem?_set]
    by_cases hij : j = i
    · rw [if_pos hij, hij, if_pos rfl, if_pos hlt]
      rfl
    · have hne : ¬ i.toNat = j.toNat := by omega
      rw [if_neg hij, if_neg hne]
  · have hne : ¬ j = i := by omega
    rw [if_neg h0, if_neg hne, if_neg h0]

theorem countEdges_append : countEdges (xs ++ [some e]) = countEdges xs + 1 := by
  unfold countEdges
  rw [countP_append]
  rfl

theorem getElem_eq_slotAt (h0 : 0 ≤ i) (hlt : i.toNat < xs.length) : xs[i.toNat] = slotAt xs i := by
  unfold slotAt
  rw [if_pos h0, getElem?_eq_getElem hlt]
  rfl

theorem countEdges_set (hi : InVector i xs) : countEdges (xs.set i.toNat v)
    = countEdges xs - (if (slotAt xs i).isSome then 1 else 0) + if v.isSome then 1 else 0 := by
  unfold countEdges
  rw [countP_set hi.2, getElem_eq_slotAt hi.1 hi.2]

theorem countEdges_pos (h : slotAt xs i = some e) : 0 < countEdges xs := by
  obtain ⟨h0, hlt⟩ := inVector_of_slotAt h
  unfold countEdges
  rw [countP_pos_iff]
  refine ⟨xs[i.toNat], getElem_mem hlt, ?_⟩
  rw [getElem_eq_slotAt h0 hlt, h]
  rfl

theorem slotAt_moveSlot (hi : InVector i xs) (hj : InVector j xs) (index : ℤ) :
    slotAt (FastNode.moveSlot xs i j) index
      = if index = i then none else if index = j then slotAt xs i else slotAt xs index := by
  unfold FastNode.moveSlot
  have hi' : InVector i (xs.set j.toNat (slotAt xs i)) := ⟨hi.1, by rw [length_set]; exact hi.2⟩
  rw [slotAt_set hi', slotAt_set hj]

/-- A move to an empty slot loses no edge. -/
theorem countEdges_moveSlot (hi : InVector i xs) (hj : InVector j xs) (hempty : slotAt xs j = none) :
    countEdges (FastNode.moveSlot xs i j) = countEdges xs := by
  unfold FastNode.moveSlot
  have hi' : InVector i (xs.set j.toNat (slotAt xs i)) := ⟨hi.1, by rw [length_set]; exact hi.2⟩
  rw [countEdges_set hi', countEdges_set hj, slotAt_set hj, hempty]
  cases hx : slotAt xs i with
  | none => simp
  | some e =>
    have hne : ¬ i = j := fun h => by
      rw [h, hempty] at hx
      exact nomatch hx
    simp [hne]

end Slots

theorem sum_modify (l : List ℕ) {p : ℕ} (hp : p < l.length) (g : ℕ → ℕ) :
    (l.modify p g).sum + l.getD p 0 = l.sum + g (l.getD p 0) := by
  induction l generalizing p with
  | nil => exact nomatch hp
  | cons c l ih =>
    cases p with
    | zero =>
      show (g c + l.sum) + c = (c + l.sum) + g c
      omega
    | succ p =>
      have h := ih (Nat.lt_of_succ_lt_succ hp)
      show (c + (l.modify p g).sum) + l.getD p 0 = (c + l.sum) + g (l.getD p 0)
      omega

theorem getD_le_sum (l : List ℕ) (p : ℕ) : l.getD p 0 ≤ l.sum := by
  induction l generalizing p with
  | nil => exact Nat.le_of_eq rfl
  | cons c l ih =>
    cases p with
    | zero =>
      show c ≤ c + l.sum
      omega
    | succ p =>
      have h := ih p
      show l.getD p 0 ≤ c + l.sum
      omega

theorem map_modify {α β : Type*} (l : List α) (p : ℕ) (c : α → β) (f : α → α) (g : β → β)
    (h : ∀ x, l[p]? = some x → c (f x) = g (c x)) :
    (l.modify p f).map c = (l.map c).modify p g := by
  induction l generalizing p with
  | nil => cases p <;> rfl
  | cons x l ih =>
    cases p with
    | zero =>
      show c (f x) :: l.map c = g (c x) :: l.map c
      rw [h x rfl]
    | succ p =>
      show c x :: (l.modify p f).map c = c x :: (l.map c).modify p g
      rw [ih p h]

theorem getD_modify {α : Type*} (l : List α) {p : ℕ} (hp : p < l.length) (f : α → α) (d : α)
    (q : ℕ) : (l.modify p f).getD q d = if q = p then f (l.getD p d) else l.getD q d := by
  rw [getD_eq_getElem?_getD, getElem?_modify, getD_eq_getElem?_getD,
    getD_eq_getElem?_getD]
  by_cases hq : q = p
  · simp [hq, getElem?_eq_getElem hp]
  · have hq' : ¬ p = q := fun h => hq h.symm
    cases l[q]? <;> simp [hq, hq']

/-! ## What the operations do to the slots -/

namespace FastNode

variable {n n' : FastNode} {id : ℕ} {edge edge' : Edge} {p k : ℤ}

theorem checkData_out (hn : n.Counted)
    (h : n.checkDataIndexIsValid p .kDirectionOutType = true) : InVector p n.outDataEdges := by
  unfold checkDataIndexIsValid at h
  rw [Bool.and_eq_true, decide_eq_true_eq, decide_eq_true_eq] at h
  have hle := int32_le n.dataOutNum
  have hlength := hn.out_length
  exact ⟨h.1, by omega⟩

theorem checkData_in (hn : n.Counted)
    (h : n.checkDataIndexIsValid p .kDirectionInType = true) : InVector p n.inDataEdges := by
  unfold checkDataIndexIsValid at h
  rw [Bool.and_eq_true, decide_eq_true_eq, decide_eq_true_eq] at h
  have hle := int32_le n.dataInNum
  have hlength := hn.in_length
  exact ⟨h.1, by omega⟩

theorem outEdges_control (xs : List (Option ℕ)) (count : ℕ) (p : ℤ) :
    ({ n with outControlEdges := xs, outControlEdgesCount := count } : FastNode).outEdges p
      = if p = kControlEdgeIndex then xs else n.outEdges p := by
  unfold outEdges
  split <;> rfl

/-- One vector of the data outputs is rewritten. -/
theorem outEdges_modify {i : ℤ} (hi : InVector i n.outDataEdges)
    (f : List (Option ℕ) → List (Option ℕ)) (total : ℕ) (per : List ℕ) (p : ℤ) :
    ({ n with
        outDataEdges := n.outDataEdges.modify i.toNat f, totalNum := total,
        perEdgesNum := per } : FastNode).outEdges p
      = if p = i then f (n.outEdges i) else n.outEdges p := by
  obtain ⟨h0, hlt⟩ := hi
  have hcontrol : i ≠ kControlEdgeIndex := fun h => by
    rw [h] at h0
    exact absurd h0 (by decide)
  unfold outEdges
  by_cases hp : p = i
  · rw [if_pos hp, hp, if_neg hcontrol, if_pos h0, if_neg hcontrol, if_pos h0,
      getD_modify _ hlt, if_pos rfl]
  rw [if_neg hp]
  split
  · rfl
  · split
    · rename_i hp0
      have hne : p.toNat ≠ i.toNat := by omega
      rw [getD_modify _ hlt, if_neg hne]
    · rfl

theorem Counted.modify (hn : n.Counted) {i : ℤ} (hi : InVector i n.outDataEdges)
    {f : List (Option ℕ) → List (Option ℕ)} {g : ℕ → ℕ} {total : ℕ}
    (hf : countEdges (f (n.outEdges i)) = g (countEdges (n.outEdges i)))
    (htotal : total + countEdges (n.outEdges i) = n.totalNum + g (countEdges (n.outEdges i))) :
    ({ n with
        outDataEdges := n.outDataEdges.modify i.toNat f, totalNum := total,
        perEdgesNum := n.perEdgesNum.modify i.toNat g } : FastNode).Counted := by
  obtain ⟨h0, hlt⟩ := hi
  have hcontrol : i ≠ kControlEdgeIndex := fun h => by
    rw [h] at h0
    exact absurd h0 (by decide)
  have hport : n.outEdges i = n.outDataEdges.getD i.toNat [] := by
    unfold outEdges
    rw [if_neg hcontrol, if_pos h0]
  have hmap : (n.outDataEdges.modify i.toNat f).map countEdges
      = (n.outDataEdges.map countEdges).modify i.toNat g := by
    refine map_modify _ _ _ _ _ fun xs hxs => ?_
    have heq : n.outEdges i = xs := by
      rw [hport, getD_eq_getElem?_getD, hxs]
      rfl
    rw [← heq]
    exact hf
  have hsum := sum_modify (n.outDataEdges.map countEdges) (by rwa [length_map]) g
  have hget : (n.outDataEdges.map countEdges).getD i.toNat 0 = countEdges (n.outEdges i) := by
    rw [hport, getD_eq_getElem?_getD, getElem?_map, getD_eq_getElem?_getD,
      getElem?_eq_getElem hlt]
    rfl
  rw [hget] at hsum
  refine ⟨hn.in_length, ?_, hn.in_data, hn.in_control, hn.out_control, ?_, ?_⟩
  · show (n.outDataEdges.modify i.toNat f).length = n.dataOutNum
    rw [length_modify, hn.out_length]
  · show n.perEdgesNum.modify i.toNat g = (n.outDataEdges.modify i.toNat f).map countEdges
    rw [hmap, hn.per_port]
  · show total = ((n.outDataEdges.modify i.toNat f).map countEdges).sum
    rw [hmap]
    rw [hn.total] at htotal
    omega

def SamePorts (n' n : FastNode) : Prop :=
  n'.dataInNum = n.dataInNum ∧ n'.dataOutNum = n.dataOutNum

theorem SamePorts.check (h : n'.SamePorts n) (p : ℤ) (type : DirectionType) :
    n'.checkDataIndexIsValid p type = n.checkDataIndexIsValid p type := by
  unfold checkDataIndexIsValid
  rw [h.1, h.2]

/-- Edges that come to no other port leave a node sound. -/
theorem Sound.of_slots (hn : n.Sound) (hcounted : n'.Counted) (hports : n'.SamePorts n)
    (hout : ∀ p k e, n'.outSlot p k = some e → (∃ k' e', n.outSlot p k' = some e') ∨
      p = kControlEdgeIndex ∨ n.checkDataIndexIsValid p .kDirectionOutType = true)
    (hin : ∀ p k e, n'.inSlot p k = some e → (∃ k' e', n.inSlot p k' = some e') ∨
      p = kControlEdgeIndex ∨ n.checkDataIndexIsValid p .kDirectionInType = true) : n'.Sound where
  toCounted := hcounted
  valid_out := fun p k e h => by
    rw [hports.check]
    rcases hout p k e h with ⟨k', e', h'⟩ | h
    · exact hn.valid_out p k' e' h'
    · exact h
  valid_in := fun p k e h => by
    rw [hports.check]
    rcases hin p k e h with ⟨k', e', h'⟩ | h
    · exact hn.valid_in p k' e' h'
    · exact h

/-- The edge gets the slot behind the ones of its port. -/
theorem recordEdge_out (hn : n.Counted)
    (h : n.recordEdge id edge .kDirectionOutType = (edge', some n')) :
    n'.Counted ∧ n'.SamePorts n ∧ (edge.srcOutput = kControlEdgeIndex ∨
        n.checkDataIndexIsValid edge.srcOutput .kDirectionOutType = true) ∧
      edge' = { edge with outEdgeIndex := int32 (n.outEdges edge.srcOutput).length } ∧
        (∀ p k, n'.inSlot p k = n.inSlot p k) ∧
          ∀ p k, n'.outSlot p k = if p = edge.srcOutput ∧ k = (n.outEdges edge.srcOutput).length
            then some id else n.outSlot p k := by
  have hslots : ∀ (m : FastNode), (∀ p, m.outEdges p = if p = edge.srcOutput then
      n.outEdges edge.srcOutput ++ [some id] else n.outEdges p) → ∀ p k, m.outSlot p k
        = if p = edge.srcOutput ∧ k = (n.outEdges edge.srcOutput).length then some id
          else n.outSlot p k := by
    intro m hm p k
    unfold outSlot
    rw [hm]
    by_cases hp : p = edge.srcOutput
    · rw [if_pos hp, slotAt_append, hp]
      simp only [true_and]
    · rw [if_neg hp, if_neg fun h => hp h.1]
  unfold recordEdge at h
  simp only at h
  split at h
  · rename_i hcontrol
    have hport : n.outEdges edge.srcOutput = n.outControlEdges := by
      unfold outEdges
      rw [if_pos hcontrol]
    obtain ⟨hedge, hnode⟩ := Prod.mk.inj h
    rw [← some.inj hnode, ← hedge, hport]
    refine ⟨?_, ⟨rfl, rfl⟩, .inl hcontrol, rfl, fun _ _ => rfl, ?_⟩
    · refine ⟨hn.in_length, hn.out_length, hn.in_data, hn.in_control, ?_, hn.per_port, hn.total⟩
      rw [hn.out_control]
      exact countEdges_append.symm
    · rw [← hport]
      refine hslots _ fun p => ?_
      rw [outEdges_control, hcontrol]
  · rename_i hcontrol
    split at h
    · exact nomatch (Prod.mk.inj h).2
    · obtain ⟨hedge, hnode⟩ := Prod.mk.inj h
      unfold recordOutDataEdge at hnode
      split at hnode
      · exact nomatch hnode
      · rename_i hvalid
        have hi := checkData_out hn (Decidable.of_not_not hvalid)
        have hport : n.outEdges edge.srcOutput
            = n.outDataEdges.getD edge.srcOutput.toNat [] := by
          unfold outEdges
          rw [if_neg hcontrol, if_pos hi.1]
        rw [← some.inj hnode, ← hedge, hport]
        refine ⟨?_, ⟨rfl, rfl⟩, .inr (Decidable.of_not_not hvalid), rfl, fun _ _ => rfl, ?_⟩
        · refine hn.modify hi countEdges_append ?_
          show n.totalNum + 1 + _ = n.totalNum + (_ + 1)
          omega
        · rw [← hport]
          exact hslots _ (outEdges_modify hi _ _ _)

/-- The slot of a control edge, or of a data input. -/
theorem recordEdge_in (hn : n.Counted)
    (h : n.recordEdge id edge .kDirectionInType = (edge', some n')) :
    n'.Counted ∧ n'.SamePorts n ∧ (edge.dstInput = kControlEdgeIndex ∨
        n.checkDataIndexIsValid edge.dstInput .kDirectionInType = true) ∧
      edge' = { edge with
        inEdgeIndex := if edge.dstInput = kControlEdgeIndex then int32 n.inControlEdges.length
          else 0 } ∧
        (∀ p k, n'.outSlot p k = n.outSlot p k) ∧
          (edge.dstInput ≠ kControlEdgeIndex → ∀ k, n.inSlot edge.dstInput k = none) ∧
          ∀ p k, n'.inSlot p k = if p = edge.dstInput ∧
              (p = kControlEdgeIndex → k = n.inControlEdges.length)
            then some id else n.inSlot p k := by
  unfold recordEdge at h
  simp only at h
  split at h
  · rename_i hcontrol
    obtain ⟨hedge, hnode⟩ := Prod.mk.inj h
    rw [← some.inj hnode, ← hedge, if_pos hcontrol]
    refine ⟨?_, ⟨rfl, rfl⟩, .inl hcontrol, rfl, fun _ _ => rfl, fun h => absurd hcontrol h,
      fun p k => ?_⟩
    · refine ⟨hn.in_length, hn.out_length, hn.in_data, ?_, hn.out_control, hn.per_port, hn.total⟩
      rw [hn.in_control]
      exact countEdges_append.symm
    · unfold inSlot
      rw [hcontrol]
      by_cases hp : p = kControlEdgeIndex
      · rw [if_pos hp, if_pos hp, slotAt_append]
        exact if_congr ⟨fun h => ⟨hp, fun _ => h⟩, fun h => h.2 hp⟩ rfl rfl
      · rw [if_neg hp, if_neg hp, if_neg fun h => hp h.1]
  · rename_i hcontrol
    obtain ⟨hedge, hnode⟩ := Prod.mk.inj h
    unfold recordInDataEdge at hnode
    split at hnode
    · exact nomatch hnode
    · rename_i hvalid
      have hi := checkData_in hn (Decidable.of_not_not hvalid)
      split at hnode
      · exact nomatch hnode
      · rename_i hempty
        have hempty := Decidable.of_not_not hempty
        rw [← some.inj hnode, ← hedge, if_neg hcontrol]
        refine ⟨?_, ⟨rfl, rfl⟩, .inr (Decidable.of_not_not hvalid), rfl, fun _ _ => rfl,
          fun _ k => ?_, fun p k => ?_⟩
        · refine ⟨(length_set).trans hn.in_length, hn.out_length, ?_, hn.in_control,
            hn.out_control, hn.per_port, hn.total⟩
          show n.inDataEdgesCount + 1 = countEdges (n.inDataEdges.set _ (some id))
          rw [countEdges_set hi, hempty, hn.in_data]
          rfl
        · unfold inSlot
          rw [if_neg hcontrol]
          exact hempty
        · unfold inSlot
          by_cases hp : p = kControlEdgeIndex
          · rw [if_pos hp, if_pos hp, if_neg fun h => hcontrol (h.1.symm.trans hp)]
          · rw [if_neg hp, if_neg hp, slotAt_set hi]
            exact if_congr ⟨fun h => ⟨h, fun h => absurd h hp⟩, And.left⟩ rfl rfl

theorem outEdges_of_valid (h : n.checkDataIndexIsValid p .kDirectionOutType = true) :
    n.outEdges p = n.outDataEdges.getD p.toNat [] := by
  unfold checkDataIndexIsValid at h
  rw [Bool.and_eq_true, decide_eq_true_eq, decide_eq_true_eq] at h
  have hcontrol : p ≠ kControlEdgeIndex := fun hp => by
    rw [hp] at h
    exact absurd h.1 (by decide)
  unfold outEdges
  rw [if_neg hcontrol, if_pos h.1]

/-- An edge that is recorded can be erased, its slot stays behind. -/
theorem eraseEdge_out (hn : n.Sound) (h : n.outSlot edge.srcOutput edge.outEdgeIndex = some id) :
    ∃ n', n.eraseEdge id edge .kDirectionOutType = some n' ∧ n'.Counted ∧ n'.SamePorts n ∧
      (∀ p k, n'.inSlot p k = n.inSlot p k) ∧
        ∀ p k, n'.outSlot p k = if p = edge.srcOutput ∧ k = edge.outEdgeIndex then none
          else n.outSlot p k := by
  have hindex := inVector_of_slotAt h
  have hcount : countEdges ((n.outEdges edge.srcOutput).set edge.outEdgeIndex.toNat none)
      = countEdges (n.outEdges edge.srcOutput) - 1 := by
    rw [countEdges_set hindex, show slotAt _ _ = some id from h]
    rfl
  have hpos := countEdges_pos h
  have hslots : ∀ (m : FastNode), (∀ p, m.outEdges p = if p = edge.srcOutput then
      (n.outEdges edge.srcOutput).set edge.outEdgeIndex.toNat none else n.outEdges p) →
      ∀ p k, m.outSlot p k = if p = edge.srcOutput ∧ k = edge.outEdgeIndex then none
        else n.outSlot p k := by
    intro m hm p k
    unfold outSlot
    rw [hm]
    by_cases hp : p = edge.srcOutput
    · rw [if_pos hp, slotAt_set hindex, hp]
      simp only [true_and]
    · rw [if_neg hp, if_neg fun h => hp h.1]
  unfold eraseEdge
  simp only
  by_cases hcontrol : edge.srcOutput = kControlEdgeIndex
  · have hport : n.outEdges edge.srcOutput = n.outControlEdges := by
      unfold outEdges
      rw [if_pos hcontrol]
    unfold outSlot at h
    rw [hport] at h hindex hcount hpos
    rw [if_pos hcontrol]
    unfold eraseOutControlEdge
    rw [if_pos ⟨hindex, h⟩]
    refine ⟨_, rfl, ?_, ⟨rfl, rfl⟩, fun _ _ => rfl, ?_⟩
    · refine ⟨hn.in_length, hn.out_length, hn.in_data, hn.in_control, ?_, hn.per_port, hn.total⟩
      rw [hn.out_control]
      exact hcount.symm
    · refine hslots _ fun p => ?_
      rw [outEdges_control, hport, hcontrol]
  · have hvalid := (hn.valid_out _ _ _ h).resolve_left hcontrol
    have hport := outEdges_of_valid hvalid
    have hi := checkData_out hn.toCounted hvalid
    unfold outSlot at h
    rw [if_neg hcontrol]
    unfold eraseOutDataEdge
    rw [if_neg (not_not_intro hvalid), ← hport, if_pos ⟨hindex, h⟩]
    refine ⟨_, rfl, ?_, ⟨rfl, rfl⟩, fun _ _ => rfl, ?_⟩
    · refine hn.toCounted.modify hi hcount ?_
      have htotal : countEdges (n.outEdges edge.srcOutput) ≤ n.totalNum := by
        have hle := getD_le_sum (n.outDataEdges.map countEdges) edge.srcOutput.toNat
        rw [getD_eq_getElem?_getD, getElem?_map, getElem?_eq_getElem hi.2] at hle
        rw [hn.total, hport, getD_eq_getElem?_getD, getElem?_eq_getElem hi.2]
        exact hle
      omega
    · exact hslots _ (outEdges_modify hi _ _ _)

theorem eraseEdge_in (hn : n.Sound) (h : n.inSlot edge.dstInput edge.inEdgeIndex = some id) :
    ∃ n', n.eraseEdge id edge .kDirectionInType = some n' ∧ n'.Counted ∧ n'.SamePorts n ∧
      (∀ p k, n'.outSlot p k = n.outSlot p k) ∧
        ∀ p k, n'.inSlot p k = if p = edge.dstInput ∧
            (p = kControlEdgeIndex → k = edge.inEdgeIndex) then none else n.inSlot p k := by
  unfold eraseEdge
  simp only
  by_cases hcontrol : edge.dstInput = kControlEdgeIndex
  · unfold inSlot at h
    rw [if_pos hcontrol] at h
    have hindex := inVector_of_slotAt h
    rw [if_pos hcontrol]
    unfold eraseInControlEdge
    rw [if_pos ⟨hindex, h⟩]
    refine ⟨_, rfl, ?_, ⟨rfl, rfl⟩, fun _ _ => rfl, fun p k => ?_⟩
    · refine ⟨hn.in_length, hn.out_length, hn.in_data, ?_, hn.out_control, hn.per_port, hn.total⟩
      show n.inControlEdgeCount - 1 = countEdges (n.inControlEdges.set _ none)
      rw [countEdges_set hindex, h, hn.in_control]
      rfl
    · unfold inSlot
      rw [hcontrol]
      by_cases hp : p = kControlEdgeIndex
      · rw [if_pos hp, if_pos hp, slotAt_set hindex]
        exact if_congr ⟨fun h => ⟨hp, fun _ => h⟩, fun h => h.2 hp⟩ rfl rfl
      · rw [if_neg hp, if_neg hp, if_neg fun h => hp h.1]
  · have hvalid := (hn.valid_in _ _ _ h).resolve_left hcontrol
    have hi := checkData_in hn.toCounted hvalid
    unfold inSlot at h
    rw [if_neg hcontrol] at h
    rw [if_neg hcontrol]
    unfold eraseInDataEdge
    rw [if_neg (not_not_intro hvalid), if_pos h]
    refine ⟨_, rfl, ?_, ⟨rfl, rfl⟩, fun _ _ => rfl, fun p k => ?_⟩
    · refine ⟨(length_set).trans hn.in_length, hn.out_length, ?_, hn.in_control,
        hn.out_control, hn.per_port, hn.total⟩
      show n.inDataEdgesCount - 1 = countEdges (n.inDataEdges.set _ none)
      rw [countEdges_set hi, h, hn.in_data]
      rfl
    · unfold inSlot
      by_cases hp : p = kControlEdgeIndex
      · rw [if_pos hp, if_pos hp, if_neg fun h => hcontrol (h.1.symm.trans hp)]
      · rw [if_neg hp, if_neg hp, slotAt_set hi]
        exact if_congr ⟨fun h => ⟨h, fun h => absurd h hp⟩, And.left⟩ rfl rfl

variable {io cur rep : ℤ}

theorem check_out (h : n.checkAllInputParamter .kDirectionOutType io cur rep = true) :
    (io = kControlEdgeIndex ∨ (0 ≤ io ∧ io.toNat < n.dataOutNum)) ∧
      InVector cur (n.outEdges io) ∧ InVector rep (n.outEdges io) := by
  unfold checkAllInputParamter at h
  simp only at h
  split at h
  · exact absurd h Bool.false_ne_true
  · rename_i hlow
    split at h
    · exact absurd h Bool.false_ne_true
    · rename_i hport
      rw [Bool.and_eq_true, decide_eq_true_eq, decide_eq_true_eq] at h
      unfold outEdges
      split at h
      · rename_i hcontrol
        rw [if_pos hcontrol]
        exact ⟨.inl hcontrol, h.2, h.1⟩
      · rename_i hcontrol
        have h0 : 0 ≤ io := by
          have hne : io ≠ -1 := hcontrol
          omega
        rw [if_neg hcontrol, if_pos h0]
        refine ⟨.inr ⟨h0, ?_⟩, h.2, h.1⟩
        exact Nat.not_le.mp fun hle => hport ⟨hcontrol, hle⟩

theorem check_in {cur rep : ℤ}
    (h : n.checkAllInputParamter .kDirectionInType kControlEdgeIndex cur rep = true) :
    InVector cur n.inControlEdges ∧ InVector rep n.inControlEdges := by
  unfold checkAllInputParamter at h
  simp only at h
  split at h
  · exact absurd h Bool.false_ne_true
  · split at h
    · exact absurd h Bool.false_ne_true
    · rw [if_pos trivial, Bool.and_eq_true, decide_eq_true_eq, decide_eq_true_eq] at h
      exact ⟨h.2, h.1⟩

variable {moved : Option ℕ}

/-- A move to an empty slot. -/
theorem moveEdge_out (hn : n.Sound)
    (h : n.moveEdge .kDirectionOutType io cur rep = some (n', moved))
    (hempty : n.outSlot io rep = none) :
    n'.Counted ∧ n'.SamePorts n ∧ (∀ p k, n'.inSlot p k = n.inSlot p k) ∧
      moved = n.outSlot io cur ∧
        ∀ p k, n'.outSlot p k = if p = io then
            if k = cur then none else if k = rep then n.outSlot io cur else n.outSlot io k
          else n.outSlot p k := by
  unfold moveEdge at h
  split at h
  · exact nomatch h
  · rename_i hcheck
    obtain ⟨hio, hcur, hrep⟩ := check_out (Decidable.of_not_not hcheck)
    have hmoved : slotAt (moveSlot (n.outEdges io) cur rep) rep = n.outSlot io cur := by
      rw [slotAt_moveSlot hcur hrep]
      by_cases heq : rep = cur
      · rw [if_pos heq, ← heq, hempty]
      · rw [if_neg heq, if_pos rfl]
        rfl
    have hcount := countEdges_moveSlot hcur hrep hempty
    have hslots : ∀ (m : FastNode), (∀ p, m.outEdges p = if p = io then
        moveSlot (n.outEdges io) cur rep else n.outEdges p) → ∀ p k, m.outSlot p k
          = if p = io then
              if k = cur then none else if k = rep then n.outSlot io cur else n.outSlot io k
            else n.outSlot p k := by
      intro m hm p k
      unfold outSlot
      rw [hm]
      by_cases hp : p = io
      · rw [if_pos hp, if_pos hp, slotAt_moveSlot hcur hrep]
      · rw [if_neg hp, if_neg hp]
    simp only at h
    split at h
    · rename_i hcontrol
      have hport : n.outEdges io = n.outControlEdges := by
        unfold outEdges
        rw [if_pos hcontrol]
      obtain ⟨hnode, hedge⟩ := Prod.mk.inj (some.inj h)
      rw [← hnode, ← hedge, ← hport]
      refine ⟨?_, ⟨rfl, rfl⟩, fun _ _ => rfl, hmoved, hslots _ fun p => ?_⟩
      · refine ⟨hn.in_length, hn.out_length, hn.in_data, hn.in_control, ?_, hn.per_port, hn.total⟩
        show n.outControlEdgesCount = countEdges (moveSlot (n.outEdges io) cur rep)
        rw [hcount, hport, hn.out_control]
      · rw [hcontrol]
        exact outEdges_control _ n.outControlEdgesCount p
    · rename_i hcontrol
      have hi : InVector io n.outDataEdges := by
        rw [InVector, hn.out_length]
        exact hio.resolve_left hcontrol
      have hport : n.outEdges io = n.outDataEdges.getD io.toNat [] := by
        unfold outEdges
        rw [if_neg hcontrol, if_pos hi.1]
      obtain ⟨hnode, hedge⟩ := Prod.mk.inj (some.inj h)
      rw [← hnode, ← hedge, ← hport, set_eq_modify]
      refine ⟨?_, ⟨rfl, rfl⟩, fun _ _ => rfl, hmoved, hslots _ (outEdges_modify hi _ _ _)⟩
      have hmodify := hn.toCounted.modify (g := id) hi (f := fun _ =>
        moveSlot (n.outEdges io) cur rep) hcount (by rw [id])
      rw [modify_id] at hmodify
      exact hmodify

theorem moveEdge_in (hn : n.Sound) (h : n.moveEdge .kDirectionInType io cur rep = some (n', moved))
    (hempty : io = kControlEdgeIndex → n.inSlot io rep = none) :
    n'.Counted ∧ n'.SamePorts n ∧ (∀ p k, n'.outSlot p k = n.outSlot p k) ∧
      moved = (if io = kControlEdgeIndex then n.inSlot io cur else none) ∧
        ∀ p k, n'.inSlot p k = if p = io ∧ io = kControlEdgeIndex then
            if k = cur then none else if k = rep then n.inSlot io cur else n.inSlot io k
          else n.inSlot p k := by
  unfold moveEdge at h
  split at h
  · exact nomatch h
  · rename_i hcheck
    simp only at h
    split at h
    · rename_i hcontrol
      rw [hcontrol] at hcheck
      obtain ⟨hcur, hrep⟩ := check_in (Decidable.of_not_not hcheck)
      have hslot : ∀ k, n.inSlot io k = slotAt n.inControlEdges k := by
        intro k
        unfold inSlot
        rw [if_pos hcontrol]
      have hempty := hempty hcontrol
      rw [hslot] at hempty
      obtain ⟨hnode, hedge⟩ := Prod.mk.inj (some.inj h)
      rw [← hnode, ← hedge, if_pos hcontrol]
      refine ⟨?_, ⟨rfl, rfl⟩, fun _ _ => rfl, ?_, fun p k => ?_⟩
      · refine ⟨hn.in_length, hn.out_length, hn.in_data, ?_, hn.out_control, hn.per_port, hn.total⟩
        show n.inControlEdgeCount = countEdges (moveSlot n.inControlEdges cur rep)
        rw [countEdges_moveSlot hcur hrep hempty, hn.in_control]
      · rw [slotAt_moveSlot hcur hrep, hslot]
        by_cases heq : rep = cur
        · rw [if_pos heq, ← heq, hempty]
        · rw [if_neg heq, if_pos rfl]
      · rw [hslot, hslot]
        unfold inSlot
        by_cases hp : p = kControlEdgeIndex
        · rw [if_pos hp, if_pos ⟨hp.trans hcontrol.symm, hcontrol⟩, slotAt_moveSlot hcur hrep]
        · rw [if_neg hp, if_neg hp, if_neg fun h => hp (h.1.trans h.2)]
    · rename_i hcontrol
      obtain ⟨hnode, hedge⟩ := Prod.mk.inj (some.inj h)
      rw [← hnode, ← hedge, if_neg hcontrol]
      refine ⟨hn.toCounted, ⟨rfl, rfl⟩, fun _ _ => rfl, rfl, fun p k => ?_⟩
      rw [if_neg fun h => hcontrol h.2]

theorem outSlot_init (ins outs : ℕ) : (init hasNode isData ins outs).outSlot p k = none := by
  have hnil : (init hasNode isData ins outs).outEdges p = [] := by
    unfold outEdges init
    simp only
    split
    · rfl
    · split
      · rw [getD_eq_getElem?_getD, getElem?_replicate]
        split <;> rfl
      · rfl
  unfold outSlot slotAt
  rw [hnil]
  split <;> rfl

theorem inSlot_init (ins outs : ℕ) : (init hasNode isData ins outs).inSlot p k = none := by
  unfold inSlot slotAt init
  simp only
  split
  · split <;> rfl
  · split
    · rw [getElem?_replicate]
      split <;> rfl
    · rfl

theorem sound_init (ins outs : ℕ) : (init hasNode isData ins outs).Sound where
  in_length := length_replicate
  out_length := length_replicate
  in_data := by
    show 0 = (replicate ins none).countP Option.isSome
    rw [countP_replicate]
    rfl
  in_control := rfl
  out_control := rfl
  per_port := by
    show replicate outs 0 = (replicate outs []).map countEdges
    rw [map_replicate]
    rfl
  total := by
    show 0 = ((replicate outs []).map countEdges).sum
    rw [map_replicate]
    show 0 = (replicate outs 0).sum
    induction outs with
    | zero => rfl
    | succ outs ih =>
      show 0 = 0 + (replicate outs 0).sum
      rw [← ih]
  valid_out := fun p k e h => by
    rw [outSlot_init] at h
    exact nomatch h
  valid_in := fun p k e h => by
    rw [inSlot_init] at h
    exact nomatch h

theorem outSlot_length (n : FastNode) (p : ℤ) : n.outSlot p (n.outEdges p).length = none := by
  unfold outSlot slotAt
  split
  · rw [getElem?_eq_none (Nat.le_of_eq (Int.toNat_natCast _).symm)]
    rfl
  · rfl

/-- An input that refuses an edge leaves alone what the edge knows of its source. -/
theorem recordEdge_in_none (h : n.recordEdge id edge .kDirectionInType = (edge', none)) :
    edge'.srcOutput = edge.srcOutput ∧ edge'.outEdgeIndex = edge.outEdgeIndex := by
  unfold recordEdge at h
  simp only at h
  split at h
  · exact nomatch (Prod.mk.inj h).2
  · rw [← (Prod.mk.inj h).1]
    exact ⟨rfl, rfl⟩

/-- An edge that is taken back leaves the counters as they were. -/
theorem counters_rollBack {edge1 edge2 : Edge} {n1 n2 : FastNode}
    (h1 : n.recordEdge id edge .kDirectionOutType = (edge1, some n1))
    (hsame : edge2.srcOutput = edge1.srcOutput)
    (h2 : n1.eraseEdge id edge2 .kDirectionOutType = some n2) : n2.counters = n.counters := by
  unfold recordEdge at h1
  unfold eraseEdge at h2
  simp only at h1 h2
  split at h1
  · rename_i hcontrol
    obtain ⟨hedge, hnode⟩ := Prod.mk.inj h1
    rw [hsame, ← hedge, if_pos hcontrol, ← some.inj hnode] at h2
    unfold eraseOutControlEdge at h2
    split at h2
    · rw [← some.inj h2]
      unfold counters
      simp only [Nat.add_sub_cancel]
    · exact nomatch h2
  · rename_i hcontrol
    split at h1
    · exact nomatch (Prod.mk.inj h1).2
    · obtain ⟨hedge, hnode⟩ := Prod.mk.inj h1
      rw [hsame, ← hedge, if_neg hcontrol] at h2
      unfold recordOutDataEdge at hnode
      split at hnode
      · exact nomatch hnode
      · rw [← some.inj hnode] at h2
        unfold eraseOutDataEdge at h2
        split at h2
        · exact nomatch h2
        · split at h2
          · rw [← some.inj h2]
            unfold counters
            have hback : (n.perEdgesNum.modify edge.srcOutput.toNat fun c => c + 1).modify
                edge.srcOutput.toNat (fun c => c - 1) = n.perEdgesNum := by
              rw [modify_modify_eq]
              exact modify_id _ _
            simp only [Nat.add_sub_cancel, hback]
          · exact nomatch h2

theorem inControlEdges_recordEdge (h : n.recordEdge id edge .kDirectionOutType = (edge', some n')) :
    n'.inControlEdges = n.inControlEdges := by
  unfold recordEdge at h
  simp only at h
  split at h
  · rw [← some.inj (Prod.mk.inj h).2]
  · split at h
    · exact nomatch (Prod.mk.inj h).2
    · have hnode := (Prod.mk.inj h).2
      unfold recordOutDataEdge at hnode
      split at hnode
      · exact nomatch hnode
      · rw [← some.inj hnode]

/-- The target of a move holds what the other slot held, also when it held an edge before. -/
theorem outSlot_moveEdge (h : n.moveEdge .kDirectionOutType io cur rep = some (n', moved)) :
    n'.outSlot io rep = moved ∧ moved = if rep = cur then none else n.outSlot io cur := by
  unfold moveEdge at h
  split at h
  · exact nomatch h
  · rename_i hcheck
    obtain ⟨hio, hcur, hrep⟩ := check_out (Decidable.of_not_not hcheck)
    have hslot : slotAt (moveSlot (n.outEdges io) cur rep) rep
        = if rep = cur then none else n.outSlot io cur := by
      rw [slotAt_moveSlot hcur hrep, if_pos rfl]
      rfl
    simp only at h
    split at h
    · rename_i hcontrol
      have hport : n.outEdges io = n.outControlEdges := by
        unfold outEdges
        rw [if_pos hcontrol]
      obtain ⟨hnode, hmoved⟩ := Prod.mk.inj (Option.some.inj h)
      rw [hport] at hslot
      refine ⟨?_, hmoved.symm.trans hslot⟩
      rw [← hmoved, ← hnode]
      unfold outSlot outEdges
      rw [if_pos hcontrol]
    · rename_i hcontrol
      obtain ⟨h0, hlt⟩ := hio.resolve_left hcontrol
      have hport : n.outEdges io = n.outDataEdges.getD io.toNat [] := by
        unfold outEdges
        rw [if_neg hcontrol, if_pos h0]
      obtain ⟨hnode, hmoved⟩ := Prod.mk.inj (Option.some.inj h)
      rw [hport] at hslot hrep
      refine ⟨?_, hmoved.symm.trans hslot⟩
      rw [← hmoved, ← hnode]
      have hlen : io.toNat < n.outDataEdges.length := by
        by_contra hge
        have hlt := hrep.2
        rw [getD_eq_getElem?_getD, getElem?_eq_none (Nat.not_lt.mp hge)] at hlt
        exact nomatch hlt
      unfold outSlot outEdges
      rw [if_neg hcontrol, if_pos h0]
      congr 1
      show (n.outDataEdges.set io.toNat _).getD io.toNat [] = _
      rw [getD_eq_getElem?_getD, getElem?_set, if_pos rfl, if_pos hlen]
      rfl

theorem inSlot_moveEdge {cur rep : ℤ}
    (h : n.moveEdge .kDirectionInType kControlEdgeIndex cur rep = some (n', moved)) :
    n'.inSlot kControlEdgeIndex rep = moved ∧
      moved = if rep = cur then none else n.inSlot kControlEdgeIndex cur := by
  unfold moveEdge at h
  split at h
  · exact nomatch h
  · rename_i hcheck
    obtain ⟨hcur, hrep⟩ := check_in (Decidable.of_not_not hcheck)
    simp only at h
    rw [if_pos trivial] at h
    obtain ⟨hnode, hmoved⟩ := Prod.mk.inj (some.inj h)
    refine ⟨?_, hmoved.symm.trans ?_⟩
    · rw [← hmoved, ← hnode]
      unfold inSlot
      rw [if_pos rfl]
    · unfold inSlot
      rw [if_pos rfl, slotAt_moveSlot hcur hrep, if_pos rfl]

end FastNode

end GraphAutofusion.GraphMetadef
