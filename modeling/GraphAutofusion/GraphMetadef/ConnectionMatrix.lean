import GraphAutofusion.GraphMetadef.LargeBitmap
import Mathlib.Data.List.Nodup
import Mathlib.Logic.Relation

/-!
# GraphMetadef.ConnectionMatrix — reachability kept in bit maps

Row `j` of the matrix holds the nodes from which node `j` is reached. The rows are filled in the
order of the node list, and or-ed when nodes are fused. A matrix is tied to a relation between
nodes by `Represents`, and every operation says which relation it represents afterwards.
-/

namespace GraphAutofusion.GraphMetadef

open Relation List

variable {Name : Type*}

/-- The direct nodes of a graph in topological order, with their data and control inputs. -/
structure ComputeGraph (Name : Type*) where
  directNode : List Name
  inAllNodes : Name → List Name
  nodup : directNode.Nodup
  sorted : ∀ earlier n later, directNode = earlier ++ n :: later →
    ∀ a ∈ inAllNodes n, a ∈ earlier

structure ConnectionMatrix (Name : Type*) where
  size : ℕ
  used : ℕ
  bitMaps : List LargeBitmap
  nameToIndex : Name → Option ℕ

variable [DecidableEq Name]

namespace ComputeGraph

def outAllNodes (g : ComputeGraph Name) (n : Name) : List Name :=
  g.directNode.filter fun b => n ∈ g.inAllNodes b

def Edge (g : ComputeGraph Name) (a b : Name) : Prop := b ∈ g.directNode ∧ a ∈ g.inAllNodes b

end ComputeGraph

namespace ConnectionMatrix

def expandStep : ℕ := 64

def ofGraph (g : ComputeGraph Name) : ConnectionMatrix Name where
  size := g.directNode.length
  used := g.directNode.length
  bitMaps := replicate g.directNode.length (LargeBitmap.ofSize g.directNode.length)
  nameToIndex := fun a => g.directNode.idxOf? a

/-- An unknown name gets the first index. -/
def getIndex (M : ConnectionMatrix Name) (a : Name) : ℕ := (M.nameToIndex a).getD 0

def getBitMap (M : ConnectionMatrix Name) (i : ℕ) : LargeBitmap :=
  M.bitMaps.getD i (LargeBitmap.ofSize 0)

def setBitMap (M : ConnectionMatrix Name) (i : ℕ) (row : LargeBitmap) : ConnectionMatrix Name :=
  { M with bitMaps := M.bitMaps.set i row }

def isConnected (M : ConnectionMatrix Name) (a b : Name) : Bool :=
  (M.getBitMap (M.getIndex b)).getBit (M.getIndex a)

def setConnectivity (M : ConnectionMatrix Name) (inputs : List Name) (node : Name) :
    ConnectionMatrix Name :=
  let bitmap := M.getBitMap (M.getIndex node)
  let cleared := if node ∈ inputs then bitmap else bitmap.setValues 0
  let own := cleared.setBit (M.getIndex node)
  M.setBitMap (M.getIndex node)
    (inputs.foldl (fun row input =>
      if input ≠ node then row.or (M.getBitMap (M.getIndex input)) else row) own)

def generate (M : ConnectionMatrix Name) (g : ComputeGraph Name) : ConnectionMatrix Name :=
  g.directNode.foldl (fun M node => M.setConnectivity (g.inAllNodes node) node) M

def addNode (M : ConnectionMatrix Name) (opName : Name) : ConnectionMatrix Name :=
  let grown :=
    if M.used + 1 ≥ M.size then
      let newSize := M.size + expandStep
      let resized := (M.bitMaps.map fun m => m.resizeBits newSize).takeD newSize
        (LargeBitmap.ofSize newSize)
      -- the rows that no node uses yet are cleared
      { M with
        size := newSize
        bitMaps := resized.take M.used ++ (resized.drop M.used).map fun m => m.setValues 0 }
    else M
  { grown with
    used := M.used + 1
    nameToIndex := Function.update M.nameToIndex opName (some M.used) }

/-- One after the other, the rows that have a bit of a fused node get all bits of the vector. -/
def orRows (M : ConnectionMatrix Name) (fusionIndexs : List ℕ) (vector : LargeBitmap)
    (rows : List ℕ) : ConnectionMatrix Name :=
  rows.foldl (fun M i =>
    if fusionIndexs.any fun f => (M.getBitMap i).getBit f then
      M.setBitMap i ((M.getBitMap i).or vector)
    else M) M

def orBitMaps (M : ConnectionMatrix Name) (vector : LargeBitmap) (indexs : List ℕ) : LargeBitmap :=
  indexs.foldl (fun vector i => vector.or (M.getBitMap i)) vector

def update (M : ConnectionMatrix Name) (g : ComputeGraph Name) (fusionNodes : List Name) :
    ConnectionMatrix Name :=
  let indexs := fusionNodes.map M.getIndex
  let vector := M.orBitMaps ((LargeBitmap.ofSize g.directNode.length).setValues 0) indexs
  M.orRows indexs vector (g.directNode.map M.getIndex)

def expandAndUpdate (M : ConnectionMatrix Name) (fusionNodes : List Name) (nodeName : Name) :
    ConnectionMatrix Name :=
  let newIndex := M.used
  let grown := M.addNode nodeName
  let indexs := fusionNodes.map grown.getIndex
  let vector := grown.orBitMaps ((grown.getBitMap newIndex).setBit newIndex) indexs
  (grown.setBitMap newIndex vector).orRows indexs vector (range grown.used)

/-! ## The relation that a matrix represents -/

/-- The nodes of the matrix are `known`, in the order of their indices. -/
structure Represents (M : ConnectionMatrix Name) (known : List Name) (R : Name → Name → Prop) :
    Prop where
  nodup : known.Nodup
  used_eq : M.used = known.length
  used_le : M.used ≤ M.size
  length_eq : M.bitMaps.length = M.size
  index_eq : ∀ a, M.nameToIndex a = known.idxOf? a
  row : ∀ m ∈ M.bitMaps, m.size = M.size ∧ m.WellSized
  bit : ∀ i j, (M.getBitMap j).rawBit i = true ↔
    ∃ a b, known[i]? = some a ∧ known[j]? = some b ∧ R a b

/-- No access to the bit of a node leaves the bit maps. -/
def InRange (M : ConnectionMatrix Name) (known : List Name) : Prop :=
  ∀ a ∈ known, ∀ b ∈ known, ∃ row, M.bitMaps[M.getIndex b]? = some row ∧
    M.getIndex a < row.size ∧ M.getIndex a / kBitsEachValue < row.bits.length

variable {M : ConnectionMatrix Name} {known F : List Name} {R R' : Name → Name → Prop} {a b : Name}
  {g : ComputeGraph Name} {row vector : LargeBitmap} {i j : ℕ}

omit [DecidableEq Name] in
theorem getBitMap_eq (h : j < M.bitMaps.length) : M.bitMaps[j]? = some (M.getBitMap j) := by
  unfold getBitMap
  rw [getD_eq_getElem?_getD, getElem?_eq_getElem h]
  rfl

omit [DecidableEq Name] in
theorem getBitMap_mem (h : j < M.bitMaps.length) : M.getBitMap j ∈ M.bitMaps :=
  mem_of_getElem? (getBitMap_eq h)

omit [DecidableEq Name] in
theorem getBitMap_setBitMap (h : j < M.bitMaps.length) :
    (M.setBitMap j row).getBitMap i = if i = j then row else M.getBitMap i := by
  unfold getBitMap setBitMap
  simp only
  rw [getD_eq_getElem?_getD, getElem?_set, getD_eq_getElem?_getD]
  by_cases hij : i = j
  · rw [if_pos hij.symm, if_pos h, if_pos hij]
    rfl
  · rw [if_neg fun h => hij h.symm, if_neg hij]

namespace Represents

variable (hM : M.Represents known R)

include hM

theorem mono (h : ∀ a ∈ known, ∀ b ∈ known, (R a b ↔ R' a b)) : M.Represents known R' where
  nodup := hM.nodup
  used_eq := hM.used_eq
  used_le := hM.used_le
  length_eq := hM.length_eq
  index_eq := hM.index_eq
  row := hM.row
  bit := fun i j => by
    rw [hM.bit i j]
    constructor
    · rintro ⟨a, b, ha, hb, hR⟩
      exact ⟨a, b, ha, hb,
        (h a (mem_of_getElem? ha) b (mem_of_getElem? hb)).mp hR⟩
    · rintro ⟨a, b, ha, hb, hR⟩
      exact ⟨a, b, ha, hb,
        (h a (mem_of_getElem? ha) b (mem_of_getElem? hb)).mpr hR⟩

theorem getIndex_eq (ha : known[i]? = some a) : M.getIndex a = i := by
  unfold getIndex
  rw [hM.index_eq]
  obtain ⟨hi, hget⟩ := List.getElem?_eq_some_iff.mp ha
  have hidx : known.idxOf? a = some i := by
    rw [idxOf?_eq_some_iff]
    refine ⟨hi, hget, fun j hj hja => ?_⟩
    have hji := hM.nodup.getElem_inj_iff.mp (hja.trans hget.symm)
    omega
  rw [hidx]
  rfl

theorem getElem?_getIndex (ha : a ∈ known) : known[M.getIndex a]? = some a := by
  obtain ⟨i, hi⟩ := getElem?_of_mem ha
  rw [hM.getIndex_eq hi]
  exact hi

theorem lt_length (hj : known[j]? = some b) : j < M.bitMaps.length := by
  have hlt : j < known.length := (List.getElem?_eq_some_iff.mp hj).1
  have hle := hM.used_le
  rw [hM.used_eq] at hle
  rw [hM.length_eq]
  omega

theorem bit_of_mem (ha : known[i]? = some a) (hb : known[j]? = some b) :
    (M.getBitMap j).rawBit i = true ↔ R a b := by
  rw [hM.bit i j]
  constructor
  · rintro ⟨a', b', ha', hb', hR⟩
    rw [ha] at ha'
    rw [hb] at hb'
    rw [Option.some.inj ha', Option.some.inj hb']
    exact hR
  · exact fun hR => ⟨a, b, ha, hb, hR⟩

theorem getBit_iff (ha : known[i]? = some a) (hb : known[j]? = some b) :
    (M.getBitMap j).getBit i = true ↔ R a b := by
  have hi : i < M.size := hM.length_eq ▸ hM.lt_length ha
  have hsize := (hM.row _ (getBitMap_mem (hM.lt_length hb))).1
  rw [LargeBitmap.getBit_eq, hsize, decide_eq_true hi, Bool.true_and]
  exact hM.bit_of_mem ha hb

theorem isConnected_iff (ha : a ∈ known) (hb : b ∈ known) : M.isConnected a b = true ↔ R a b :=
  hM.getBit_iff (hM.getElem?_getIndex ha) (hM.getElem?_getIndex hb)

theorem inRange : M.InRange known := by
  intro a ha b hb
  have hlt := hM.lt_length (hM.getElem?_getIndex hb)
  have hi : M.getIndex a < M.size := hM.length_eq ▸ hM.lt_length (hM.getElem?_getIndex ha)
  obtain ⟨hsize, hwell⟩ := hM.row _ (getBitMap_mem hlt)
  rw [← hsize] at hi
  exact ⟨M.getBitMap (M.getIndex b), getBitMap_eq hlt, hi, hwell.lt hi⟩

/-- One row is written. -/
theorem setBitMap {P : Name → Prop} (hb : known[j]? = some b)
    (hrow : row.size = M.size ∧ row.WellSized)
    (hbit : ∀ i, row.rawBit i = true ↔ ∃ a, known[i]? = some a ∧ P a) :
    (M.setBitMap j row).Represents known fun a c => if c = b then P a else R a c where
  nodup := hM.nodup
  used_eq := hM.used_eq
  used_le := hM.used_le
  length_eq := (length_set).trans hM.length_eq
  index_eq := hM.index_eq
  row := fun m hm => by
    rcases mem_or_eq_of_mem_set hm with hm | rfl
    · exact hM.row m hm
    · exact hrow
  bit := fun i k => by
    rw [getBitMap_setBitMap (hM.lt_length hb)]
    split
    · rename_i hk
      rw [hbit i, hk]
      constructor
      · rintro ⟨a, ha, hP⟩
        exact ⟨a, b, ha, hb, by rwa [if_pos rfl]⟩
      · rintro ⟨a, c, ha, hc, hP⟩
        rw [hb] at hc
        rw [if_pos (Option.some.inj hc).symm] at hP
        exact ⟨a, ha, hP⟩
    · rename_i hk
      have hne : ∀ c, known[k]? = some c → ¬ c = b := fun c hc hcb => by
        rw [hcb] at hc
        exact hk ((hM.getIndex_eq hc).symm.trans (hM.getIndex_eq hb))
      rw [hM.bit i k]
      constructor
      · rintro ⟨a, c, ha, hc, hR⟩
        exact ⟨a, c, ha, hc, by rwa [if_neg (hne c hc)]⟩
      · rintro ⟨a, c, ha, hc, hR⟩
        rw [if_neg (hne c hc)] at hR
        exact ⟨a, c, ha, hc, hR⟩

end Represents

/-! ## Or-ing rows -/

omit [DecidableEq Name] in
theorem size_orBitMaps (indexs : List ℕ) : (M.orBitMaps vector indexs).size = vector.size ∧
    (M.orBitMaps vector indexs).bits.length = vector.bits.length := by
  induction indexs generalizing vector with
  | nil => exact ⟨rfl, rfl⟩
  | cons k indexs ih =>
    have h := @ih (vector.or (M.getBitMap k))
    exact ⟨h.1, h.2.trans (LargeBitmap.length_orWords _ _)⟩

omit [DecidableEq Name] in
theorem rawBit_orBitMaps (indexs : List ℕ) : (M.orBitMaps vector indexs).rawBit i = true ↔
    vector.rawBit i = true ∨
      i / kBitsEachValue < vector.bits.length ∧ ∃ k ∈ indexs, (M.getBitMap k).rawBit i = true := by
  induction indexs generalizing vector with
  | nil => simp [orBitMaps]
  | cons k indexs ih =>
    show (M.orBitMaps (vector.or (M.getBitMap k)) indexs).rawBit i = true ↔ _
    have hlength : (vector.or (M.getBitMap k)).bits.length = vector.bits.length :=
      LargeBitmap.length_orWords _ _
    rw [ih, LargeBitmap.rawBit_or, hlength]
    simp only [Bool.or_eq_true, Bool.and_eq_true, decide_eq_true_eq, mem_cons,
      exists_eq_or_imp]
    tauto

/-- The row of one node gets the vector when a fused node reaches it. -/
theorem Represents.orRow {V : Name → Prop} (hM : M.Represents known R) (hF : ∀ f ∈ F, f ∈ known)
    (hvector : ∀ i, vector.rawBit i = true ↔ ∃ a, known[i]? = some a ∧ V a) (hb : b ∈ known) :
    (M.orRows (F.map M.getIndex) vector [M.getIndex b]).Represents known
      fun a c => R a c ∨ (c = b ∧ V a ∧ ∃ f ∈ F, R f b) := by
  have hj := hM.getElem?_getIndex hb
  have hany : ((F.map M.getIndex).any fun f => (M.getBitMap (M.getIndex b)).getBit f) = true ↔
      ∃ f ∈ F, R f b := by
    rw [any_map, any_eq_true]
    exact exists_congr fun f => and_congr_right fun hf =>
      hM.getBit_iff (hM.getElem?_getIndex (hF f hf)) hj
  show ConnectionMatrix.Represents (if _ then _ else _) known _
  split
  · rename_i htrue
    have hreached := hany.mp htrue
    obtain ⟨hsize, hwell⟩ := hM.row _ (getBitMap_mem (hM.lt_length hj))
    have hrow : ((M.getBitMap (M.getIndex b)).or vector).size = M.size ∧
        ((M.getBitMap (M.getIndex b)).or vector).WellSized := ⟨hsize, hwell.or⟩
    refine (hM.setBitMap (P := fun a => R a b ∨ V a) hj hrow fun i => ?_).mono
      fun a _ c _ => ?_
    · rw [LargeBitmap.rawBit_or, Bool.or_eq_true, Bool.and_eq_true, decide_eq_true_eq, hM.bit,
        hvector]
      constructor
      · rintro (⟨a, c, ha, hc, hR⟩ | ⟨-, a, ha, hV⟩)
        · rw [hj] at hc
          rw [← Option.some.inj hc] at hR
          exact ⟨a, ha, .inl hR⟩
        · exact ⟨a, ha, .inr hV⟩
      · rintro ⟨a, ha, hR | hV⟩
        · exact .inl ⟨a, b, ha, hj, hR⟩
        · have hi : i < (M.getBitMap (M.getIndex b)).size := by
            rw [hsize, ← hM.length_eq]
            exact hM.lt_length ha
          exact .inr ⟨hwell.lt hi, a, ha, hV⟩
    · by_cases hc : c = b
      · rw [if_pos hc, hc]
        exact ⟨fun h => h.imp id fun hV => ⟨rfl, hV, hreached⟩,
          fun h => h.imp id fun hV => hV.2.1⟩
      · rw [if_neg hc]
        exact ⟨Or.inl, fun h => h.elim id fun h => absurd h.1 hc⟩
  · rename_i hfalse
    refine hM.mono fun a _ c _ => ⟨Or.inl, fun h => h.elim id fun h => ?_⟩
    exact absurd (hany.mpr h.2.2) hfalse

/-- The rows of the nodes that a fused node reaches get the vector. -/
theorem Represents.orRows {V : Name → Prop} (hM : M.Represents known R) (hF : ∀ f ∈ F, f ∈ known)
    (hvector : ∀ i, vector.rawBit i = true ↔ ∃ a, known[i]? = some a ∧ V a)
    {rows : List Name} (hrows : ∀ b ∈ rows, b ∈ known) (hnodup : rows.Nodup) :
    (M.orRows (F.map M.getIndex) vector (rows.map M.getIndex)).Represents known
      fun a b => R a b ∨ (b ∈ rows ∧ V a ∧ ∃ f ∈ F, R f b) := by
  induction rows generalizing M R with
  | nil => exact hM.mono fun a _ b _ => by simp
  | cons b rows ih =>
    have hstep := hM.orRow hF hvector (hrows b mem_cons_self)
    -- the row does not change the indices
    have hindex : (M.orRows (F.map M.getIndex) vector [M.getIndex b]).getIndex = M.getIndex := by
      show getIndex (if _ then _ else _) = _
      split <;> rfl
    have hrest := ih hstep (fun c hc => hrows c (mem_cons_of_mem b hc))
      (nodup_cons.mp hnodup).2
    rw [hindex] at hrest
    refine hrest.mono fun a _ c _ => ?_
    have hbrows := (nodup_cons.mp hnodup).1
    constructor
    · rintro ((h | ⟨rfl, hV, h⟩) | ⟨hc, hV, f, hf, h | ⟨rfl, -, h⟩⟩)
      · exact .inl h
      · exact .inr ⟨mem_cons_self, hV, h⟩
      · exact .inr ⟨mem_cons_of_mem b hc, hV, f, hf, h⟩
      · exact absurd hc hbrows
    · rintro (h | ⟨hc, hV, f, hf, h⟩)
      · exact .inl (.inl h)
      · rcases mem_cons.mp hc with rfl | hc
        · exact .inl (.inr ⟨rfl, hV, f, hf, h⟩)
        · exact .inr ⟨hc, hV, f, hf, .inl h⟩

theorem Represents.rawBit_orBitMaps (hM : M.Represents known R) (hF : ∀ f ∈ F, f ∈ known) :
    (M.orBitMaps vector (F.map M.getIndex)).rawBit i = true ↔ vector.rawBit i = true ∨
      i / kBitsEachValue < vector.bits.length ∧ ∃ a, known[i]? = some a ∧ ∃ f ∈ F, R a f := by
  rw [ConnectionMatrix.rawBit_orBitMaps]
  refine or_congr Iff.rfl (and_congr_right fun _ => ?_)
  constructor
  · rintro ⟨k, hk, hbit⟩
    obtain ⟨f, hf, rfl⟩ := mem_map.mp hk
    obtain ⟨a, c, ha, hc, hR⟩ := (hM.bit i _).mp hbit
    rw [hM.getElem?_getIndex (hF f hf)] at hc
    rw [← Option.some.inj hc] at hR
    exact ⟨a, ha, f, hf, hR⟩
  · rintro ⟨a, ha, f, hf, hR⟩
    exact ⟨M.getIndex f, mem_map_of_mem hf,
      (hM.bit_of_mem ha (hM.getElem?_getIndex (hF f hf))).mpr hR⟩

/-! ## Filling the matrix -/

theorem represents_ofGraph (g : ComputeGraph Name) :
    (ofGraph g).Represents g.directNode fun _ _ => False where
  nodup := g.nodup
  used_eq := rfl
  used_le := Nat.le_refl _
  length_eq := length_replicate
  index_eq := fun _ => rfl
  row := fun m hm => by
    rw [eq_of_mem_replicate hm]
    exact ⟨rfl, LargeBitmap.wellSized_ofSize _⟩
  bit := fun i j => by
    have hzero : ((ofGraph g).getBitMap j).rawBit i = false := by
      unfold getBitMap ofGraph
      simp only
      rw [getD_eq_getElem?_getD, getElem?_replicate]
      split
      · exact LargeBitmap.rawBit_ofSize _
      · exact LargeBitmap.rawBit_ofSize _
    simp [hzero]

theorem Represents.setConnectivity {inputs : List Name} (hM : M.Represents known R)
    (hb : b ∈ known) (hinputs : ∀ p ∈ inputs, p ∈ known) (hself : b ∉ inputs) :
    (M.setConnectivity inputs b).Represents known
      fun a c => if c = b then a = b ∨ ∃ p ∈ inputs, R a p else R a c := by
  have hj := hM.getElem?_getIndex hb
  obtain ⟨hsize, hwell⟩ := hM.row _ (getBitMap_mem (hM.lt_length hj))
  have hlt : M.getIndex b < ((M.getBitMap (M.getIndex b)).setValues 0).size := by
    show M.getIndex b < (M.getBitMap (M.getIndex b)).size
    rw [hsize, ← hM.length_eq]
    exact hM.lt_length hj
  let own := ((M.getBitMap (M.getIndex b)).setValues 0).setBit (M.getIndex b)
  have hown : own.WellSized := (hwell.setValues 0).setBit
  have hownSize : own.size = M.size := LargeBitmap.size_setBit.trans hsize
  have hset : M.setConnectivity inputs b
      = M.setBitMap (M.getIndex b) (M.orBitMaps own (inputs.map M.getIndex)) := by
    unfold ConnectionMatrix.setConnectivity ConnectionMatrix.orBitMaps
    simp only [if_neg hself, foldl_map]
    congr 1
    refine foldl_ext _ _ _ fun row p hp => ?_
    rw [if_pos fun h : p = b => hself (h ▸ hp)]
  rw [hset]
  obtain ⟨hvsize, hvlength⟩ := @size_orBitMaps _ M own (inputs.map M.getIndex)
  refine hM.setBitMap hj ⟨hvsize.trans hownSize, ?_⟩ fun i => ?_
  · show _ = _
    rw [hvlength, hvsize]
    exact hown
  · rw [hM.rawBit_orBitMaps hinputs, LargeBitmap.rawBit_setBit (hwell.setValues 0) hlt,
      LargeBitmap.rawBit_setValues_zero, Bool.or_false, decide_eq_true_eq]
    constructor
    · rintro (rfl | ⟨-, a, ha, hp⟩)
      · exact ⟨b, hj, .inl rfl⟩
      · exact ⟨a, ha, .inr hp⟩
    · rintro ⟨a, ha, rfl | hp⟩
      · exact .inl (hM.getIndex_eq ha).symm
      · refine .inr ⟨hown.lt ?_, a, ha, hp⟩
        rw [hownSize, ← hM.length_eq]
        exact hM.lt_length ha

/-- When it is the turn of a node, the rows of its inputs are complete. -/
theorem Represents.foldl_setConnectivity {done rest : List Name}
    (hsplit : g.directNode = done ++ rest)
    (hM : M.Represents g.directNode fun a b => b ∈ done ∧ ReflTransGen g.Edge a b) :
    (rest.foldl (fun M node => M.setConnectivity (g.inAllNodes node) node) M).Represents
      g.directNode (ReflTransGen g.Edge) := by
  induction rest generalizing M done with
  | nil =>
    rw [append_nil] at hsplit
    exact hM.mono fun a _ b hb => ⟨And.right, fun h => ⟨hsplit ▸ hb, h⟩⟩
  | cons n rest ih =>
    have hn : n ∈ g.directNode := by simp [hsplit]
    have hdone : ∀ p ∈ g.inAllNodes n, p ∈ done := g.sorted done n rest hsplit
    have hnew : n ∉ done := by
      have hnodup := g.nodup
      rw [hsplit, nodup_append] at hnodup
      exact fun h => hnodup.2.2 n h n mem_cons_self rfl
    have hstep := hM.setConnectivity hn
      (fun p hp => hsplit ▸ mem_append_left _ (hdone p hp)) fun h => hnew (hdone n h)
    have hnext : g.directNode = (done ++ [n]) ++ rest := by simp [hsplit]
    refine ih hnext (hstep.mono fun a _ b _ => ?_)
    have hlast : ReflTransGen g.Edge a n ↔
        a = n ∨ ∃ p ∈ g.inAllNodes n, p ∈ done ∧ ReflTransGen g.Edge a p := by
      rw [ReflTransGen.cases_tail_iff, eq_comm]
      refine or_congr Iff.rfl ⟨?_, ?_⟩
      · rintro ⟨p, hap, -, hp⟩
        exact ⟨p, hp, hdone p hp, hap⟩
      · rintro ⟨p, hp, -, hap⟩
        exact ⟨p, hap, hn, hp⟩
    by_cases hb : b = n
    · rw [if_pos hb, hb, hlast]
      exact ⟨fun h => ⟨by simp, h⟩, And.right⟩
    · rw [if_neg hb]
      simp [hb]

theorem represents_generate (g : ComputeGraph Name) :
    ((ofGraph g).generate g).Represents g.directNode (ReflTransGen g.Edge) :=
  have hnone : g.directNode = [] ++ g.directNode := rfl
  Represents.foldl_setConnectivity hnone ((represents_ofGraph g).mono fun _ _ _ _ => by simp)

/-! ## Fusions -/

/-- The vector of the fused nodes has the width of the graph, not of the matrix. -/
theorem Represents.update (hM : M.Represents known R) (hg : ∀ b ∈ g.directNode, b ∈ known)
    (hF : ∀ f ∈ F, f ∈ known) : (M.update g F).Represents known fun a b => R a b ∨
      (b ∈ g.directNode ∧ (M.getIndex a / kBitsEachValue < alignArraySize g.directNode.length ∧
        ∃ f ∈ F, R a f) ∧ ∃ f ∈ F, R f b) := by
  refine hM.orRows hF (fun i => ?_) hg g.nodup
  have hlength : ((LargeBitmap.ofSize g.directNode.length).setValues 0).bits.length
      = alignArraySize g.directNode.length :=
    (LargeBitmap.wellSized_ofSize _).setValues 0
  rw [hM.rawBit_orBitMaps hF, LargeBitmap.rawBit_setValues_zero, hlength]
  constructor
  · rintro (h | ⟨hi, a, ha, hf⟩)
    · exact absurd h Bool.false_ne_true
    · rw [← hM.getIndex_eq ha] at hi
      exact ⟨a, ha, hi, hf⟩
  · rintro ⟨a, ha, hi, hf⟩
    rw [hM.getIndex_eq ha] at hi
    exact .inr ⟨hi, a, ha, hf⟩

theorem getElem?_takeD {α : Type*} {rows : List α} {n : ℕ} {d : α} (h : rows.length ≤ n) (k : ℕ) :
    (rows.takeD n d)[k]? = if k < n then some (rows.getD k d) else none := by
  induction n generalizing rows k with
  | zero => simp
  | succ n ih =>
    cases k with
    | zero => cases rows <;> simp [takeD]
    | succ k =>
      have hlength : rows.tail.length ≤ n := by
        rw [length_tail]
        omega
      rw [takeD, getElem?_cons_succ, ih hlength]
      cases rows <;> simp

theorem getElem?_take_append_map_drop {α : Type*} {rows : List α} {f : α → α} {u : ℕ}
    (h : u ≤ rows.length) (k : ℕ) : (rows.take u ++ (rows.drop u).map f)[k]?
      = if k < u then rows[k]? else rows[k]?.map f := by
  have hlength : (rows.take u).length = u := length_take_of_le h
  rw [getElem?_append, hlength]
  split
  · rename_i hk
    rw [getElem?_take, if_pos hk]
  · rename_i hk
    rw [getElem?_map, getElem?_drop, Nat.add_sub_cancel' (Nat.not_lt.mp hk)]

/-- The rows of a matrix that had to grow. -/
theorem Represents.getElem?_addNode (hM : M.Represents known R) (name : Name)
    (hgrow : M.used + 1 ≥ M.size) (k : ℕ) : (M.addNode name).bitMaps[k]?
      = if k < M.size + expandStep then
          some (if k < M.used then (M.getBitMap k).resizeBits (M.size + expandStep)
            else ((M.bitMaps.map fun m => m.resizeBits (M.size + expandStep)).getD k
              (LargeBitmap.ofSize (M.size + expandStep))).setValues 0)
        else none := by
  have hlength : (M.bitMaps.map fun m => m.resizeBits (M.size + expandStep)).length
      ≤ M.size + expandStep := by
    rw [length_map, hM.length_eq]
    exact Nat.le_add_right _ _
  have hused : M.used ≤ ((M.bitMaps.map fun m => m.resizeBits (M.size + expandStep)).takeD
      (M.size + expandStep) (LargeBitmap.ofSize (M.size + expandStep))).length := by
    rw [takeD_length]
    exact Nat.le_trans hM.used_le (Nat.le_add_right _ _)
  unfold ConnectionMatrix.addNode
  simp only [if_pos hgrow]
  rw [getElem?_take_append_map_drop hused, getElem?_takeD hlength]
  by_cases hk : k < M.size + expandStep
  · simp only [if_pos hk, Option.map_some]
    by_cases hku : k < M.used
    · have hkl : k < M.bitMaps.length := by
        rw [hM.length_eq]
        exact Nat.lt_of_lt_of_le hku hM.used_le
      rw [if_pos hku, if_pos hku, getD_eq_getElem?_getD, getElem?_map,
        getBitMap_eq hkl]
      rfl
    · rw [if_neg hku, if_neg hku]
  · simp only [if_neg hk, Option.map_none, ite_self]

theorem idxOf?_concat {known : List Name} {name : Name} (hname : name ∉ known) (a : Name) :
    (known ++ [name]).idxOf? a
      = if a = name then some known.length else known.idxOf? a := by
  unfold idxOf?
  rw [findIdx?_append]
  by_cases ha : a = name
  · have hnone : known.findIdx? (fun x => x == a) = none := by
      rw [findIdx?_eq_none_iff]
      intro x hx
      exact beq_false_of_ne fun h => hname (ha ▸ h ▸ hx)
    rw [hnone, if_pos ha, ha]
    simp [findIdx?_cons]
  · have hne : (name == a) = false := beq_false_of_ne fun h => ha h.symm
    rw [if_neg ha]
    simp [findIdx?_cons, hne]

/-- A node more, that nothing is connected with yet. -/
theorem Represents.addNode {name : Name} (hM : M.Represents known R) (hname : name ∉ known) :
    (M.addNode name).Represents (known ++ [name]) fun a b => a ∈ known ∧ b ∈ known ∧ R a b := by
  have hclean : ∀ j i, M.size ≤ i → (M.getBitMap j).rawBit i = false := by
    intro j i hi
    by_contra htrue
    obtain ⟨a, b, ha, -, -⟩ := (hM.bit i j).mp (Bool.eq_true_of_not_eq_false htrue)
    have h := hM.lt_length ha
    rw [hM.length_eq] at h
    omega
  have hold : ∀ (i : ℕ) a, a ∈ known → ((known ++ [name])[i]? = some a ↔ known[i]? = some a) := by
    intro i a ha
    rw [getElem?_append]
    split
    · exact Iff.rfl
    · rename_i hi
      rw [getElem?_eq_none (Nat.not_lt.mp hi)]
      constructor
      · intro h
        have hname' := mem_of_getElem? h
        exact absurd (mem_singleton.mp hname' ▸ ha) hname
      · exact fun h => nomatch h
  have hbits : ∀ i j : ℕ, (M.getBitMap j).rawBit i = true ↔
      ∃ a b, (known ++ [name])[i]? = some a ∧ (known ++ [name])[j]? = some b ∧
        a ∈ known ∧ b ∈ known ∧ R a b := by
    intro i j
    rw [hM.bit i j]
    constructor
    · rintro ⟨a, b, ha, hb, hR⟩
      have hak := mem_of_getElem? ha
      have hbk := mem_of_getElem? hb
      exact ⟨a, b, (hold i a hak).mpr ha, (hold j b hbk).mpr hb, hak, hbk, hR⟩
    · rintro ⟨a, b, ha, hb, hak, hbk, hR⟩
      exact ⟨a, b, (hold i a hak).mp ha, (hold j b hbk).mp hb, hR⟩
  have hnodup : (known ++ [name]).Nodup := by
    rw [nodup_append]
    refine ⟨hM.nodup, nodup_singleton name, fun a ha b hb => ?_⟩
    rw [mem_singleton.mp hb]
    exact fun h => hname (h ▸ ha)
  have hindex : ∀ a, (M.addNode name).nameToIndex a = (known ++ [name]).idxOf? a := by
    intro a
    show Function.update M.nameToIndex name (some M.used) a = _
    rw [idxOf?_concat hname, Function.update_apply, hM.used_eq, hM.index_eq]
  have hused : (M.addNode name).used = (known ++ [name]).length := by
    show M.used + 1 = _
    rw [hM.used_eq, length_append, length_singleton]
  have hle := hM.used_le
  by_cases hgrow : M.used + 1 ≥ M.size
  · -- the rows are widened, those that no node uses are cleared
    have hrows := hM.getElem?_addNode name hgrow
    have hsize : (M.addNode name).size = M.size + expandStep := by
      unfold ConnectionMatrix.addNode
      rw [if_pos hgrow]
    have hwide : M.size ≤ M.size + expandStep := Nat.le_add_right _ _
    refine ⟨hnodup, hused, ?_, ?_, hindex, ?_, ?_⟩
    · rw [hsize]
      show M.used + 1 ≤ M.size + 64
      omega
    · rw [hsize]
      unfold ConnectionMatrix.addNode
      rw [if_pos hgrow]
      simp only [length_append, length_map]
      rw [← length_append, take_append_drop, takeD_length]
    · intro m hm
      obtain ⟨k, hk⟩ := getElem?_of_mem hm
      rw [hrows] at hk
      have hresized : ∀ m ∈ M.bitMaps, (m.resizeBits (M.size + expandStep)).size
          = M.size + expandStep ∧ (m.resizeBits (M.size + expandStep)).WellSized := by
        intro m hm
        obtain ⟨hms, hmw⟩ := hM.row m hm
        rw [← hms] at hwide ⊢
        exact ⟨LargeBitmap.size_resizeBits hwide, hmw.resizeBits hwide⟩
      rw [hsize]
      split at hk
      · rw [← Option.some.inj hk]
        split
        · rename_i hku
          refine hresized _ (getBitMap_mem ?_)
          rw [hM.length_eq]
          omega
        · have hfresh : ∀ {rows : List LargeBitmap} {d : LargeBitmap} (k : ℕ),
              rows.getD k d ∈ rows ∨ rows.getD k d = d := by
            intro rows d k
            rw [getD_eq_getElem?_getD]
            cases hget : rows[k]? with
            | none => exact .inr rfl
            | some r => exact .inl (mem_of_getElem? hget)
          rcases hfresh k with hmem | hdefault
          · obtain ⟨m', hm', heq⟩ := mem_map.mp hmem
            rw [← heq]
            obtain ⟨hms, hmw⟩ := hresized m' hm'
            exact ⟨hms, hmw.setValues 0⟩
          · rw [hdefault]
            exact ⟨rfl, (LargeBitmap.wellSized_ofSize _).setValues 0⟩
      · exact nomatch hk
    · intro i j
      rw [← hbits i j]
      unfold getBitMap
      rw [getD_eq_getElem?_getD, hrows]
      by_cases hju : j < M.used
      · have hjs : j < M.bitMaps.length := by
          rw [hM.length_eq]
          exact Nat.lt_of_lt_of_le hju hM.used_le
        obtain ⟨hms, hmw⟩ := hM.row _ (getBitMap_mem hjs)
        have hj : j < M.size + expandStep := by omega
        rw [if_pos hj, if_pos hju, Option.getD_some]
        rw [← hms] at hwide ⊢
        rw [LargeBitmap.rawBit_resizeBits hmw (fun i hi => hclean j i (hms ▸ hi)) hwide]
        exact Iff.rfl
      · have hzero : ¬ (M.getBitMap j).rawBit i = true := by
          rw [hM.bit i j]
          rintro ⟨a, b, -, hb, -⟩
          have hj := (List.getElem?_eq_some_iff.mp hb).1
          rw [hM.used_eq] at hju
          exact hju hj
        refine iff_of_false ?_ hzero
        by_cases hj : j < M.size + expandStep
        · rw [if_pos hj, if_neg hju, Option.getD_some, LargeBitmap.rawBit_setValues_zero]
          exact Bool.false_ne_true
        · rw [if_neg hj, Option.getD_none, LargeBitmap.rawBit_ofSize]
          exact Bool.false_ne_true
  · have hsame : (M.addNode name).bitMaps = M.bitMaps ∧ (M.addNode name).size = M.size := by
      unfold ConnectionMatrix.addNode
      rw [if_neg hgrow]
      exact ⟨rfl, rfl⟩
    refine ⟨hnodup, hused, ?_, ?_, hindex, ?_, fun i j => ?_⟩
    · rw [hsame.2]
      show M.used + 1 ≤ M.size
      omega
    · rw [hsame.1, hsame.2, hM.length_eq]
    · rw [hsame.1, hsame.2]
      exact hM.row
    · unfold getBitMap
      rw [hsame.1]
      exact hbits i j

theorem Represents.map_getIndex (hM : M.Represents known R) :
    known.map M.getIndex = range M.used := by
  apply ext_getElem?
  intro i
  rw [getElem?_map, hM.used_eq]
  cases h : known[i]? with
  | none =>
    have hi := List.getElem?_eq_none_iff.mp h
    rw [getElem?_eq_none (by rwa [length_range])]
    rfl
  | some a =>
    have hi := (List.getElem?_eq_some_iff.mp h).1
    rw [getElem?_range hi, Option.map_some, hM.getIndex_eq h]

/-- The relation with a new node that the fused nodes reach. -/
def Joined (known F : List Name) (name : Name) (R : Name → Name → Prop) (a b : Name) : Prop :=
  if b = name then a = name ∨ ∃ f ∈ F, a ∈ known ∧ R a f else a ∈ known ∧ b ∈ known ∧ R a b

theorem Represents.expandAndUpdate {name : Name} (hM : M.Represents known R)
    (hF : ∀ f ∈ F, f ∈ known) (hname : name ∉ known) :
    (M.expandAndUpdate F name).Represents (known ++ [name]) fun a b =>
      Joined known F name R a b ∨
        Joined known F name R a name ∧ ∃ f ∈ F, Joined known F name R f b := by
  have hgrown := hM.addNode hname
  have hF' : ∀ f ∈ F, f ∈ known ++ [name] := fun f hf => mem_append_left _ (hF f hf)
  have hnew : (known ++ [name])[M.used]? = some name := by
    rw [hM.used_eq, getElem?_append_right (Nat.le_refl _), Nat.sub_self]
    rfl
  have hlt := hgrown.lt_length hnew
  obtain ⟨hsize, hwell⟩ := hgrown.row _ (getBitMap_mem hlt)
  -- the row of the new node has no bit before
  have hown : ∀ i, (((M.addNode name).getBitMap M.used).setBit M.used).rawBit i = true ↔
      i = M.used := by
    intro i
    have hlt' : M.used < ((M.addNode name).getBitMap M.used).size := by
      rw [hsize, ← hgrown.length_eq]
      exact hlt
    rw [LargeBitmap.rawBit_setBit hwell hlt', Bool.or_eq_true, decide_eq_true_eq, hgrown.bit]
    refine ⟨fun h => h.elim id ?_, .inl⟩
    rintro ⟨a, b, -, hb, -, hbk, -⟩
    rw [hnew] at hb
    exact absurd (Option.some.inj hb ▸ hbk) hname
  let vector := (M.addNode name).orBitMaps (((M.addNode name).getBitMap M.used).setBit M.used)
    (F.map (M.addNode name).getIndex)
  have hvector : ∀ i, vector.rawBit i = true ↔ ∃ a, (known ++ [name])[i]? = some a ∧
      Joined known F name R a name := by
    intro i
    unfold Joined
    simp only [if_true]
    rw [hgrown.rawBit_orBitMaps hF', hown]
    constructor
    · rintro (rfl | ⟨-, a, ha, f, hf, hak, -, hR⟩)
      · exact ⟨name, hnew, .inl rfl⟩
      · exact ⟨a, ha, .inr ⟨f, hf, hak, hR⟩⟩
    · rintro ⟨a, ha, rfl | ⟨f, hf, hak, hR⟩⟩
      · exact .inl ((hgrown.getIndex_eq ha).symm.trans (hgrown.getIndex_eq hnew))
      · refine .inr ⟨?_, a, ha, f, hf, hak, hF f hf, hR⟩
        refine hwell.setBit.lt ?_
        rw [LargeBitmap.size_setBit, hsize, ← hgrown.length_eq]
        exact hgrown.lt_length ha
  obtain ⟨hvsize, hvlength⟩ := @size_orBitMaps _ (M.addNode name)
    (((M.addNode name).getBitMap M.used).setBit M.used) (F.map (M.addNode name).getIndex)
  have hrow : vector.size = (M.addNode name).size ∧ vector.WellSized := by
    refine ⟨hvsize.trans (LargeBitmap.size_setBit.trans hsize), ?_⟩
    show vector.bits.length = alignArraySize vector.size
    rw [hvlength, hvsize]
    exact hwell.setBit
  have hset : ((M.addNode name).setBitMap M.used vector).Represents (known ++ [name])
      (Joined known F name R) :=
    (hgrown.setBitMap hnew hrow hvector).mono fun a _ b _ => by
      unfold Joined
      by_cases hb : b = name
      · rw [if_pos hb, if_pos hb, if_pos rfl]
      · rw [if_neg hb, if_neg hb]
  have hrows := hset.orRows hF' hvector (fun _ h => h) hgrown.nodup
  have hrange : (known ++ [name]).map ((M.addNode name).setBitMap M.used vector).getIndex
      = range (M.addNode name).used := hset.map_getIndex
  rw [hrange] at hrows
  exact hrows.mono fun a _ b hb => or_congr Iff.rfl ⟨fun h => h.2, fun h => ⟨hb, h⟩⟩

end ConnectionMatrix

end GraphAutofusion.GraphMetadef
