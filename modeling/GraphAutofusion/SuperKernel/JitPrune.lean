import GraphAutofusion.SuperKernel.JitSync
import GraphAutofusion.SuperKernel.SyncPrune
import GraphAutofusion.SuperKernel.TaskSync

/-!
# SuperKernel.JitPrune — what the label passes leave

The entries of all operators stand for one label for each pair of names. A pass replaces the
labels of some pairs; read for one direction, three of the four loops prune it as
`Lib.EdgePrune` does. The first pass does not: for a pair crossed in both directions the
second deletion puts back the direction that the first one took out.
-/

namespace GraphAutofusion.SuperKernel

open Lib Relation List

/-! ## Labels -/

/-- The entries stand for the labels `Ls` on the senders' and `Lr` on the receivers' side. -/
structure Labelled (kernels : List (String × SkKernelType)) (ops : List SubOperatorInfos)
    (Ls Lr : String → String → SyncEvent) : Prop where
  kernels : ops.map (fun op => (op.kernelNameForMultiStream, op.kernelType)) = kernels
  send : ∀ op ∈ ops, ∀ key value, (key, value) ∈ op.sendInfo.items ↔
    value ≠ [] ∧ Ls op.kernelNameForMultiStream key = value
  recv : ∀ op ∈ ops, ∀ key value, (key, value) ∈ op.recvInfo.items ↔
    value ≠ [] ∧ Lr key op.kernelNameForMultiStream = value

def setLabel (L : String → String → SyncEvent) (s r : String) (content : SyncEvent) :
    String → String → SyncEvent :=
  fun s' r' => if s' = s ∧ r' = r then content else L s' r'

variable {kernels : List (String × SkKernelType)} {ops : List SubOperatorInfos}
  {L L' Ls Lr : String → String → SyncEvent} {s r s' r' : String} {b b' : Bool} {value : SyncEvent}

theorem mem_change {info : OrderedDict String SyncEvent} (label : String → SyncEvent)
    (key key' : String) (content value : SyncEvent)
    (h : ∀ k v, (k, v) ∈ info.items ↔ v ≠ [] ∧ label k = v) :
    (key', value) ∈ (if content = [] then info.pop key else info.set key content).items ↔
      value ≠ [] ∧ (if key' = key then content else label key') = value := by
  by_cases hcontent : content = []
  · by_cases hkey : key' = key
    · simp [hcontent, hkey, eq_comm]
    · simp [hcontent, hkey, h]
  · by_cases hkey : key' = key
    · simp only [hcontent, hkey, if_true, if_false, OrderedDict.mem_items_set]
      grind
    · simp [hcontent, hkey, h]

/-- Removing by name changes one label on one side. -/
theorem Labelled.removeSend (h : Labelled kernels ops Ls Lr) (s r : String) (content : SyncEvent) :
    Labelled kernels (removeInfoByName ops ⟨s, r, false, content⟩) (setLabel Ls s r content) Lr := by
  refine ⟨?_, ?_, ?_⟩
  · rw [← h.kernels, removeInfoByName, List.map_map]
    refine map_congr_left fun op _ => ?_
    by_cases hname : op.kernelNameForMultiStream = s <;>
      simp [hname, SubOperatorInfos.updateSend]
  · intro op hop key value
    rcases mem_map.mp hop with ⟨old, hold, rfl⟩
    by_cases hname : old.kernelNameForMultiStream = s
    · have hchange := mem_change (Ls old.kernelNameForMultiStream) r key content value
        (h.send old hold)
      simpa [hname, SubOperatorInfos.updateSend, setLabel] using hchange
    · simpa [hname, setLabel] using h.send old hold key value
  · intro op hop key value
    rcases mem_map.mp hop with ⟨old, hold, rfl⟩
    by_cases hname : old.kernelNameForMultiStream = s
    · simpa [hname, SubOperatorInfos.updateSend] using h.recv old hold key value
    · simpa [hname] using h.recv old hold key value

theorem Labelled.removeRecv (h : Labelled kernels ops Ls Lr) (s r : String) (content : SyncEvent) :
    Labelled kernels (removeInfoByName ops ⟨r, s, true, content⟩) Ls (setLabel Lr s r content) := by
  refine ⟨?_, ?_, ?_⟩
  · rw [← h.kernels, removeInfoByName, List.map_map]
    refine map_congr_left fun op _ => ?_
    by_cases hname : op.kernelNameForMultiStream = r <;>
      simp [hname, SubOperatorInfos.updateRecv]
  · intro op hop key value
    rcases mem_map.mp hop with ⟨old, hold, rfl⟩
    by_cases hname : old.kernelNameForMultiStream = r
    · simpa [hname, SubOperatorInfos.updateRecv] using h.send old hold key value
    · simpa [hname] using h.send old hold key value
  · intro op hop key value
    rcases mem_map.mp hop with ⟨old, hold, rfl⟩
    by_cases hname : old.kernelNameForMultiStream = r
    · have hchange := mem_change (fun k => Lr k old.kernelNameForMultiStream) s key content value
        (h.recv old hold)
      simpa [hname, SubOperatorInfos.updateRecv, setLabel] using hchange
    · simpa [hname, setLabel] using h.recv old hold key value

/-- The labels after the deletions of the listed events; `L₀` are the labels when they were
read. -/
def afterDeletions (L₀ : String → String → SyncEvent) (b : Bool) (edges : List JitEdge)
    (L : String → String → SyncEvent) : String → String → SyncEvent :=
  fun s r => if (s, r) ∈ edges.map (fun e => (e.1, e.2.1)) then
    getRemainEvents (L₀ s r) (syncName b) else L s r

/-- Applying the deletions of a list of events, in either order of the two sides. -/
theorem Labelled.removeEdges {pair : JitEdge → List DeleteEvent}
    (hpair : pair = sendFirst b ∨ pair = recvFirst b) {L₀ : String → String → SyncEvent} :
    ∀ (edges : List JitEdge) {ops L}, (∀ e ∈ edges, e.2.2 = L₀ e.1 e.2.1) →
      Labelled kernels ops L L →
      Labelled kernels (removeInfos ops (edges.flatMap pair))
        (afterDeletions L₀ b edges L) (afterDeletions L₀ b edges L) := by
  intro edges
  induction edges with
  | nil =>
    intro ops L _ h
    have hnil : afterDeletions L₀ b [] L = L := by
      funext s r
      simp [afterDeletions]
    rw [hnil]
    exact h
  | cons e edges ih =>
    intro ops L hread h
    have hstep : Labelled kernels (removeInfos ops (pair e))
        (setLabel L e.1 e.2.1 (getRemainEvents e.2.2 (syncName b)))
        (setLabel L e.1 e.2.1 (getRemainEvents e.2.2 (syncName b))) := by
      rcases hpair with rfl | rfl
      · exact (h.removeSend _ _ _).removeRecv _ _ _
      · exact (h.removeRecv _ _ _).removeSend _ _ _
    have hrest := ih (fun e' he' => hread e' (mem_cons_of_mem e he')) hstep
    have heq : afterDeletions L₀ b edges (setLabel L e.1 e.2.1 (getRemainEvents e.2.2 (syncName b)))
        = afterDeletions L₀ b (e :: edges) L := by
      funext s r
      have hread := hread e mem_cons_self
      simp only [afterDeletions, setLabel, map_cons, mem_cons, Prod.mk.injEq]
      grind
    rw [flatMap_cons, removeInfos, foldl_append]
    exact heq ▸ hrest

theorem mem_getRemainEvents : syncName b' ∈ getRemainEvents value (syncName b) ↔
    b' ≠ b ∧ syncName b' ∈ value := by
  cases b <;> cases b' <;> simp [getRemainEvents, syncName]

variable {edges : List JitEdge}

/-- The part of one direction stays exactly where the loop deletes none of its events. -/
theorem mem_afterDeletions :
    syncName b' ∈ afterDeletions L b edges L s r ↔
      syncName b' ∈ L s r ∧ (b' = b → (s, r) ∉ edges.map fun e => (e.1, e.2.1)) := by
  unfold afterDeletions
  split
  · next hmem => rw [mem_getRemainEvents]; grind
  · next hmem => grind

/-! ## Places -/

/-- The place of an operator in `info_base`. -/
def kernelPos (kernels : List (String × SkKernelType)) (name : String) : ℕ :=
  kernels.findIdx fun kernel => kernel.1 = name

/-- An operator of this name has a part on the cube (`true`) or vec queue. -/
def OnQueue (kernels : List (String × SkKernelType)) (q : Bool) (name : String) : Prop :=
  ∃ type, (name, type) ∈ kernels ∧ hasPart (toQueueType type) q = true

theorem OnQueue.mem_names {q : Bool} (h : OnQueue kernels q s) : s ∈ kernels.map Prod.fst := by
  rcases h with ⟨type, hmem, _⟩
  exact mem_map.mpr ⟨_, hmem, rfl⟩

/-- The labels of a direction lead from one queue to the other. -/
def Placed (kernels : List (String × SkKernelType)) (L : String → String → SyncEvent) : Prop :=
  ∀ b s r, syncName b ∈ L s r → OnQueue kernels b s ∧ OnQueue kernels (!b) r

theorem Placed.mono (h : Placed kernels L) (hsub : ∀ b s r, syncName b ∈ L' s r → syncName b ∈ L s r) :
    Placed kernels L' :=
  fun b s r hmem => h b s r (hsub b s r hmem)

theorem Placed.afterDeletions (h : Placed kernels L) :
    Placed kernels (afterDeletions L b edges L) :=
  h.mono fun _ _ _ hmem => (mem_afterDeletions.mp hmem).1

/-- The events of a direction as places. -/
def labelEdges (kernels : List (String × SkKernelType)) (L : String → String → SyncEvent)
    (b : Bool) : Set (ℕ × ℕ) :=
  {e | ∃ s r, syncName b ∈ L s r ∧ e = (kernelPos kernels s, kernelPos kernels r)}

theorem isOfList_eq (isVecList : Bool) (op : SubOperatorInfos) :
    isOfList isVecList op = hasPart (toQueueType op.kernelType) (!isVecList) := by
  have hknown := op.known
  cases htype : op.kernelType <;> cases isVecList <;> simp_all [isOfList, toQueueType, hasPart]

/-- Dropping items that neither predicate looks for keeps the order of the first matches. -/
theorem findIdx_filter_lt {α : Type*} (p P Q : α → Bool) (l : List α)
    (hP : ∀ x ∈ l, P x = true → p x = true) (hQ : ∀ x ∈ l, Q x = true → p x = true) :
    (l.filter p).findIdx P < (l.filter p).findIdx Q ↔ l.findIdx P < l.findIdx Q := by
  induction l with
  | nil => simp
  | cons x l ih =>
    have ih := ih (fun y hy => hP y (mem_cons_of_mem x hy))
      (fun y hy => hQ y (mem_cons_of_mem x hy))
    have hPx := hP x mem_cons_self
    have hQx := hQ x mem_cons_self
    by_cases hp : p x = true
    · rw [filter_cons_of_pos hp]
      cases hPv : P x <;> cases hQv : Q x <;> simp [findIdx_cons, hPv, hQv, ih]
    · have hPv : P x = false := by simpa using fun h => hp (hPx h)
      have hQv : Q x = false := by simpa using fun h => hp (hQx h)
      rw [filter_cons_of_neg hp]
      simp [findIdx_cons, hPv, hQv, ih]

/-- Everything but the first item of a sorted list has another item before it. -/
theorem mem_tail_insertionSort {α : Type*} (le : α → α → Prop) [DecidableRel le] [Std.Total le]
    [IsTrans α le] {l : List α} (hnodup : l.Nodup)
    (hanti : ∀ x ∈ l, ∀ y ∈ l, le x y → le y x → x = y) {x : α} :
    x ∈ (l.insertionSort le).tail ↔ x ∈ l ∧ ∃ y ∈ l, y ≠ x ∧ le y x := by
  have hperm := perm_insertionSort le l
  have hsorted := pairwise_insertionSort le l
  have hnodup' := hperm.nodup_iff.mpr hnodup
  have hmem : ∀ y, y ∈ l.insertionSort le ↔ y ∈ l := fun y => hperm.mem_iff
  cases hlist : l.insertionSort le with
  | nil =>
    have hnone : ∀ y, y ∉ l := fun y hy => by simpa [hlist] using (hmem y).mpr hy
    simp [hnone]
  | cons first rest =>
    simp only [hlist, mem_cons] at hmem
    rw [hlist] at hsorted hnodup'
    rw [tail_cons]
    constructor
    · intro hx
      have hfirst : first ≠ x := fun heq => (nodup_cons.mp hnodup').1 (heq ▸ hx)
      exact ⟨(hmem x).mp (.inr hx), first, (hmem first).mp (.inl rfl), hfirst,
        (pairwise_cons.mp hsorted).1 x hx⟩
    · intro h
      rcases h with ⟨hx, y, hy, hne, hle⟩
      rcases (hmem x).mpr hx with rfl | hrest
      · -- the first item has nothing else before it
        rcases (hmem y).mpr hy with rfl | hrest
        · exact absurd rfl hne
        · have hle' := (pairwise_cons.mp hsorted).1 y hrest
          exact absurd (hanti y hy x hx hle hle') hne
      · exact hrest

section Placement

variable (hnames : (kernels.map Prod.fst).Nodup)

include hnames

theorem type_unique {name : String} {type type' : SkKernelType} (h : (name, type) ∈ kernels)
    (h' : (name, type') ∈ kernels) : type = type' :=
  congrArg Prod.snd (inj_on_of_nodup_map hnames h h' rfl)

end Placement

theorem getElem?_kernelPos {name : String} (h : name ∈ kernels.map Prod.fst) :
    (kernels.map Prod.fst)[kernelPos kernels name]? = some name := by
  rcases mem_map.mp h with ⟨kernel, hkernel, rfl⟩
  have hlt : kernels.findIdx (fun k => k.1 = kernel.1) < kernels.length :=
    findIdx_lt_length_of_exists ⟨kernel, hkernel, by simp⟩
  have hfst := findIdx_getElem (w := hlt)
  rw [kernelPos, getElem?_map, getElem?_eq_getElem hlt, Option.map_some,
    of_decide_eq_true hfst]

theorem kernelPos_inj (hs : s ∈ kernels.map Prod.fst) (hs' : s' ∈ kernels.map Prod.fst)
    (heq : kernelPos kernels s = kernelPos kernels s') : s = s' := by
  have hget := getElem?_kernelPos hs
  rw [heq, getElem?_kernelPos hs'] at hget
  exact (Option.some.inj hget).symm

theorem mem_opList {op : SubOperatorInfos} {isVecList : Bool} :
    op ∈ opList ops isVecList ↔
      op ∈ ops ∧ hasPart (toQueueType op.kernelType) (!isVecList) = true := by
  rw [opList, mem_filter, isOfList_eq]

section Lists

variable (h : Labelled kernels ops Ls Lr)

include h

theorem Labelled.mem_kernels {op : SubOperatorInfos} (hop : op ∈ ops) :
    (op.kernelNameForMultiStream, op.kernelType) ∈ kernels := by
  rw [← h.kernels]
  exact mem_map_of_mem hop

theorem Labelled.exists_op (hname : OnQueue kernels b s) :
    ∃ op ∈ opList ops (!b), op.kernelNameForMultiStream = s := by
  rcases hname with ⟨type, hmem, hpart⟩
  rw [← h.kernels] at hmem
  rcases mem_map.mp hmem with ⟨op, hop, heq⟩
  injection heq with hname htype
  refine ⟨op, mem_opList.mpr ⟨hop, ?_⟩, hname⟩
  rw [htype, Bool.not_not]
  exact hpart

/-- `get_idx` finds an operator of the name. -/
theorem Labelled.getIdx_eq (hname : OnQueue kernels b s) :
    getIdx ops s (!b) = (opList ops (!b)).findIdx (fun op => op.kernelNameForMultiStream = s) ∧
      ∃ op, (opList ops (!b))[getIdx ops s (!b)]? = some op ∧ op.kernelNameForMultiStream = s := by
  rcases h.exists_op hname with ⟨op, hop, rfl⟩
  have hlt : (opList ops (!b)).findIdx
      (fun x => x.kernelNameForMultiStream = op.kernelNameForMultiStream)
        < (opList ops (!b)).length :=
    findIdx_lt_length_of_exists ⟨op, hop, by simp⟩
  have hidx : getIdx ops op.kernelNameForMultiStream (!b) = (opList ops (!b)).findIdx
      fun x => x.kernelNameForMultiStream = op.kernelNameForMultiStream := by
    rw [getIdx, (findIdx?_eq_some_iff_findIdx_eq).mpr ⟨hlt, rfl⟩, Option.getD_some]
  have hget := findIdx_getElem (w := hlt)
  refine ⟨hidx, _, ?_, of_decide_eq_true hget⟩
  rw [hidx, getElem?_eq_getElem hlt]

/-- `get_idx` orders the operators of a list by their places. -/
theorem Labelled.getIdx_lt (hnames : (kernels.map Prod.fst).Nodup) (hs : OnQueue kernels b s)
    (hs' : OnQueue kernels b s') :
    getIdx ops s (!b) < getIdx ops s' (!b) ↔ kernelPos kernels s < kernelPos kernels s' := by
  have hpos : ∀ name, kernelPos kernels name
      = ops.findIdx fun op => op.kernelNameForMultiStream = name := by
    intro name
    rw [kernelPos, ← h.kernels, findIdx_map]
    rfl
  have hpart : ∀ {name}, OnQueue kernels b name → ∀ op ∈ ops,
      decide (op.kernelNameForMultiStream = name) = true → isOfList (!b) op = true := by
    intro name hname op hop heq
    rcases hname with ⟨type, hmem, hpart⟩
    have hsame : op.kernelType = type := by
      have hkernel := h.mem_kernels hop
      rw [of_decide_eq_true heq] at hkernel
      exact type_unique hnames hkernel hmem
    rw [isOfList_eq, hsame, Bool.not_not]
    exact hpart
  rw [(h.getIdx_eq hs).1, (h.getIdx_eq hs').1, hpos, hpos]
  exact findIdx_filter_lt _ _ _ ops (hpart hs) (hpart hs')

theorem Labelled.getIdx_le (hnames : (kernels.map Prod.fst).Nodup) (hs : OnQueue kernels b s)
    (hs' : OnQueue kernels b s') :
    getIdx ops s (!b) ≤ getIdx ops s' (!b) ∧ s ≠ s' ↔ kernelPos kernels s < kernelPos kernels s' := by
  have hgt := h.getIdx_lt hnames hs' hs
  have hinj : kernelPos kernels s = kernelPos kernels s' → s = s' :=
    kernelPos_inj hs.mem_names hs'.mem_names
  constructor
  · intro hle
    by_contra hnot
    have hpos : kernelPos kernels s = kernelPos kernels s' := by omega
    exact hle.2 (hinj hpos)
  · intro hpos
    refine ⟨by omega, fun heq => ?_⟩
    rw [heq] at hpos
    exact lt_irrefl _ hpos

end Lists

/-- The entries of one direction that a multiple-event loop deletes: those with another one
before them in its order. -/
theorem mem_tail_entries {info : OrderedDict String SyncEvent} (label : String → SyncEvent)
    (hinfo : ∀ k v, (k, v) ∈ info.items ↔ v ≠ [] ∧ label k = v)
    (le : String × SyncEvent → String × SyncEvent → Prop) [DecidableRel le] [Std.Total le]
    [IsTrans (String × SyncEvent) le] (before : String → String → Prop)
    (hasymm : ∀ k k', before k k' → ¬ before k' k)
    (hle : ∀ k k', syncName b ∈ label k → syncName b ∈ label k' →
      (le (k, label k) (k', label k') ∧ k ≠ k' ↔ before k k')) {key : String} :
    (key, value) ∈ ((info.items.filter fun item => item.2.contains (syncName b)).insertionSort le).tail
      ↔ value = label key ∧ syncName b ∈ label key ∧
        ∃ key', syncName b ∈ label key' ∧ before key' key := by
  have hmem : ∀ k v, (k, v) ∈ info.items.filter (fun item => item.2.contains (syncName b)) ↔
      label k = v ∧ syncName b ∈ v := by
    intro k v
    rw [mem_filter, hinfo, contains_iff_mem]
    constructor
    · intro h
      exact ⟨h.1.2, h.2⟩
    · intro h
      exact ⟨⟨ne_nil_of_mem h.2, h.1⟩, h.2⟩
  have hnodup := (Nodup.of_map Prod.fst info.nodup).filter
    fun item => item.2.contains (syncName b)
  rw [mem_tail_insertionSort le hnodup]
  · rw [hmem]
    constructor
    · intro h
      rcases h with ⟨⟨rfl, hname⟩, ⟨key', value'⟩, hother, hne, hfirst⟩
      rcases (hmem key' value').mp hother with ⟨rfl, hname'⟩
      refine ⟨rfl, hname, key', hname', (hle key' key hname' hname).mp ⟨hfirst, fun heq => ?_⟩⟩
      exact hne (by rw [heq])
    · intro h
      rcases h with ⟨rfl, hname, key', hname', hbefore⟩
      have hboth := (hle key' key hname' hname).mpr hbefore
      refine ⟨⟨rfl, hname⟩, (key', label key'), (hmem _ _).mpr ⟨rfl, hname'⟩, ?_, hboth.1⟩
      intro heq
      exact hboth.2 (congrArg Prod.fst heq)
  · intro x hx y hy hxy hyx
    rcases x with ⟨k, v⟩
    rcases y with ⟨k', v'⟩
    rcases (hmem k v).mp hx with ⟨rfl, hname⟩
    rcases (hmem k' v').mp hy with ⟨rfl, hname'⟩
    by_contra hne
    have hkeys : k ≠ k' := fun heq => hne (by rw [heq])
    have hone := (hle k k' hname hname').mp ⟨hxy, hkeys⟩
    exact hasymm k k' hone ((hle k' k hname' hname).mp ⟨hyx, hkeys.symm⟩)

/-! ## The passes on names -/

/-- An event of the direction that starts later and ends earlier. -/
def CrossedLabel (kernels : List (String × SkKernelType)) (L : String → String → SyncEvent)
    (b : Bool) (s r : String) : Prop :=
  ∃ s' r', syncName b ∈ L s' r' ∧ kernelPos kernels s < kernelPos kernels s' ∧
    kernelPos kernels r' < kernelPos kernels r

section Passes

variable (hnames : (kernels.map Prod.fst).Nodup) (h : Labelled kernels ops L L)
  (hplaced : Placed kernels L)

include hnames h hplaced

theorem judgeRemove_iff (hs : OnQueue kernels b s) (hr : OnQueue kernels (!b) r) :
    judgeRemove ops s r b = true ↔ CrossedLabel kernels L b s r := by
  have hrecv : ∀ {name name'}, OnQueue kernels (!b) name → OnQueue kernels (!b) name' →
      (getIdx ops name b < getIdx ops name' b ↔
        kernelPos kernels name < kernelPos kernels name') := by
    intro name name' hname hname'
    simpa using h.getIdx_lt hnames hname hname'
  simp only [judgeRemove, any_eq_true, mem_reverse, Bool.and_eq_true, decide_eq_true_eq,
    contains_iff_mem, Prod.exists]
  constructor
  · intro hany
    rcases hany with ⟨op, htake, key, value, hitem, ⟨hname, hrecvLt⟩, hsendLt⟩
    have hop := (mem_opList.mp (mem_of_mem_take htake)).1
    have hlabel : L key op.kernelNameForMultiStream = value :=
      ((h.recv op hop key value).mp hitem).2
    subst hlabel
    have hends := hplaced b _ _ hname
    exact ⟨key, _, hname, (h.getIdx_lt hnames hs hends.1).mp hsendLt, (hrecv hends.2 hr).mp hrecvLt⟩
  · intro hcross
    rcases hcross with ⟨s', r', hname, hsendLt, hrecvLt⟩
    have hends := hplaced b _ _ hname
    have hidx := (hrecv hends.2 hr).mpr hrecvLt
    rcases (h.getIdx_eq hends.2).2 with ⟨op, hget, hop⟩
    rw [Bool.not_not] at hget
    have htake : op ∈ (opList ops b).take (getIdx ops r b) := by
      refine mem_of_getElem? (i := getIdx ops r' b) ?_
      rw [getElem?_take_of_lt hidx]
      exact hget
    have hmem := (mem_opList.mp (mem_of_mem_take htake)).1
    have hne : L s' r' ≠ [] := ne_nil_of_mem hname
    refine ⟨op, htake, s', L s' r', (h.recv op hmem _ _).mpr ⟨hne, by rw [hop]⟩, ⟨hname, ?_⟩, ?_⟩
    · rw [hop]
      exact hidx
    · exact (h.getIdx_lt hnames hs hends.1).mpr hsendLt

/-- The first pass reads each crossed event. -/
theorem mem_crossedEdges : (s, r, value) ∈ crossedEdges ops b ↔
    value = L s r ∧ syncName b ∈ L s r ∧ CrossedLabel kernels L b s r := by
  simp only [crossedEdges, mem_flatMap, mem_filterMap, mem_filter, Prod.exists,
    decide_eq_true_eq]
  constructor
  · intro hmem
    rcases hmem with ⟨op, hop, key, label, hitem, part, ⟨hpart, hname⟩, hsome⟩
    rcases mem_opList.mp hop with ⟨hop, _⟩
    have hlabel : L op.kernelNameForMultiStream key = label := ((h.send op hop _ _).mp hitem).2
    subst hname hlabel
    have hends := hplaced b _ _ hpart
    split at hsome
    · next hjudge =>
      simp only [Option.some.injEq, Prod.mk.injEq] at hsome
      rcases hsome with ⟨rfl, rfl, rfl⟩
      exact ⟨rfl, hpart, (judgeRemove_iff hnames h hplaced hends.1 hends.2).mp hjudge⟩
    · cases hsome
  · intro hmem
    rcases hmem with ⟨rfl, hname, hcross⟩
    have hends := hplaced b _ _ hname
    rcases h.exists_op hends.1 with ⟨op, hop, rfl⟩
    have hne : L op.kernelNameForMultiStream r ≠ [] := ne_nil_of_mem hname
    have hitem := (h.send op (mem_opList.mp hop).1 r _).mpr ⟨hne, rfl⟩
    refine ⟨op, hop, r, _, hitem, syncName b, ⟨hname, rfl⟩, ?_⟩
    rw [if_pos ((judgeRemove_iff hnames h hplaced hends.1 hends.2).mpr hcross)]

theorem mem_multiSendEdges : (s, r, value) ∈ multiSendEdges ops b ↔
    value = L s r ∧ syncName b ∈ L s r ∧
      ∃ r', syncName b ∈ L s r' ∧ kernelPos kernels r' < kernelPos kernels r := by
  have htail : ∀ op ∈ ops, ∀ key value,
      (key, value) ∈ (sortedEntries ops op.sendInfo b b).tail ↔
        value = L op.kernelNameForMultiStream key ∧ syncName b ∈ L op.kernelNameForMultiStream key ∧
          ∃ r', syncName b ∈ L op.kernelNameForMultiStream r' ∧
            kernelPos kernels r' < kernelPos kernels key := by
    intro op hop key value
    have : Std.Total fun x y : String × SyncEvent => getIdx ops x.1 b ≤ getIdx ops y.1 b :=
      ⟨fun _ _ => le_total _ _⟩
    have : IsTrans (String × SyncEvent) fun x y => getIdx ops x.1 b ≤ getIdx ops y.1 b :=
      ⟨fun _ _ _ => le_trans⟩
    refine mem_tail_entries (L op.kernelNameForMultiStream) (h.send op hop) _
      (fun k k' => kernelPos kernels k < kernelPos kernels k') (fun _ _ => Nat.lt_asymm) ?_
    intro k k' hk hk'
    simpa using h.getIdx_le hnames (hplaced b _ _ hk).2 (hplaced b _ _ hk').2
  simp only [multiSendEdges, mem_flatMap]
  constructor
  · intro hmem
    rcases hmem with ⟨op, hop, hmem⟩
    split at hmem
    · rcases mem_map.mp hmem with ⟨⟨key, label⟩, htailMem, heq⟩
      simp only [Prod.mk.injEq] at heq
      rcases heq with ⟨rfl, rfl, rfl⟩
      exact (htail op (mem_opList.mp hop).1 _ _).mp htailMem
    · simp at hmem
  · intro hmem
    rcases hmem with ⟨rfl, hname, r', hname', hlt⟩
    rcases h.exists_op (hplaced b _ _ hname).1 with ⟨op, hop, rfl⟩
    have hops := (mem_opList.mp hop).1
    refine ⟨op, hop, ?_⟩
    have hin : ∀ {key}, syncName b ∈ L op.kernelNameForMultiStream key →
        (key, L op.kernelNameForMultiStream key) ∈ op.sendInfo.items :=
      fun hkey => (h.send op hops _ _).mpr ⟨ne_nil_of_mem hkey, rfl⟩
    have hne : r' ≠ r := fun heq => lt_irrefl _ (heq ▸ hlt)
    rw [if_pos (OrderedDict.one_lt_length (hin hname') (hin hname) hne)]
    exact mem_map.mpr ⟨(r, _), (htail op hops _ _).mpr ⟨rfl, hname, r', hname', hlt⟩, rfl⟩

theorem mem_multiRecvEdges : (s, r, value) ∈ multiRecvEdges ops b ↔
    value = L s r ∧ syncName b ∈ L s r ∧
      ∃ s', syncName b ∈ L s' r ∧ kernelPos kernels s < kernelPos kernels s' := by
  have htail : ∀ op ∈ ops, ∀ key value,
      (key, value) ∈ (reverseSortedEntries ops op.recvInfo b (!b)).tail ↔
        value = L key op.kernelNameForMultiStream ∧ syncName b ∈ L key op.kernelNameForMultiStream ∧
          ∃ s', syncName b ∈ L s' op.kernelNameForMultiStream ∧
            kernelPos kernels key < kernelPos kernels s' := by
    intro op hop key value
    have : Std.Total fun x y : String × SyncEvent => getIdx ops y.1 (!b) ≤ getIdx ops x.1 (!b) :=
      ⟨fun _ _ => le_total _ _⟩
    have : IsTrans (String × SyncEvent) fun x y => getIdx ops y.1 (!b) ≤ getIdx ops x.1 (!b) :=
      ⟨fun _ _ _ hxy hyz => le_trans hyz hxy⟩
    refine mem_tail_entries (fun k => L k op.kernelNameForMultiStream) (h.recv op hop) _
      (fun k k' => kernelPos kernels k' < kernelPos kernels k) (fun _ _ => Nat.lt_asymm) ?_
    intro k k' hk hk'
    rw [ne_comm]
    exact h.getIdx_le hnames (hplaced b _ _ hk').1 (hplaced b _ _ hk).1
  simp only [multiRecvEdges, mem_flatMap]
  constructor
  · intro hmem
    rcases hmem with ⟨op, hop, hmem⟩
    split at hmem
    · rcases mem_map.mp hmem with ⟨⟨key, label⟩, htailMem, heq⟩
      simp only [Prod.mk.injEq] at heq
      rcases heq with ⟨rfl, rfl, rfl⟩
      exact (htail op (mem_opList.mp hop).1 _ _).mp htailMem
    · simp at hmem
  · intro hmem
    rcases hmem with ⟨rfl, hname, s', hname', hlt⟩
    rcases h.exists_op (hplaced b _ _ hname).2 with ⟨op, hop, rfl⟩
    rw [Bool.not_not] at hop
    have hops := (mem_opList.mp hop).1
    refine ⟨op, hop, ?_⟩
    have hin : ∀ {key}, syncName b ∈ L key op.kernelNameForMultiStream →
        (key, L key op.kernelNameForMultiStream) ∈ op.recvInfo.items :=
      fun hkey => (h.recv op hops _ _).mpr ⟨ne_nil_of_mem hkey, rfl⟩
    have hne : s' ≠ s := fun heq => lt_irrefl _ (heq ▸ hlt)
    rw [if_pos (OrderedDict.one_lt_length (hin hname') (hin hname) hne)]
    exact mem_map.mpr ⟨(s, _), (htail op hops _ _).mpr ⟨rfl, hname, s', hname', hlt⟩, rfl⟩

end Passes

/-! ## The passes on edges -/

/-- The entries of the operators stand for labels with these edges. -/
def JitEdges (kernels : List (String × SkKernelType)) (ops : List SubOperatorInfos)
    (E : Bool → Set (ℕ × ℕ)) : Prop :=
  ∃ L, Labelled kernels ops L L ∧ Placed kernels L ∧ ∀ b e, e ∈ E b ↔ e ∈ labelEdges kernels L b

variable {E E' : Bool → Set (ℕ × ℕ)}

theorem JitEdges.congr (h : JitEdges kernels ops E) (heq : ∀ b e, e ∈ E b ↔ e ∈ E' b) :
    JitEdges kernels ops E' := by
  rcases h with ⟨L, hlabelled, hplaced, hE⟩
  exact ⟨L, hlabelled, hplaced, fun b e => (heq b e).symm.trans (hE b e)⟩

theorem mem_afterDeletions_of_edges {D : String → String → Prop}
    (hedges : ∀ s r value, (s, r, value) ∈ edges ↔ value = L s r ∧ syncName b ∈ L s r ∧ D s r) :
    syncName b' ∈ afterDeletions L b edges L s r ↔ syncName b' ∈ L s r ∧ (b' = b → ¬ D s r) := by
  rw [mem_afterDeletions]
  have hpairs : (s, r) ∈ edges.map (fun e => (e.1, e.2.1)) ↔ syncName b ∈ L s r ∧ D s r := by
    simp [hedges]
  rw [hpairs]
  grind

variable {e : ℕ × ℕ}

/-- In terms of places: no event from the same sender ends earlier. -/
theorem mem_firstTargets_labelEdges (hplaced : Placed kernels L) :
    e ∈ firstTargets (labelEdges kernels L b) ↔ ∃ s r, syncName b ∈ L s r ∧
      (¬ ∃ r', syncName b ∈ L s r' ∧ kernelPos kernels r' < kernelPos kernels r) ∧
        e = (kernelPos kernels s, kernelPos kernels r) := by
  constructor
  · intro h
    rcases h with ⟨⟨s, r, hname, rfl⟩, hfirst⟩
    refine ⟨s, r, hname, fun hearlier => ?_, rfl⟩
    rcases hearlier with ⟨r', hname', hlt⟩
    exact absurd (hfirst _ ⟨s, r', hname', rfl⟩ rfl) (not_le.mpr hlt)
  · intro h
    rcases h with ⟨s, r, hname, hfirst, rfl⟩
    refine ⟨⟨s, r, hname, rfl⟩, fun e' he' hsource => ?_⟩
    rcases he' with ⟨s', r', hname', rfl⟩
    have hsame : s' = s := kernelPos_inj (hplaced b _ _ hname').1.mem_names
      (hplaced b _ _ hname).1.mem_names hsource
    subst hsame
    exact not_lt.mp fun hlt => hfirst ⟨r', hname', hlt⟩

/-- In terms of places: no event to the same receiver starts later. -/
theorem mem_lastSources_labelEdges (hplaced : Placed kernels L) :
    e ∈ lastSources (labelEdges kernels L b) ↔ ∃ s r, syncName b ∈ L s r ∧
      (¬ ∃ s', syncName b ∈ L s' r ∧ kernelPos kernels s < kernelPos kernels s') ∧
        e = (kernelPos kernels s, kernelPos kernels r) := by
  constructor
  · intro h
    rcases h with ⟨⟨s, r, hname, rfl⟩, hlast⟩
    refine ⟨s, r, hname, fun hlater => ?_, rfl⟩
    rcases hlater with ⟨s', hname', hlt⟩
    exact absurd (hlast _ ⟨s', r, hname', rfl⟩ rfl) (not_le.mpr hlt)
  · intro h
    rcases h with ⟨s, r, hname, hlast, rfl⟩
    refine ⟨⟨s, r, hname, rfl⟩, fun e' he' htarget => ?_⟩
    rcases he' with ⟨s', r', hname', rfl⟩
    have hsame : r' = r := kernelPos_inj (hplaced b _ _ hname').2.mem_names
      (hplaced b _ _ hname).2.mem_names htarget
    subst hsame
    exact not_lt.mp fun hlt => hlast ⟨s', hname', hlt⟩

/-- A loop that deletes the events `D` of one direction leaves the other direction alone. -/
theorem labelEdges_afterDeletions {D : String → String → Prop}
    (hedges : ∀ s r value, (s, r, value) ∈ edges ↔ value = L s r ∧ syncName b ∈ L s r ∧ D s r)
    {prune : Set (ℕ × ℕ) → Set (ℕ × ℕ)}
    (hprune : ∀ e, e ∈ prune (labelEdges kernels L b) ↔ ∃ s r, syncName b ∈ L s r ∧ ¬ D s r ∧
      e = (kernelPos kernels s, kernelPos kernels r)) (e : ℕ × ℕ) :
    e ∈ Function.update (labelEdges kernels L) b (prune (labelEdges kernels L b)) b' ↔
      e ∈ labelEdges kernels (afterDeletions L b edges L) b' := by
  have hafter : e ∈ labelEdges kernels (afterDeletions L b edges L) b' ↔
      ∃ s r, (syncName b' ∈ L s r ∧ (b' = b → ¬ D s r)) ∧
        e = (kernelPos kernels s, kernelPos kernels r) := by
    simp only [labelEdges, Set.mem_ofPred_eq, mem_afterDeletions_of_edges hedges]
  rw [hafter]
  by_cases hb : b' = b
  · subst hb
    rw [Function.update_self, hprune]
    simp [and_assoc]
  · rw [Function.update_of_ne hb]
    simp [labelEdges, hb]

/-- The edges whose deletion the source takes back: those between two mixed operators that are
crossed in both directions. -/
def crossedTwice (E : Bool → Set (ℕ × ℕ)) : Set (ℕ × ℕ) :=
  {e | ∀ b, e ∈ E b ∧ ∃ e' ∈ E b, Crosses e' e}

theorem mem_uncrossed_labelEdges :
    e ∈ uncrossed (labelEdges kernels L b) ↔ ∃ s r, syncName b ∈ L s r ∧
      ¬ CrossedLabel kernels L b s r ∧ e = (kernelPos kernels s, kernelPos kernels r) := by
  constructor
  · intro h
    rcases h with ⟨⟨s, r, hname, rfl⟩, hun⟩
    refine ⟨s, r, hname, fun hcross => ?_, rfl⟩
    rcases hcross with ⟨s', r', hname', hlt⟩
    exact hun _ ⟨s', r', hname', rfl⟩ hlt
  · intro h
    rcases h with ⟨s, r, hname, hun, rfl⟩
    refine ⟨⟨s, r, hname, rfl⟩, fun e' he' hcross => ?_⟩
    rcases he' with ⟨s', r', hname', rfl⟩
    exact hun ⟨s', r', hname', hcross⟩

theorem mem_crossedTwice_labelEdges (hplaced : Placed kernels L) :
    e ∈ crossedTwice (labelEdges kernels L) ↔ ∃ s r,
      (∀ b, syncName b ∈ L s r ∧ CrossedLabel kernels L b s r) ∧
        e = (kernelPos kernels s, kernelPos kernels r) := by
  constructor
  · intro h
    rcases (h true).1 with ⟨s, r, hname, rfl⟩
    refine ⟨s, r, fun b => ?_, rfl⟩
    rcases h b with ⟨⟨s', r', hname', hsame⟩, e', ⟨s'', r'', hname'', rfl⟩, hcross⟩
    -- the same places belong to the same names
    injection hsame with hsource htarget
    have hs := kernelPos_inj (hplaced _ _ _ hname).1.mem_names (hplaced _ _ _ hname').1.mem_names
      hsource
    have hr := kernelPos_inj (hplaced _ _ _ hname).2.mem_names (hplaced _ _ _ hname').2.mem_names
      htarget
    subst hs hr
    exact ⟨hname', s'', r'', hname'', hcross⟩
  · intro h b
    rcases h with ⟨s, r, hboth, rfl⟩
    rcases hboth b with ⟨hname, s', r', hname', hcross⟩
    exact ⟨⟨s, r, hname, rfl⟩, _, ⟨s', r', hname', rfl⟩, hcross⟩

section EdgePasses

variable (hnames : (kernels.map Prod.fst).Nodup)

include hnames

theorem JitEdges.removeMultiSends (h : JitEdges kernels ops E) (b : Bool) :
    JitEdges kernels (removeJitMultiSends ops b) (Function.update E b (firstTargets (E b))) := by
  rcases h with ⟨L, hlabelled, hplaced, hE⟩
  have hEeq : E = labelEdges kernels L := funext fun b => Set.ext (hE b)
  subst hEeq
  have hedges : ∀ s r value, (s, r, value) ∈ multiSendEdges ops b ↔ _ :=
    fun s r value => mem_multiSendEdges hnames hlabelled hplaced
  refine ⟨_, hlabelled.removeEdges (.inl rfl) _ (fun e he => ((hedges _ _ _).mp he).1),
    hplaced.afterDeletions, fun b' e => ?_⟩
  exact labelEdges_afterDeletions hedges (fun e => mem_firstTargets_labelEdges hplaced) e

theorem JitEdges.removeMultiRecvs (h : JitEdges kernels ops E) (b : Bool) :
    JitEdges kernels (removeJitMultiRecvs ops b) (Function.update E b (lastSources (E b))) := by
  rcases h with ⟨L, hlabelled, hplaced, hE⟩
  have hEeq : E = labelEdges kernels L := funext fun b => Set.ext (hE b)
  subst hEeq
  have hedges : ∀ s r value, (s, r, value) ∈ multiRecvEdges ops b ↔ _ :=
    fun s r value => mem_multiRecvEdges hnames hlabelled hplaced
  refine ⟨_, hlabelled.removeEdges (.inr rfl) _ (fun e he => ((hedges _ _ _).mp he).1),
    hplaced.afterDeletions, fun b' e => ?_⟩
  exact labelEdges_afterDeletions hedges (fun e => mem_lastSources_labelEdges hplaced) e

/-- The second loop writes back the cube-to-vec part of a label, which the first one took out,
when it deletes the vec-to-cube part. -/
theorem JitEdges.removeCrossedLines (h : JitEdges kernels ops E) :
    JitEdges kernels (removeJitCrossedLineSync ops) fun b =>
      if b then uncrossed (E true) ∪ crossedTwice E else uncrossed (E false) := by
  rcases h with ⟨L, hlabelled, hplaced, hE⟩
  have hEeq : E = labelEdges kernels L := funext fun b => Set.ext (hE b)
  subst hEeq
  have hedges : ∀ b s r value, (s, r, value) ∈ crossedEdges ops b ↔ _ :=
    fun b s r value => mem_crossedEdges hnames hlabelled hplaced
  have hfirst := hlabelled.removeEdges (b := true) (.inl rfl) (crossedEdges ops true)
    fun e he => ((hedges true _ _ _).mp he).1
  have hsecond := hfirst.removeEdges (b := false) (.inl rfl) (crossedEdges ops false)
    fun e he => ((hedges false _ _ _).mp he).1
  rw [removeInfos, removeInfos, ← foldl_append] at hsecond
  -- a deleted vec-to-cube part leaves the cube-to-vec part as it was read
  have hmem : ∀ b s r, syncName b ∈ afterDeletions L false (crossedEdges ops false)
      (afterDeletions L true (crossedEdges ops true) L) s r ↔
        syncName b ∈ L s r ∧ (¬ CrossedLabel kernels L b s r ∨
          b = true ∧ ∀ b, syncName b ∈ L s r ∧ CrossedLabel kernels L b s r) := by
    intro b s r
    have hdeleted : (s, r) ∈ (crossedEdges ops false).map (fun e => (e.1, e.2.1)) ↔
        syncName false ∈ L s r ∧ CrossedLabel kernels L false s r := by
      simp [hedges]
    rw [afterDeletions]
    split
    · next hmem =>
      rw [hdeleted] at hmem
      rw [mem_getRemainEvents]
      cases b
      · simp [hmem]
      · simp only [Bool.forall_bool]
        grind
    · next hmem =>
      rw [hdeleted] at hmem
      rw [mem_afterDeletions_of_edges (hedges true)]
      cases b
      · simp only [Bool.forall_bool]
        grind
      · simp only [Bool.forall_bool]
        grind
  refine ⟨_, hsecond, hplaced.mono fun b s r h => ((hmem b s r).mp h).1, fun b e => ?_⟩
  have hafter : e ∈ labelEdges kernels (afterDeletions L false (crossedEdges ops false)
      (afterDeletions L true (crossedEdges ops true) L)) b ↔
        ∃ s r, (syncName b ∈ L s r ∧ (¬ CrossedLabel kernels L b s r ∨
          b = true ∧ ∀ b, syncName b ∈ L s r ∧ CrossedLabel kernels L b s r)) ∧
            e = (kernelPos kernels s, kernelPos kernels r) := by
    simp only [labelEdges, Set.mem_ofPred_eq, hmem]
  rw [hafter]
  cases b
  · simp only [Bool.false_eq_true, if_false, false_and, or_false]
    simp only [mem_uncrossed_labelEdges, and_assoc]
  · simp only [if_true]
    constructor
    · intro h
      rcases h with h | h
      · rcases mem_uncrossed_labelEdges.mp h with ⟨s, r, hname, hun, heq⟩
        exact ⟨s, r, ⟨hname, .inl hun⟩, heq⟩
      · rcases (mem_crossedTwice_labelEdges hplaced).mp h with ⟨s, r, hboth, heq⟩
        exact ⟨s, r, ⟨(hboth true).1, .inr ⟨trivial, hboth⟩⟩, heq⟩
    · intro h
      rcases h with ⟨s, r, ⟨hname, hun | hboth⟩, heq⟩
      · exact .inl (mem_uncrossed_labelEdges.mpr ⟨s, r, hname, hun, heq⟩)
      · exact .inr ((mem_crossedTwice_labelEdges hplaced).mpr ⟨s, r, hboth.2, heq⟩)

/-- The passes prune the vec-to-cube edges as intended, and the cube-to-vec edges except for
those crossed in both directions. -/
theorem JitEdges.optimizeSyncPass (h : JitEdges kernels ops E) :
    JitEdges kernels (optimizeSyncPass ops) fun b =>
      if b then prunedWith (crossedTwice E) (E true) else pruned (E false) := by
  have hcross := h.removeCrossedLines hnames
  have hsend := (hcross.removeMultiSends hnames false).removeMultiSends hnames true
  have hrecv := (hsend.removeMultiRecvs hnames true).removeMultiRecvs hnames false
  refine hrecv.congr fun b e => ?_
  cases b <;> simp [Function.update, pruned, prunedWith]

end EdgePasses

end GraphAutofusion.SuperKernel
