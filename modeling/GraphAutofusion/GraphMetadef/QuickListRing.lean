import GraphAutofusion.GraphMetadef.QuickList
import GraphAutofusion.Lib.Ring
import GraphAutofusion.Lib.StableSort

/-!
# GraphMetadef.QuickListRing — the links of quick lists

A quick list owns a head element, a pointer to the last element and a count. Its elements are linked in
both directions through the head; every element names the list that owns it. Several lists share the
elements. `none` is a null pointer; an operation that reads through one has no result.
-/

namespace GraphAutofusion.GraphMetadef.QuickListRing

open Lib

structure QuickList (α : Type) where
  head : α
  tail : α
  totalSize : ℕ
deriving DecidableEq, Repr

structure State (α ι : Type) where
  next : α → Option α
  prev : α → Option α
  owner : α → Option ι
  mode : α → ListMode
  lists : ι → QuickList α

variable {α ι : Type} [DecidableEq α] [DecidableEq ι]
variable (s : State α ι)

namespace State

@[simp] def setNext (a : α) (v : Option α) : State α ι :=
  { s with next := Function.update s.next a v }

@[simp] def setPrev (a : α) (v : Option α) : State α ι :=
  { s with prev := Function.update s.prev a v }

@[simp] def setOwner (a : α) (v : Option ι) : State α ι :=
  { s with owner := Function.update s.owner a v }

@[simp] def setMode (a : α) (v : ListMode) : State α ι :=
  { s with mode := Function.update s.mode a v }

@[simp] def setTail (i : ι) (a : α) : State α ι :=
  { s with lists := Function.update s.lists i { s.lists i with tail := a } }

@[simp] def setTotalSize (i : ι) (n : ℕ) : State α ι :=
  { s with lists := Function.update s.lists i { s.lists i with totalSize := n } }

def pushBack (i : ι) (element : α) (mode : ListMode) : State α ι :=
  let head := (s.lists i).head
  let tail := (s.lists i).tail
  let s := s.setNext tail (some element)
  let s := (s.setPrev element (some tail)).setNext element (some head)
  let s := (s.setOwner element (some i)).setMode element mode
  let s := (s.setTail i element).setPrev head (some element)
  s.setTotalSize i ((s.lists i).totalSize + 1)

/-- The three cases of `insert`: in front of the first element, at the end, and in between. -/
def insertLinks (i : ι) (pos element : α) : Option (State α ι) :=
  let head := (s.lists i).head
  let tail := (s.lists i).tail
  if s.next head = some pos then
    let s := s.setNext head (some element)
    let s := (s.setNext element (some pos)).setPrev element (some head)
    let s := s.setPrev pos (some element)
    some (if tail = head then s.setTail i element else s)
  else if pos = head then
    let s := (s.setNext element (s.next tail)).setPrev element (some tail)
    let s := (s.setNext tail (some element)).setTail i element
    some (s.setPrev head (some element))
  else
    match s.prev pos with
    | none => none
    | some prev =>
      let s := (s.setPrev element (some prev)).setNext element (some pos)
      some ((s.setNext prev (some element)).setPrev pos (some element))

def insert (i : ι) (pos element : α) (mode : ListMode) : Option (State α ι) :=
  match s.insertLinks i pos element with
  | none => none
  | some s =>
    let s := (s.setOwner element (some i)).setMode element mode
    some (s.setTotalSize i ((s.lists i).totalSize + 1))

def pushFront (i : ι) (x : α) (mode : ListMode) : Option (State α ι) :=
  match s.next (s.lists i).head with
  | none => none
  | some begin => s.insert i begin x mode

/-- The first part of `move`: the element leaves its place. -/
def unlink (i : ι) (cur next prev : α) : State α ι :=
  let s := (s.setNext prev (some next)).setPrev next (some prev)
  if (s.lists i).tail = cur then s.setTail i prev else s

def move (i : ι) (src dst : α) (beforeFlag : Bool) : Option (State α ι) :=
  match s.next src, s.prev src with
  | some next, some prev =>
    let s := s.unlink i src next prev
    if beforeFlag then
      match s.prev dst with
      | none => none
      | some dstPrev =>
        let s := (s.setPrev dst (some src)).setNext dstPrev (some src)
        some ((s.setPrev src (some dstPrev)).setNext src (some dst))
    else
      match s.next dst with
      | none => none
      | some dstNext =>
        let s := (s.setPrev dstNext (some src)).setNext dst (some src)
        let s := (s.setPrev src (some dst)).setNext src (some dstNext)
        some (if (s.lists i).tail = dst then s.setTail i src else s)
  | _, _ => none

/-- An element of another list, or of none, is left alone. -/
def erase (i : ι) (x : α) : Option (State α ι) :=
  if s.owner x = some i then
    match s.prev x with
    | none => some s
    | some prev =>
      let s := if (s.lists i).tail = x then s.setTail i prev else s
      match s.next x with
      | none => none
      | some next =>
        let s := ((s.setPrev x none).setNext x none).setOwner x none
        let s := s.setMode x .kFreeMode
        let s := (s.setNext prev (some next)).setPrev next (some prev)
        some (s.setTotalSize i ((s.lists i).totalSize - 1))
  else some s

/-- The loop of `clear`, from an element on. -/
def clearLoop (i : ι) : ℕ → State α ι → α → Option (State α ι)
  | 0, s, cur => if cur = (s.lists i).head then some s else none
  | fuel + 1, s, cur =>
    if cur = (s.lists i).head then some s
    else
      match s.next cur, s.erase i cur with
      | some next, some s => clearLoop i fuel s next
      | _, _ => none

def clear (i : ι) : Option (State α ι) :=
  match s.next (s.lists i).head with
  | none => none
  | some begin => clearLoop i (s.lists i).totalSize s begin

/-- The loop of `sort`, which takes the first element again and again and carries it into the
counters. -/
def sortLoop (comp : α → α → Bool) (i : ι) :
    ℕ → State α ι → List (List α) → Option (State α ι × List (List α))
  | 0, _, _ => none
  | fuel + 1, s, counters =>
    match s.next (s.lists i).head with
    | none => none
    | some element =>
      match s.erase i element with
      | none => none
      | some s =>
        let counters := carryInto comp counters [element]
        if s.next (s.lists i).head = some (s.lists i).head then some (s, counters)
        else sortLoop comp i fuel s counters

def pushAll (i : ι) (s : State α ι) (elements : List α) : State α ι :=
  elements.foldl (fun s element => s.pushBack i element .kWorkMode) s

def sort (i : ι) (comp : α → α → Bool) : Option (State α ι) :=
  if (s.lists i).totalSize ≤ 1 then some s
  else
    match sortLoop comp i (s.lists i).totalSize s [] with
    | none => none
    | some (s, counters) =>
      match s.clear i with
      | none => none
      | some s => some (pushAll i s (mergeCounters comp counters))

/-- The elements that a loop from `begin()` to `end()` meets. -/
def walk (s : State α ι) (head : α) : ℕ → α → Option (List α)
  | 0, cur => if cur = head then some [] else none
  | fuel + 1, cur =>
    if cur = head then some []
    else
      match s.next cur with
      | none => none
      | some next => (s.walk head fuel next).map (cur :: ·)

def elements (i : ι) : Option (List α) :=
  match s.next (s.lists i).head with
  | none => none
  | some begin => s.walk (s.lists i).head (s.lists i).totalSize begin

def setOwners (items : List α) (i : ι) : State α ι :=
  items.foldl (fun s item => s.setOwner item (some i)) s

/-- `this` is the list `i`. -/
def swap (i list : ι) : Option (State α ι) :=
  match s.elements list with
  | none => none
  | some items =>
    match (s.setOwners items i).elements i with
    | none => none
    | some items' =>
      let tmp := s.lists i
      let s := (s.setOwners items i).setOwners items' list
      let s := { s with lists := Function.update s.lists i (s.lists list) }
      let s := s.setOwner (s.lists i).head (some i)
      let s := { s with lists := Function.update s.lists list tmp }
      some (s.setOwner (s.lists list).head (some list))

end State

/-! ## Runs -/

/-- A call. A position is an element, or `none` for the end. -/
inductive Op (α ι : Type)
  | pushBack (i : ι) (x : α) (mode : ListMode)
  | pushFront (i : ι) (x : α) (mode : ListMode)
  | insert (i : ι) (pos : Option α) (x : α) (mode : ListMode)
  | move (i : ι) (src : α) (dst : Option α) (beforeFlag : Bool)
  | erase (i : ι) (x : α)
  | sort (i : ι) (comp : α → α → Bool)
  | swap (i j : ι)
  | clear (i : ι)

/-- The end of a list is its head. -/
def State.position (i : ι) (pos : Option α) : α := pos.getD (s.lists i).head

def Op.run : Op α ι → Option (State α ι)
  | .pushBack i x mode => some (s.pushBack i x mode)
  | .pushFront i x mode => s.pushFront i x mode
  | .insert i pos x mode => s.insert i (s.position i pos) x mode
  | .move i src dst beforeFlag => s.move i src (s.position i dst) beforeFlag
  | .erase i x => s.erase i x
  | .sort i comp => s.sort i comp
  | .swap i j => s.swap i j
  | .clear i => s.clear i

def runOps (s : State α ι) : List (Op α ι) → Option (State α ι)
  | [] => some s
  | op :: ops => (op.run s).bind fun s => runOps s ops

/-! ### The same calls on plain sequences -/

def insertBefore (pos : Option α) (x : α) (l : List α) : List α :=
  match pos with
  | none => l ++ [x]
  | some p => l.insertIdx (l.idxOf p) x

/-- Behind the end is in front of all. -/
def insertAfter (pos : Option α) (x : α) (l : List α) : List α :=
  match pos with
  | none => x :: l
  | some p => l.insertIdx (l.idxOf p + 1) x

def moveIn (src : α) (dst : Option α) (beforeFlag : Bool) (l : List α) : List α :=
  if dst = some src then l
  else if beforeFlag then insertBefore dst src (l.erase src)
  else insertAfter dst src (l.erase src)

def Op.plain (seqs : ι → List α) : Op α ι → ι → List α
  | .pushBack i x _ => Function.update seqs i (seqs i ++ [x])
  | .pushFront i x _ => Function.update seqs i (x :: seqs i)
  | .insert i pos x _ => Function.update seqs i (insertBefore pos x (seqs i))
  | .move i src dst beforeFlag => Function.update seqs i (moveIn src dst beforeFlag (seqs i))
  | .erase i x => Function.update seqs i ((seqs i).erase x)
  | .sort i comp => Function.update seqs i (stableSort comp (seqs i))
  | .swap i j => Function.update (Function.update seqs i (seqs j)) j (seqs i)
  | .clear i => Function.update seqs i []

def plainOps (seqs : ι → List α) (ops : List (Op α ι)) : ι → List α := ops.foldl Op.plain seqs

/-- An element is free when it is in no list and no head. -/
def Free (heads : ι → α) (seqs : ι → List α) (x : α) : Prop := ∀ i, x ≠ heads i ∧ x ∉ seqs i

/-- How the calls are meant to be used: a free element is added, positions and moved elements are in the
list, and the comparison is one that sorts. -/
def Op.Valid (heads : ι → α) (seqs : ι → List α) : Op α ι → Prop
  | .pushBack _ x _ => Free heads seqs x
  | .pushFront _ x _ => Free heads seqs x
  | .insert i pos x _ => Free heads seqs x ∧ ∀ p ∈ pos, p ∈ seqs i
  | .move i src dst _ => src ∈ seqs i ∧ ∀ d ∈ dst, d ∈ seqs i
  | .erase _ x => ∀ i, x ≠ heads i
  | .sort _ comp => StrictWeak comp
  | .swap _ _ => True
  | .clear _ => True

/-- A move neither goes to the end by going in front of it nor to the place of the element itself. -/
def Op.MovesProperly : Op α ι → Prop
  | .move _ src dst beforeFlag => dst ≠ some src ∧ ¬ (dst = none ∧ beforeFlag = true)
  | _ => True

/-- All calls of a run are valid. -/
def ValidRun (heads : ι → α) (seqs : ι → List α) : List (Op α ι) → Prop
  | [] => True
  | op :: ops => op.Valid heads seqs ∧ ValidRun heads (op.plain seqs) ops

/-- All calls of a run are valid and all its moves proper. -/
def ProperRun (heads : ι → α) (seqs : ι → List α) : List (Op α ι) → Prop
  | [] => True
  | op :: ops => op.Valid heads seqs ∧ op.MovesProperly ∧ ProperRun heads (op.plain seqs) ops

/-- The lists hold the sequences: one ring through their elements, the last element and the count, and
every element knows its list. -/
structure Represents (heads : ι → α) (s : State α ι) (seqs : ι → List α) : Prop where
  ring : ∀ i, Ring s.next s.prev (s.lists i).head (seqs i)
  tail : ∀ i, some (s.lists i).tail = s.prev (s.lists i).head
  totalSize : ∀ i, (s.lists i).totalSize = (seqs i).length
  owner : ∀ i x, (∀ k, x ≠ heads k) → (s.owner x = some i ↔ x ∈ seqs i)
  head_mem : ∀ i, ∃ k, (s.lists i).head = heads k
  item : ∀ i, ∀ x ∈ seqs i, ∀ k, x ≠ heads k
  separate : ∀ i j, i ≠ j → ∀ x ∈ (s.lists i).head :: seqs i, x ∉ (s.lists j).head :: seqs j

/-- Lists that were just made, each with a head of its own. -/
structure Initial (heads : ι → α) (s : State α ι) : Prop where
  distinct : Function.Injective heads
  lists : ∀ i, s.lists i = ⟨heads i, heads i, 0⟩
  next : ∀ i, s.next (heads i) = some (heads i)
  prev : ∀ i, s.prev (heads i) = some (heads i)
  owner : ∀ x, (∀ k, x ≠ heads k) → s.owner x = none

end GraphAutofusion.GraphMetadef.QuickListRing
