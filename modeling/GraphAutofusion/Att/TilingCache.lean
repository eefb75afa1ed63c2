import GraphAutofusion.Lib.Probing
import Mathlib.Data.Fintype.Card

/-!
# Att.TilingCache — the caches of the generated tiling code

A hash map of fixed size with open addressing, and the cache of one operator kept in it, which throws
everything away when an insertion fails at the load threshold.
-/

namespace GraphAutofusion.Att.TilingCache

open Lib

inductive BucketState | kEmpty | kOccupied | kDeleted
deriving DecidableEq, Repr

structure Bucket (κ ν : Type) where
  key : κ
  value : ν
  state : BucketState

structure FixedSizeHashMap (κ ν : Type) (capacity : ℕ) where
  buckets : Fin capacity → Bucket κ ν
  size : ℕ

variable {κ ν : Type} [DecidableEq κ] {capacity : ℕ} [NeZero capacity]

/-- `size_ >= CAPACITY * kLoadFactorThreshold`, with the threshold 0.8. -/
def LoadReached (capacity size : ℕ) : Prop := 4 * capacity ≤ 5 * size

instance (size : ℕ) : Decidable (LoadReached capacity size) := inferInstanceAs (Decidable (_ ≤ _))

variable (m : FixedSizeHashMap κ ν capacity)

namespace FixedSizeHashMap

/-- The loop over the buckets from `start` on. The inner `none` is `CAPACITY`, no bucket. -/
def findIndexLoop (m : FixedSizeHashMap κ ν capacity) (key : κ) (start : Fin capacity) :
    ℕ → Fin capacity → Option (Option (Fin capacity))
  | 0, _ => none
  | fuel + 1, hash =>
    if (m.buckets hash).state = .kEmpty then some none
    else if (m.buckets hash).state = .kOccupied ∧ (m.buckets hash).key = key then some (some hash)
    else if hash + 1 = start then some none
    else findIndexLoop m key start fuel (hash + 1)

def findIndex (hash : κ → ℕ) (m : FixedSizeHashMap κ ν capacity) (key : κ) :
    Option (Option (Fin capacity)) :=
  m.findIndexLoop key (Fin.ofNat capacity (hash key)) capacity (Fin.ofNat capacity (hash key))

def find (hash : κ → ℕ) (m : FixedSizeHashMap κ ν capacity) (key : κ) : Option (Option ν) :=
  match m.findIndex hash key with
  | none => none
  | some none => some none
  | some (some index) =>
    if (m.buckets index).state = .kOccupied then some (some (m.buckets index).value) else some none

def setBucket (index : Fin capacity) (b : Bucket κ ν) : FixedSizeHashMap κ ν capacity :=
  { m with buckets := Function.update m.buckets index b }

/-- The second loop takes the first empty bucket only; a deleted one is not used again. -/
def insert (hash : κ → ℕ) (m : FixedSizeHashMap κ ν capacity) (key : κ) (value : ν) :
    Option (Bool × FixedSizeHashMap κ ν capacity) :=
  if LoadReached capacity m.size then some (false, m)
  else
    match m.findIndex hash key with
    | none => none
    | some none =>
      match firstFrom (fun index => decide ((m.buckets index).state = .kEmpty))
          (Fin.ofNat capacity (hash key)) with
      | some index => some (true, { m.setBucket index ⟨key, value, .kOccupied⟩ with size := m.size + 1 })
      | none => some (false, m)
    | some (some index) => some (true, m.setBucket index { m.buckets index with value := value })

def erase (hash : κ → ℕ) (m : FixedSizeHashMap κ ν capacity) (key : κ) :
    Option (Bool × FixedSizeHashMap κ ν capacity) :=
  match m.findIndex hash key with
  | none => none
  | some none => some (false, m)
  | some (some index) =>
    if (m.buckets index).state = .kOccupied then
      some (true, { m.setBucket index { m.buckets index with state := .kDeleted } with size := m.size - 1 })
    else some (false, m)

def clear : FixedSizeHashMap κ ν capacity where
  buckets := fun index => { m.buckets index with state := .kEmpty }
  size := 0

/-- A new map: its buckets are empty, whatever else is in them. -/
structure Initial (m : FixedSizeHashMap κ ν capacity) : Prop where
  empty : ∀ index, (m.buckets index).state = .kEmpty
  size : m.size = 0

/-! ## Runs -/

/-- A key is present when an occupied bucket has it. -/
def Present (key : κ) : Prop :=
  ∃ index, (m.buckets index).state = .kOccupied ∧ (m.buckets index).key = key

def occupied : ℕ :=
  (Finset.univ.filter fun index => (m.buckets index).state = .kOccupied).card

end FixedSizeHashMap

inductive Op (κ ν : Type)
  | find (key : κ)
  | insert (key : κ) (value : ν)
  | erase (key : κ)
  | clear

/-- A call with its result. -/
inductive Event (κ ν : Type)
  | found (key : κ) (result : Option ν)
  | inserted (key : κ) (value : ν) (ok : Bool)
  | erased (key : κ) (ok : Bool)
  | cleared

def Op.run (hash : κ → ℕ) (m : FixedSizeHashMap κ ν capacity) :
    Op κ ν → Option (Event κ ν × FixedSizeHashMap κ ν capacity)
  | .find key => (m.find hash key).map fun result => (.found key result, m)
  | .insert key value => (m.insert hash key value).map fun r => (.inserted key value r.1, r.2)
  | .erase key => (m.erase hash key).map fun r => (.erased key r.1, r.2)
  | .clear => some (.cleared, m.clear)

/-- The calls one after the other, with what came before them, the last first. -/
def runOps (hash : κ → ℕ) (m : FixedSizeHashMap κ ν capacity) (history : List (Event κ ν)) :
    List (Op κ ν) → Option (List (Event κ ν) × FixedSizeHashMap κ ν capacity)
  | [] => some (history, m)
  | op :: ops => (op.run hash m).bind fun r => runOps hash r.2 (r.1 :: history) ops

/-- The value of the last insertion of a key that succeeded, unless the key was erased or the map cleared
after it. -/
def lastInserted (key : κ) : List (Event κ ν) → Option ν
  | [] => none
  | .inserted key' value true :: history => if key' = key then some value else lastInserted key history
  | .erased key' true :: history => if key' = key then none else lastInserted key history
  | .cleared :: _ => none
  | _ :: history => lastInserted key history

/-- What an insertion is to do: a present key is updated, and a new one is refused only at the threshold. -/
def InsertServes (hash : κ → ℕ) (m : FixedSizeHashMap κ ν capacity) (key : κ) (value : ν) : Prop :=
  (m.Present key → ∃ m', m.insert hash key value = some (true, m') ∧ m'.find hash key = some (some value)) ∧
    (¬ m.Present key → (∃ m', m.insert hash key value = some (false, m')) → LoadReached capacity m.size)

/-- A present key is inserted below the threshold, and a new one below it finds an empty bucket. -/
def FixedSizeHashMap.InsertRoom (key : κ) : Prop :=
  (m.Present key → ¬ LoadReached capacity m.size) ∧
    (¬ m.Present key → LoadReached capacity m.size ∨ ∃ index, (m.buckets index).state = .kEmpty)

/-- A property of all insertions of a run. -/
def AtInserts (hash : κ → ℕ) (P : FixedSizeHashMap κ ν capacity → κ → ν → Prop)
    (m : FixedSizeHashMap κ ν capacity) : List (Op κ ν) → Prop
  | [] => True
  | op :: ops => (∀ key value, op = .insert key value → P m key value) ∧
      ∀ event m', op.run hash m = some (event, m') → AtInserts hash P m' ops

/-! ## The cache of an operator -/

variable {kInputShapeSize : ℕ}

/-- `value + kHashPrime` is a sum of 32 bits. -/
def hash (key : Vector UInt32 kInputShapeSize) : UInt64 :=
  key.toList.foldl (fun hash value =>
    hash ^^^ ((value + 0x9e3779b9).toUInt64 + (hash <<< 6) + (hash >>> 2))) 0

def hashSlot (key : Vector UInt32 kInputShapeSize) : ℕ := (hash key).toNat

def kOperatorCacheCapacity : ℕ := 24

instance : NeZero kOperatorCacheCapacity := ⟨by decide⟩

abbrev OperatorLevelCache (kInputShapeSize : ℕ) (ν : Type) :=
  FixedSizeHashMap (Vector UInt32 kInputShapeSize) ν kOperatorCacheCapacity

/-- `fresh` is what `make_unique` finds in the memory of a new cache. -/
structure TilingCacheContext (kInputShapeSize : ℕ) (ν : Type) where
  operatorCache : Option (OperatorLevelCache kInputShapeSize ν)
  initialized : Bool
  accessCounts : Fin kOperatorCacheCapacity → UInt64
  lastAgedMinCount : UInt64
  fresh : OperatorLevelCache kInputShapeSize ν

inductive OperatorCacheSaveResult | kSaved | kClearedAndSaved | kFailed
deriving DecidableEq, Repr

namespace TilingCacheContext

variable (c : TilingCacheContext kInputShapeSize ν)

def getOperatorCache : TilingCacheContext kInputShapeSize ν :=
  if c.initialized then c
  else { c with initialized := true, operatorCache := some c.fresh.clear, accessCounts := fun _ => 0,
                lastAgedMinCount := 0 }

def findOperatorCache (shapeKey : Vector UInt32 kInputShapeSize) :
    Option (Option ν × TilingCacheContext kInputShapeSize ν) :=
  let c := c.getOperatorCache
  match c.operatorCache with
  | none => none
  | some cache =>
    match cache.find hashSlot shapeKey with
    | none => none
    | some none => some (none, c)
    | some (some result) =>
      let index := Fin.ofNat kOperatorCacheCapacity (hashSlot shapeKey)
      some (some result,
        { c with accessCounts := Function.update c.accessCounts index (c.accessCounts index + 1) })

def minCount (counts : Fin kOperatorCacheCapacity → UInt64) : UInt64 :=
  (List.finRange kOperatorCacheCapacity).foldl (fun least i => if counts i < least then counts i else least)
    (counts 0)

def saveOperatorCache (shapeKey : Vector UInt32 kInputShapeSize) (tilingData : ν) :
    Option (OperatorCacheSaveResult × TilingCacheContext kInputShapeSize ν) :=
  let c := c.getOperatorCache
  match c.operatorCache with
  | none => none
  | some cache =>
    match cache.insert hashSlot shapeKey tilingData with
    | none => none
    | some (true, cache) => some (.kSaved, { c with operatorCache := some cache })
    | some (false, cache) =>
      if LoadReached kOperatorCacheCapacity cache.size then
        let c := { c with lastAgedMinCount := minCount c.accessCounts, accessCounts := fun _ => 0 }
        match cache.clear.insert hashSlot shapeKey tilingData with
        | none => none
        | some (ok, cache) =>
          some (if ok then .kClearedAndSaved else .kFailed, { c with operatorCache := some cache })
      else some (.kFailed, { c with operatorCache := some cache })

end TilingCacheContext

inductive CacheOp (kInputShapeSize : ℕ) (ν : Type)
  | find (key : Vector UInt32 kInputShapeSize)
  | save (key : Vector UInt32 kInputShapeSize) (data : ν)

inductive CacheEvent (kInputShapeSize : ℕ) (ν : Type)
  | found (key : Vector UInt32 kInputShapeSize) (result : Option ν)
  | saved (key : Vector UInt32 kInputShapeSize) (data : ν) (result : OperatorCacheSaveResult)

def CacheOp.run (c : TilingCacheContext kInputShapeSize ν) : CacheOp kInputShapeSize ν →
    Option (CacheEvent kInputShapeSize ν × TilingCacheContext kInputShapeSize ν)
  | .find key => (c.findOperatorCache key).map fun r => (.found key r.1, r.2)
  | .save key data => (c.saveOperatorCache key data).map fun r => (.saved key data r.1, r.2)

def runCacheOps (c : TilingCacheContext kInputShapeSize ν) (history : List (CacheEvent kInputShapeSize ν)) :
    List (CacheOp kInputShapeSize ν) →
      Option (List (CacheEvent kInputShapeSize ν) × TilingCacheContext kInputShapeSize ν)
  | [] => some (history, c)
  | op :: ops => (op.run c).bind fun r => runCacheOps r.2 (r.1 :: history) ops

/-- The data that was last saved under a key. -/
def lastSaved (key : Vector UInt32 kInputShapeSize) : List (CacheEvent kInputShapeSize ν) → Option ν
  | [] => none
  | .saved key' data _ :: history => if key' = key then some data else lastSaved key history
  | .found _ _ :: history => lastSaved key history

/-- What is found under a key, without the count of the access. -/
def TilingCacheContext.lookup (c : TilingCacheContext kInputShapeSize ν)
    (key : Vector UInt32 kInputShapeSize) : Option ν := (c.findOperatorCache key).bind Prod.fst

def TilingCacheContext.entries (c : TilingCacheContext kInputShapeSize ν) : ℕ :=
  match c.getOperatorCache.operatorCache with
  | none => 0
  | some cache => cache.size

/-- A save succeeds, and the data is found after it. -/
def SaveSucceeds (c : TilingCacheContext kInputShapeSize ν) (key : Vector UInt32 kInputShapeSize)
    (data : ν) : Prop :=
  ∃ result c', c.saveOperatorCache key data = some (result, c') ∧ result ≠ .kFailed ∧
    c'.lookup key = some data

/-- A key that is present is updated and the other entries are kept. -/
def SaveUpdates (c : TilingCacheContext kInputShapeSize ν) (key : Vector UInt32 kInputShapeSize)
    (data : ν) : Prop :=
  c.lookup key ≠ none → ∃ result c', c.saveOperatorCache key data = some (result, c') ∧
    c'.lookup key = some data ∧ ∀ k, k ≠ key → c'.lookup k = c.lookup k

/-- A present key is saved below the load threshold. -/
def SaveRoom (c : TilingCacheContext kInputShapeSize ν) (key : Vector UInt32 kInputShapeSize) : Prop :=
  c.lookup key ≠ none → ¬ LoadReached kOperatorCacheCapacity c.entries

/-- A property of all saves of a run. -/
def AtSaves (P : TilingCacheContext kInputShapeSize ν → Vector UInt32 kInputShapeSize → ν → Prop)
    (c : TilingCacheContext kInputShapeSize ν) : List (CacheOp kInputShapeSize ν) → Prop
  | [] => True
  | op :: ops => (∀ key data, op = .save key data → P c key data) ∧
      ∀ event c', op.run c = some (event, c') → AtSaves P c' ops

end GraphAutofusion.Att.TilingCache
