import Mathlib.Data.List.Nodup

/-!
# Lib.OrderedDict — a dictionary that keeps insertion order

Iteration lists the entries in the order in which their keys came in. Setting a key that is
there keeps its place, and each key has one entry.
-/

namespace GraphAutofusion.Lib

open List

/-- The entries in iteration order. -/
structure OrderedDict (κ ν : Type*) where
  items : List (κ × ν)
  nodup : (items.map Prod.fst).Nodup

namespace OrderedDict

variable {κ ν : Type*}

def empty : OrderedDict κ ν := ⟨[], nodup_nil⟩

variable [DecidableEq κ] (d : OrderedDict κ ν) (k k' : κ) (v v' : ν)

def get? : Option ν := (d.items.find? fun item => item.1 = k).map Prod.snd

def setItems (items : List (κ × ν)) : List (κ × ν) :=
  if k ∈ items.map Prod.fst then items.map fun item => if item.1 = k then (k, v) else item
  else items ++ [(k, v)]

theorem map_fst_setItems (items : List (κ × ν)) :
    (setItems k v items).map Prod.fst
      = if k ∈ items.map Prod.fst then items.map Prod.fst else items.map Prod.fst ++ [k] := by
  unfold setItems
  split
  · rw [map_map]
    refine map_congr_left fun item _ => ?_
    by_cases hkey : item.1 = k <;> simp [hkey]
  · simp

def set : OrderedDict κ ν where
  items := setItems k v d.items
  nodup := by
    rw [map_fst_setItems]
    split
    · exact d.nodup
    · next hnew => exact nodup_append.mpr ⟨d.nodup, nodup_singleton k, by grind⟩

def pop : OrderedDict κ ν where
  items := d.items.filter fun item => item.1 ≠ k
  nodup := d.nodup.sublist (filter_sublist.map Prod.fst)

variable {d k k' v v'}

omit [DecidableEq κ] in
/-- Each key has one value. -/
theorem value_unique (h : (k, v) ∈ d.items) (h' : (k, v') ∈ d.items) : v = v' := by
  have heq := inj_on_of_nodup_map d.nodup h h' rfl
  exact congrArg Prod.snd heq

theorem mem_items : (k, v) ∈ d.items ↔ d.get? k = some v := by
  unfold get?
  constructor
  · intro h
    cases hfind : d.items.find? (fun item => item.1 = k) with
    | none => simpa using find?_eq_none.mp hfind (k, v) h
    | some item =>
      have hmem := mem_of_find?_eq_some hfind
      have hkey : item.1 = k := by simpa using find?_some hfind
      have hvalue : (k, item.2) ∈ d.items := hkey ▸ hmem
      rw [Option.map_some, value_unique hvalue h]
  · intro h
    rcases Option.map_eq_some_iff.mp h with ⟨item, hfind, hvalue⟩
    have hkey : item.1 = k := by simpa using find?_some hfind
    rw [← hkey, ← hvalue]
    exact mem_of_find?_eq_some hfind

omit [DecidableEq κ] in
@[simp] theorem mem_items_empty : (k, v) ∈ (empty : OrderedDict κ ν).items ↔ False := by
  simp [empty]

@[simp] theorem mem_items_set :
    (k', v') ∈ (d.set k v).items ↔ if k' = k then v' = v else (k', v') ∈ d.items := by
  simp only [set, setItems]
  split
  · next hold =>
    rcases mem_map.mp hold with ⟨item, hitem, rfl⟩
    by_cases hkey : k' = item.1
    · simp only [mem_map, hkey, if_true]
      constructor
      · intro h
        grind
      · intro h
        exact ⟨item, hitem, by simp [h]⟩
    · simp only [mem_map, if_neg hkey]
      constructor
      · intro h
        grind
      · intro h
        exact ⟨(k', v'), h, by simp [hkey]⟩
  · next hnew =>
    grind

@[simp] theorem mem_items_pop : (k', v') ∈ (d.pop k).items ↔ k' ≠ k ∧ (k', v') ∈ d.items := by
  simp [pop, and_comm]

omit [DecidableEq κ] in
/-- Two keys make two entries. -/
theorem one_lt_length (h : (k, v) ∈ d.items) (h' : (k', v') ∈ d.items) (hne : k ≠ k') :
    1 < d.items.length := by
  rcases mem_iff_getElem.mp h with ⟨i, hi, heq⟩
  rcases mem_iff_getElem.mp h' with ⟨j, hj, heq'⟩
  have hij : i ≠ j := by
    intro hij
    subst hij
    exact hne (congrArg Prod.fst (heq.symm.trans heq'))
  omega

end OrderedDict

end GraphAutofusion.Lib
