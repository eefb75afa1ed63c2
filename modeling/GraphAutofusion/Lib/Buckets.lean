import Mathlib.Data.List.Nodup
import Mathlib.Data.List.Perm.Basic

/-!
# Lib.Buckets — grouping a list by a key

Every member goes into the bucket of its key, at the end. Each key has one bucket, which holds the
members with that key in their order.
-/

namespace GraphAutofusion.Lib

open List

variable {κ α : Type} [DecidableEq κ]

/-- A member joins the bucket of its key, or opens it. -/
def putInBucket (key : κ) (x : α) : List (κ × List α) → List (κ × List α)
  | [] => [(key, [x])]
  | (key', members) :: rest =>
    if key' = key then (key', members ++ [x]) :: rest else (key', members) :: putInBucket key x rest

/-- What the buckets hold after the members of the list. -/
structure Grouped (f : α → κ) (xs : List α) (buckets : List (κ × List α)) : Prop where
  nodup : (buckets.map Prod.fst).Nodup
  members : ∀ bucket ∈ buckets, bucket.2 = xs.filter fun x => f x = bucket.1
  nonempty : ∀ bucket ∈ buckets, bucket.2 ≠ []
  perm : (buckets.flatMap Prod.snd).Perm xs

section Rules

variable {f : α → κ} {xs : List α} {x : α} {key : κ} {buckets : List (κ × List α)}

theorem map_fst_putInBucket_of_not_mem (h : key ∉ buckets.map Prod.fst) :
    putInBucket key x buckets = buckets ++ [(key, [x])] := by
  induction buckets with
  | nil => rfl
  | cons bucket rest ih =>
    rw [map_cons, mem_cons, not_or] at h
    rcases bucket with ⟨key', members⟩
    rw [putInBucket, if_neg (Ne.symm h.1), ih h.2, cons_append]

theorem map_fst_putInBucket_of_mem (h : key ∈ buckets.map Prod.fst) :
    (putInBucket key x buckets).map Prod.fst = buckets.map Prod.fst := by
  induction buckets with
  | nil => cases h
  | cons bucket rest ih =>
    rcases bucket with ⟨key', members⟩
    rw [putInBucket]
    split
    case isTrue => rfl
    case isFalse hne =>
      rw [map_cons, mem_cons] at h
      rw [map_cons, map_cons, ih (h.resolve_left (Ne.symm hne))]

theorem mem_putInBucket_of_mem (hnodup : (buckets.map Prod.fst).Nodup)
    (h : key ∈ buckets.map Prod.fst) (bucket : κ × List α) :
    bucket ∈ putInBucket key x buckets ↔
      (bucket ∈ buckets ∧ bucket.1 ≠ key) ∨
        ∃ members, (key, members) ∈ buckets ∧ bucket = (key, members ++ [x]) := by
  induction buckets with
  | nil => cases h
  | cons head rest ih =>
    rcases head with ⟨key', members⟩
    rw [map_cons, nodup_cons] at hnodup
    rw [putInBucket]
    split
    case isTrue heq =>
      subst heq
      have hrest : ∀ b ∈ rest, b.1 ≠ key' := fun b hb hkey =>
        hnodup.1 (mem_map.mpr ⟨b, hb, hkey⟩)
      constructor
      · intro hmem
        rcases mem_cons.mp hmem with rfl | hmem
        · exact .inr ⟨members, mem_cons_self, rfl⟩
        · exact .inl ⟨mem_cons_of_mem _ hmem, hrest bucket hmem⟩
      · rintro (⟨hmem, hne⟩ | ⟨members', hmem, rfl⟩)
        · rcases mem_cons.mp hmem with rfl | hmem
          · exact absurd rfl hne
          · exact mem_cons_of_mem _ hmem
        · rcases mem_cons.mp hmem with heq | hmem
          · rw [(Prod.mk.inj heq).2]
            exact mem_cons_self
          · exact absurd rfl (hrest _ hmem)
    case isFalse hne =>
      rw [map_cons, mem_cons] at h
      have hrest := ih hnodup.2 (h.resolve_left (Ne.symm hne))
      rw [mem_cons, hrest, mem_cons]
      constructor
      · rintro (rfl | ⟨hmem, hkey⟩ | ⟨members', hmem, rfl⟩)
        · exact .inl ⟨.inl rfl, hne⟩
        · exact .inl ⟨.inr hmem, hkey⟩
        · exact .inr ⟨members', mem_cons_of_mem _ hmem, rfl⟩
      · rintro (⟨rfl | hmem, hkey⟩ | ⟨members', hmem, rfl⟩)
        · exact .inl rfl
        · exact .inr (.inl ⟨hmem, hkey⟩)
        · rcases mem_cons.mp hmem with heq | hmem
          · exact absurd (Prod.mk.inj heq).1.symm hne
          · exact .inr (.inr ⟨members', hmem, rfl⟩)

theorem flatMap_putInBucket (key : κ) (x : α) (buckets : List (κ × List α)) :
    ((putInBucket key x buckets).flatMap Prod.snd).Perm (buckets.flatMap Prod.snd ++ [x]) := by
  induction buckets with
  | nil => exact Perm.refl _
  | cons head rest ih =>
    rcases head with ⟨key', members⟩
    rw [putInBucket]
    split
    case isTrue =>
      rw [flatMap_cons, flatMap_cons, append_assoc, append_assoc]
      exact perm_append_comm.append_left members
    case isFalse =>
      rw [flatMap_cons, flatMap_cons, append_assoc]
      exact ih.append_left members

/-- The parts of a list with each of the keys are the whole list. -/
theorem flatMap_filter_perm {keys : List κ} (hnodup : keys.Nodup) (hmem : ∀ x ∈ xs, f x ∈ keys) :
    (keys.flatMap fun key => xs.filter fun x => f x = key).Perm xs := by
  induction keys generalizing xs with
  | nil =>
    rw [eq_nil_iff_forall_not_mem.mpr fun x hx => not_mem_nil (hmem x hx)]
    exact Perm.refl _
  | cons key keys ih =>
    rw [nodup_cons] at hnodup
    have hrest : (keys.flatMap fun key' => xs.filter fun x => f x = key') =
        keys.flatMap fun key' => (xs.filter fun x => ¬ f x = key).filter fun x => f x = key' := by
      rw [flatMap_def, flatMap_def]
      congr 1
      refine map_congr_left fun key' hkey' => ?_
      rw [filter_filter]
      refine filter_congr fun x _ => ?_
      by_cases hx : f x = key'
      · have hne : f x ≠ key := fun heq => hnodup.1 (heq ▸ hx ▸ hkey')
        simp [hx, hx ▸ hne]
      · simp [hx]
    have hih : (keys.flatMap fun key' => (xs.filter fun x => ¬ f x = key).filter fun x =>
        f x = key').Perm (xs.filter fun x => ¬ f x = key) := by
      refine ih hnodup.2 fun x hx => ?_
      rw [mem_filter, decide_eq_true_iff] at hx
      exact (mem_cons.mp (hmem x hx.1)).resolve_left hx.2
    rw [flatMap_cons, hrest]
    refine (hih.append_left _).trans ?_
    have hsplit := filter_append_perm (fun x => decide (f x = key)) xs
    simpa using hsplit

theorem Grouped.nil (f : α → κ) : Grouped f [] [] where
  nodup := nodup_nil
  members _ h := nomatch h
  nonempty _ h := nomatch h
  perm := Perm.refl _

/-- A key without a bucket is the key of no member. -/
theorem Grouped.filter_eq_nil (h : Grouped f xs buckets) (hkey : key ∉ buckets.map Prod.fst) :
    (xs.filter fun x => f x = key) = [] := by
  rw [filter_eq_nil_iff]
  intro y hy hfy
  rcases mem_flatMap.mp (h.perm.mem_iff.mpr hy) with ⟨bucket, hbucket, hmem⟩
  rw [h.members bucket hbucket, mem_filter] at hmem
  have hsame : f y = bucket.1 := of_decide_eq_true hmem.2
  have hfy : f y = key := of_decide_eq_true hfy
  exact hkey (mem_map.mpr ⟨bucket, hbucket, hsame.symm.trans hfy⟩)

theorem Grouped.put (h : Grouped f xs buckets) (x : α) :
    Grouped f (xs ++ [x]) (putInBucket (f x) x buckets) := by
  have hperm := (flatMap_putInBucket (f x) x buckets).trans (h.perm.append_right [x])
  have hfilter : ∀ key, ((xs ++ [x]).filter fun y => f y = key) =
      (xs.filter fun y => f y = key) ++ if f x = key then [x] else [] := by
    intro key
    rw [filter_append]
    by_cases hkey : f x = key <;> simp [hkey]
  by_cases hmem : f x ∈ buckets.map Prod.fst
  · have hiff := mem_putInBucket_of_mem (x := x) h.nodup hmem
    refine ⟨by rw [map_fst_putInBucket_of_mem hmem]; exact h.nodup, fun bucket hb => ?_,
      fun bucket hb => ?_, hperm⟩
    · rcases (hiff bucket).mp hb with ⟨hb, hne⟩ | ⟨members, hold, rfl⟩
      · rw [hfilter, if_neg (Ne.symm hne), append_nil]
        exact h.members bucket hb
      · rw [hfilter, if_pos rfl]
        have hmembers : members = xs.filter fun y => f y = f x := h.members (f x, members) hold
        exact congrArg (· ++ [x]) hmembers
    · rcases (hiff bucket).mp hb with ⟨hb, _⟩ | ⟨members, _, rfl⟩
      · exact h.nonempty bucket hb
      · exact append_ne_nil_of_right_ne_nil members (cons_ne_nil x [])
  · have hnew := map_fst_putInBucket_of_not_mem (x := x) hmem
    refine ⟨?_, fun bucket hb => ?_, fun bucket hb => ?_, hperm⟩
    · rw [hnew, map_append]
      refine nodup_append.mpr ⟨h.nodup, nodup_singleton _, ?_⟩
      intro a ha b hb hab
      rw [map_singleton, mem_singleton] at hb
      rw [hab, hb] at ha
      exact hmem ha
    · rw [hnew] at hb
      rcases mem_append.mp hb with hb | hb
      · have hne : f x ≠ bucket.1 := fun heq =>
          hmem (heq ▸ mem_map.mpr ⟨bucket, hb, rfl⟩)
        rw [hfilter, if_neg hne, append_nil]
        exact h.members bucket hb
      · rw [mem_singleton.mp hb, hfilter, if_pos rfl, h.filter_eq_nil hmem]
        rfl
    · rw [hnew] at hb
      rcases mem_append.mp hb with hb | hb
      · exact h.nonempty bucket hb
      · rw [mem_singleton.mp hb]
        exact cons_ne_nil x []

end Rules

end GraphAutofusion.Lib
