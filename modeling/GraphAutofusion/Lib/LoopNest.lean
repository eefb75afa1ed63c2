import Mathlib.Algebra.BigOperators.Group.List.Basic
import Mathlib.Tactic.Ring

/-!
# Lib.LoopNest — the offsets that a nest of loops visits

A loop has a number of iterations and a stride, which is added to the offset in each of them. The
outermost loop stands first. Neighbours whose strides fit are one loop.
-/

namespace GraphAutofusion.Lib

open List

structure Loop where
  size : ℕ
  stride : ℤ

/-- The offsets in the order they are visited. -/
def offsets : List Loop → List ℤ
  | [] => [0]
  | l :: nest => (range l.size).flatMap fun i : ℕ => (offsets nest).map (i * l.stride + ·)

/-- One step of the outer loop covers the inner one. -/
def Loop.Covers (outer inner : Loop) : Prop := outer.stride = inner.size * inner.stride

/-- One loop for a loop and the chain of loops inside it. -/
def Loop.merged (l : Loop) (chain : List Loop) : Loop where
  size := l.size * (chain.map Loop.size).prod
  stride := (chain.getLast?.getD l).stride

section Rules

variable {outer inner l : Loop} {nest nest' chain : List Loop}

/-- An outer part of the nest does not see how the inner part is written. -/
theorem offsets_append_congr (pre : List Loop) (h : offsets nest = offsets nest') :
    offsets (pre ++ nest) = offsets (pre ++ nest') := by
  induction pre with
  | nil => exact h
  | cons l pre ih => simp only [cons_append, offsets, ih]

theorem flatMap_range_mul {β : Type*} (n m : ℕ) (f : ℕ → List β) :
    (range (n * m)).flatMap f =
      (range n).flatMap fun i => (range m).flatMap fun j => f (i * m + j) := by
  induction n with
  | zero => simp
  | succ n ih =>
    rw [Nat.succ_mul, range_add, flatMap_append, ih, range_succ, flatMap_append,
      flatMap_map, flatMap_singleton]

/-- Two loops of which the outer one covers the inner one are one loop. -/
theorem offsets_merge (h : outer.Covers inner) :
    offsets (outer :: inner :: nest) = offsets (⟨outer.size * inner.size, inner.stride⟩ :: nest) := by
  simp only [offsets, flatMap_range_mul, map_flatMap, map_map]
  congr 1
  funext i
  congr 1
  funext j
  congr 1
  funext x
  show i * outer.stride + (j * inner.stride + x) = _
  rw [h]
  push_cast
  ring

/-- A chain of loops in which each covers the next is one loop. -/
theorem offsets_chain (h : (l :: chain).IsChain Loop.Covers) :
    offsets (l :: chain ++ nest) = offsets (l.merged chain :: nest) := by
  induction chain generalizing l with
  | nil => simp [Loop.merged]
  | cons inner chain ih =>
    rcases isChain_cons_cons.mp h with ⟨hcovers, hchain⟩
    -- the merged loop covers what the inner one covers
    have hnext : ((⟨l.size * inner.size, inner.stride⟩ : Loop) :: chain).IsChain Loop.Covers := by
      cases chain with
      | nil => exact .singleton _
      | cons _ _ =>
        rcases isChain_cons_cons.mp hchain with ⟨hinner, hrest⟩
        exact isChain_cons_cons.mpr ⟨hinner, hrest⟩
    calc offsets (l :: inner :: chain ++ nest)
        = offsets ((⟨l.size * inner.size, inner.stride⟩ : Loop) :: chain ++ nest) :=
          offsets_merge hcovers
      _ = offsets (Loop.merged ⟨l.size * inner.size, inner.stride⟩ chain :: nest) := ih hnext
      _ = offsets (l.merged (inner :: chain) :: nest) := by
          congr 2
          simp only [Loop.merged, map_cons, prod_cons, getLast?_cons, Option.getD_some,
            mul_assoc, Loop.mk.injEq, true_and]
          cases chain.getLast? <;> rfl

end Rules

end GraphAutofusion.Lib
