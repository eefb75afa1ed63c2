import Mathlib.Data.List.Induction

/-!
# Lib.BufferWrites — what a buffer holds after a sequence of writes

The writes are made in order, each of them into one cell. A cell holds what the last write into it
left there.
-/

namespace GraphAutofusion.Lib

open List

/-- The index tuples of a nest of loops in the order they are visited, the outermost loop first. -/
def indexTuples : List ℕ → List (List ℕ)
  | [] => [[]]
  | size :: sizes => (List.range size).flatMap fun i => (indexTuples sizes).map (i :: ·)

variable {ι C V : Type} [DecidableEq C]

/-- The buffer after the writes. -/
def afterWrites (cell : ι → C) (value : ι → V) (buffer : C → V) (writes : List ι) : C → V :=
  writes.foldl (fun buffer i => Function.update buffer (cell i) (value i)) buffer

/-- The last write into a cell. -/
def lastWriter (cell : ι → C) (writes : List ι) (c : C) : Option ι :=
  writes.reverse.find? fun i => cell i = c

theorem afterWrites_apply (cell : ι → C) (value : ι → V) (buffer : C → V) (writes : List ι) (c : C) :
    afterWrites cell value buffer writes c = (lastWriter cell writes c).elim (buffer c) value := by
  induction writes using List.reverseRecOn with
  | nil => rfl
  | append_singleton writes i ih =>
    rw [afterWrites, foldl_append, foldl_cons, foldl_nil, lastWriter,
      reverse_append, reverse_singleton, singleton_append, find?_cons]
    by_cases hi : cell i = c
    · subst hi
      simp
    · rw [Function.update_of_ne (Ne.symm hi), decide_eq_false hi]
      exact ih

end GraphAutofusion.Lib
