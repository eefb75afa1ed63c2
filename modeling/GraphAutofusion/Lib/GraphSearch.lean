import Mathlib.Data.Finset.Card

/-!
# Lib.GraphSearch — breadth-first search

A search from a queue of vertices, for one vertex or through all of them. A vertex enters the
queue when it is visited, and is visited once. The search takes one unit of fuel for each vertex
it removes from the queue, so as many units as there are vertices are enough.
-/

namespace GraphAutofusion.Lib

open Relation List

variable {α : Type*} [DecidableEq α]

/-- The new vertices of a list enter the queue. -/
def pushNew (queue : List α) (visited : Finset α) : List α → List α × Finset α
  | [] => (queue, visited)
  | x :: xs =>
    if x ∈ visited then pushNew queue visited xs else pushNew (queue ++ [x]) (insert x visited) xs

/-- Whether `dst` leaves the queue. -/
def search (next : α → List α) (dst : α) : ℕ → List α → Finset α → Bool
  | 0, _, _ => false
  | _ + 1, [], _ => false
  | fuel + 1, x :: queue, visited =>
    if x = dst then true
    else
      let pushed := pushNew queue visited (next x)
      search next dst fuel pushed.1 pushed.2

/-- The vertices in the order in which they leave the queue. -/
def visitOrder (next : α → List α) : ℕ → List α → Finset α → List α
  | 0, _, _ => []
  | _ + 1, [], _ => []
  | fuel + 1, x :: queue, visited =>
    let pushed := pushNew queue visited (next x)
    x :: visitOrder next fuel pushed.1 pushed.2

variable {next : α → List α} {dst x y : α} {queue xs : List α} {visited vertices : Finset α} {fuel : ℕ}

theorem mem_pushNew_queue :
    x ∈ (pushNew queue visited xs).1 ↔ x ∈ queue ∨ (x ∈ xs ∧ x ∉ visited) := by
  induction xs generalizing queue visited with
  | nil => simp [pushNew]
  | cons a xs ih =>
    rw [pushNew]
    split
    · next ha =>
      rw [ih, mem_cons]
      constructor
      · rintro (h | ⟨h, hx⟩)
        · exact .inl h
        · exact .inr ⟨.inr h, hx⟩
      · rintro (h | ⟨rfl | h, hx⟩)
        · exact .inl h
        · exact absurd ha hx
        · exact .inr ⟨h, hx⟩
    · next ha =>
      rw [ih, mem_append, mem_singleton, mem_cons, Finset.mem_insert, not_or]
      by_cases hxa : x = a
      · subst hxa
        simp [ha]
      · simp [hxa]

theorem mem_pushNew_visited : x ∈ (pushNew queue visited xs).2 ↔ x ∈ visited ∨ x ∈ xs := by
  induction xs generalizing queue visited with
  | nil => simp [pushNew]
  | cons a xs ih =>
    rw [pushNew]
    split
    · next ha =>
      rw [ih, mem_cons]
      constructor
      · rintro (h | h)
        · exact .inl h
        · exact .inr (.inr h)
      · rintro (h | rfl | h)
        · exact .inl h
        · exact .inl ha
        · exact .inr h
    · next ha =>
      rw [ih, Finset.mem_insert, mem_cons]
      tauto

/-- The queue grows by as many vertices as are newly visited. -/
theorem pushNew_card (queue : List α) (visited : Finset α) (xs : List α) :
    (pushNew queue visited xs).1.length + visited.card
    = queue.length + (pushNew queue visited xs).2.card := by
  induction xs generalizing queue visited with
  | nil => rfl
  | cons a xs ih =>
    rw [pushNew]
    split
    · exact ih queue visited
    · next ha =>
      have hstep := ih (queue ++ [a]) (insert a visited)
      rw [Finset.card_insert_of_notMem ha, length_append, length_singleton] at hstep
      omega

omit [DecidableEq α] in
/-- No path leaves a closed set. -/
theorem not_reach_of_closed (hclosed : ∀ x ∈ visited, x ≠ dst ∧ ∀ y ∈ next x, y ∈ visited) :
    ∀ x ∈ visited, ¬ ReflTransGen (fun x y => y ∈ next x) x dst := by
  intro x hx hpath
  have hstay : ∀ {z}, ReflTransGen (fun x y => y ∈ next x) x z → z ∈ visited := by
    intro z hz
    induction hz with
    | refl => exact hx
    | tail _ hstep ih => exact (hclosed _ ih).2 _ hstep
  exact (hclosed dst (hstay hpath)).1 rfl

/-- A search that does not find `dst` has not missed a path to it: the visited vertices that
have left the queue lead to visited vertices only. -/
theorem not_reach_of_search (hnext : ∀ x ∈ vertices, ∀ y ∈ next x, y ∈ vertices)
    (hvisited : visited ⊆ vertices) (hqueue : ∀ x ∈ queue, x ∈ visited)
    (hclosed : ∀ x ∈ visited, x ∉ queue → x ≠ dst ∧ ∀ y ∈ next x, y ∈ visited)
    (hfuel : vertices.card + queue.length ≤ fuel + visited.card)
    (h : search next dst fuel queue visited = false) :
    ∀ x ∈ visited, ¬ ReflTransGen (fun x y => y ∈ next x) x dst := by
  induction fuel generalizing queue visited with
  | zero =>
    -- the fuel covers the queue, so it is empty
    have hcard := Finset.card_le_card hvisited
    have hnil : queue = [] := length_eq_zero_iff.mp (by omega)
    subst hnil
    exact not_reach_of_closed fun x hx => hclosed x hx not_mem_nil
  | succ fuel ih =>
    cases queue with
    | nil => exact not_reach_of_closed fun x hx => hclosed x hx not_mem_nil
    | cons a queue =>
      rw [search] at h
      split at h
      · cases h
      next ha =>
      have hmem : a ∈ visited := hqueue a (mem_cons_self ..)
      have hcard := pushNew_card queue visited (next a)
      intro x hx
      refine ih ?_ ?_ ?_ ?_ h x (mem_pushNew_visited.mpr (.inl hx))
      · intro y hy
        rcases mem_pushNew_visited.mp hy with hy | hy
        · exact hvisited hy
        · exact hnext a (hvisited hmem) y hy
      · intro y hy
        rcases mem_pushNew_queue.mp hy with hy | ⟨hy, _⟩
        · exact mem_pushNew_visited.mpr (.inl (hqueue y (mem_cons_of_mem _ hy)))
        · exact mem_pushNew_visited.mpr (.inr hy)
      · intro y hy hout
        rw [mem_pushNew_queue, not_or] at hout
        by_cases hya : y = a
        · subst hya
          exact ⟨ha, fun z hz => mem_pushNew_visited.mpr (.inr hz)⟩
        have hyv : y ∈ visited := by
          rcases mem_pushNew_visited.mp hy with hyv | hyn
          · exact hyv
          · by_contra hyv
            exact hout.2 ⟨hyn, hyv⟩
        have hrest : y ∉ a :: queue := by
          rw [mem_cons, not_or]
          exact ⟨hya, hout.1⟩
        rcases hclosed y hyv hrest with ⟨hne, hstep⟩
        exact ⟨hne, fun z hz => mem_pushNew_visited.mpr (.inl (hstep z hz))⟩
      · rw [length_cons] at hfuel
        omega

theorem pushNew_nodup (hqueue : queue.Nodup) (hvisited : ∀ x ∈ queue, x ∈ visited) :
    (pushNew queue visited xs).1.Nodup := by
  induction xs generalizing queue visited with
  | nil => exact hqueue
  | cons a xs ih =>
    rw [pushNew]
    split
    · exact ih hqueue hvisited
    · next ha =>
      refine ih ?_ ?_
      · refine hqueue.append (nodup_singleton a) (disjoint_singleton.mpr ?_)
        intro haq
        exact ha (hvisited a haq)
      · intro x hx
        rcases mem_append.mp hx with hx | hx
        · exact Finset.mem_insert_of_mem (hvisited x hx)
        · rw [mem_singleton.mp hx]
          exact Finset.mem_insert_self ..

theorem pushNew_queue_visited (hqueue : ∀ x ∈ queue, x ∈ visited) :
    ∀ x ∈ (pushNew queue visited xs).1, x ∈ (pushNew queue visited xs).2 := by
  intro x hx
  rcases mem_pushNew_queue.mp hx with hx | ⟨hx, _⟩
  · exact mem_pushNew_visited.mpr (.inl (hqueue x hx))
  · exact mem_pushNew_visited.mpr (.inr hx)

/-- The search only meets what the queue leads to. -/
theorem reach_of_mem_visitOrder (h : x ∈ visitOrder next fuel queue visited) :
    ∃ q ∈ queue, ReflTransGen (fun x y => y ∈ next x) q x := by
  induction fuel generalizing queue visited with
  | zero => exact absurd h not_mem_nil
  | succ fuel ih =>
    cases queue with
    | nil => exact absurd h not_mem_nil
    | cons a queue =>
      rw [visitOrder] at h
      rcases mem_cons.mp h with rfl | h
      · exact ⟨x, mem_cons_self .., .refl⟩
      · rcases ih h with ⟨q, hq, hpath⟩
        rcases mem_pushNew_queue.mp hq with hq | ⟨hq, _⟩
        · exact ⟨q, mem_cons_of_mem _ hq, hpath⟩
        · exact ⟨a, mem_cons_self .., .head hq hpath⟩

/-- What leaves the queue was in it, or was not visited before. -/
theorem visitOrder_fresh (h : x ∈ visitOrder next fuel queue visited) :
    x ∈ queue ∨ x ∉ visited := by
  induction fuel generalizing queue visited with
  | zero => exact absurd h not_mem_nil
  | succ fuel ih =>
    cases queue with
    | nil => exact absurd h not_mem_nil
    | cons a queue =>
      rw [visitOrder] at h
      rcases mem_cons.mp h with rfl | h
      · exact .inl (mem_cons_self ..)
      rcases ih h with hq | hv
      · rcases mem_pushNew_queue.mp hq with hq | ⟨_, hv⟩
        · exact .inl (mem_cons_of_mem _ hq)
        · exact .inr hv
      · exact .inr fun hx => hv (mem_pushNew_visited.mpr (.inl hx))

theorem visitOrder_nodup (hnodup : queue.Nodup) (hqueue : ∀ x ∈ queue, x ∈ visited) :
    (visitOrder next fuel queue visited).Nodup := by
  induction fuel generalizing queue visited with
  | zero => exact nodup_nil
  | succ fuel ih =>
    cases queue with
    | nil => exact nodup_nil
    | cons a queue =>
      rw [visitOrder]
      have htail : ∀ x ∈ queue, x ∈ visited := fun x hx => hqueue x (mem_cons_of_mem _ hx)
      refine nodup_cons.mpr ⟨?_, ?_⟩
      · -- `a` has been visited, so it does not enter the queue again
        intro ha
        rcases visitOrder_fresh ha with hq | hv
        · rcases mem_pushNew_queue.mp hq with hq | ⟨_, hv⟩
          · exact (nodup_cons.mp hnodup).1 hq
          · exact hv (hqueue a (mem_cons_self ..))
        · exact hv (mem_pushNew_visited.mpr (.inl (hqueue a (mem_cons_self ..))))
      · exact ih (pushNew_nodup (nodup_cons.mp hnodup).2 htail)
          (pushNew_queue_visited htail)

/-- With enough fuel the search empties the queue and leaves nothing it meets unvisited. -/
theorem visitOrder_closed (hnext : ∀ x ∈ vertices, ∀ y ∈ next x, y ∈ vertices)
    (hvisited : visited ⊆ vertices) (hqueue : ∀ x ∈ queue, x ∈ visited)
    (hfuel : vertices.card + queue.length ≤ fuel + visited.card) :
    (∀ x ∈ queue, x ∈ visitOrder next fuel queue visited)
    ∧ ∀ x ∈ visitOrder next fuel queue visited, ∀ y ∈ next x,
        y ∈ visited ∨ y ∈ visitOrder next fuel queue visited := by
  induction fuel generalizing queue visited with
  | zero =>
    have hcard := Finset.card_le_card hvisited
    have hnil : queue = [] := length_eq_zero_iff.mp (by omega)
    subst hnil
    exact ⟨fun x hx => absurd hx not_mem_nil, fun x hx => absurd hx not_mem_nil⟩
  | succ fuel ih =>
    cases queue with
    | nil => exact ⟨fun x hx => absurd hx not_mem_nil, fun x hx => absurd hx not_mem_nil⟩
    | cons a queue =>
      have hmem : a ∈ visited := hqueue a (mem_cons_self ..)
      have hcard := pushNew_card queue visited (next a)
      have hsub : (pushNew queue visited (next a)).2 ⊆ vertices := by
        intro y hy
        rcases mem_pushNew_visited.mp hy with hy | hy
        · exact hvisited hy
        · exact hnext a (hvisited hmem) y hy
      rw [length_cons] at hfuel
      have hstep := ih hsub
        (pushNew_queue_visited fun x hx => hqueue x (mem_cons_of_mem _ hx)) (by omega)
      rw [visitOrder]
      -- a vertex visited since is in the queue, and so is met later
      have hpushed : ∀ y, y ∈ (pushNew queue visited (next a)).2 → y ∈ visited
          ∨ y ∈ visitOrder next fuel (pushNew queue visited (next a)).1
            (pushNew queue visited (next a)).2 := by
        intro y hy
        by_cases hv : y ∈ visited
        · exact .inl hv
        · rcases mem_pushNew_visited.mp hy with hy | hy
          · exact .inl hy
          · exact .inr (hstep.1 y (mem_pushNew_queue.mpr (.inr ⟨hy, hv⟩)))
      constructor
      · intro x hx
        rcases mem_cons.mp hx with rfl | hx
        · exact mem_cons_self ..
        · exact mem_cons_of_mem _ (hstep.1 x (mem_pushNew_queue.mpr (.inl hx)))
      · intro x hx y hy
        rcases mem_cons.mp hx with rfl | hx
        · rcases hpushed y (mem_pushNew_visited.mpr (.inr hy)) with hv | ho
          · exact .inl hv
          · exact .inr (mem_cons_of_mem _ ho)
        · rcases hstep.2 x hx y hy with hv | ho
          · rcases hpushed y hv with hv | ho
            · exact .inl hv
            · exact .inr (mem_cons_of_mem _ ho)
          · exact .inr (mem_cons_of_mem _ ho)

/-- A search through everything meets exactly what its seeds lead to. -/
theorem mem_visitOrder_iff (hnext : ∀ x ∈ vertices, ∀ y ∈ next x, y ∈ vertices) {seeds : List α}
    (hseeds : ∀ x ∈ seeds, x ∈ vertices) (hnodup : seeds.Nodup) (hfuel : vertices.card ≤ fuel) :
    x ∈ visitOrder next fuel seeds seeds.toFinset
    ↔ ∃ q ∈ seeds, ReflTransGen (fun x y => y ∈ next x) q x := by
  refine ⟨reach_of_mem_visitOrder, ?_⟩
  rintro ⟨q, hq, hpath⟩
  have hsub : seeds.toFinset ⊆ vertices := fun y hy => hseeds y (mem_toFinset.mp hy)
  have hcard : seeds.toFinset.card = seeds.length := toFinset_card_of_nodup hnodup
  have hclosed := visitOrder_closed hnext hsub (fun y hy => mem_toFinset.mpr hy)
    (show _ ≤ fuel + _ by omega)
  induction hpath with
  | refl => exact hclosed.1 q hq
  | tail _ hstep ih =>
    rcases hclosed.2 _ ih _ hstep with hv | ho
    · exact hclosed.1 _ (mem_toFinset.mp hv)
    · exact ho

end GraphAutofusion.Lib
