import Mathlib.Data.List.Basic

/-!
# Lib.NamedStack — a stack whose entries are popped by name

A pop removes the innermost entry of its name, wherever it lies, and nothing when there is none. So
each name has a stack of its own, and the entries of a name that lie on the stack are the pushes
that no pop has matched.
-/

namespace GraphAutofusion.Lib.NamedStack

open List

variable {ν β : Type*} [DecidableEq ν]

inductive Event (ν β : Type*) where
  | push (name : ν) (val : β)
  | pop (name : ν)
  | skip

/-- One event. The top of the stack is the head of the list. -/
def step (stack : List (ν × β)) : Event ν β → List (ν × β)
  | .push name val => (name, val) :: stack
  | .pop name => stack.eraseP fun e => e.1 = name
  | .skip => stack

def run (events : List (Event ν β)) : List (ν × β) := events.foldl step []

/-- The entries of one name. -/
def onName (s : ν) (stack : List (ν × β)) : List β := (stack.filter fun e => e.1 = s).map Prod.snd

/-- The pushes of a name whose value satisfies `p`. -/
def pushes (s : ν) (p : β → Bool) (events : List (Event ν β)) : ℕ :=
  events.countP fun
    | .push name val => name = s && p val
    | _ => false

/-- The event pops an entry of the name whose value satisfies `p`. -/
def isMatch (s : ν) (p : β → Bool) (stack : List (ν × β)) : Event ν β → Bool
  | .pop name => name = s && (onName s stack).head?.any p
  | _ => false

/-- The pops of a name that match a push whose value satisfies `p`. -/
def matchedPops (s : ν) (p : β → Bool) : List (ν × β) → List (Event ν β) → ℕ
  | _, [] => 0
  | stack, e :: events =>
    (if isMatch s p stack e then 1 else 0) + matchedPops s p (step stack e) events

variable {s : ν} {stack : List (ν × β)}

/-- The event on the stack of one name. -/
def stepOn (s : ν) (vals : List β) : Event ν β → List β
  | .push name val => if name = s then val :: vals else vals
  | .pop name => if name = s then vals.tail else vals
  | .skip => vals

theorem onName_pop (name : ν) :
    onName s (step stack (.pop name)) = if name = s then (onName s stack).tail else onName s stack := by
  induction stack with
  | nil => simp [onName, step]
  | cons e rest ih =>
    by_cases hpop : e.1 = name
    · by_cases hname : name = s
      · simp [onName, step, hpop, hname]
      · simp [onName, step, hpop, hname]
    -- the entry stays, whatever its name
    by_cases hname : name = s
    · rw [if_pos hname] at ih ⊢
      simp only [onName, step, ← hname] at ih ⊢
      rw [eraseP_cons_of_neg (by simpa using hpop), filter_cons_of_neg (by simpa using hpop),
        filter_cons_of_neg (by simpa using hpop)]
      exact ih
    · rw [if_neg hname] at ih ⊢
      simp only [onName, step] at ih ⊢
      rw [eraseP_cons_of_neg (by simpa using hpop), filter_cons, filter_cons]
      split
      · rw [map_cons, map_cons, ih]
      · exact ih

/-- Each name has a stack of its own. -/
theorem onName_step (e : Event ν β) : onName s (step stack e) = stepOn s (onName s stack) e := by
  cases e with
  | push name val =>
    by_cases hname : name = s
    · simp [onName, step, stepOn, hname]
    · simp [onName, step, stepOn, hname]
  | pop name => exact onName_pop name
  | skip => rfl

theorem onName_foldl (events : List (Event ν β)) :
    onName s (events.foldl step stack) = events.foldl (stepOn s) (onName s stack) := by
  induction events generalizing stack with
  | nil => rfl
  | cons e events ih => rw [foldl_cons, foldl_cons, ih, onName_step]

theorem onName_run (events : List (Event ν β)) :
    onName s (run events) = events.foldl (stepOn s) [] := onName_foldl events

/-- Every push is matched by a pop or still lies on the stack. -/
theorem pushes_add_open (p : β → Bool) (events : List (Event ν β)) :
    pushes s p events + (onName s stack).countP p =
      matchedPops s p stack events + (onName s (events.foldl step stack)).countP p := by
  induction events generalizing stack with
  | nil => simp [pushes, matchedPops]
  | cons e events ih =>
    have hrest := @ih (step stack e)
    rw [foldl_cons, matchedPops, Nat.add_assoc, ← hrest, pushes, pushes, countP_cons]
    rw [onName_step]
    cases e with
    | push name val =>
      by_cases hname : name = s
      · simp only [hname, isMatch, stepOn, decide_true, Bool.true_and, if_true, countP_cons]
        simp
        omega
      · simp [hname, isMatch, stepOn]
    | pop name =>
      by_cases hname : name = s
      · -- the head of the stack of the name is matched
        simp only [hname, isMatch, stepOn, decide_true, Bool.true_and, if_true]
        cases onName s stack with
        | nil => simp
        | cons val rest =>
          by_cases hval : p val = true
          · simp [hval]
            omega
          · simp [hval]
      · simp [isMatch, stepOn, hname]
    | skip => simp [isMatch, stepOn]

theorem matchedPops_lt_pushes_iff (p : β → Bool) (events : List (Event ν β)) :
    matchedPops s p [] events < pushes s p events ↔ ∃ val ∈ onName s (run events), p val := by
  have hcount := @pushes_add_open _ _ _ s [] p events
  have hopen : 0 < (onName s (run events)).countP p ↔ ∃ val ∈ onName s (run events), p val :=
    countP_pos_iff
  rw [← hopen, run]
  simp only [onName, filter_nil, map_nil, countP_nil] at hcount ⊢
  omega

end GraphAutofusion.Lib.NamedStack
