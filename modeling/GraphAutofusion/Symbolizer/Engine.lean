import Mathlib.Algebra.Order.Field.Basic
import Mathlib.Algebra.BigOperators.Group.List.Basic

/-!
# Symbolizer.Engine — the symbolic engine

Expressions are built and compared by a third-party engine. It is a parameter: what the code
calls of it, and as hypotheses that no call changes the value of an expression. An expression has
a value, and holds or not, under every assignment of integers to the symbols.
-/

namespace GraphAutofusion.Symbolizer

/-- The relations that have a canonical form. -/
inductive RelOp where
  | eq
  | ne
  | lt
  | le
deriving DecidableEq, Repr

/-- What the code can tell about an expression by its type and arguments. -/
inductive View (E : Type) where
  | integer (n : ℤ)
  /-- A rational or real number. -/
  | number (isNegative isZero : Bool)
  | symbol (i : ℕ)
  | add (args : List E)
  | mul (coefNegative : Bool) (args : List E)
  | relation (op : RelOp) (lhs rhs : E)
  | boolean (b : Bool)
  /-- Another operation with a truth value. -/
  | logical
  | other

/-- Symbols are known by the number in their name. `fromDict` takes a coefficient and powers. -/
structure Engine (E : Type) where
  view : E → View E
  freeSymbols : E → List ℕ
  integer : ℤ → E
  symbol : ℕ → E
  relation : RelOp → E → E → E
  not : E → E
  add : List E → E
  sub : E → E → E
  div : E → E → E
  fromDict : ℤ → List (E × ℕ) → E
  expand : E → E
  simplify : E → E
  replace : List (ℕ × E) → E → E
  subs : List (ℕ × ℤ) → E → E

namespace Engine

variable {E : Type} (eng : Engine E)

def isBoolean (e : E) : Bool :=
  match eng.view e with
  | .relation _ _ _ | .boolean _ | .logical => true
  | _ => false

def isConst (e : E) : Bool :=
  match eng.view e with
  | .integer _ | .number _ _ | .boolean _ => true
  | _ => false

def isVariable (e : E) : Bool :=
  match eng.view e with
  | .symbol _ => true
  | _ => false

/-- `GetConstValue` of a truth value. -/
def constBool (e : E) : Option Bool :=
  match eng.view e with
  | .boolean b => some b
  | _ => none

end Engine

/-! ## Values -/

/-- Integers for the symbols. -/
abbrev Assignment := ℕ → ℤ

def Assignment.Positive (σ : Assignment) : Prop := ∀ i, 0 < σ i

/-- An assignment with other values for some symbols. -/
def Assignment.override (σ : Assignment) (values : List (ℕ × ℤ)) : Assignment := fun i =>
  (values.lookup i).getD (σ i)

namespace RelOp

variable {K : Type} [Field K] [LinearOrder K] [IsStrictOrderedRing K]

/-- What a relation says about two values. -/
def Holds : RelOp → K → K → Prop
  | eq, a, b => a = b
  | ne, a, b => a ≠ b
  | lt, a, b => a < b
  | le, a, b => a ≤ b

/-- A relation is one between zero and the difference. -/
theorem holds_zero_sub (op : RelOp) (a b : K) : op.Holds 0 (b - a) ↔ op.Holds a b := by
  cases op with
  | eq =>
    show 0 = b - a ↔ a = b
    rw [eq_comm, sub_eq_zero, eq_comm]
  | ne =>
    show 0 ≠ b - a ↔ a ≠ b
    rw [ne_comm, sub_ne_zero, ne_comm]
  | lt => exact sub_pos
  | le => exact sub_nonneg

/-- A positive factor can be cancelled. -/
theorem holds_mul_right (op : RelOp) {a b c : K} (hc : 0 < c) :
    op.Holds (a * c) (b * c) ↔ op.Holds a b := by
  cases op with
  | eq => exact mul_left_inj' hc.ne'
  | ne => exact not_congr (mul_left_inj' hc.ne')
  | lt => exact mul_lt_mul_iff_left₀ hc
  | le => exact mul_le_mul_iff_left₀ hc

end RelOp

/-- The engine keeps values. `value` and `holds` say what an expression means. -/
structure Engine.Preserves {E : Type} (eng : Engine E) {K : Type} [Field K] [LinearOrder K]
    (value : Assignment → E → K) (holds : Assignment → E → Prop) : Prop where
  view_int : ∀ n, eng.view (eng.integer n) = .integer n
  view_sym : ∀ i, eng.view (eng.symbol i) = .symbol i
  value_of_integer : ∀ σ e n, eng.view e = .integer n → value σ e = n
  value_of_number : ∀ σ e neg, eng.view e = .number neg true → value σ e = 0
  value_of_symbol : ∀ σ e i, eng.view e = .symbol i → value σ e = σ i
  value_of_add : ∀ σ e args, eng.view e = .add args → value σ e = (args.map (value σ)).sum
  two_le_add : ∀ e args, eng.view e = .add args → 2 ≤ args.length
  value_of_mul : ∀ σ e neg args, eng.view e = .mul neg args →
    value σ e = (args.map (value σ)).prod
  holds_of_relation : ∀ σ e op a b, eng.view e = .relation op a b →
    (holds σ e ↔ op.Holds (value σ a) (value σ b))
  holds_of_boolean : ∀ σ e b, eng.view e = .boolean b → (holds σ e ↔ b = true)
  holds_relation : ∀ σ op a b,
    holds σ (eng.relation op a b) ↔ op.Holds (value σ a) (value σ b)
  /-- A relation is a constant only when it is decided. -/
  view_relation : ∀ op a b, (∃ x y, eng.view (eng.relation op a b) = .relation op x y) ∨
    ∃ c, eng.view (eng.relation op a b) = .boolean c
  holds_not : ∀ σ e, eng.isBoolean e = true → (holds σ (eng.not e) ↔ ¬ holds σ e)
  isBoolean_not : ∀ e, eng.isBoolean e = true → eng.isBoolean (eng.not e) = true
  value_add : ∀ σ es, value σ (eng.add es) = (es.map (value σ)).sum
  value_sub : ∀ σ a b, value σ (eng.sub a b) = value σ a - value σ b
  value_div : ∀ σ a b, value σ b ≠ 0 → value σ (eng.div a b) = value σ a / value σ b
  value_fromDict : ∀ σ c dict, value σ (eng.fromDict c dict)
    = c * (dict.map fun entry => value σ entry.1 ^ entry.2).prod
  value_expand : ∀ σ e, value σ (eng.expand e) = value σ e
  holds_expand : ∀ σ e, holds σ (eng.expand e) ↔ holds σ e
  isBoolean_expand : ∀ e, eng.isBoolean e = true → eng.isBoolean (eng.expand e) = true
  value_simplify : ∀ σ e, value σ (eng.simplify e) = value σ e
  holds_simplify : ∀ σ e, holds σ (eng.simplify e) ↔ holds σ e
  isBoolean_simplify : ∀ e, eng.isBoolean e = true → eng.isBoolean (eng.simplify e) = true
  /-- Substitution by expressions of the same value. -/
  value_replace : ∀ σ vars e, (∀ var ∈ vars, value σ var.2 = σ var.1) →
    value σ (eng.replace vars e) = value σ e
  holds_replace : ∀ σ vars e, (∀ var ∈ vars, value σ var.2 = σ var.1) →
    (holds σ (eng.replace vars e) ↔ holds σ e)
  isBoolean_replace : ∀ vars e, eng.isBoolean e = true →
    eng.isBoolean (eng.replace vars e) = true
  holds_subs : ∀ σ values e, holds σ (eng.subs values e) ↔ holds (σ.override values) e
  holds_congr : ∀ σ τ e, (∀ i ∈ eng.freeSymbols e, σ i = τ i) → (holds σ e ↔ holds τ e)

end GraphAutofusion.Symbolizer
