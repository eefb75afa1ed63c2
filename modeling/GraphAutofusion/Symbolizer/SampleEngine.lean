import GraphAutofusion.Symbolizer.Engine
import Mathlib.Data.Rat.Cast.Order

/-!
# Symbolizer.SampleEngine — an engine of expression trees

Sums and products are trees whose constants are folded, a product that is made from a coefficient
and powers is left as it is. The engine keeps the values in the rational numbers. One run of it
satisfies the condition, in another the hints break the guard.
-/

namespace GraphAutofusion.Symbolizer

open List

instance (op : RelOp) (a b : ℚ) : Decidable (op.Holds a b) :=
  match op with
  | .eq => inferInstanceAs (Decidable (a = b))
  | .ne => inferInstanceAs (Decidable (a ≠ b))
  | .lt => inferInstanceAs (Decidable (a < b))
  | .le => inferInstanceAs (Decidable (a ≤ b))

inductive Sample where
  | int (n : ℤ)
  | sym (i : ℕ)
  | add (a b : Sample)
  | mul (a b : Sample)
  | quot (a b : Sample)
  | rel (op : RelOp) (a b : Sample)
  | bool (b : Bool)
deriving DecidableEq

namespace Sample

/-- A truth value is the number one or zero. -/
def value (σ : Assignment) : Sample → ℚ
  | int n => n
  | sym i => σ i
  | add a b => value σ a + value σ b
  | mul a b => value σ a * value σ b
  | quot a b => value σ a / value σ b
  | rel op a b => if op.Holds (value σ a) (value σ b) then 1 else 0
  | bool b => if b then 1 else 0

def Holds (σ : Assignment) (e : Sample) : Prop := e.value σ ≠ 0

instance (σ : Assignment) (e : Sample) : Decidable (e.Holds σ) :=
  inferInstanceAs (Decidable (e.value σ ≠ 0))

def freeSymbols : Sample → List ℕ
  | sym i => [i]
  | add a b | mul a b | quot a b | rel _ a b => freeSymbols a ++ freeSymbols b
  | _ => []

def addends : Sample → List Sample
  | add a b => addends a ++ addends b
  | e => [e]

def factors : Sample → List Sample
  | mul a b => factors a ++ factors b
  | e => [e]

/-- The coefficient stands first. -/
def coefNegative : Sample → Bool
  | int n => n < 0
  | _ => false

def view : Sample → View Sample
  | int n => .integer n
  | sym i => .symbol i
  | add a b => .add (addends a ++ addends b)
  | mul a b => .mul (coefNegative a) (factors a ++ factors b)
  | quot _ _ => .other
  | rel op a b => .relation op a b
  | bool b => .boolean b

/-! ## Constructors -/

def sum : Sample → Sample → Sample
  | int m, int n => int (m + n)
  | a, b => if a = int 0 then b else if b = int 0 then a else add a b

def product : Sample → Sample → Sample
  | int m, int n => int (m * n)
  | a, b => if a = int 1 then b else if b = int 1 then a else mul a b

def negate : Sample → Sample
  | int n => int (-n)
  | mul (int n) b => product (int (-n)) b
  | add a b => add (negate a) (negate b)
  | e => product (int (-1)) e

def reflexive : RelOp → Bool
  | .eq | .le => true
  | .ne | .lt => false

def compare : RelOp → ℤ → ℤ → Bool
  | .eq, m, n => m = n
  | .ne, m, n => m ≠ n
  | .lt, m, n => m < n
  | .le, m, n => m ≤ n

/-- A relation of equal sides or of numbers is decided. -/
def relation (op : RelOp) : Sample → Sample → Sample
  | int m, int n => bool (compare op m n)
  | a, b => if a = b then bool (reflexive op) else rel op a b

def complement : Sample → Sample
  | rel .eq a b => rel .ne a b
  | rel .ne a b => rel .eq a b
  | rel .lt a b => rel .le b a
  | rel .le a b => rel .lt b a
  | bool b => bool !b
  | e => e

def power (e : Sample) : ℕ → Sample
  | 0 => int 1
  | n + 1 => product e (power e n)

def subst (f : ℕ → Sample) : Sample → Sample
  | sym i => f i
  | add a b => sum (subst f a) (subst f b)
  | mul a b => product (subst f a) (subst f b)
  | quot a b => quot (subst f a) (subst f b)
  | rel op a b => relation op (subst f a) (subst f b)
  | e => e

def engine : Engine Sample where
  view := view
  freeSymbols := freeSymbols
  integer := int
  symbol := sym
  relation := relation
  not := complement
  add := fun es => es.foldr sum (int 0)
  sub := fun a b => sum a (negate b)
  div := quot
  fromDict := fun c dict =>
    product (int c) (dict.foldr (fun entry e => product (power entry.1 entry.2) e) (int 1))
  expand := id
  simplify := id
  replace := fun vars => subst fun i => (vars.lookup i).getD (sym i)
  subs := fun values => subst fun i => ((values.lookup i).map int).getD (sym i)

/-! ## Values are kept -/

variable (σ : Assignment)

@[simp] theorem value_sum (a b : Sample) : (sum a b).value σ = a.value σ + b.value σ := by
  unfold sum
  split
  · simp [value]
  · split
    · rename_i h
      simp [h, value]
    · split
      · rename_i h
        simp [h, value]
      · rfl

@[simp] theorem value_product (a b : Sample) : (product a b).value σ = a.value σ * b.value σ := by
  unfold product
  split
  · simp [value]
  · split
    · rename_i h
      simp [h, value]
    · split
      · rename_i h
        simp [h, value]
      · rfl

@[simp] theorem value_negate (e : Sample) : e.negate.value σ = -e.value σ := by
  fun_induction negate e with
  | case1 n => simp [value]
  | case2 n b => simp [value]
  | case3 a b iha ihb =>
    show (negate a).value σ + (negate b).value σ = -(a.value σ + b.value σ)
    rw [iha, ihb, neg_add]
  | case4 e => simp [value]

@[simp] theorem value_power (e : Sample) (n : ℕ) : (power e n).value σ = e.value σ ^ n := by
  induction n with
  | zero => simp [power, value]
  | succ n ih => rw [power, value_product, ih, pow_succ']

theorem value_addends (e : Sample) : (e.addends.map (value σ)).sum = e.value σ := by
  fun_induction addends e with
  | case1 a b iha ihb =>
    rw [map_append, sum_append, iha, ihb]
    rfl
  | case2 e => simp

theorem value_factors (e : Sample) : (e.factors.map (value σ)).prod = e.value σ := by
  fun_induction factors e with
  | case1 a b iha ihb =>
    rw [map_append, prod_append, iha, ihb]
    rfl
  | case2 e => simp

theorem addends_length_pos (e : Sample) : 0 < e.addends.length := by
  fun_induction addends e with
  | case1 a b iha ihb =>
    rw [length_append]
    omega
  | case2 e => exact Nat.one_pos

theorem holds_compare (op : RelOp) (m n : ℤ) :
    compare op m n = true ↔ op.Holds (m : ℚ) (n : ℚ) := by
  cases op with
  | eq => simp [compare, RelOp.Holds]
  | ne => simp [compare, RelOp.Holds]
  | lt => simp [compare, RelOp.Holds]
  | le => simp [compare, RelOp.Holds]

theorem holds_reflexive (op : RelOp) (q : ℚ) : reflexive op = true ↔ op.Holds q q := by
  cases op with
  | eq => simp [reflexive, RelOp.Holds]
  | ne => simp [reflexive, RelOp.Holds]
  | lt => simp [reflexive, RelOp.Holds]
  | le => simp [reflexive, RelOp.Holds]

@[simp] theorem value_relation (op : RelOp) (a b : Sample) :
    (relation op a b).value σ = if op.Holds (a.value σ) (b.value σ) then 1 else 0 := by
  unfold relation
  split
  · rename_i m n
    exact if_congr (holds_compare op m n) rfl rfl
  · split
    · rename_i h
      rw [h]
      exact if_congr (holds_reflexive op _) rfl rfl
    · rfl

theorem holds_rel (op : RelOp) (a b : Sample) :
    (rel op a b).Holds σ ↔ op.Holds (a.value σ) (b.value σ) := by
  show (if op.Holds (a.value σ) (b.value σ) then (1 : ℚ) else 0) ≠ 0 ↔ _
  by_cases h : op.Holds (a.value σ) (b.value σ)
  · rw [if_pos h]
    exact ⟨fun _ => h, fun _ => one_ne_zero⟩
  · rw [if_neg h]
    exact ⟨fun hne => absurd rfl hne, fun hholds => absurd hholds h⟩

theorem holds_bool (b : Bool) : (bool b).Holds σ ↔ b = true := by
  cases b with
  | false => simp [Holds, value]
  | true => simp [Holds, value]

theorem holds_relation (op : RelOp) (a b : Sample) :
    (relation op a b).Holds σ ↔ op.Holds (a.value σ) (b.value σ) := by
  rw [← holds_rel]
  unfold Holds
  rw [value_relation]
  rfl

theorem view_relation (op : RelOp) (a b : Sample) :
    (∃ x y, view (relation op a b) = .relation op x y) ∨
      ∃ c, view (relation op a b) = .boolean c := by
  unfold relation
  split
  · exact .inr ⟨_, rfl⟩
  · split
    · exact .inr ⟨_, rfl⟩
    · exact .inl ⟨_, _, rfl⟩

theorem isBoolean_relation (op : RelOp) (a b : Sample) :
    engine.isBoolean (relation op a b) = true := by
  unfold Engine.isBoolean
  rcases view_relation op a b with ⟨x, y, h⟩ | ⟨c, h⟩
  · rw [show engine.view (relation op a b) = _ from h]
  · rw [show engine.view (relation op a b) = _ from h]

/-- Substitution evaluates under the values of what is put in. -/
theorem value_subst (f : ℕ → Sample) (τ : Assignment) (hf : ∀ i, (f i).value σ = τ i)
    (e : Sample) : (subst f e).value σ = e.value τ := by
  induction e with
  | int n => rfl
  | sym i => exact hf i
  | add a b iha ihb => rw [subst, value_sum, iha, ihb, value]
  | mul a b iha ihb => rw [subst, value_product, iha, ihb, value]
  | quot a b iha ihb => rw [subst, value, iha, ihb, value]
  | rel op a b iha ihb => rw [subst, value_relation, iha, ihb, value]
  | bool b => rfl

theorem isBoolean_subst (f : ℕ → Sample) {e : Sample} (h : engine.isBoolean e = true) :
    engine.isBoolean (subst f e) = true := by
  cases e with
  | rel op a b => exact isBoolean_relation op _ _
  | bool b => rfl
  | _ => exact nomatch h

theorem holds_complement {e : Sample} (h : engine.isBoolean e = true) :
    (complement e).Holds σ ↔ ¬ e.Holds σ := by
  cases e with
  | rel op a b =>
    cases op with
    | eq => simp only [complement, holds_rel, RelOp.Holds, ne_eq]
    | ne => simp only [complement, holds_rel, RelOp.Holds, ne_eq, not_not]
    | lt => simp only [complement, holds_rel, RelOp.Holds, not_lt]
    | le => simp only [complement, holds_rel, RelOp.Holds, not_le]
  | bool b =>
    rw [complement, holds_bool, holds_bool]
    cases b <;> decide
  | _ => exact nomatch h

theorem isBoolean_complement {e : Sample} (h : engine.isBoolean e = true) :
    engine.isBoolean (complement e) = true := by
  cases e with
  | rel op a b => cases op <;> rfl
  | bool b => rfl
  | _ => exact nomatch h

theorem value_congr (τ : Assignment) (e : Sample) (h : ∀ i ∈ e.freeSymbols, σ i = τ i) :
    e.value σ = e.value τ := by
  induction e with
  | int n => rfl
  | sym i => rw [value, value, h i mem_cons_self]
  | add a b iha ihb | mul a b iha ihb | quot a b iha ihb | rel op a b iha ihb =>
    rw [value, value, iha fun i hi => h i (mem_append_left _ hi),
      ihb fun i hi => h i (mem_append_right _ hi)]
  | bool b => rfl

theorem value_lookup (vars : List (ℕ × Sample)) (h : ∀ var ∈ vars, var.2.value σ = σ var.1)
    (i : ℕ) : ((vars.lookup i).getD (sym i)).value σ = σ i := by
  induction vars with
  | nil => rfl
  | cons var vars ih =>
    obtain ⟨hvar, hvars⟩ := forall_mem_cons.mp h
    rw [lookup_cons]
    by_cases hi : i = var.1
    · rw [beq_iff_eq.mpr hi, hi]
      exact hvar
    · rw [beq_false_of_ne hi]
      exact ih hvars

theorem engine_preserves : engine.Preserves value Holds where
  view_int _ := rfl
  view_sym _ := rfl
  value_of_integer := by
    intro σ e n h
    cases e with
    | int m =>
      cases h
      rfl
    | _ => exact nomatch h
  value_of_number := by
    intro σ e neg h
    cases e with
    | _ => exact nomatch h
  value_of_symbol := by
    intro σ e i h
    cases e with
    | sym j =>
      cases h
      rfl
    | _ => exact nomatch h
  value_of_add := by
    intro σ e args h
    cases e with
    | add a b =>
      cases h
      rw [map_append, sum_append, value_addends, value_addends, value]
    | _ => exact nomatch h
  two_le_add := by
    intro e args h
    cases e with
    | add a b =>
      cases h
      have := addends_length_pos a
      have := addends_length_pos b
      rw [length_append]
      omega
    | _ => exact nomatch h
  value_of_mul := by
    intro σ e neg args h
    cases e with
    | mul a b =>
      cases h
      rw [map_append, prod_append, value_factors, value_factors, value]
    | _ => exact nomatch h
  holds_of_relation := by
    intro σ e op a b h
    cases e with
    | rel op' x y =>
      cases h
      exact holds_rel σ _ _ _
    | _ => exact nomatch h
  holds_of_boolean := by
    intro σ e b h
    cases e with
    | bool c =>
      cases h
      exact holds_bool σ b
    | _ => exact nomatch h
  holds_relation := holds_relation
  view_relation := view_relation
  holds_not σ _ h := holds_complement σ h
  isBoolean_not _ h := isBoolean_complement h
  value_add := by
    intro σ es
    show (es.foldr sum (int 0)).value σ = _
    induction es with
    | nil => simp [value]
    | cons e es ih => rw [foldr_cons, value_sum, ih, map_cons, sum_cons]
  value_sub := by
    intro σ a b
    show (sum a (negate b)).value σ = _
    rw [value_sum, value_negate, sub_eq_add_neg]
  value_div _ _ _ _ := rfl
  value_fromDict := by
    intro σ c dict
    show (product (int c) _).value σ = _
    rw [value_product]
    congr 1
    induction dict with
    | nil => simp [value]
    | cons entry dict ih =>
      rw [foldr_cons, value_product, value_power, ih, map_cons, prod_cons]
  value_expand _ _ := rfl
  holds_expand _ _ := Iff.rfl
  isBoolean_expand _ h := h
  value_simplify _ _ := rfl
  holds_simplify _ _ := Iff.rfl
  isBoolean_simplify _ h := h
  value_replace σ vars e h := value_subst σ _ σ (value_lookup σ vars h) e
  holds_replace σ vars e h := by
    unfold Holds
    rw [show (engine.replace vars e).value σ = e.value σ from
      value_subst σ _ σ (value_lookup σ vars h) e]
  isBoolean_replace _ _ h := isBoolean_subst _ h
  holds_subs := by
    intro σ values e
    unfold Holds
    rw [show (engine.subs values e).value σ = e.value (σ.override values) from
      value_subst σ _ _ (fun i => by
        unfold Assignment.override
        cases values.lookup i <;> rfl) e]
  holds_congr := by
    intro σ τ e h
    unfold Holds
    rw [value_congr σ τ e h]

end Sample

end GraphAutofusion.Symbolizer
