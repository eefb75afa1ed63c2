import GraphAutofusion.Symbolizer.EnvSound
import GraphAutofusion.Symbolizer.SampleEngine

/-!
# Symbolizer.GuardRun — the guards suffice for every answer

A run creates symbols, checks, asserts and simplifies. Its answers are right for all assignments
that satisfy the guards it leaves, when each hint is decided and each relation stays the same in
canonical form. The step lemma says what one operation keeps, the run lemma is its induction.
-/

namespace GraphAutofusion.Symbolizer

open List Option

variable {E : Type} [DecidableEq E] (eng : Engine E) {K : Type} [Field K] [LinearOrder K]

inductive Op (E : Type) where
  | createSymbol (hint : ℤ)
  | expectSymbolEq (e0 e1 : E)
  | expectSymbolNe (e0 e1 : E)
  | expectSymbolBool (e : E)
  | assertSymbolEq (e0 e1 : E)
  | assertSymbolBool (e : E)
  | staticCheck (op : RelOp) (e1 e2 : E)
  | staticCheckBool (e : E)
  | simplify (e : E)

/-- What an operation tells its caller. -/
inductive Event (E : Type) where
  | answered (e : E) (b : Bool)
  | asserted (e : E)
  | checked (e : E) (answer : TriBool)
  | simplified (e result : E)

/-- What an event says of an assignment. -/
def Event.Right (value : E → K) (holds : E → Prop) : Event E → Prop
  | .answered e b => holds e ↔ b = true
  | .asserted e => holds e
  | .checked e answer => (answer = .true → holds e) ∧ (answer = .false → ¬ holds e)
  | .simplified e result => value result = value e ∧ (holds result ↔ holds e)

namespace ShapeEnvAttr

variable (env : ShapeEnvAttr E)

def step : Op E → ShapeEnvAttr E × List (Event E)
  | .createSymbol hint => ((env.createSymbol eng hint).1, [])
  | .expectSymbolEq e0 e1 =>
    let (env', res) := env.expectSymbolEq eng e0 e1
    (env', [.answered (eng.relation .eq e0 e1) res])
  | .expectSymbolNe e0 e1 =>
    let (env', res) := env.expectSymbolNe eng e0 e1
    (env', [.answered (eng.relation .ne e0 e1) res])
  | .expectSymbolBool e =>
    let (env', res) := env.expectSymbolBool eng e
    (env', [.answered e res])
  | .assertSymbolEq e0 e1 =>
    let (env', res) := env.assertSymbolEq eng e0 e1
    (env', if res then [.asserted (eng.relation .eq e0 e1)] else [])
  | .assertSymbolBool e =>
    let (env', res) := env.assertSymbolBool eng e
    (env', if res then [.asserted e] else [])
  | .staticCheck op e1 e2 => (env, [.checked (eng.relation op e1 e2) (env.staticCheck eng op e1 e2)])
  | .staticCheckBool e => (env, [.checked e (env.staticCheckBool eng e)])
  | .simplify e => (env, [.simplified e (env.simplify eng e)])

def run : ShapeEnvAttr E → List (Op E) → ShapeEnvAttr E × List (Event E)
  | env, [] => (env, [])
  | env, op :: ops =>
    let (env', events) := env.step eng op
    let (env'', events') := run env' ops
    (env'', events ++ events')

/-- The hints as an assignment. -/
def hintAssignment : Assignment := fun i => (env.symbolToValue.lookup i).getD 1

end ShapeEnvAttr

/-! ## The condition -/

section Condition

variable (value : Assignment → E → K) (S : Assignment → Prop) (env : ShapeEnvAttr E)

/-- A checked expression is over the created symbols, its hint is decided, and the guard stays the
same in canonical form. -/
structure CheckMeets (e : E) : Prop where
  created : Created eng env e
  isBoolean : eng.isBoolean e = true
  decided : (env.computeHint eng e).isSome
  safe : ∀ b, env.computeHint eng e = some b → eng.isConst e = false →
    eng.isConst (env.guardOf eng b e) = false → ∀ σ, S σ →
      eng.CanonicalizesSafely (value σ) (env.guardOf eng b e)

structure AssertMeets (e : E) : Prop where
  created : Created eng env e
  safe : eng.isConst e = false → eng.isConst (env.simplify eng e) = false → ∀ σ, S σ →
    eng.CanonicalizesSafely (value σ) (env.simplify eng e)

/-- An equality stays the same in canonical form, and so do the guards after the merge. -/
structure ReplacementMeets (a b : E) : Prop where
  safe : a ≠ b → ∀ σ, S σ → eng.CanonicalizesSafely (value σ) (eng.relation .eq a b)
  guards : ∀ replacements,
    env.mergedReplacements eng (ShapeEnvAttr.replacementArgs eng a b) = some replacements →
    ∀ g, g ∈ env.symbolCheckInfos ∨ g ∈ env.symbolAssertInfos → ∀ σ, S σ →
      eng.CanonicalizesSafely (value σ)
        (ShapeEnvAttr.simplify eng { env with replacements := replacements } g)

structure StaticMeets (e : E) : Prop where
  isBoolean : eng.isBoolean e = true
  safe : eng.isConst e = false → ∀ σ, S σ →
    eng.CanonicalizesSafely (value σ) e ∧
    eng.CanonicalizesSafely (value σ) (eng.canonicalizeBoolExpr e) ∧
    eng.CanonicalizesSafely (value σ) (env.simplify eng e) ∧
    eng.CanonicalizesSafely (value σ) (eng.canonicalizeBoolExpr (env.simplify eng e))

/-- What an operation asks of the state it is called in. -/
def OpMeets : Op E → Prop
  | .createSymbol _ => True
  | .expectSymbolEq e0 e1 =>
    CheckMeets eng value S env (eng.relation .eq e0 e1) ∧
      (env.computeHint eng (eng.relation .eq e0 e1) = some true →
        ReplacementMeets eng value S (env.expectSymbolBool eng (eng.relation .eq e0 e1)).1 e0 e1)
  | .expectSymbolNe e0 e1 =>
    CheckMeets eng value S env (eng.relation .ne e0 e1) ∧
      (env.computeHint eng (eng.relation .ne e0 e1) = some false →
        ReplacementMeets eng value S (env.expectSymbolBool eng (eng.relation .ne e0 e1)).1 e0 e1)
  | .expectSymbolBool e => CheckMeets eng value S env e
  | .assertSymbolEq e0 e1 =>
    AssertMeets eng value S env (eng.relation .eq e0 e1) ∧
      (env.computeHint eng (eng.relation .eq e0 e1) = some true →
        ReplacementMeets eng value S (env.assertSymbolBool eng (eng.relation .eq e0 e1)).1 e0 e1)
  | .assertSymbolBool e => AssertMeets eng value S env e
  | .staticCheck op e1 e2 =>
    StaticMeets eng value S env (eng.relation op (env.simplify eng e1) (env.simplify eng e2))
  | .staticCheckBool e => StaticMeets eng value S env e
  | .simplify _ => True

/-- All steps of a run meet the condition. -/
def RunMeets (value : Assignment → E → K) (S : Assignment → Prop) :
    ShapeEnvAttr E → List (Op E) → Prop
  | _, [] => True
  | env, op :: ops => OpMeets eng value S env op ∧ RunMeets value S (env.step eng op).1 ops

end Condition

/-! ## The hints stay -/

section Hints

variable {eng} {env env' : ShapeEnvAttr E} {i : ℕ} {val : ℤ}

theorem appendSymbolCheckInfo_symbolToValue {e : E}
    (h : env.appendSymbolCheckInfo eng e = some env') : env'.symbolToValue = env.symbolToValue := by
  unfold ShapeEnvAttr.appendSymbolCheckInfo at h
  split at h
  · exact nomatch h
  · split at h
    · exact congrArg _ (some.inj h).symm
    · rw [← some.inj h]
      rfl

theorem appendSymbolAssertInfo_symbolToValue {e : E}
    (h : env.appendSymbolAssertInfo eng e = some env') :
    env'.symbolToValue = env.symbolToValue := by
  unfold ShapeEnvAttr.appendSymbolAssertInfo at h
  split at h
  · exact nomatch h
  · split at h
    · exact congrArg _ (some.inj h).symm
    · rw [← some.inj h]
      rfl

theorem appendReplacement_symbolToValue {a b : E} (h : env.appendReplacement eng a b = some env') :
    env'.symbolToValue = env.symbolToValue := by
  unfold ShapeEnvAttr.appendReplacement at h
  split at h
  · exact congrArg _ (some.inj h).symm
  · simp only at h
    split at h
    · exact congrArg _ (some.inj h).symm
    · obtain ⟨replacements, -, hsome⟩ := bind_eq_some_iff.mp h
      rw [← some.inj hsome]
      rfl

theorem expectSymbolBool_symbolToValue (e : E) :
    (env.expectSymbolBool eng e).1.symbolToValue = env.symbolToValue := by
  unfold ShapeEnvAttr.expectSymbolBool
  split
  · rfl
  · split
    · rfl
    · split
      · rfl
      · split
        · rfl
        · rename_i happend
          exact appendSymbolCheckInfo_symbolToValue happend

theorem assertSymbolBool_symbolToValue (e : E) :
    (env.assertSymbolBool eng e).1.symbolToValue = env.symbolToValue := by
  unfold ShapeEnvAttr.assertSymbolBool
  split
  · rfl
  · split
    · rfl
    · split
      · rfl
      · rfl
      · split
        · rfl
        · rename_i happend
          exact appendSymbolAssertInfo_symbolToValue happend

/-- Merging the sides of a check stores no hint. -/
theorem replaced_symbolToValue {c : Prop} [Decidable c] {a b : E} {res res' res'' : Bool}
    (h : env'.symbolToValue = env.symbolToValue) :
    (if c then
      match env'.appendReplacement eng a b with
      | none => (env', res)
      | some env'' => (env'', res')
    else (env', res'')).1.symbolToValue = env.symbolToValue := by
  split
  · split
    · exact h
    · rename_i happend
      exact (appendReplacement_symbolToValue happend).trans h
  · exact h

/-- Only `CreateSymbol` stores a hint, and it stores a new one at the end. -/
theorem step_symbolToValue (op : Op E) (h : env.symbolToValue.lookup i = some val) :
    (env.step eng op).1.symbolToValue.lookup i = some val := by
  cases op with
  | createSymbol hint =>
    show (env.createSymbol eng hint).1.symbolToValue.lookup i = some val
    unfold ShapeEnvAttr.createSymbol
    split
    · exact h
    · show (env.symbolToValue ++ [(env.uniqueSymId, hint)]).lookup i = some val
      rw [lookup_append, h]
      rfl
  | expectSymbolEq e0 e1 =>
    have hkeep : (env.expectSymbolEq eng e0 e1).1.symbolToValue = env.symbolToValue :=
      replaced_symbolToValue (expectSymbolBool_symbolToValue _)
    exact (congrArg (·.lookup i) hkeep).trans h
  | expectSymbolNe e0 e1 =>
    have hkeep : (env.expectSymbolNe eng e0 e1).1.symbolToValue = env.symbolToValue :=
      replaced_symbolToValue (expectSymbolBool_symbolToValue _)
    exact (congrArg (·.lookup i) hkeep).trans h
  | expectSymbolBool e =>
    show (env.expectSymbolBool eng e).1.symbolToValue.lookup i = some val
    rw [expectSymbolBool_symbolToValue]
    exact h
  | assertSymbolEq e0 e1 =>
    have hkeep : (env.assertSymbolEq eng e0 e1).1.symbolToValue = env.symbolToValue :=
      replaced_symbolToValue (assertSymbolBool_symbolToValue _)
    exact (congrArg (·.lookup i) hkeep).trans h
  | assertSymbolBool e =>
    show (env.assertSymbolBool eng e).1.symbolToValue.lookup i = some val
    rw [assertSymbolBool_symbolToValue]
    exact h
  | staticCheck op e1 e2 => exact h
  | staticCheckBool e => exact h
  | simplify e => exact h

theorem run_symbolToValue (ops : List (Op E)) (h : env.symbolToValue.lookup i = some val) :
    (env.run eng ops).1.symbolToValue.lookup i = some val := by
  induction ops generalizing env with
  | nil => exact h
  | cons op ops ih => exact ih (step_symbolToValue op h)

end Hints

/-! ## One step -/

section Step

variable {eng} [IsStrictOrderedRing K] {value : Assignment → E → K}
  {holds : Assignment → E → Prop} (hp : eng.Preserves value holds) {S : Assignment → Prop}
  {hint : Assignment} {env : ShapeEnvAttr E}

omit [LinearOrder K] [IsStrictOrderedRing K] [Field K] in
omit [DecidableEq E] in
theorem computeHint_of_const {e : E} (hconst : eng.isConst e = true)
    (h : (eng.constBool e).getD false = true) : env.computeHint eng e = some true := by
  unfold ShapeEnvAttr.computeHint
  rw [if_pos hconst]
  cases hb : eng.constBool e with
  | none =>
    rw [hb] at h
    exact nomatch h
  | some b =>
    rw [hb] at h
    exact congrArg some h

omit [LinearOrder K] [IsStrictOrderedRing K] [Field K] in
theorem computeHint_of_expect {e : E} (h : (env.expectSymbolBool eng e).2 = true) :
    env.computeHint eng e = some true := by
  unfold ShapeEnvAttr.expectSymbolBool at h
  split at h
  · exact nomatch h
  · split at h
    · rename_i hconst
      exact computeHint_of_const hconst h
    · split at h
      · exact nomatch h
      · rename_i b hb
        split at h
        · exact nomatch h
        · exact hb.trans (congrArg some h)

omit [LinearOrder K] [IsStrictOrderedRing K] [Field K] in
theorem computeHint_of_assert {e : E} (h : (env.assertSymbolBool eng e).2 = true) :
    env.computeHint eng e = some true := by
  unfold ShapeEnvAttr.assertSymbolBool at h
  split at h
  · exact nomatch h
  · split at h
    · rename_i hconst
      exact computeHint_of_const hconst h
    · split at h
      · exact nomatch h
      · exact nomatch h
      · rename_i hb
        exact hb

include hp

/-- A decided check is answered by its hint. -/
theorem expectSymbolBool_answer (hs : Sound value holds S hint env) (hhint : S hint) {e : E}
    (hm : CheckMeets eng value S env e) (h : (env.expectSymbolBool eng e).2 = false) :
    env.computeHint eng e = some false := by
  obtain ⟨b, hb⟩ := isSome_iff_exists.mp hm.decided
  obtain ⟨hs', -, hright⟩ :=
    expectSymbolBool_spec hp hs hhint hm.isBoolean hm.created hm.decided hm.safe
  have htruth := (hright hint hhint hs'.guards).symm.trans
    (holds_of_computeHint hp hs.hints hm.created hb)
  rw [h] at htruth
  rw [hb]
  cases b with
  | true => exact absurd (htruth.mpr rfl) (by decide)
  | false => rfl

/-- What a step keeps: no guard is lost, and what it tells follows from the guards. -/
def StepKeeps (value : Assignment → E → K) (holds : Assignment → E → Prop) (S : Assignment → Prop)
    (hint : Assignment) (env env' : ShapeEnvAttr E) (events : List (Event E)) : Prop :=
  Sound value holds S hint env' ∧ (∀ P : E → Prop, GuardsHold P env' → GuardsHold P env) ∧
    ∀ σ, S σ → GuardsHold (holds σ) env' → ∀ ev ∈ events, ev.Right (value σ) (holds σ)

omit hp [IsStrictOrderedRing K] [LinearOrder K] [Field K] in
theorem stepKeeps_refl (hs : Sound value holds S hint env) {events : List (Event E)}
    (hright : ∀ σ, S σ → GuardsHold (holds σ) env → ∀ ev ∈ events, ev.Right (value σ) (holds σ)) :
    StepKeeps value holds S hint env env events :=
  ⟨hs, fun _ h => h, hright⟩

omit hp [IsStrictOrderedRing K] [LinearOrder K] [Field K] in
theorem stepKeeps_single {env' : ShapeEnvAttr E} {ev : Event E} (hs : Sound value holds S hint env')
    (hext : Extends env env')
    (hright : ∀ σ, S σ → GuardsHold (holds σ) env' → ev.Right (value σ) (holds σ)) :
    StepKeeps value holds S hint env env' [ev] := by
  refine ⟨hs, fun P => hext.guardsHold, fun σ hσ hg ev' hev => ?_⟩
  obtain rfl := mem_singleton.mp hev
  exact hright σ hσ hg

/-- A check whose answer may be stored as an equality. The expectation and the assertion of an
equality and the expectation of an inequality do the same after they are answered. -/
theorem stepKeeps_replacement {env' : ShapeEnvAttr E} {e0 e1 : E} (hhint : S hint)
    (hs : Sound value holds S hint env') (hext : Extends env env')
    (heq : ∀ σ, S σ → GuardsHold (holds σ) env' → value σ e0 = value σ e1)
    (hm : ReplacementMeets eng value S env' e0 e1) :
    ∃ env'', env'.appendReplacement eng e0 e1 = some env'' ∧ Sound value holds S hint env'' ∧
      Extends env env'' ∧ Extends env' env'' := by
  obtain ⟨env'', happend, hs'', hext'⟩ := appendReplacement_spec hp hs hhint heq hm.safe hm.guards
  exact ⟨env'', happend, hs'', hext.trans hext', hext'⟩

section

variable (hs : Sound value holds S hint env)
include hs

theorem expectSymbolEq_keeps (hhint : S hint) {e0 e1 : E}
    (hm : OpMeets eng value S env (.expectSymbolEq e0 e1)) :
    StepKeeps value holds S hint env (env.step eng (.expectSymbolEq e0 e1)).1
      (env.step eng (.expectSymbolEq e0 e1)).2 := by
  obtain ⟨hcheck, hrep⟩ := hm
  obtain ⟨hs', hext, hright⟩ :=
    expectSymbolBool_spec hp hs hhint hcheck.isBoolean hcheck.created hcheck.decided hcheck.safe
  show StepKeeps value holds S hint env (env.expectSymbolEq eng e0 e1).1
    [.answered (eng.relation .eq e0 e1) (env.expectSymbolEq eng e0 e1).2]
  unfold ShapeEnvAttr.expectSymbolEq
  simp only
  by_cases hres : (env.expectSymbolBool eng (eng.relation .eq e0 e1)).2 = true
  · have heq : ∀ σ, S σ →
        GuardsHold (holds σ) (env.expectSymbolBool eng (eng.relation .eq e0 e1)).1 →
        value σ e0 = value σ e1 := by
      intro σ hσ hg
      exact (hp.holds_relation σ .eq e0 e1).mp ((hright σ hσ hg).mpr hres)
    obtain ⟨env'', happend, hs'', hext', hext''⟩ :=
      stepKeeps_replacement hp hhint hs' hext heq (hrep (computeHint_of_expect hres))
    rw [if_pos hres, happend]
    exact stepKeeps_single hs'' hext' fun σ hσ hg => hright σ hσ (hext''.guardsHold hg)
  · rw [if_neg hres]
    exact stepKeeps_single hs' hext hright

theorem expectSymbolNe_keeps (hhint : S hint) {e0 e1 : E}
    (hm : OpMeets eng value S env (.expectSymbolNe e0 e1)) :
    StepKeeps value holds S hint env (env.step eng (.expectSymbolNe e0 e1)).1
      (env.step eng (.expectSymbolNe e0 e1)).2 := by
  obtain ⟨hcheck, hrep⟩ := hm
  obtain ⟨hs', hext, hright⟩ :=
    expectSymbolBool_spec hp hs hhint hcheck.isBoolean hcheck.created hcheck.decided hcheck.safe
  show StepKeeps value holds S hint env (env.expectSymbolNe eng e0 e1).1
    [.answered (eng.relation .ne e0 e1) (env.expectSymbolNe eng e0 e1).2]
  unfold ShapeEnvAttr.expectSymbolNe
  simp only
  cases hres : (env.expectSymbolBool eng (eng.relation .ne e0 e1)).2 with
  | false =>
    -- an inequality that is denied is an equality
    have heq : ∀ σ, S σ →
        GuardsHold (holds σ) (env.expectSymbolBool eng (eng.relation .ne e0 e1)).1 →
        value σ e0 = value σ e1 := by
      intro σ hσ hg
      by_contra hne
      have := (hright σ hσ hg).mp ((hp.holds_relation σ .ne e0 e1).mpr hne)
      rw [hres] at this
      exact nomatch this
    obtain ⟨env'', happend, hs'', hext', hext''⟩ := stepKeeps_replacement hp hhint hs' hext heq
      (hrep (expectSymbolBool_answer hp hs hhint hcheck hres))
    simp only [Bool.not_false, if_true, happend]
    rw [hres] at hright
    exact stepKeeps_single hs'' hext' fun σ hσ hg => hright σ hσ (hext''.guardsHold hg)
  | true =>
    rw [if_neg (by decide)]
    rw [hres] at hright
    exact stepKeeps_single hs' hext hright

theorem assertSymbolEq_keeps (hhint : S hint) {e0 e1 : E}
    (hm : OpMeets eng value S env (.assertSymbolEq e0 e1)) :
    StepKeeps value holds S hint env (env.step eng (.assertSymbolEq e0 e1)).1
      (env.step eng (.assertSymbolEq e0 e1)).2 := by
  obtain ⟨hassert, hrep⟩ := hm
  obtain ⟨hs', hext, hright⟩ := assertSymbolBool_spec hp hs hhint hassert.created hassert.safe
  have hcall : ∀ env' res, env.assertSymbolEq eng e0 e1 = (env', res) →
      env.step eng (.assertSymbolEq e0 e1)
        = (env', if res then [.asserted (eng.relation .eq e0 e1)] else []) := by
    intro env' res h
    unfold ShapeEnvAttr.step
    simp only [h]
  by_cases hres : (env.assertSymbolBool eng (eng.relation .eq e0 e1)).2 = true
  · have heq : ∀ σ, S σ →
        GuardsHold (holds σ) (env.assertSymbolBool eng (eng.relation .eq e0 e1)).1 →
        value σ e0 = value σ e1 := by
      intro σ hσ hg
      exact (hp.holds_relation σ .eq e0 e1).mp (hright hres σ hσ hg)
    obtain ⟨env'', happend, hs'', hext', hext''⟩ :=
      stepKeeps_replacement hp hhint hs' hext heq (hrep (computeHint_of_assert hres))
    rw [hcall env'' true (by
      unfold ShapeEnvAttr.assertSymbolEq
      simp only
      rw [if_pos hres, happend])]
    exact stepKeeps_single hs'' hext' fun σ hσ hg => hright hres σ hσ (hext''.guardsHold hg)
  · rw [hcall _ false (by
      unfold ShapeEnvAttr.assertSymbolEq
      simp only
      rw [if_neg hres])]
    exact ⟨hs', fun P => hext.guardsHold, fun σ hσ hg ev hev => absurd hev not_mem_nil⟩

/-- The step lemma. -/
theorem step_keeps (hhint : S hint) (op : Op E)
    (hhints : ∀ i val, (env.step eng op).1.symbolToValue.lookup i = some val → hint i = val)
    (hm : OpMeets eng value S env op) :
    StepKeeps value holds S hint env (env.step eng op).1 (env.step eng op).2 := by
  cases op with
  | createSymbol h =>
    show StepKeeps value holds S hint env (env.createSymbol eng h).1 []
    have hhints : ∀ i val, (env.createSymbol eng h).1.symbolToValue.lookup i = some val →
        hint i = val := hhints
    unfold ShapeEnvAttr.createSymbol at hhints ⊢
    split
    · exact stepKeeps_refl hs fun σ _ _ ev hev => absurd hev not_mem_nil
    · rename_i hspecial
      rw [if_neg hspecial] at hhints
      exact ⟨⟨hs.guards, hs.replacements, hs.rooted, hhints⟩, fun P hg => hg,
        fun σ _ _ ev hev => absurd hev not_mem_nil⟩
  | expectSymbolEq e0 e1 => exact expectSymbolEq_keeps hp hs hhint hm
  | expectSymbolNe e0 e1 => exact expectSymbolNe_keeps hp hs hhint hm
  | expectSymbolBool e =>
    obtain ⟨hs', hext, hright⟩ :=
      expectSymbolBool_spec hp hs hhint hm.isBoolean hm.created hm.decided hm.safe
    exact stepKeeps_single hs' hext hright
  | assertSymbolEq e0 e1 => exact assertSymbolEq_keeps hp hs hhint hm
  | assertSymbolBool e =>
    obtain ⟨hs', hext, hright⟩ := assertSymbolBool_spec hp hs hhint hm.created hm.safe
    refine ⟨hs', fun P => hext.guardsHold, fun σ hσ hg ev hev => ?_⟩
    have hev : ev ∈ if (env.assertSymbolBool eng e).2 = true then [Event.asserted e] else [] := hev
    split at hev
    · rename_i hres
      obtain rfl := mem_singleton.mp hev
      exact hright hres σ hσ hg
    · exact absurd hev not_mem_nil
  | staticCheck op e1 e2 =>
    refine stepKeeps_refl hs fun σ hσ hg ev hev => ?_
    obtain rfl := mem_singleton.mp hev
    have hr := hs.replacements σ hσ hg
    -- the relation is of the simplified sides, which have the same values
    have hsides : holds σ (eng.relation op (env.simplify eng e1) (env.simplify eng e2)) ↔
        holds σ (eng.relation op e1 e2) := by
      rw [hp.holds_relation, hp.holds_relation, value_simplify hp hr, value_simplify hp hr]
    obtain ⟨htrue, hfalse⟩ := staticCheckBool_spec hp hs hm.isBoolean hm.safe hσ hg
    exact ⟨fun h => hsides.mp (htrue h), fun h hholds => hfalse h (hsides.mpr hholds)⟩
  | staticCheckBool e =>
    refine stepKeeps_refl hs fun σ hσ hg ev hev => ?_
    obtain rfl := mem_singleton.mp hev
    exact staticCheckBool_spec hp hs hm.isBoolean hm.safe hσ hg
  | simplify e =>
    refine stepKeeps_refl hs fun σ hσ hg ev hev => ?_
    obtain rfl := mem_singleton.mp hev
    have hr := hs.replacements σ hσ hg
    exact ⟨value_simplify hp hr e, holds_simplify hp hr e⟩

end

/-! ## Runs -/

/-- The run lemma: the induction carries what the environment claims. -/
theorem run_keeps (ops : List (Op E)) (hs : Sound value holds S hint env) (hhint : S hint)
    (hhints : ∀ i val, (env.run eng ops).1.symbolToValue.lookup i = some val → hint i = val)
    (hm : RunMeets eng value S env ops) :
    StepKeeps value holds S hint env (env.run eng ops).1 (env.run eng ops).2 := by
  induction ops generalizing env with
  | nil => exact stepKeeps_refl hs fun σ _ _ ev hev => absurd hev not_mem_nil
  | cons op ops ih =>
    have hstep : ∀ i val, (env.step eng op).1.symbolToValue.lookup i = some val → hint i = val :=
      fun i val h => hhints i val (run_symbolToValue ops h)
    obtain ⟨hs', hback, hright⟩ := step_keeps hp hs hhint op hstep hm.1
    obtain ⟨hs'', hback', hright'⟩ := ih hs' hhints hm.2
    refine ⟨hs'', fun P h => hback P (hback' P h), fun σ hσ hg ev hev => ?_⟩
    rcases mem_append.mp hev with hev | hev
    · exact hright σ hσ (hback' _ hg) ev hev
    · exact hright' σ hσ hg ev hev

end Step

/-- The guards that a run leaves suffice for all it answered, when each step meets the condition:
the hints satisfy them, and wherever they hold the answers are right. -/
theorem run_guards_suffice {eng : Engine E} [IsStrictOrderedRing K] {value : Assignment → E → K}
    {holds : Assignment → E → Prop} (hp : eng.Preserves value holds) (specializeZeroOne : Bool)
    (ops : List (Op E))
    (hm : RunMeets eng value
      (fun σ => σ.Positive ∨
        σ = (ShapeEnvAttr.run eng { specializeZeroOne := specializeZeroOne } ops).1.hintAssignment)
      { specializeZeroOne := specializeZeroOne } ops) :
    GuardsHold
        (holds (ShapeEnvAttr.run eng
          { specializeZeroOne := specializeZeroOne } ops).1.hintAssignment)
        (ShapeEnvAttr.run eng { specializeZeroOne := specializeZeroOne } ops).1 ∧
      ∀ σ : Assignment, σ.Positive →
        GuardsHold (holds σ)
          (ShapeEnvAttr.run eng { specializeZeroOne := specializeZeroOne } ops).1 →
        ∀ ev ∈ (ShapeEnvAttr.run eng { specializeZeroOne := specializeZeroOne } ops).2,
          ev.Right (value σ) (holds σ) := by
  let S : Assignment → Prop := fun σ => σ.Positive ∨
    σ = (ShapeEnvAttr.run eng { specializeZeroOne := specializeZeroOne } ops).1.hintAssignment
  -- an empty environment claims nothing
  have hinit : Sound value holds S
      (ShapeEnvAttr.run eng { specializeZeroOne := specializeZeroOne } ops).1.hintAssignment
      { specializeZeroOne := specializeZeroOne } :=
    { guards := fun g hg => by
        rcases hg with hg | hg
        · exact absurd hg not_mem_nil
        · exact absurd hg not_mem_nil
      replacements := fun σ _ _ e entry h => nomatch h
      rooted := fun e entry h => nomatch h
      hints := fun i val h => nomatch h }
  have hhints : ∀ i val,
      (ShapeEnvAttr.run eng { specializeZeroOne := specializeZeroOne } ops).1.symbolToValue.lookup i
        = some val →
      (ShapeEnvAttr.run eng { specializeZeroOne := specializeZeroOne } ops).1.hintAssignment i
        = val := by
    intro i val h
    unfold ShapeEnvAttr.hintAssignment
    rw [h]
    rfl
  obtain ⟨hs, -, hright⟩ := run_keeps hp ops hinit (.inr rfl) hhints hm
  exact ⟨hs.guards, fun σ hσ hg => hright σ (.inl hσ) hg⟩

/-- Two symbols with one hint are expected to be equal; a check and an expression use it. -/
def agreeingOps : List (Op Sample) :=
  [.createSymbol 4, .createSymbol 4, .expectSymbolEq (.sym 0) (.sym 1),
    .staticCheck .le (.sym 0) (.sym 1), .simplify (.add (.sym 0) (.sym 1))]

theorem agreeingOps_meet (S : Assignment → Prop) :
    RunMeets Sample.engine Sample.value S {} agreeingOps := by
  have hplain : ∀ (e : Sample) (σ : Assignment), Sample.engine.isPlain e = true →
      Sample.engine.CanonicalizesSafely (Sample.value σ) e := fun e σ h =>
    Engine.canonicalizesSafely_of_plain _ h
  refine ⟨trivial, trivial, ⟨⟨?_, ?_, ?_, ?_⟩, fun _ => ⟨?_, ?_⟩⟩, ⟨?_, ?_⟩, trivial, trivial⟩
  · unfold Created
    decide +kernel
  · rfl
  · decide +kernel
  · intro b hb _ _ σ _
    apply hplain
    cases b with
    | true => decide +kernel
    | false => exact absurd hb (by decide +kernel)
  · intro _ σ _
    apply hplain
    decide +kernel
  · intro replacements hmerged g hg σ _
    apply hplain
    -- the first symbol is replaced by the second, which makes the only guard a constant
    have hreps : some replacements = some
        [(.sym 0, { replaceExpr := .sym 1, rank := 1 }),
          (.sym 1, { replaceExpr := .sym 1, rank := 1 })] :=
      hmerged.symm.trans (by decide +kernel)
    obtain rfl := some.inj hreps
    have hguard : g ∈ [Sample.rel .eq (.sym 0) (.sym 1)] ∨ g ∈ ([] : List Sample) := hg
    obtain rfl : g = Sample.rel .eq (.sym 0) (.sym 1) := by simpa using hguard
    decide +kernel
  · rfl
  · intro h
    exact absurd h (by decide +kernel)

theorem run_guards_suffice_agreeing :
    GuardsHold
        (Sample.Holds (ShapeEnvAttr.run Sample.engine {} agreeingOps).1.hintAssignment)
        (ShapeEnvAttr.run Sample.engine {} agreeingOps).1 ∧
      ∀ σ : Assignment, σ.Positive →
        GuardsHold (Sample.Holds σ) (ShapeEnvAttr.run Sample.engine {} agreeingOps).1 →
        ∀ ev ∈ (ShapeEnvAttr.run Sample.engine {} agreeingOps).2,
          ev.Right (Sample.value σ) (Sample.Holds σ) :=
  run_guards_suffice Sample.engine_preserves false agreeingOps (agreeingOps_meet _)

/-- `4 * s0 = 6 * s1` is expected with the hints three and two. -/
def signLostOps : List (Op Sample) :=
  [.createSymbol 3, .createSymbol 2,
    .expectSymbolEq (.mul (.int 4) (.sym 0)) (.mul (.int 6) (.sym 1))]

/-- The guard that is left is `-2 * s0 = 3 * s1`, which the hints do not satisfy. -/
theorem signLostOps_guard_fails :
    Sample.engine.Preserves Sample.value Sample.Holds ∧
      ¬ GuardsHold
        (Sample.Holds (ShapeEnvAttr.run Sample.engine {} signLostOps).1.hintAssignment)
        (ShapeEnvAttr.run Sample.engine {} signLostOps).1 := by
  refine ⟨Sample.engine_preserves, fun h => ?_⟩
  have hinfos : (ShapeEnvAttr.run Sample.engine {} signLostOps).1.symbolCheckInfos
      = [.rel .eq (.mul (.int (-2)) (.sym 0)) (.mul (.int 3) (.sym 1))] := by
    decide +kernel
  have hguard := h _ (.inl (hinfos ▸ mem_cons_self))
  exact absurd hguard (by decide +kernel)

end GraphAutofusion.Symbolizer
