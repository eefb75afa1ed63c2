import GraphAutofusion.Symbolizer.ShapeEnv

/-!
# Symbolizer.EnvSound — what an environment may claim

Under an assignment that satisfies the guards the replacements are equalities, so that
simplification keeps values. The hints satisfy the guards. Each operation keeps this when the
relations it brings into canonical form stay the same.
-/

namespace GraphAutofusion.Symbolizer

open List ShapeEnvAttr
open Option hiding or_assoc

variable {E : Type} [DecidableEq E] {eng : Engine E} {K : Type} [Field K] [LinearOrder K]
  {value : Assignment → E → K} {holds : Assignment → E → Prop}

/-! ## Entries of the replacement map -/

section Entries

variable {replacements : List (E × Replacement E)} {e : E}

/-- Expressions have the value of what replaces them. -/
def ReplacementsHold (value : E → K) (replacements : List (E × Replacement E)) : Prop :=
  ∀ e entry, replacements.lookup e = some entry → value e = value entry.replaceExpr

theorem lookup_isSome_iff : (replacements.lookup e).isSome ↔ e ∈ replacements.map Prod.fst := by
  induction replacements with
  | nil => simp
  | cons head replacements ih =>
    rw [lookup_cons, map_cons, mem_cons]
    by_cases heq : e = head.1
    · rw [beq_iff_eq.mpr heq]
      simp [heq]
    · rw [beq_false_of_ne heq]
      simp [heq, ih]

/-- Entries that are made from their keys and their old contents. -/
theorem lookup_map (f : E → Replacement E → Replacement E) :
    (replacements.map fun entry => (entry.1, f entry.1 entry.2)).lookup e
      = (replacements.lookup e).map (f e) := by
  induction replacements with
  | nil => rfl
  | cons head replacements ih =>
    rw [map_cons, lookup_cons, lookup_cons]
    by_cases heq : e = head.1
    · rw [beq_iff_eq.mpr heq, heq]
      rfl
    · rw [beq_false_of_ne heq]
      exact ih

theorem lookup_updateReplacement (key : E) (f : Replacement E → Replacement E) :
    (updateReplacement replacements key f).lookup e
      = (replacements.lookup e).map fun entry => if e = key then f entry else entry := by
  have hmap : updateReplacement replacements key f
      = replacements.map fun entry => (entry.1, if entry.1 = key then f entry.2 else entry.2) := by
    unfold updateReplacement
    apply map_congr_left
    intro entry _
    split <;> rfl
  rw [hmap]
  exact lookup_map fun k entry => if k = key then f entry else entry

theorem lookup_filter_ne (k : E) : (replacements.filter fun other => other.1 ≠ e).lookup k
    = if k = e then none else replacements.lookup k := by
  induction replacements with
  | nil => simp
  | cons head replacements ih =>
    rw [lookup_cons]
    by_cases hhead : head.1 = e
    · rw [filter_cons_of_neg (by simpa using hhead), ih]
      by_cases hk : k = e
      · rw [if_pos hk, if_pos hk]
      · have hne : k ≠ head.1 := fun h => hk (h.trans hhead)
        rw [if_neg hk, if_neg hk, beq_false_of_ne hne]
    · rw [filter_cons_of_pos (by simpa using hhead), lookup_cons, ih]
      by_cases hk : k = head.1
      · have hne : k ≠ e := fun h => hhead (hk.symm.trans h)
        rw [beq_iff_eq.mpr hk]
        simp only [if_neg hne]
      · rw [beq_false_of_ne hk]

end Entries

/-! ## Roots -/

section Roots

variable {replacements : List (E × Replacement E)}

/-- Every entry stands directly under its root. -/
def Rooted (replacements : List (E × Replacement E)) : Prop :=
  ∀ e entry, replacements.lookup e = some entry →
    ∃ root, replacements.lookup entry.replaceExpr = some root ∧
      root.replaceExpr = entry.replaceExpr

theorem findRootExpr_of_rooted (h : Rooted replacements) {e : E} {entry : Replacement E}
    (he : replacements.lookup e = some entry) (fuel : ℕ) :
    findRootExpr replacements (fuel + 2) e = some entry.replaceExpr := by
  unfold findRootExpr
  simp only [he]
  by_cases hself : entry.replaceExpr = e
  · rw [if_pos hself, hself]
  · obtain ⟨root, hroot, hend⟩ := h e entry he
    rw [if_neg hself]
    unfold findRootExpr
    simp only [hroot, if_pos hend]

theorem findRootExpr_mem {fuel : ℕ} {e root : E}
    (h : findRootExpr replacements fuel e = some root) :
    ∃ entry, replacements.lookup root = some entry ∧ entry.replaceExpr = root := by
  induction fuel generalizing e with
  | zero => exact nomatch h
  | succ fuel ih =>
    unfold findRootExpr at h
    split at h
    · exact nomatch h
    · rename_i entry hentry
      split at h
      · rename_i hself
        obtain rfl := some.inj h
        exact ⟨entry, hentry, hself⟩
      · exact ih h

omit [LinearOrder K] [Field K] in
theorem value_findRootExpr {v : E → K} (hr : ReplacementsHold v replacements) {fuel : ℕ}
    {e root : E} (h : findRootExpr replacements fuel e = some root) : v e = v root := by
  induction fuel generalizing e with
  | zero => exact nomatch h
  | succ fuel ih =>
    unfold findRootExpr at h
    split at h
    · exact nomatch h
    · rename_i entry hentry
      split at h
      · obtain rfl := some.inj h
        rfl
      · exact (hr e entry hentry).trans (ih h)

theorem lookup_appendInitReplacement (e k : E) :
    (appendInitReplacement replacements e).lookup k
      = (replacements.lookup k).or
          (if k = e then some { replaceExpr := e, rank := 1 } else none) := by
  unfold appendInitReplacement
  split
  · rw [lookup_append]
    congr 1
    rw [lookup_cons]
    by_cases hk : k = e
    · rw [beq_iff_eq.mpr hk, if_pos hk]
    · rw [beq_false_of_ne hk, if_neg hk]
      rfl
  · rename_i hsome
    by_cases hk : k = e
    · rw [hk]
      cases hold : replacements.lookup e with
      | none => exact absurd (by rw [hold]; rfl) hsome
      | some old => rfl
    · rw [if_neg hk, or_none]

theorem appendInitReplacement_rooted (h : Rooted replacements) (e : E) :
    Rooted (appendInitReplacement replacements e) := by
  intro k entry hk
  rw [lookup_appendInitReplacement] at hk
  cases hold : replacements.lookup k with
  | some old =>
    rw [hold] at hk
    obtain rfl := some.inj hk
    obtain ⟨root, hroot, hend⟩ := h k old hold
    refine ⟨root, ?_, hend⟩
    rw [lookup_appendInitReplacement, hroot]
    rfl
  | none =>
    rw [hold, none_or] at hk
    split at hk
    · rename_i hke
      obtain rfl := some.inj hk
      refine ⟨{ replaceExpr := e, rank := 1 }, ?_, rfl⟩
      rw [lookup_appendInitReplacement, ← hke, hold, if_pos rfl]
      rfl
    · exact nomatch hk

theorem appendInitReplacement_lookup (e : E) :
    ((appendInitReplacement replacements e).lookup e).isSome := by
  rw [lookup_appendInitReplacement, if_pos rfl]
  cases replacements.lookup e <;> rfl

theorem appendInitReplacement_mono (e k : E) (h : (replacements.lookup k).isSome) :
    ((appendInitReplacement replacements e).lookup k).isSome := by
  obtain ⟨entry, hentry⟩ := isSome_iff_exists.mp h
  rw [lookup_appendInitReplacement, hentry]
  rfl

omit [LinearOrder K] [Field K] in
theorem appendInitReplacement_hold {v : E → K} (hr : ReplacementsHold v replacements) (e : E) :
    ReplacementsHold v (appendInitReplacement replacements e) := by
  intro k entry hk
  rw [lookup_appendInitReplacement] at hk
  cases hold : replacements.lookup k with
  | some old =>
    rw [hold] at hk
    obtain rfl := some.inj hk
    exact hr k old hold
  | none =>
    rw [hold, none_or] at hk
    split at hk
    · rename_i hke
      obtain rfl := some.inj hk
      rw [hke]
    · exact nomatch hk

/-- One root is put under another. -/
def Linked (replacements merged : List (E × Replacement E)) (child father : E) : Prop :=
  ∀ k, (merged.lookup k).map Replacement.replaceExpr
    = (replacements.lookup k).map fun entry => if k = child then father else entry.replaceExpr

theorem linked_update (child father : E) (rank : ℤ) (raise : Prop) [Decidable raise] :
    Linked replacements
      (if raise then
        updateReplacement
          (updateReplacement replacements child fun r => { r with replaceExpr := father }) father
          fun r => { r with rank := rank }
      else updateReplacement replacements child fun r => { r with replaceExpr := father })
      child father := by
  intro k
  have hlink : ((updateReplacement replacements child fun r =>
      { r with replaceExpr := father }).lookup k).map Replacement.replaceExpr
      = (replacements.lookup k).map fun entry => if k = child then father else entry.replaceExpr := by
    rw [lookup_updateReplacement, Option.map_map]
    congr 1
    funext entry
    show (if k = child then { entry with replaceExpr := father } else entry).replaceExpr = _
    split <;> rfl
  split
  · rw [lookup_updateReplacement, Option.map_map, ← hlink]
    congr 1
    funext entry
    show (if k = father then { entry with rank := rank } else entry).replaceExpr = _
    split <;> rfl
  · exact hlink

/-- Two expressions that have entries can be merged: one of their roots is put under the other. -/
theorem mergeReplacement_linked (h : Rooted replacements) {e1 e2 : E}
    (h1 : (replacements.lookup e1).isSome) (h2 : (replacements.lookup e2).isSome) :
    ∃ merged father1 father2, mergeReplacement eng replacements e1 e2 = some merged ∧
      findRootExpr replacements (replacements.length + 2) e1 = some father1 ∧
      findRootExpr replacements (replacements.length + 2) e2 = some father2 ∧
      (Linked replacements merged father1 father2 ∨ Linked replacements merged father2 father1) := by
  obtain ⟨entry1, hentry1⟩ := isSome_iff_exists.mp h1
  obtain ⟨entry2, hentry2⟩ := isSome_iff_exists.mp h2
  have hroot1 := findRootExpr_of_rooted h hentry1 replacements.length
  have hroot2 := findRootExpr_of_rooted h hentry2 replacements.length
  obtain ⟨root1, hlookup1, -⟩ := findRootExpr_mem hroot1
  obtain ⟨root2, hlookup2, -⟩ := findRootExpr_mem hroot2
  unfold mergeReplacement
  simp only [hroot1, hroot2, hlookup1, hlookup2, bind_eq_bind, bind_some,
    Option.pure_def]
  split
  · exact ⟨_, _, _, rfl, rfl, rfl, .inl (linked_update _ _ _ _)⟩
  · exact ⟨_, _, _, rfl, rfl, rfl, .inr (linked_update _ _ _ _)⟩

variable {merged : List (E × Replacement E)} {child father k : E}

theorem Linked.lookup_eq
    (hl : Linked replacements merged child father) {entry : Replacement E}
    (hk : replacements.lookup k = some entry) : ∃ entry', merged.lookup k = some entry' ∧
      entry'.replaceExpr = if k = child then father else entry.replaceExpr := by
  have := hl k
  rw [hk, map_some] at this
  exact map_eq_some_iff.mp this

theorem Linked.lookup_isSome
    (hl : Linked replacements merged child father) {entry' : Replacement E}
    (hk : merged.lookup k = some entry') : ∃ entry, replacements.lookup k = some entry ∧
      entry'.replaceExpr = if k = child then father else entry.replaceExpr := by
  have := hl k
  rw [hk, map_some] at this
  obtain ⟨entry, hentry, heq⟩ := map_eq_some_iff.mp this.symm
  exact ⟨entry, hentry, heq.symm⟩

/-- After the link a root is found in at most three steps. -/
theorem Linked.findRootExpr_isSome (h : Rooted replacements)
    (hl : Linked replacements merged child father)
    (hfather : ∃ entry, replacements.lookup father = some entry ∧ entry.replaceExpr = father)
    (hk : (merged.lookup k).isSome) (fuel : ℕ) : (findRootExpr merged (fuel + 3) k).isSome := by
  have hend : ∀ n, findRootExpr merged (n + 1) father = some father := by
    intro n
    obtain ⟨entry, hentry, hself⟩ := hfather
    obtain ⟨entry', hentry', heq⟩ := hl.lookup_eq hentry
    have hself' : entry'.replaceExpr = father := by
      rw [heq, hself, ite_self]
    unfold findRootExpr
    simp only [hentry', if_pos hself']
  -- a root of the old map that is not the child is one still, the child leads to the father
  have hroot : ∀ n r entry, replacements.lookup r = some entry → entry.replaceExpr = r →
      (findRootExpr merged (n + 2) r).isSome := by
    intro n r entry hentry hself
    obtain ⟨entry', hentry', heq⟩ := hl.lookup_eq hentry
    unfold findRootExpr
    simp only [hentry']
    split
    · rfl
    · rename_i hne
      by_cases hchild : r = child
      · rw [if_pos hchild] at heq
        rw [heq, hend]
        rfl
      · rw [if_neg hchild, hself] at heq
        exact absurd heq hne
  obtain ⟨entry', hentry'⟩ := isSome_iff_exists.mp hk
  obtain ⟨entry, hentry, heq⟩ := hl.lookup_isSome hentry'
  obtain ⟨root, hlookup, hself⟩ := h k entry hentry
  unfold findRootExpr
  simp only [hentry']
  split
  · rfl
  · by_cases hchild : k = child
    · rw [if_pos hchild] at heq
      rw [heq, hend]
      rfl
    · rw [if_neg hchild] at heq
      rw [heq]
      exact hroot fuel _ root hlookup hself

omit [LinearOrder K] [Field K] in
theorem Linked.hold {child father : E} {v : E → K}
    (hl : Linked replacements merged child father) (hr : ReplacementsHold v replacements)
    (heq : v child = v father) : ReplacementsHold v merged := by
  intro k entry' hk
  obtain ⟨entry, hentry, hexpr⟩ := hl.lookup_isSome hk
  rw [hexpr]
  split
  · rename_i hchild
    rw [hchild, heq]
  · exact hr k entry hentry

omit [LinearOrder K] [Field K] in
/-- When all roots can be found, every entry is led to its own. -/
theorem mergePath_spec
    (hfind : ∀ k, (merged.lookup k).isSome → (findRootExpr merged (merged.length + 2) k).isSome) :
    ∃ compressed, mergePath merged = some compressed ∧ Rooted compressed ∧
      ∀ v : E → K, ReplacementsHold v merged → ReplacementsHold v compressed := by
  let rootOf : E → E := fun k => (findRootExpr merged (merged.length + 2) k).getD k
  have hrootOf : ∀ k, (merged.lookup k).isSome →
      findRootExpr merged (merged.length + 2) k = some (rootOf k) := by
    intro k hk
    obtain ⟨root, hroot⟩ := isSome_iff_exists.mp (hfind k hk)
    show _ = some ((findRootExpr merged (merged.length + 2) k).getD k)
    rw [hroot]
    rfl
  have hmap : ∀ l : List (E × Replacement E), (∀ entry ∈ l, entry ∈ merged) →
      (l.mapM fun entry => do
        let root ← findRootExpr merged (merged.length + 2) entry.1
        return (entry.1, ({ replaceExpr := root, rank := 1 } : Replacement E)))
        = some (l.map fun entry => (entry.1, { replaceExpr := rootOf entry.1, rank := 1 })) := by
    intro l hl
    induction l with
    | nil => rfl
    | cons entry l ih =>
      obtain ⟨hentry, hrest⟩ := forall_mem_cons.mp hl
      have hkey : (merged.lookup entry.1).isSome :=
        lookup_isSome_iff.mpr (List.mem_map_of_mem hentry)
      rw [mapM_cons, hrootOf entry.1 hkey, ih hrest]
      rfl
  have hlookup : ∀ k, (merged.map fun entry =>
      (entry.1, ({ replaceExpr := rootOf entry.1, rank := 1 } : Replacement E))).lookup k
      = (merged.lookup k).map fun _ => { replaceExpr := rootOf k, rank := 1 } := fun k =>
    lookup_map fun key _ => { replaceExpr := rootOf key, rank := 1 }
  refine ⟨_, hmap merged fun _ h => h, ?_, ?_⟩
  · intro k entry hk
    rw [hlookup] at hk
    obtain ⟨old, hold, rfl⟩ := map_eq_some_iff.mp hk
    obtain ⟨entry, hentry, hself⟩ :=
      findRootExpr_mem (hrootOf k (isSome_iff_exists.mpr ⟨old, hold⟩))
    refine ⟨{ replaceExpr := rootOf (rootOf k), rank := 1 }, ?_, ?_⟩
    · rw [hlookup, hentry]
      rfl
    · have hroot : findRootExpr merged (merged.length + 2) (rootOf k) = some (rootOf k) := by
        unfold findRootExpr
        simp only [hentry, if_pos hself]
      have := hrootOf (rootOf k) (isSome_iff_exists.mpr ⟨entry, hentry⟩)
      rw [hroot] at this
      exact (some.inj this).symm
  · intro v hr k entry hk
    rw [hlookup] at hk
    obtain ⟨old, hold, rfl⟩ := map_eq_some_iff.mp hk
    exact value_findRootExpr hr (hrootOf k (isSome_iff_exists.mpr ⟨old, hold⟩))

end Roots

/-! ## Simplification -/

section Simplify

variable (hp : eng.Preserves value holds) {env : ShapeEnvAttr E} {σ : Assignment}

include hp

theorem value_findReplacements (fuel : ℕ) (replacements : List (E × Replacement E)) (e : E)
    (hr : ReplacementsHold (value σ) replacements) :
    value σ (findReplacements eng fuel replacements e) = value σ e := by
  induction fuel generalizing replacements e with
  | zero => rfl
  | succ fuel ih =>
    unfold findReplacements
    split
    · rfl
    · rename_i entry hentry
      split
      · rfl
      · rw [hr e entry hentry]
        apply hp.value_replace
        intro var hvar
        obtain ⟨sym, -, rfl⟩ := List.mem_map.mp hvar
        have hrest : ReplacementsHold (value σ) (replacements.filter fun other => other.1 ≠ e) := by
          intro k other hk
          rw [lookup_filter_ne] at hk
          split at hk
          · exact nomatch hk
          · exact hr k other hk
        show value σ (findReplacements eng fuel _ (eng.symbol sym)) = σ sym
        rw [ih _ _ hrest, hp.value_of_symbol σ _ sym (hp.view_sym sym)]

section

variable (hr : ReplacementsHold (value σ) env.replacements)
include hr

theorem varReplacements_value (e : E) :
    ∀ var ∈ env.varReplacements eng e, value σ var.2 = σ var.1 := by
  intro var hvar
  obtain ⟨sym, -, hsym⟩ := mem_filterMap.mp hvar
  simp only at hsym
  split at hsym
  · obtain rfl := some.inj hsym
    show value σ (findReplacements eng _ _ (eng.symbol sym)) = σ sym
    rw [value_findReplacements hp _ _ _ hr, hp.value_of_symbol σ _ sym (hp.view_sym sym)]
  · exact nomatch hsym

theorem value_simplify (e : E) : value σ (env.simplify eng e) = value σ e := by
  unfold simplify
  simp only
  split
  · rw [hp.value_simplify, hp.value_expand,
      hp.value_replace σ _ e (varReplacements_value hp hr e)]
  · rw [hp.value_simplify, hp.value_expand]

theorem holds_simplify (e : E) : holds σ (env.simplify eng e) ↔ holds σ e := by
  unfold simplify
  simp only
  split
  · rw [hp.holds_simplify, hp.holds_expand,
      hp.holds_replace σ _ e (varReplacements_value hp hr e)]
  · rw [hp.holds_simplify, hp.holds_expand]

end

theorem isBoolean_simplify {e : E} (hbool : eng.isBoolean e = true) :
    eng.isBoolean (env.simplify eng e) = true := by
  unfold simplify
  simp only
  split
  · exact hp.isBoolean_simplify _ (hp.isBoolean_expand _ (hp.isBoolean_replace _ _ hbool))
  · exact hp.isBoolean_simplify _ (hp.isBoolean_expand _ hbool)

omit [DecidableEq E] in
omit [DecidableEq E] in
/-- A constant with a truth value has the same one everywhere. -/
theorem exists_constBool {e : E} (hbool : eng.isBoolean e = true) (hconst : eng.isConst e = true) :
    ∃ b, eng.constBool e = some b ∧ ∀ τ, holds τ e ↔ b = true := by
  unfold Engine.isBoolean at hbool
  unfold Engine.isConst at hconst
  unfold Engine.constBool
  cases hview : eng.view e with
  | boolean b => exact ⟨b, rfl, fun τ => hp.holds_of_boolean τ e b hview⟩
  | relation op a b => simp [hview] at hconst
  | logical => simp [hview] at hconst
  | _ => simp [hview] at hbool

omit hp [DecidableEq E] in
theorem view_of_constBool {e : E} {b : Bool} (h : eng.constBool e = some b) :
    eng.view e = .boolean b := by
  unfold Engine.constBool at h
  cases hview : eng.view e with
  | boolean c =>
    simp only [hview, some.injEq] at h
    rw [h]
  | _ => simp [hview] at h

end Simplify

/-! ## Guards -/

/-- All guards hold. -/
def GuardsHold (holds : E → Prop) (env : ShapeEnvAttr E) : Prop :=
  ∀ g, g ∈ env.symbolCheckInfos ∨ g ∈ env.symbolAssertInfos → holds g

/-- No guard is lost. -/
def Extends (env env' : ShapeEnvAttr E) : Prop :=
  env'.symbolToValue = env.symbolToValue ∧
    (∀ g ∈ env.symbolCheckInfos, g ∈ env'.symbolCheckInfos) ∧
      ∀ g ∈ env.symbolAssertInfos, g ∈ env'.symbolAssertInfos

omit [DecidableEq E] in
theorem Extends.refl (env : ShapeEnvAttr E) : Extends env env :=
  ⟨rfl, fun _ h => h, fun _ h => h⟩

omit [DecidableEq E] in
theorem Extends.trans {env env' env'' : ShapeEnvAttr E} (h : Extends env env')
    (h' : Extends env' env'') : Extends env env'' :=
  ⟨h'.1.trans h.1, fun g hg => h'.2.1 g (h.2.1 g hg), fun g hg => h'.2.2 g (h.2.2 g hg)⟩

omit [DecidableEq E] in
theorem Extends.guardsHold {env env' : ShapeEnvAttr E} (h : Extends env env') {P : E → Prop}
    (hg : GuardsHold P env') : GuardsHold P env := by
  intro g hmem
  rcases hmem with hmem | hmem
  · exact hg g (.inl (h.2.1 g hmem))
  · exact hg g (.inr (h.2.2 g hmem))

/-- What an environment claims: the hints satisfy the guards, and the replacements follow from
the guards for the assignments in question. -/
structure Sound (value : Assignment → E → K) (holds : Assignment → E → Prop)
    (S : Assignment → Prop) (hint : Assignment) (env : ShapeEnvAttr E) : Prop where
  guards : GuardsHold (holds hint) env
  replacements : ∀ σ, S σ → GuardsHold (holds σ) env →
    ReplacementsHold (value σ) env.replacements
  rooted : Rooted env.replacements
  hints : ∀ i val, env.symbolToValue.lookup i = some val → hint i = val

section Guards

variable (hp : eng.Preserves value holds) {S : Assignment → Prop} {hint : Assignment}
  {env env' : ShapeEnvAttr E}

omit [LinearOrder K] [Field K] in
theorem Sound.of_guards (h : Sound value holds S hint env) (hext : Extends env env')
    (hrep : env'.replacements = env.replacements)
    (hnew : ∀ g, g ∈ env'.symbolCheckInfos ∨ g ∈ env'.symbolAssertInfos →
      (g ∈ env.symbolCheckInfos ∨ g ∈ env.symbolAssertInfos) ∨ holds hint g) :
    Sound value holds S hint env' where
  guards := by
    intro g hg
    rcases hnew g hg with hold | hholds
    · exact h.guards g hold
    · exact hholds
  replacements := by
    intro σ hσ hg
    rw [hrep]
    exact h.replacements σ hσ (hext.guardsHold hg)
  rooted := hrep ▸ h.rooted
  hints := hext.1 ▸ h.hints

/-- The symbols of an expression are created. -/
def Created (eng : Engine E) (env : ShapeEnvAttr E) (e : E) : Prop :=
  ∀ i ∈ eng.freeSymbols e, (env.symbolToValue.lookup i).isSome

omit [DecidableEq E] in
theorem lookup_varToVal (e : E) (i : ℕ) : (env.varToVal eng e).lookup i
    = if i ∈ eng.freeSymbols e then env.symbolToValue.lookup i else none := by
  unfold varToVal
  induction eng.freeSymbols e with
  | nil => rfl
  | cons sym syms ih =>
    cases hsym : env.symbolToValue.lookup sym with
    | none =>
      rw [filterMap_cons_none (by rw [hsym]; rfl), ih]
      by_cases hi : i = sym
      · rw [hi, if_pos mem_cons_self, hsym, ite_self]
      · simp only [mem_cons, hi, false_or]
    | some val =>
      rw [filterMap_cons_some (by rw [hsym]; rfl), lookup_cons, ih]
      by_cases hi : i = sym
      · rw [beq_iff_eq.mpr hi, hi, if_pos mem_cons_self, hsym]
      · rw [beq_false_of_ne hi]
        simp only [mem_cons, hi, false_or]

include hp

variable [IsStrictOrderedRing K]

omit [DecidableEq E] [IsStrictOrderedRing K] in
/-- The hint of an expression is its truth under the hints. -/
theorem holds_of_computeHint
    (hhints : ∀ i val, env.symbolToValue.lookup i = some val → hint i = val) {e : E} {b : Bool}
    (hc : Created eng env e) (h : env.computeHint eng e = some b) : holds hint e ↔ b = true := by
  unfold computeHint at h
  split at h
  · exact hp.holds_of_boolean hint e b (view_of_constBool h)
  · have hsubs := hp.holds_of_boolean hint _ b (view_of_constBool h)
    unfold evaluateExpr at hsubs
    rw [hp.holds_subs] at hsubs
    rw [← hsubs]
    apply hp.holds_congr
    intro i hi
    obtain ⟨val, hval⟩ := isSome_iff_exists.mp (hc i hi)
    unfold Assignment.override
    rw [lookup_varToVal, if_pos hi, hval, hhints i val hval]
    rfl

/-- A check that is answered stores a guard for the answer, or the answer holds everywhere. -/
theorem expectSymbolBool_spec (hs : Sound value holds S hint env) (hhint : S hint) {e : E}
    (hbool : eng.isBoolean e = true) (hc : Created eng env e)
    (hdec : (env.computeHint eng e).isSome)
    (hsafe : ∀ b, env.computeHint eng e = some b → eng.isConst e = false →
      eng.isConst (env.guardOf eng b e) = false → ∀ σ, S σ →
        eng.CanonicalizesSafely (value σ) (env.guardOf eng b e)) :
    Sound value holds S hint (env.expectSymbolBool eng e).1 ∧
      Extends env (env.expectSymbolBool eng e).1 ∧
      ∀ σ, S σ → GuardsHold (holds σ) (env.expectSymbolBool eng e).1 →
        (holds σ e ↔ (env.expectSymbolBool eng e).2 = true) := by
  unfold expectSymbolBool
  rw [if_neg (by rw [hbool]; decide)]
  by_cases hconst : eng.isConst e = true
  · obtain ⟨b, hb, hall⟩ := exists_constBool hp hbool hconst
    rw [if_pos hconst, hb]
    exact ⟨hs, Extends.refl env, fun σ _ _ => hall σ⟩
  rw [if_neg hconst]
  have hconst : eng.isConst e = false := by simpa using hconst
  obtain ⟨b, hb⟩ := isSome_iff_exists.mp hdec
  have htruth := holds_of_computeHint hp hs.hints hc hb
  have hsimp : eng.isBoolean (env.simplify eng e) = true :=
    isBoolean_simplify hp hbool
  have hgbool : eng.isBoolean (env.guardOf eng b e) = true := by
    unfold guardOf
    split
    · exact hsimp
    · exact hp.isBoolean_not _ hsimp
  -- the guard says the answer wherever the replacements hold
  have hguard : ∀ σ, ReplacementsHold (value σ) env.replacements →
      (holds σ (env.guardOf eng b e) ↔ (holds σ e ↔ b = true)) := by
    intro σ hr
    unfold guardOf
    cases b with
    | true => simp [holds_simplify hp hr e]
    | false => simp [hp.holds_not σ _ hsimp, holds_simplify hp hr e]
  have hath : holds hint (env.guardOf eng b e) :=
    (hguard hint (hs.replacements hint hhint hs.guards)).mpr htruth
  rw [hb]
  simp only
  unfold appendSymbolCheckInfo
  rw [if_neg (by rw [hgbool]; decide)]
  by_cases hgconst : eng.isConst (env.guardOf eng b e) = true
  · obtain ⟨c, -, hall⟩ := exists_constBool hp hgbool hgconst
    rw [if_pos hgconst]
    refine ⟨hs, Extends.refl env, fun σ hσ hg => ?_⟩
    apply (hguard σ (hs.replacements σ hσ hg)).mp
    exact (hall σ).mpr ((hall hint).mp hath)
  rw [if_neg hgconst]
  have hgconst : eng.isConst (env.guardOf eng b e) = false := by simpa using hgconst
  have hcanon : ∀ σ, S σ → (holds σ (eng.canonicalizeBoolExpr (env.guardOf eng b e)) ↔
      holds σ (env.guardOf eng b e)) := fun σ hσ =>
    Engine.holds_canonicalizeBoolExpr hp (hsafe b hb hconst hgconst σ hσ)
  have hext : Extends env
      (env.insertCheckInfo (eng.canonicalizeBoolExpr (env.guardOf eng b e))) :=
    ⟨rfl, fun g hg => mem_insert_of_mem hg, fun g hg => hg⟩
  refine ⟨hs.of_guards hext rfl ?_, hext, fun σ hσ hg => ?_⟩
  · intro g hg
    rcases hg with hg | hg
    · rcases mem_insert_iff.mp hg with rfl | hg
      · exact .inr ((hcanon hint hhint).mpr hath)
      · exact .inl (.inl hg)
    · exact .inl (.inr hg)
  · apply (hguard σ (hs.replacements σ hσ (hext.guardsHold hg))).mp
    exact (hcanon σ hσ).mp (hg _ (.inl (mem_insert_self)))

/-- An assertion that succeeds stores a guard that says it, or it holds everywhere. -/
theorem assertSymbolBool_spec (hs : Sound value holds S hint env) (hhint : S hint) {e : E}
    (hc : Created eng env e)
    (hsafe : eng.isConst e = false → eng.isConst (env.simplify eng e) = false → ∀ σ, S σ →
      eng.CanonicalizesSafely (value σ) (env.simplify eng e)) :
    Sound value holds S hint (env.assertSymbolBool eng e).1 ∧
      Extends env (env.assertSymbolBool eng e).1 ∧
      ((env.assertSymbolBool eng e).2 = true →
        ∀ σ, S σ → GuardsHold (holds σ) (env.assertSymbolBool eng e).1 → holds σ e) := by
  unfold assertSymbolBool
  cases hbool : eng.isBoolean e with
  | false => exact ⟨hs, Extends.refl env, fun h => nomatch h⟩
  | true =>
    rw [if_neg (by decide)]
    by_cases hconst : eng.isConst e = true
    · obtain ⟨b, hb, hall⟩ := exists_constBool hp hbool hconst
      rw [if_pos hconst, hb]
      exact ⟨hs, Extends.refl env, fun h σ _ _ => (hall σ).mpr h⟩
    rw [if_neg hconst]
    have hconst : eng.isConst e = false := by simpa using hconst
    have hsimp : eng.isBoolean (env.simplify eng e) = true :=
      isBoolean_simplify hp hbool
    split
    · exact ⟨hs, Extends.refl env, fun h => nomatch h⟩
    · exact ⟨hs, Extends.refl env, fun h => nomatch h⟩
    · rename_i hb
      have htruth := holds_of_computeHint hp hs.hints hc hb
      have hath : holds hint (env.simplify eng e) :=
        (holds_simplify hp (hs.replacements hint hhint hs.guards) e).mpr (htruth.mpr rfl)
      unfold appendSymbolAssertInfo
      rw [if_neg (by rw [hsimp]; decide)]
      by_cases hgconst : eng.isConst (env.simplify eng e) = true
      · obtain ⟨c, -, hall⟩ := exists_constBool hp hsimp hgconst
        rw [if_pos hgconst]
        refine ⟨hs, Extends.refl env, fun _ σ hσ hg => ?_⟩
        apply (holds_simplify hp (hs.replacements σ hσ hg) e).mp
        exact (hall σ).mpr ((hall hint).mp hath)
      rw [if_neg hgconst]
      have hgconst : eng.isConst (env.simplify eng e) = false := by simpa using hgconst
      have hcanon : ∀ σ, S σ → (holds σ (eng.canonicalizeBoolExpr (env.simplify eng e)) ↔
          holds σ (env.simplify eng e)) := fun σ hσ =>
        Engine.holds_canonicalizeBoolExpr hp (hsafe hconst hgconst σ hσ)
      have hext : Extends env
          (env.insertAssertInfo (eng.canonicalizeBoolExpr (env.simplify eng e))) :=
        ⟨rfl, fun g hg => hg, fun g hg => mem_insert_of_mem hg⟩
      refine ⟨hs.of_guards hext rfl ?_, hext, fun _ σ hσ hg => ?_⟩
      · intro g hg
        rcases hg with hg | hg
        · exact .inl (.inl hg)
        · rcases mem_insert_iff.mp hg with rfl | hg
          · exact .inr ((hcanon hint hhint).mpr hath)
          · exact .inl (.inr hg)
      · apply (holds_simplify hp (hs.replacements σ hσ (hext.guardsHold hg)) e).mp
        exact (hcanon σ hσ).mp (hg _ (.inr (mem_insert_self)))

omit hp [IsStrictOrderedRing K] [LinearOrder K] [Field K] in
/-- The merge of two expressions gives a map that holds when they have the same value. -/
theorem mergedReplacements_spec (h : Rooted env.replacements) (args : E × E) :
    ∃ replacements, env.mergedReplacements eng args = some replacements ∧ Rooted replacements ∧
      ∀ σ, ReplacementsHold (value σ) env.replacements → value σ args.1 = value σ args.2 →
        ReplacementsHold (value σ) replacements := by
  have hinit := appendInitReplacement_rooted (appendInitReplacement_rooted h args.1) args.2
  have h1 : ((appendInitReplacement (appendInitReplacement env.replacements args.1)
      args.2).lookup args.1).isSome :=
    appendInitReplacement_mono _ _ (appendInitReplacement_lookup _)
  have h2 : ((appendInitReplacement (appendInitReplacement env.replacements args.1)
      args.2).lookup args.2).isSome := appendInitReplacement_lookup _
  obtain ⟨merged, father1, father2, hmerge, hroot1, hroot2, hlink⟩ :=
    @mergeReplacement_linked E _ eng _ hinit _ _ h1 h2
  have hfind : ∀ k, (merged.lookup k).isSome →
      (findRootExpr merged (merged.length + 2) k).isSome := by
    intro k hk
    obtain ⟨fuel, hfuel⟩ : ∃ fuel, merged.length + 2 = fuel + 3 := by
      have hne : merged ≠ [] := by
        intro hnil
        rw [hnil] at hk
        exact absurd hk (by simp)
      have := length_pos_iff.mpr hne
      exact ⟨merged.length - 1, by omega⟩
    rw [hfuel]
    rcases hlink with hlink | hlink
    · exact hlink.findRootExpr_isSome hinit (findRootExpr_mem hroot2) hk fuel
    · exact hlink.findRootExpr_isSome hinit (findRootExpr_mem hroot1) hk fuel
  obtain ⟨compressed, hpath, hrooted, hhold⟩ := mergePath_spec (K := K) hfind
  refine ⟨compressed, ?_, hrooted, fun σ hr heq => ?_⟩
  · unfold mergedReplacements
    simp only [hmerge]
    exact hpath
  · have hr := appendInitReplacement_hold (appendInitReplacement_hold hr args.1) args.2
    have hfathers : value σ father1 = value σ father2 := by
      rw [← value_findRootExpr hr hroot1, ← value_findRootExpr hr hroot2, heq]
    apply hhold
    rcases hlink with hlink | hlink
    · exact hlink.hold hr hfathers
    · exact hlink.hold hr hfathers.symm

/-- The expressions that are merged for an equality are equal when it holds. -/
theorem value_replacementArgs {σ : Assignment} {a b : E}
    (hsafe : eng.CanonicalizesSafely (value σ) (eng.relation .eq a b))
    (heq : value σ a = value σ b) :
    value σ (replacementArgs eng a b).1
      = value σ (replacementArgs eng a b).2 := by
  have hcanon := Engine.holds_canonicalizeBoolExpr hp hsafe
  rw [hp.holds_relation] at hcanon
  -- the canonical form of an equality is one, or a constant
  have hop : ∀ op lhs rhs, eng.view (eng.canonicalizeBoolExpr (eng.relation .eq a b))
      = .relation op lhs rhs → op = .eq := by
    intro op lhs rhs hview
    unfold Engine.canonicalizeBoolExpr at hview
    rcases hp.view_relation .eq a b with ⟨x, y, hrel⟩ | ⟨c, hrel⟩
    · simp only [hrel] at hview
      generalize (eng.trDivision _ _) = sides at hview
      rcases hp.view_relation .eq sides.1 sides.2 with ⟨u, w, hsides⟩ | ⟨c, hsides⟩
      · rw [hsides] at hview
        cases hview
        rfl
      · rw [hsides] at hview
        exact nomatch hview
    · simp only [hrel] at hview
      exact nomatch hview
  unfold replacementArgs
  split
  · rename_i op lhs rhs hview
    rw [hp.holds_of_relation σ _ op lhs rhs hview, hop op lhs rhs hview] at hcanon
    exact hcanon.mpr heq
  · exact heq

omit hp [IsStrictOrderedRing K] [Field K] [LinearOrder K] in
theorem mem_foldl_insert (infos new : List E) (g : E) :
    g ∈ new.foldl (fun infos e => infos.insert e) infos ↔ g ∈ infos ∨ g ∈ new := by
  induction new generalizing infos with
  | nil => simp
  | cons e new ih =>
    rw [foldl_cons, ih, mem_insert_iff, mem_cons, or_assoc, or_left_comm]

/-- An equality that follows from the guards can always be put into the replacement map. -/
theorem appendReplacement_spec (hs : Sound value holds S hint env) (hhint : S hint) {a b : E}
    (heq : ∀ σ, S σ → GuardsHold (holds σ) env → value σ a = value σ b)
    (hsafe : a ≠ b → ∀ σ, S σ → eng.CanonicalizesSafely (value σ) (eng.relation .eq a b))
    (hsimp : ∀ replacements,
      env.mergedReplacements eng (replacementArgs eng a b) = some replacements →
      ∀ g, g ∈ env.symbolCheckInfos ∨ g ∈ env.symbolAssertInfos → ∀ σ, S σ →
        eng.CanonicalizesSafely (value σ)
          (simplify eng { env with replacements := replacements } g)) :
    ∃ env', env.appendReplacement eng a b = some env' ∧ Sound value holds S hint env' ∧
      Extends env env' := by
  unfold appendReplacement
  by_cases hab : a = b
  · rw [if_pos hab]
    exact ⟨env, rfl, hs, Extends.refl env⟩
  rw [if_neg hab]
  simp only
  split
  · exact ⟨env, rfl, hs, Extends.refl env⟩
  · obtain ⟨replacements, hmerged, hrooted, hhold⟩ :=
      @mergedReplacements_spec _ _ eng K value env hs.rooted (replacementArgs eng a b)
    have hsimp := hsimp replacements hmerged
    rw [hmerged]
    refine ⟨_, rfl, ?_⟩
    have hext : Extends env
        (simplifySymbolCheckInfo eng { env with replacements := replacements }) :=
      ⟨rfl, fun g hg => (mem_foldl_insert _ _ g).mpr (.inl hg),
        fun g hg => (mem_foldl_insert _ _ g).mpr (.inl hg)⟩
    have hreps : ∀ σ, S σ → GuardsHold (holds σ) env →
        ReplacementsHold (value σ) replacements := by
      intro σ hσ hg
      exact hhold σ (hs.replacements σ hσ hg)
        (value_replacementArgs hp (hsafe hab σ hσ) (heq σ hσ hg))
    -- a simplified guard holds for the hints as the guard does
    have hnew : ∀ infos : List E,
        (∀ g ∈ infos, g ∈ env.symbolCheckInfos ∨ g ∈ env.symbolAssertInfos) →
        ∀ g ∈ simplifiedInfos eng { env with replacements := replacements } infos,
          holds hint g := by
      intro infos hinfos g hg
      obtain ⟨info, hinfo, rfl⟩ := List.mem_map.mp (mem_of_mem_filter hg)
      rw [Engine.holds_canonicalizeBoolExpr hp (hsimp info (hinfos info hinfo) hint hhint),
        holds_simplify hp (hreps hint hhint hs.guards)]
      exact hs.guards info (hinfos info hinfo)
    refine ⟨⟨?_, ?_, hrooted, hs.hints⟩, hext⟩
    · intro g hg
      rcases hg with hg | hg
      · rcases (mem_foldl_insert _ _ g).mp hg with hg | hg
        · exact hs.guards g (.inl hg)
        · exact hnew _ (fun g hg => .inl hg) g hg
      · rcases (mem_foldl_insert _ _ g).mp hg with hg | hg
        · exact hs.guards g (.inr hg)
        · exact hnew _ (fun g hg => .inr hg) g hg
    · intro σ hσ hg
      exact hreps σ hσ (hext.guardsHold hg)

/-- A static check that is answered is right wherever the guards hold. -/
theorem staticCheckBool_spec (hs : Sound value holds S hint env) {e : E}
    (hbool : eng.isBoolean e = true)
    (hsafe : eng.isConst e = false → ∀ σ, S σ →
      eng.CanonicalizesSafely (value σ) e ∧
      eng.CanonicalizesSafely (value σ) (eng.canonicalizeBoolExpr e) ∧
      eng.CanonicalizesSafely (value σ) (env.simplify eng e) ∧
      eng.CanonicalizesSafely (value σ) (eng.canonicalizeBoolExpr (env.simplify eng e)))
    {σ : Assignment} (hσ : S σ) (hg : GuardsHold (holds σ) env) :
    (env.staticCheckBool eng e = .true → holds σ e) ∧
      (env.staticCheckBool eng e = .false → ¬ holds σ e) := by
  -- an expression whose canonical form is a guard holds
  have hinfo : ∀ g, eng.CanonicalizesSafely (value σ) g →
      eng.CanonicalizesSafely (value σ) (eng.canonicalizeBoolExpr g) →
      (env.hasSymbolInfo eng g = .true → holds σ g) ∧ env.hasSymbolInfo eng g ≠ .false := by
    intro g hsafe1 hsafe2
    unfold hasSymbolInfo
    simp only
    split
    · rename_i hmem
      refine ⟨fun _ => ?_, fun h => nomatch h⟩
      rw [← Engine.holds_canonicalizeBoolExpr hp hsafe1, ← Engine.holds_canonicalizeBoolExpr hp hsafe2]
      rcases Bool.or_eq_true_iff.mp hmem with hmem | hmem
      · exact hg _ (.inl (of_decide_eq_true hmem))
      · exact hg _ (.inr (of_decide_eq_true hmem))
    · exact ⟨fun h => (nomatch h), fun h => (nomatch h)⟩
  have hconstant : ∀ g, eng.isBoolean g = true → eng.isConst g = true →
      ∃ b, eng.constBool g = some b ∧
        (((if b then TriBool.true else TriBool.false) = .true → holds σ g) ∧
          ((if b then TriBool.true else TriBool.false) = .false → ¬ holds σ g)) := by
    intro g hgbool hgconst
    obtain ⟨b, hb, hall⟩ := exists_constBool hp hgbool hgconst
    refine ⟨b, hb, ?_⟩
    cases b with
    | true => exact ⟨fun _ => (hall σ).mpr rfl, fun h => nomatch h⟩
    | false => exact ⟨fun h => (nomatch h), fun _ h => nomatch (hall σ).mp h⟩
  unfold staticCheckBool
  rw [if_neg (by rw [hbool]; decide)]
  by_cases hconst : eng.isConst e = true
  · obtain ⟨b, hb, hanswer⟩ := hconstant e hbool hconst
    rw [if_pos hconst, hb]
    exact hanswer
  rw [if_neg hconst]
  obtain ⟨hsafe1, hsafe2, hsafe3, hsafe4⟩ := hsafe (by simpa using hconst) σ hσ
  have hsimp := holds_simplify hp (hs.replacements σ hσ hg) e
  by_cases hfound : env.hasSymbolInfo eng e = .true
  · rw [if_pos hfound]
    exact ⟨fun _ => (hinfo e hsafe1 hsafe2).1 hfound, fun h => nomatch h⟩
  rw [if_neg hfound]
  simp only
  by_cases hsconst : eng.isConst (env.simplify eng e) = true
  · obtain ⟨b, hb, hanswer⟩ :=
      hconstant _ (isBoolean_simplify hp hbool) hsconst
    rw [if_pos hsconst, hb]
    exact ⟨fun h => hsimp.mp (hanswer.1 h), fun h hholds => hanswer.2 h (hsimp.mpr hholds)⟩
  · rw [if_neg hsconst]
    obtain ⟨htrue, hfalse⟩ := hinfo _ hsafe3 hsafe4
    exact ⟨fun h => hsimp.mp (htrue h), fun h => absurd h hfalse⟩

end Guards

end GraphAutofusion.Symbolizer
