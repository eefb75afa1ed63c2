import GraphAutofusion.Symbolizer.Canonicalize

/-!
# Symbolizer.ShapeEnv — the shape environment

Symbols are created with a hint. A check is answered by the hints and stores a guard that says
the answer; an equality is stored as a replacement as well, in a union-find over expressions.
Guards are simplified by the replacements and brought into canonical form.
-/

namespace GraphAutofusion.Symbolizer

/-- `has_replace` marks the entries that `FindReplacements` is in; there they are taken out of the
map instead. -/
structure Replacement (E : Type) where
  replaceExpr : E
  rank : ℤ
deriving DecidableEq

/-- Dynamic mode. The sets are ordered by their expressions, the places of the checks in the code
are left out. -/
structure ShapeEnvAttr (E : Type) where
  specializeZeroOne : Bool := false
  uniqueSymId : ℕ := 0
  symbolToValue : List (ℕ × ℤ) := []
  replacements : List (E × Replacement E) := []
  symbolCheckInfos : List E := []
  symbolAssertInfos : List E := []

inductive TriBool where
  | false
  | true
  | unknown
deriving DecidableEq, Repr

variable {E : Type} [DecidableEq E] (eng : Engine E)

/-! ## Replacements -/

/-- The roots of the union-find are constants before expressions before variables. -/
def Replacement.le (self other : Replacement E) : Bool :=
  if eng.isConst self.replaceExpr then
    if eng.isConst other.replaceExpr then self.rank ≤ other.rank else false
  else if eng.isVariable self.replaceExpr then
    if eng.isVariable other.replaceExpr then self.rank ≤ other.rank else true
  else if eng.isConst other.replaceExpr then true
  else if eng.isVariable other.replaceExpr then false
  else self.rank ≤ other.rank

/-- Each call takes an entry out of the map: the number of entries is enough fuel. -/
def findReplacements : ℕ → List (E × Replacement E) → E → E
  | 0, _, e => e
  | fuel + 1, replacements, e =>
    match replacements.lookup e with
    | none => e
    | some entry =>
      if entry.replaceExpr = e then e
      else
        eng.replace ((eng.freeSymbols entry.replaceExpr).map fun sym =>
          (sym, findReplacements fuel (replacements.filter fun other => other.1 ≠ e)
            (eng.symbol sym))) entry.replaceExpr

/-- `FindRootExpr` follows the entries to one that stands for itself. -/
def findRootExpr (replacements : List (E × Replacement E)) : ℕ → E → Option E
  | 0, _ => none
  | fuel + 1, e =>
    match replacements.lookup e with
    | none => none
    | some entry =>
      if entry.replaceExpr = e then some e else findRootExpr replacements fuel entry.replaceExpr

variable (replacements : List (E × Replacement E))

def updateReplacement (key : E) (f : Replacement E → Replacement E) : List (E × Replacement E) :=
  replacements.map fun entry => if entry.1 = key then (entry.1, f entry.2) else entry

def appendInitReplacement (e : E) : List (E × Replacement E) :=
  if (replacements.lookup e).isNone then replacements ++ [(e, { replaceExpr := e, rank := 1 })]
  else replacements

def mergeReplacement (e1 e2 : E) :
    Option (List (E × Replacement E)) := do
  let father1 ← findRootExpr replacements (replacements.length + 2) e1
  let father2 ← findRootExpr replacements (replacements.length + 2) e2
  let entry1 ← replacements.lookup father1
  let entry2 ← replacements.lookup father2
  if Replacement.le eng entry1 entry2 then
    let linked := updateReplacement replacements father1 fun r => { r with replaceExpr := father2 }
    return if entry2.rank ≤ entry1.rank then
      updateReplacement linked father2 fun r => { r with rank := entry1.rank + 1 } else linked
  else
    let linked := updateReplacement replacements father2 fun r => { r with replaceExpr := father1 }
    return if entry1.rank ≤ entry2.rank then
      updateReplacement linked father1 fun r => { r with rank := entry2.rank + 1 } else linked

/-- Every entry is led to its root. The roots are the same while the entries are written. -/
def mergePath : Option (List (E × Replacement E)) :=
  replacements.mapM fun entry => do
    let root ← findRootExpr replacements (replacements.length + 2) entry.1
    return (entry.1, { replaceExpr := root, rank := 1 })

namespace ShapeEnvAttr

variable (env : ShapeEnvAttr E)

/-! ## Simplification -/

variable (e : E)

/-- The symbols of an expression that have a replacement. -/
def varReplacements : List (ℕ × E) :=
  (eng.freeSymbols e).filterMap fun sym =>
    let replaceExpr :=
      findReplacements eng env.replacements.length env.replacements (eng.symbol sym)
    if !eng.isVariable replaceExpr || replaceExpr ≠ eng.symbol sym then some (sym, replaceExpr)
    else none

def simplify : E :=
  let vars := env.varReplacements eng e
  if vars ≠ [] then eng.simplify (eng.expand (eng.replace vars e))
  else eng.simplify (eng.expand e)

/-- The hints of the symbols of an expression. -/
def varToVal : List (ℕ × ℤ) :=
  (eng.freeSymbols e).filterMap fun sym => (env.symbolToValue.lookup sym).map fun val => (sym, val)

def evaluateExpr : E := eng.subs (env.varToVal eng e) e

/-- `GetHint` of a truth value. -/
def computeHint : Option Bool :=
  if eng.isConst e then eng.constBool e else eng.constBool (env.evaluateExpr eng e)

/-! ## Guards -/

def hasSymbolCheckInfo : Bool := eng.canonicalizeBoolExpr e ∈ env.symbolCheckInfos

def hasSymbolAssertInfo : Bool := eng.canonicalizeBoolExpr e ∈ env.symbolAssertInfos

def hasSymbolInfo : TriBool :=
  let e := eng.canonicalizeBoolExpr e
  if env.hasSymbolCheckInfo eng e || env.hasSymbolAssertInfo eng e then .true else .unknown

def insertCheckInfo : ShapeEnvAttr E :=
  { env with symbolCheckInfos := env.symbolCheckInfos.insert e }

def insertAssertInfo : ShapeEnvAttr E :=
  { env with symbolAssertInfos := env.symbolAssertInfos.insert e }

def appendSymbolCheckInfo : Option (ShapeEnvAttr E) :=
  if !eng.isBoolean e then none
  else if eng.isConst e then some env
  else some (env.insertCheckInfo (eng.canonicalizeBoolExpr e))

def appendSymbolAssertInfo : Option (ShapeEnvAttr E) :=
  if !eng.isBoolean e then none
  else if eng.isConst e then some env
  else some (env.insertAssertInfo (eng.canonicalizeBoolExpr e))

/-- The guards in simplified form. -/
def simplifiedInfos (infos : List E) : List E :=
  (infos.map fun info => eng.canonicalizeBoolExpr (env.simplify eng info)).filter fun e =>
    !eng.isConst e

/-- The simplified guards are put in, none is taken out. -/
def simplifySymbolCheckInfo : ShapeEnvAttr E :=
  { env with
    symbolCheckInfos := (env.simplifiedInfos eng env.symbolCheckInfos).foldl
      (fun infos e => infos.insert e) env.symbolCheckInfos
    symbolAssertInfos := (env.simplifiedInfos eng env.symbolAssertInfos).foldl
      (fun infos e => infos.insert e) env.symbolAssertInfos }

/-! ## Equalities -/

def containVar (self e : E) : Bool := (eng.freeSymbols self).any fun sym => eng.symbol sym = e

/-- The root of an expression, if it has one. -/
def rootOrSelf : Option E :=
  if (env.replacements.lookup e).isNone then some e
  else findRootExpr env.replacements (env.replacements.length + 2) e

def checkReplacementCycle (e1 e2 : E) : Bool :=
  match env.rootOrSelf e1, env.rootOrSelf e2 with
  | some root1, some root2 =>
    if eng.isVariable root2 then
      containVar eng root1 root2 || containVar eng (env.simplify eng root1) root2
    else if eng.isVariable root1 then
      containVar eng root2 root1 || containVar eng (env.simplify eng root2) root1
    else false
  | _, _ => false

/-- The two expressions that are merged for an equality. -/
def replacementArgs (target replacement : E) : E × E :=
  match eng.view (eng.canonicalizeBoolExpr (eng.relation .eq target replacement)) with
  | .relation _ lhs rhs => (lhs, rhs)
  | _ => (target, replacement)

/-- Only symbols are replaced. -/
def supportsReplacement (args : E × E) : Bool :=
  if eng.isConst args.1 then eng.isVariable args.2
  else if !eng.isVariable args.1 then eng.isVariable args.2
  else true

/-- The replacement map after an equality. -/
def mergedReplacements (args : E × E) : Option (List (E × Replacement E)) := do
  let init := appendInitReplacement (appendInitReplacement env.replacements args.1) args.2
  let merged ← mergeReplacement eng init args.1 args.2
  mergePath merged

/-- Equalities that the map does not support are passed over. -/
def appendReplacement (target replacement : E) : Option (ShapeEnvAttr E) :=
  if target = replacement then some env
  else
    let args := replacementArgs eng target replacement
    if !supportsReplacement eng args || env.checkReplacementCycle eng args.1 args.2 then some env
    else do
      let replacements ← env.mergedReplacements eng args
      return simplifySymbolCheckInfo eng { env with replacements := replacements }

/-! ## Checks -/

/-- `static_cast<int64_t>` of the hint is done. -/
def createSymbol (hint : ℤ) : ShapeEnvAttr E × E :=
  if env.specializeZeroOne && (hint = 0 || hint = 1) then (env, eng.integer hint)
  else ({ env with
    uniqueSymId := env.uniqueSymId + 1
    symbolToValue := env.symbolToValue ++ [(env.uniqueSymId, hint)] }, eng.symbol env.uniqueSymId)

/-- The guard for an answer. `Not` of an expression without a truth value is invalid. -/
def guardOf (hint : Bool) (e : E) : E :=
  if hint then env.simplify eng e else eng.not (env.simplify eng e)

/-- A failed assertion answers with `false`. -/
def expectSymbolBool : ShapeEnvAttr E × Bool :=
  if !eng.isBoolean e then (env, false)
  else if eng.isConst e then (env, (eng.constBool e).getD false)
  else
    match env.computeHint eng e with
    | none => (env, false)
    | some hint =>
      match env.appendSymbolCheckInfo eng (env.guardOf eng hint e) with
      | none => (env, false)
      | some env' => (env', hint)

def expectSymbolEq (e0 e1 : E) : ShapeEnvAttr E × Bool :=
  let (env', res) := env.expectSymbolBool eng (eng.relation .eq e0 e1)
  if res then
    match env'.appendReplacement eng e0 e1 with
    | none => (env', false)
    | some env'' => (env'', res)
  else (env', res)

def expectSymbolNe (e0 e1 : E) : ShapeEnvAttr E × Bool :=
  let (env', res) := env.expectSymbolBool eng (eng.relation .ne e0 e1)
  if !res then
    match env'.appendReplacement eng e0 e1 with
    | none => (env', false)
    | some env'' => (env'', res)
  else (env', res)

def assertSymbolBool : ShapeEnvAttr E × Bool :=
  if !eng.isBoolean e then (env, false)
  else if eng.isConst e then (env, (eng.constBool e).getD false)
  else
    match env.computeHint eng e with
    | none | some false => (env, false)
    | some true =>
      match env.appendSymbolAssertInfo eng (env.simplify eng e) with
      | none => (env, false)
      | some env' => (env', true)

def assertSymbolEq (e0 e1 : E) : ShapeEnvAttr E × Bool :=
  let (env', res) := env.assertSymbolBool eng (eng.relation .eq e0 e1)
  if res then
    match env'.appendReplacement eng e0 e1 with
    | none => (env', false)
    | some env'' => (env'', true)
  else (env', false)

/-- A failed assertion converts to the first value, which is `kFalse`. -/
def staticCheckBool : TriBool :=
  if !eng.isBoolean e then .false
  else if eng.isConst e then
    match eng.constBool e with
    | some b => if b then .true else .false
    | none => .false
  else if env.hasSymbolInfo eng e = .true then .true
  else
    let simplified := env.simplify eng e
    if eng.isConst simplified then
      match eng.constBool simplified with
      | some b => if b then .true else .false
      | none => .false
    else env.hasSymbolInfo eng simplified

/-- `StaticCheckEq` and its siblings; greater-than is less-than with the sides exchanged. -/
def staticCheck (op : RelOp) (e1 e2 : E) : TriBool :=
  env.staticCheckBool eng (eng.relation op (env.simplify eng e1) (env.simplify eng e2))

end ShapeEnvAttr

end GraphAutofusion.Symbolizer
