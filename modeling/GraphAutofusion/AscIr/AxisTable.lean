import GraphAutofusion.AscIr.Views

/-!
# AscIr.AxisTable — the axes of a graph and the schedules of its nodes

The graph has a table of axes, to which creating, splitting and merging add. A node has a list of schedule
axes and its output tensors, to which splits, merges and reorders are applied one by one.
-/

namespace GraphAutofusion.AscIr.AxisTable

open Autofuse.VectorAxis (AxisId)
open Autofuse.LoopAxes (AxisType Tensor mergeSched mergeTensor)
open Views

structure Axis (ε : Type) where
  id : AxisId
  name : String
  type : AxisType
  size : ε
  fromIds : List AxisId
  splitPairOtherId : AxisId
deriving DecidableEq, Repr

structure Node (ε : Type) where
  sched : List AxisId
  outputs : List (Tensor ε)
deriving DecidableEq, Repr

structure Graph (ι ε : Type) where
  axis : List (Axis ε)
  nodes : ι → Node ε

variable {ι ε σ : Type} [DecidableEq ι] (E : SplitSymbols ε σ)

/-! ## The table -/

variable (axis : List (Axis ε))

def createAxis (name : String) (type : AxisType) (size : ε)
    (fromIds : List AxisId) (splitPeer : AxisId) : List (Axis ε) :=
  axis ++ [⟨axis.length, name, type, size, fromIds, splitPeer⟩]

/-- The checks of the other calls. -/
def axisAt (axisId : AxisId) : Option (Axis ε) :=
  if 0 ≤ axisId then axis[axisId.toNat]? else none

/-- The inner `none` is the null pointer; the outer one is an access out of range. -/
def findAxis (axisId : AxisId) : Option (Option (Axis ε)) :=
  if axisId < 0 ∨ (axis.length : AxisId) < axisId then some none
  else axis[axisId.toNat]?.map some

def doSplit (axisId : AxisId) (outerAxisName innerAxisName : String)
    (isTileSplit : Bool) : Option (List (Axis ε)) :=
  match axisAt axis axisId with
  | none => none
  | some singleAxis =>
    let innerSuffix := if isTileSplit then "t" else "b"
    let outerSuffix := if isTileSplit then "T" else "B"
    let innerName := if innerAxisName.isEmpty then singleAxis.name ++ innerSuffix else innerAxisName
    let outerName := if outerAxisName.isEmpty then singleAxis.name ++ outerSuffix else outerAxisName
    let sizes := if E.isOne singleAxis.size then (E.kSymbolOne, E.kSymbolOne)
      else
        let innerSize := E.symbol (innerName ++ "_size")
        (E.ceiling (E.div singleAxis.size innerSize), innerSize)
    let outterId : AxisId := axis.length
    let innerId := outterId + 1
    let axis := createAxis axis outerName (if isTileSplit then .tileOuter else .blockOuter) sizes.1
      [axisId] innerId
    some (createAxis axis innerName (if isTileSplit then .tileInner else .blockInner) sizes.2
      [axisId] outterId)

def mergeAxis (axisIds : List AxisId) (mergeAxisName : String) : Option (List (Axis ε)) :=
  match axisIds.mapM (axisAt axis) with
  | none => none
  | some fromAxis =>
    let name := if mergeAxisName.isEmpty then fromAxis.foldl (fun name a => name ++ a.name) ""
      else mergeAxisName
    let size := fromAxis.foldl (fun size a => E.mul size a.size) E.kSymbolOne
    some (createAxis axis name .merged size axisIds 0)

/-! ## The nodes

A call returns whether it succeeded and the node it leaves behind. -/

def splitSched (outterId innerId originalId : AxisId) (sched : List AxisId) : List AxisId :=
  sched.flatMap fun nodeAxisId => if nodeAxisId = originalId then [outterId, innerId] else [nodeAxisId]

/-- The schedule is changed before an output can fail. -/
def doApplySplit (splitSize : ε) (outterId innerId originalId : AxisId) (n : Node ε) : Bool × Node ε :=
  let sched := splitSched outterId innerId originalId n.sched
  let outputs := splitOutputs E splitSize outterId innerId originalId n.outputs
  (outputs.1, ⟨sched, outputs.2⟩)

def IsSplitType (outAxis inAxis : Axis ε) : Prop :=
  (outAxis.type = .blockOuter ∧ inAxis.type = .blockInner) ∨
    (outAxis.type = .tileOuter ∧ inAxis.type = .tileInner)

instance (outAxis inAxis : Axis ε) : Decidable (IsSplitType outAxis inAxis) :=
  inferInstanceAs (Decidable (_ ∨ _))

/-- The checks of `ApplySplit`: the axis that was split, and the size of the inner axis. -/
def splitOf (outterId innerId : AxisId) : Option (AxisId × ε) :=
  match axisAt axis outterId, axisAt axis innerId with
  | some outAxis, some inAxis =>
    if IsSplitType outAxis inAxis then
      match outAxis.fromIds, inAxis.fromIds with
      | [originalId], [originalId'] => if originalId = originalId' then some (originalId, inAxis.size) else none
      | _, _ => none
    else none
  | _, _ => none

def applySplit (outterId innerId : AxisId) (n : Node ε) : Bool × Node ε :=
  match splitOf axis outterId innerId with
  | none => (false, n)
  | some (originalId, splitSize) => doApplySplit E splitSize outterId innerId originalId n

variable (mergedAxisId : AxisId)

/-- The checks of `ApplyMerge` and `ApplySchedAxisMerge`. -/
def mergeOf : Option (List AxisId) :=
  match axisAt axis mergedAxisId with
  | none => none
  | some a => if a.type = .merged ∧ 2 ≤ a.fromIds.length then some a.fromIds else none

def doApplySchedAxisMerge (original : List AxisId) (n : Node ε) : Bool × Node ε :=
  match mergeSched mergedAxisId original n.sched with
  | none => (false, n)
  | some sched => (true, { n with sched := sched })

def doApplyMerge (original : List AxisId) (n : Node ε) : Bool × Node ε :=
  match doApplySchedAxisMerge mergedAxisId original n with
  | (false, n) => (false, n)
  | (true, n) => (true, { n with outputs := n.outputs.map (mergeTensor E.toSymbols mergedAxisId original) })

def applyMerge (n : Node ε) : Bool × Node ε :=
  match mergeOf axis mergedAxisId with
  | none => (false, n)
  | some original => doApplyMerge E mergedAxisId original n

/-- `none` for the overload that takes the list from the merged axis. -/
def applySchedAxisMerge (original : Option (List AxisId)) (n : Node ε) : Bool × Node ε :=
  match original with
  | some original => doApplySchedAxisMerge mergedAxisId original n
  | none =>
    match mergeOf axis mergedAxisId with
    | none => (false, n)
    | some original => doApplySchedAxisMerge mergedAxisId original n

variable (reorderedAxis : List AxisId)

def doApplySchedAxisReorder (n : Node ε) : Bool × Node ε :=
  if reorderedAxis.all n.sched.contains then (true, { n with sched := reorderedAxis }) else (false, n)

def doApplyTensorAxisReorder (n : Node ε) : Bool × Node ε :=
  if reorderedAxis.all n.sched.contains then
    (true, { n with outputs := n.outputs.map (reorderTensor reorderedAxis) })
  else (false, n)

def applyReorder (n : Node ε) : Bool × Node ε :=
  match doApplySchedAxisReorder reorderedAxis n with
  | (false, n) => (false, n)
  | (true, n) => doApplyTensorAxisReorder reorderedAxis n

def applySchedAxisReorder (n : Node ε) : Bool × Node ε :=
  if n.sched.length = reorderedAxis.length then doApplySchedAxisReorder reorderedAxis n else (false, n)

/-! ## Runs -/

inductive TableCall (ε : Type)
  | createAxis (name : String) (type : AxisType) (size : ε) (fromIds : List AxisId) (splitPeer : AxisId)
  | blockSplit (axisId : AxisId) (outerAxisName innerAxisName : String)
  | tileSplit (axisId : AxisId) (outerAxisName innerAxisName : String)
  | mergeAxis (axisIds : List AxisId) (mergeAxisName : String)

inductive NodeCall
  | applySplit (outterId innerId : AxisId)
  | applyMerge (mergedAxisId : AxisId)
  | applySchedAxisMerge (mergedAxisId : AxisId) (original : Option (List AxisId))
  | applyReorder (reorderedAxis : List AxisId)
  | applySchedAxisReorder (reorderedAxis : List AxisId)

/-- A failed call leaves the table. -/
def TableCall.run : TableCall ε → List (Axis ε)
  | .createAxis name type size fromIds splitPeer => AxisTable.createAxis axis name type size fromIds splitPeer
  | .blockSplit axisId outerName innerName => (doSplit E axis axisId outerName innerName false).getD axis
  | .tileSplit axisId outerName innerName => (doSplit E axis axisId outerName innerName true).getD axis
  | .mergeAxis axisIds name => (AxisTable.mergeAxis E axis axisIds name).getD axis

def NodeCall.run (n : Node ε) : NodeCall → Bool × Node ε
  | .applySplit outterId innerId => AxisTable.applySplit E axis outterId innerId n
  | .applyMerge mergedAxisId => AxisTable.applyMerge E axis mergedAxisId n
  | .applySchedAxisMerge mergedAxisId original =>
    AxisTable.applySchedAxisMerge axis mergedAxisId original n
  | .applyReorder reorderedAxis => AxisTable.applyReorder reorderedAxis n
  | .applySchedAxisReorder reorderedAxis => AxisTable.applySchedAxisReorder reorderedAxis n

inductive Call (ι ε : Type)
  | table (call : TableCall ε)
  | node (i : ι) (call : NodeCall)

def Call.run (g : Graph ι ε) : Call ι ε → Graph ι ε
  | .table call => { g with axis := call.run E g.axis }
  | .node i call => { g with nodes := Function.update g.nodes i (call.run E g.axis (g.nodes i)).2 }

def runCalls (g : Graph ι ε) (calls : List (Call ι ε)) : Graph ι ε := calls.foldl (Call.run E) g

/-- A property of all calls on nodes in a run. -/
def AtNodeCalls (P : List (Axis ε) → Node ε → NodeCall → Prop) (g : Graph ι ε) : List (Call ι ε) → Prop
  | [] => True
  | call :: calls =>
    (∀ i nodeCall, call = .node i nodeCall → P g.axis (g.nodes i) nodeCall) ∧
      AtNodeCalls P (call.run E g) calls

/-! ## What the calls are to do -/

/-- Every axis is at the place of its id. -/
def WellNumbered : Prop := ∀ (i : ℕ) (a : Axis ε), axis[i]? = some a → a.id = i

/-- `FindAxis` returns the axis of a valid id and the null pointer for any other. -/
def FindsAxis (axisId : AxisId) : Prop :=
  findAxis axis axisId = some (axisAt axis axisId)

/-- The two axes of one split. -/
def IsSplitPair (outterId innerId originalId : AxisId) : Prop :=
  ∃ outAxis inAxis, axisAt axis outterId = some outAxis ∧ axisAt axis innerId = some inAxis ∧
    outAxis.fromIds = [originalId] ∧ inAxis.fromIds = [originalId] ∧
    outAxis.splitPairOtherId = innerId ∧ inAxis.splitPairOtherId = outterId

/-- The axis was merged from the listed ones. -/
def IsMergeOf (original : List AxisId) : Prop :=
  ∃ a, axisAt axis mergedAxisId = some a ∧ a.type = .merged ∧ a.fromIds.Perm original

/-- All listed axes replaced by one at the place of the first. -/
def replaceAtFirst (original sched : List AxisId) : List AxisId :=
  sched.takeWhile (fun a => !original.contains a) ++ mergedAxisId ::
    (sched.dropWhile fun a => !original.contains a).filter fun a => !original.contains a

def SplitResult (outterId innerId originalId : AxisId) (sched sched' : List AxisId) : Prop :=
  sched'.Nodup ∧ sched' = splitSched outterId innerId originalId sched ∧
    (originalId ∈ sched → IsSplitPair axis outterId innerId originalId)

def MergeResult (original sched sched' : List AxisId) : Prop :=
  sched'.Nodup ∧ (((∀ a ∈ original, a ∉ sched) ∧ sched' = sched) ∨
    ((∀ a ∈ original, a ∈ sched) ∧ sched' = replaceAtFirst mergedAxisId original sched ∧
      IsMergeOf axis mergedAxisId original))

def NodeCall.Result (sched sched' : List AxisId) : NodeCall → Prop
  | .applySplit outterId innerId => ∀ original, splitOf axis outterId innerId = some original →
      SplitResult axis outterId innerId original.1 sched sched'
  | .applyMerge mergedAxisId => ∀ original, mergeOf axis mergedAxisId = some original →
      MergeResult axis mergedAxisId original sched sched'
  | .applySchedAxisMerge mergedAxisId explicit =>
      ∀ original, explicit.or (mergeOf axis mergedAxisId) = some original →
        MergeResult axis mergedAxisId original sched sched'
  | .applyReorder _ => sched'.Perm sched
  | .applySchedAxisReorder _ => sched'.Perm sched

/-- A call that fails leaves the node, and one that succeeds keeps the iteration space of a schedule
without repetitions. -/
def Serves (n : Node ε) (call : NodeCall) : Prop :=
  ((call.run E axis n).1 = false → (call.run E axis n).2 = n) ∧
    ((call.run E axis n).1 = true → n.sched.Nodup → call.Result axis n.sched (call.run E axis n).2.sched)

/-! ### Where they do -/

/-- A view that can be split. -/
def Splittable (t : Tensor ε) : Prop := t.Valid ∧ t.axis ≠ []

instance (t : Tensor ε) : Decidable (Splittable t) := inferInstanceAs (Decidable (_ ∧ _))

/-- The new axes are the two of one split, and not in the schedule already. Where an output cannot be split,
neither the schedule nor an output before it has the axis. -/
def SplitMeets (n : Node ε) (outterId innerId originalId : AxisId) : Prop :=
  ((∀ t ∈ n.outputs, Splittable t) → n.sched.Nodup → originalId ∈ n.sched →
      (∀ a ∈ n.sched, a ≠ originalId → a ≠ outterId ∧ a ≠ innerId) ∧
        IsSplitPair axis outterId innerId originalId) ∧
    ((∃ t ∈ n.outputs, ¬ Splittable t) → originalId ∉ n.sched ∧
      ∀ t ∈ n.outputs.takeWhile fun t => decide (Splittable t), originalId ∉ t.axis)

/-- The new axis is the merge of the listed ones, and not in the schedule already. -/
def MergeMeets (sched : List AxisId) (mergedAxisId : AxisId) (original : List AxisId) : Prop :=
  sched.Nodup → original.Nodup → original ≠ [] → (∀ a ∈ original, a ∈ sched) →
    (mergedAxisId ∈ sched → mergedAxisId ∈ original) ∧ IsMergeOf axis mergedAxisId original

/-- A list of schedule axes is an order of all of them. -/
def ReorderMeets (sched reorderedAxis : List AxisId) : Prop :=
  sched.Nodup → (∀ a ∈ reorderedAxis, a ∈ sched) → reorderedAxis.Perm sched

def Meets (n : Node ε) : NodeCall → Prop
  | .applySplit outterId innerId => ∀ original, splitOf axis outterId innerId = some original →
      SplitMeets axis n outterId innerId original.1
  | .applyMerge mergedAxisId => ∀ original, mergeOf axis mergedAxisId = some original →
      MergeMeets axis n.sched mergedAxisId original
  | .applySchedAxisMerge mergedAxisId explicit =>
      ∀ original, explicit.or (mergeOf axis mergedAxisId) = some original →
        MergeMeets axis n.sched mergedAxisId original
  | .applyReorder reorderedAxis => ReorderMeets n.sched reorderedAxis
  | .applySchedAxisReorder reorderedAxis =>
    n.sched.length = reorderedAxis.length → ReorderMeets n.sched reorderedAxis

end GraphAutofusion.AscIr.AxisTable
