import GraphAutofusion.Autofuse.LoopAxesMerge

/-!
# AscIr.Views — splitting, merging and reordering the view of a tensor

A view lists the axes of a tensor with their repeats and strides. The merge of a group of axes is
`mergeTensor` of `LoopAxes`.
-/

namespace GraphAutofusion.AscIr.Views

open Autofuse.VectorAxis (AxisId)
open Autofuse.LoopAxes

/-- The symbolic engine with what a split needs. A quotient has the value of an exact division, and an
expression that is found to be one has the value one. -/
structure SplitSymbols (ε σ : Type) extends Symbols ε σ where
  div : ε → ε → ε
  ceiling : ε → ε
  symbol : String → ε
  isOne : ε → Bool
  eval_div : ∀ a b v q, eval b v ≠ 0 → eval a v = q * eval b v → eval (div a b) v = q
  eval_of_isOne : ∀ a v, isOne a = true → eval a v = 1

variable {ε σ : Type} (E : SplitSymbols ε σ)

/-- A unit dimension keeps its stride in the inner half. -/
def splitDim (splitSize : ε) (outterId innerId originalId : AxisId) (d : Dim ε) : List (Dim ε) :=
  if d.axis = originalId then
    if E.isOne d.repeats then
      [⟨outterId, E.kSymbolOne, E.kSymbolZero⟩, ⟨innerId, E.kSymbolOne, d.stride⟩]
    else
      [⟨outterId, E.div d.repeats splitSize, E.mul d.stride splitSize⟩, ⟨innerId, splitSize, d.stride⟩]
  else [d]

/-- A failed check returns an empty view. -/
def splitView (splitSize : ε) (outterId innerId originalId : AxisId) (t : Tensor ε) : Tensor ε :=
  if t.Valid then .ofDims (t.dims.flatMap (splitDim E splitSize outterId innerId originalId))
  else ⟨[], [], []⟩

/-- `DoApplyTensorAxisSplit` stops at the first output whose split view is empty. -/
def splitOutputs (splitSize : ε) (outterId innerId originalId : AxisId) :
    List (Tensor ε) → Bool × List (Tensor ε)
  | [] => (true, [])
  | t :: outputs =>
    let result := splitView E splitSize outterId innerId originalId t
    if result.axis.isEmpty then (false, t :: outputs)
    else
      let rest := splitOutputs splitSize outterId innerId originalId outputs
      (rest.1, result :: rest.2)

/-- One output of `DoApplyTensorAxisReorder`. -/
def reorderTensor (reorderedAxis : List AxisId) (t : Tensor ε) : Tensor ε :=
  .ofDims (reorderedAxis.filterMap fun axisId => t.dims.find? fun d => decide (d.axis = axisId))

/-- The dimensions of a view make it up. -/
theorem ofDims_dims {t : Tensor ε} (h : t.Valid) : Tensor.ofDims t.dims = t := by
  have hlen : t.axis.length = (t.repeats.zip t.strides).length := by
    rw [List.length_zip, ← h.2, Nat.min_self]
    exact h.1
  have hzip : (t.axis.zip (t.repeats.zip t.strides)).map Prod.snd = t.repeats.zip t.strides :=
    List.map_snd_zip hlen.ge
  have hrepeats : t.dims.map Dim.repeats = t.repeats := by
    rw [Tensor.dims, List.map_map]
    show (t.axis.zip (t.repeats.zip t.strides)).map (Prod.fst ∘ Prod.snd) = t.repeats
    rw [← List.map_map, hzip, List.map_fst_zip h.2.le]
  have hstrides : t.dims.map Dim.stride = t.strides := by
    rw [Tensor.dims, List.map_map]
    show (t.axis.zip (t.repeats.zip t.strides)).map (Prod.snd ∘ Prod.snd) = t.strides
    rw [← List.map_map, hzip, List.map_snd_zip h.2.ge]
  rw [Tensor.ofDims, h.axis, hrepeats, hstrides]

/-- Expressions without symbols. -/
def constants : SplitSymbols ℤ Unit where
  toSymbolicUtils := Autofuse.VectorAxis.constants
  kSymbolOne := 1
  eval_one _ := rfl
  div a b := a / b
  ceiling a := a
  symbol _ := 1
  isOne a := a == 1
  eval_div a b v q hb hab := by
    have heq : a = q * b := hab
    rw [heq]
    exact Int.mul_ediv_cancel q hb
  eval_of_isOne a v h := eq_of_beq h

end GraphAutofusion.AscIr.Views
