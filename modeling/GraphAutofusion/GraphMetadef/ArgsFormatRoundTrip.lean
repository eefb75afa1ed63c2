import GraphAutofusion.GraphMetadef.ArgsFormatText

/-!
# GraphMetadef.ArgsFormatRoundTrip — formats come back

A format is read back argument by argument, since no text of an argument holds a closing brace. So
a list comes back with its wildcards expanded exactly when each of its arguments does. The index of
the tail kind is written and not read, the wildcard of an event address is read as another index,
and a description needs an index.
-/

namespace GraphAutofusion.GraphMetadef

open Lib List

/-! ## The texts of arguments hold no closing brace -/

/-- A text that can stand between braces and behind the id of a sub operator. -/
def Enclosed (text : Text) : Prop :=
  '\x7d' ∉ text ∧ ∀ c, text.head? = some c → c.isDigit = false ∧ c ≠ 's'

/-- A text of its own that others are put behind. -/
def opens : Text → Bool
  | [] => false
  | c :: text => !c.isDigit && c ≠ 's' && !(c :: text).contains '\x7d'

section Enclosed

variable {pattern rest : Text} {d : ArgDesc}

section

variable (h : opens pattern = true)
include h

theorem enclosed_of_opens : Enclosed pattern := by
  cases pattern with
  | nil => exact nomatch h
  | cons c text =>
    simp only [opens, Bool.and_eq_true, Bool.not_eq_true', decide_eq_true_eq] at h
    refine ⟨fun hmem => ?_, fun c' hc' => ?_⟩
    · rw [contains_iff_mem.mpr hmem] at h
      exact nomatch h.2
    · obtain rfl : c = c' := Option.some.inj hc'
      exact h.1

theorem enclosed_append (hrest : '\x7d' ∉ rest) : Enclosed (pattern ++ rest) := by
  have hown := enclosed_of_opens h
  refine ⟨not_mem_append hown.1 hrest, fun c hc => hown.2 c ?_⟩
  cases pattern with
  | nil => exact nomatch h
  | cons c' text => exact hc

omit h in
theorem enclosed_nil : Enclosed [] := ⟨not_mem_nil, fun _ hc => nomatch hc⟩

omit h in
theorem brace_notMem_decimalInt_append (z : ℤ) (h : '\x7d' ∉ rest) :
    '\x7d' ∉ decimalInt z ++ rest :=
  not_mem_append (fun hmem => ne_brace_of_mem_decimalInt hmem rfl) h

theorem arrayLikeSerializer_enclosed : Enclosed (arrayLikeSerializer pattern d) := by
  unfold arrayLikeSerializer
  split
  · refine enclosed_append h (brace_notMem_decimalInt_append d.irIdx ?_)
    split <;> decide
  · exact enclosed_append h (by decide)

theorem fftsTilingSerializer_enclosed : Enclosed (fftsTilingSerializer pattern d) := by
  unfold fftsTilingSerializer
  split <;> exact enclosed_append h (by decide)

theorem eventAddrSerializer_enclosed : Enclosed (eventAddrSerializer pattern d) :=
  enclosed_append h (brace_notMem_decimalInt_append d.irIdx (by decide))

theorem hiddenInputSerializer_enclosed : Enclosed (hiddenInputSerializer pattern d) := by
  have hrest := brace_notMem_decimalInt_append d.irIdx (show '\x7d' ∉ textStar by decide)
  unfold hiddenInputSerializer
  split
  · exact enclosed_append h (not_mem_append (by decide) hrest)
  · split
    · exact enclosed_append h (not_mem_append (by decide) hrest)
    · exact enclosed_nil

theorem tilingContextSerializer_enclosed : Enclosed (tilingContextSerializer pattern d) := by
  unfold tilingContextSerializer
  split
  · exact enclosed_append h (by decide)
  · split
    · exact enclosed_append h (by decide)
    · split
      · exact enclosed_append h (by decide)
      · exact enclosed_of_opens h

theorem customValueSerializer_enclosed : Enclosed (customValueSerializer pattern d) := by
  have hnum : '\x7d' ∉ decimal d.reserved.toNat := fun hmem => ne_brace_of_mem_decimal hmem rfl
  unfold customValueSerializer
  split
  · exact enclosed_append h (not_mem_append (by decide) hnum)
  · exact enclosed_append h hnum

end

theorem placeholderSerializer_enclosed : Enclosed (placeholderSerializer [] d) := by
  unfold placeholderSerializer
  split
  · exact enclosed_of_opens (by decide)
  · exact enclosed_nil

theorem skSerialize_enclosed (d : ArgDesc) : Enclosed (skSerialize d) := by
  obtain ⟨type, irIdx, folded, reserved, subAddrType, subIdx⟩ := d
  cases type with
  | INPUT | OUTPUT | WORKSPACE | INPUT_DESC | OUTPUT_DESC | INPUT_INSTANCE | OUTPUT_INSTANCE =>
    exact arrayLikeSerializer_enclosed (by decide)
  | TILING | FFTS_ADDR | OVERFLOW_ADDR | OP_TYPE => exact enclosed_of_opens rfl
  | TILING_FFTS => exact fftsTilingSerializer_enclosed (by decide)
  | HIDDEN_INPUT => exact hiddenInputSerializer_enclosed (by decide)
  | TILING_CONTEXT => exact tilingContextSerializer_enclosed (by decide)
  | PLACEHOLDER => exact placeholderSerializer_enclosed
  | CUSTOM_VALUE => exact customValueSerializer_enclosed (by decide)
  | SUPER_KERNEL_SUB_NODE => exact enclosed_nil
  | EVENT_ADDR => exact eventAddrSerializer_enclosed (by decide)

theorem brace_notMem_argText (d : ArgDesc) : '\x7d' ∉ argText d := by
  unfold argText
  split
  · exact not_mem_append (by decide)
      (brace_notMem_decimalInt_append _ (skSerialize_enclosed _).1)
  · exact (skSerialize_enclosed d).1

end Enclosed

/-! ## Lists of arguments -/

section Lists

variable {op : KernelOp} {d : ArgDesc} {ds l : List ArgDesc} {text rest : Text}

/-- The arguments one after the other. -/
def readArgs (op : KernelOp) : List ArgDesc → Bool × List ArgDesc
  | [] => (true, [])
  | d :: ds =>
    match singleParser op (argText d) with
    | none => (false, [])
    | some read =>
      let rest := readArgs op ds
      (rest.1, read ++ rest.2)

theorem parseFrom_inside (h : '\x7d' ∉ text) (pattern : Text) :
    parseFrom op (some pattern) (text ++ '\x7d' :: rest)
      = parseFrom op (some (pattern ++ text)) ('\x7d' :: rest) := by
  induction text generalizing pattern with
  | nil => rw [nil_append, append_nil]
  | cons c text ih =>
    rw [mem_cons, not_or] at h
    rw [cons_append, parseFrom, if_neg (Ne.symm h.1), ih h.2, append_assoc,
      singleton_append]

theorem parse_serialize (op : KernelOp) (ds : List ArgDesc) :
    parse op (serialize ds) = readArgs op ds := by
  induction ds with
  | nil => rfl
  | cons d ds ih =>
    have htext : serialize (d :: ds) = '\x7b' :: (argText d ++ '\x7d' :: serialize ds) := by
      simp [serialize]
    have hrest : parseFrom op none (serialize ds) = readArgs op ds := ih
    have hstep : parse op (serialize (d :: ds))
        = parseFrom op (some (argText d)) ('\x7d' :: serialize ds) := by
      rw [parse, htext, parseFrom, if_pos rfl, parseFrom_inside (brace_notMem_argText d),
        nil_append]
    rw [hstep, parseFrom, if_pos rfl, readArgs]
    cases singleParser op (argText d) with
    | none => rfl
    | some read =>
      show ((parseFrom op none (serialize ds)).1, read ++ (parseFrom op none (serialize ds)).2) = _
      rw [hrest]

/-- A list comes back as `f` says when each argument does; conversely too, where the lengths tell
which part belongs to which argument. -/
theorem readArgs_eq_iff {f : ArgDesc → List ArgDesc}
    (hlen : ∀ d ∈ l, ∀ read, singleParser op (argText d) = some read → read.length = (f d).length) :
    readArgs op l = (true, l.flatMap f) ↔ ∀ d ∈ l, singleParser op (argText d) = some (f d) := by
  induction l with
  | nil => simp [readArgs]
  | cons d l ih =>
    have hih := ih fun e he => hlen e (mem_cons_of_mem _ he)
    rw [readArgs, forall_mem_cons, ← hih]
    cases hread : singleParser op (argText d) with
    | none => simp
    | some read =>
      rw [flatMap_cons, Option.some.injEq, Prod.mk.injEq]
      constructor
      · rintro ⟨hok, happ⟩
        obtain ⟨hhead, htail⟩ := append_inj happ (hlen d mem_cons_self read hread)
        exact ⟨hhead, Prod.ext hok htail⟩
      · rintro ⟨rfl, htail⟩
        rw [htail]
        exact ⟨rfl, rfl⟩

theorem getArgsSize_append (l l' : List ArgDesc) :
    getArgsSize op (l ++ l')
      = (getArgsSize op l).bind fun a => (getArgsSize op l').map fun b => a + b := by
  induction l with
  | nil => simp [getArgsSize]
  | cons d l ih =>
    rw [cons_append, getArgsSize, getArgsSize, ih]
    cases argSize op d with
    | none => rfl
    | some size =>
      cases getArgsSize op l with
      | none => rfl
      | some a =>
        cases getArgsSize op l' with
        | none => rfl
        | some b => simp [add_assoc]

theorem getArgsSize_flatMap {f : ArgDesc → List ArgDesc}
    (h : ∀ d ∈ l, getArgsSize op (f d) = argSize op d) :
    getArgsSize op (l.flatMap f) = getArgsSize op l := by
  induction l with
  | nil => rfl
  | cons d l ih =>
    rw [flatMap_cons, getArgsSize_append, h d mem_cons_self,
      ih fun e he => h e (mem_cons_of_mem _ he), getArgsSize]

end Lists

/-! ## Arguments that come back -/

/-- A wildcard stands for all inputs, outputs or instances. -/
def expand (op : OpDesc) (d : ArgDesc) : List ArgDesc :=
  if d.irIdx ≠ kAmbiguousIrIdx then [d]
  else
    match d.addrType with
    | .INPUT => allIos .INPUT op.irInputs
    | .OUTPUT => allIos .OUTPUT op.irOutputs
    | .INPUT_INSTANCE => allInstances .INPUT_INSTANCE op.inputsSize
    | .OUTPUT_INSTANCE => allInstances .OUTPUT_INSTANCE op.outputsSize
    | _ => [d]

/-- The wildcard, or an index of the operator that is folded only if it is dynamic. -/
def IrKept (irs : List (Text × IrType)) (d : ArgDesc) : Prop :=
  d.irIdx < 0 ∨ ∃ ir, irs[d.irIdx.toNat]? = some ir ∧ (d.folded = true → ir.2 = .dynamic)

/-- When an argument comes back: the index is one that its text tells. -/
def PlainKept (op : OpDesc) (d : ArgDesc) : Prop :=
  match d.addrType with
  | .INPUT => IrKept op.irInputs d
  | .OUTPUT => IrKept op.irOutputs d
  | .INPUT_INSTANCE => d.irIdx < 0 ∨ (d.irIdx < op.inputsSize ∧ d.folded = false)
  | .OUTPUT_INSTANCE => d.irIdx < 0 ∨ (d.irIdx < op.outputsSize ∧ d.folded = false)
  | .INPUT_DESC | .OUTPUT_DESC => 0 ≤ d.irIdx
  | .WORKSPACE | .HIDDEN_INPUT => d.folded = false
  | .EVENT_ADDR => 0 ≤ d.irIdx ∧ d.folded = false
  | .TILING_CONTEXT => d.irIdx ≤ 2 ∧ d.folded = false
  | .PLACEHOLDER | .CUSTOM_VALUE => d.irIdx < 0 ∧ d.folded = false
  | .TILING | .FFTS_ADDR | .OVERFLOW_ADDR | .TILING_FFTS | .OP_TYPE =>
    d.irIdx = -1 ∧ d.folded = false
  | .SUPER_KERNEL_SUB_NODE => False

section Plain

variable {op : OpDesc} {irs : List (Text × IrType)} {type : AddrType} {irIdx : ℤ} {folded : Bool}
  {d : ArgDesc}

theorem expand_of_nonneg (h : 0 ≤ d.irIdx) : expand op d = [d] := by
  have hne : d.irIdx ≠ kAmbiguousIrIdx := by
    unfold kAmbiguousIrIdx
    omega
  rw [expand, if_pos hne]

theorem ioReadBack_eq_some_iff (h : 0 ≤ irIdx) :
    ioReadBack irs (plainArg type irIdx folded) = some [plainArg type irIdx folded]
      ↔ IrKept irs (plainArg type irIdx folded) := by
  have hneg : ¬ irIdx < 0 := not_lt.mpr h
  simp only [ioReadBack, IrKept, hneg, if_false, false_or, Option.map_eq_some_iff]
  refine exists_congr fun ir => and_congr_right fun _ => ?_
  cases folded <;> simp

theorem ioReadBack_length {ds : List ArgDesc} (h : 0 ≤ irIdx)
    (hread : ioReadBack irs (plainArg type irIdx folded) = some ds) : ds.length = 1 := by
  have hneg : ¬ irIdx < 0 := not_lt.mpr h
  simp only [ioReadBack, hneg, if_false, Option.map_eq_some_iff] at hread
  obtain ⟨ir, -, rfl⟩ := hread
  rfl

theorem instanceReadBack_eq_some_iff {validSize : ℕ} (h : 0 ≤ irIdx) :
    instanceReadBack validSize (plainArg type irIdx folded) = some [plainArg type irIdx folded]
      ↔ irIdx < 0 ∨ (irIdx < validSize ∧ folded = false) := by
  have hneg : ¬ irIdx < 0 := not_lt.mpr h
  simp only [instanceReadBack, hneg, if_false, false_or]
  by_cases hlt : irIdx < validSize
  · simp [hlt, eq_comm]
  · simp [hlt]

theorem instanceReadBack_length {validSize : ℕ} {ds : List ArgDesc} (h : 0 ≤ irIdx)
    (hread : instanceReadBack validSize (plainArg type irIdx folded) = some ds) : ds.length = 1 := by
  have hneg : ¬ irIdx < 0 := not_lt.mpr h
  simp only [instanceReadBack, hneg, if_false] at hread
  split at hread
  · rw [← Option.some.inj hread]
    rfl
  · simp at hread

/-- A plain argument as the builder functions leave it. -/
def PlainForm (d : ArgDesc) : Prop :=
  d = plainArg d.addrType d.irIdx d.folded ∧ (d.addrType = .HIDDEN_INPUT → d.irIdx = 0) ∧
    -2 ≤ d.irIdx ∧ (d.irIdx = -2 → d.addrType = .PLACEHOLDER) ∧ (d.irIdx < 0 → d.folded = false)

theorem Appended.plainForm (h : Appended d) :
    PlainForm d ∨ ∃ value width, d = appendCustomValue value width := by
  cases h with
  | append type irIdx folded hidx hwild =>
    refine .inl ⟨rfl, fun ht => if_pos ht, ?_, ?_, ?_⟩
    · simp only [appendArg]
      split <;> omega
    · simp only [appendArg]
      split <;> omega
    · simp only [appendArg]
      intro hneg
      split at hneg
      · omega
      · exact hwild (by omega)
  | tilingContext subType =>
    left
    cases subType <;> simp [PlainForm, appendTilingContext, TilingContextSubType.toInt]
  | placeholder width =>
    left
    cases width <;> simp [PlainForm, appendPlaceholder, ArgsFormatWidth.toInt]
  | customValue value width => exact .inr ⟨value, width, rfl⟩

theorem skParse_plainForm (h : PlainForm d) (htype : d.addrType ≠ .SUPER_KERNEL_SUB_NODE) :
    skParse op (skSerialize d) = readBack op d := by
  obtain ⟨hd, hhidden, -⟩ := h
  have happ : d = appendArg d.addrType d.irIdx d.folded := by
    have hidx : (if d.addrType = .HIDDEN_INPUT then 0 else d.irIdx) = d.irIdx := by
      split
      · next ht => exact (hhidden ht).symm
      · rfl
    rw [appendArg, hidx]
    exact hd
  rw [happ]
  exact skParse_append d.addrType htype d.irIdx d.folded

/-- The argument comes back exactly when it is kept, and anyway as many arguments do. -/
theorem readBack_plainForm (h : PlainForm d) (htype : d.addrType ≠ .SUPER_KERNEL_SUB_NODE) :
    (readBack op d = some (expand op d) ↔ PlainKept op d) ∧
      ∀ ds, readBack op d = some ds → ds.length = (expand op d).length := by
  obtain ⟨type, irIdx, folded, reserved, subAddrType, subIdx⟩ := d
  obtain ⟨hd, hhidden, hmin, htwo, hwild⟩ := h
  simp only [plainArg, ArgDesc.mk.injEq, true_and] at hd hhidden hmin htwo hwild
  obtain ⟨rfl, rfl, rfl⟩ := hd
  rcases Int.lt_or_le irIdx 0 with hneg | hpos
  · -- the wildcard, or a width
    obtain rfl : folded = false := hwild hneg
    rcases (show irIdx = -1 ∨ irIdx = -2 by omega) with rfl | rfl
    · cases type <;>
        simp_all [readBack, expand, PlainKept, ioReadBack, instanceReadBack, IrKept, kAmbiguousIrIdx,
          widthReadBack]
    · obtain rfl := htwo rfl
      simp [readBack, expand, PlainKept, kAmbiguousIrIdx, widthReadBack]
  rw [expand_of_nonneg hpos]
  have hnotneg : ¬ irIdx < 0 := not_lt.mpr hpos
  cases type with
  | INPUT | OUTPUT => exact ⟨ioReadBack_eq_some_iff hpos, fun ds => ioReadBack_length hpos⟩
  | INPUT_INSTANCE | OUTPUT_INSTANCE =>
    exact ⟨instanceReadBack_eq_some_iff hpos, fun ds => instanceReadBack_length hpos⟩
  | SUPER_KERNEL_SUB_NODE => exact absurd rfl htype
  | INPUT_DESC | OUTPUT_DESC => simp [readBack, PlainKept, hnotneg, hpos]
  | WORKSPACE => simp [readBack, PlainKept, hnotneg, eq_comm]
  | EVENT_ADDR =>
    have habs : (irIdx.natAbs : ℤ) = irIdx := Int.natAbs_of_nonneg hpos
    simp [readBack, PlainKept, hpos, habs, eq_comm]
  | HIDDEN_INPUT => simp [readBack, PlainKept, hhidden rfl, eq_comm]
  | TILING_CONTEXT =>
    by_cases hle : irIdx ≤ 2
    · simp [readBack, PlainKept, hpos, hle, eq_comm]
    · have hne : (-1 : ℤ) ≠ irIdx := by omega
      simp [readBack, PlainKept, hle, hne]
  | PLACEHOLDER | CUSTOM_VALUE =>
    have hne : widthReadBack irIdx ≠ irIdx := by
      unfold widthReadBack
      split <;> omega
    simp [readBack, PlainKept, hnotneg, hne]
  | _ =>
    have hne : (-1 : ℤ) ≠ irIdx := by omega
    simp [readBack, PlainKept, hne, Ne.symm hne]

end Plain

/-! ## Sizes -/

section Sizes

variable {op : KernelOp} {d : ArgDesc}

theorem getArgsSize_map {β : Type*} (xs : List β) (f : β → ArgDesc) (size : β → ℕ)
    (h : ∀ x ∈ xs, argSize op (f x) = some (size x)) :
    getArgsSize op (xs.map f) = some ((xs.map size).sum) := by
  induction xs with
  | nil => rfl
  | cons x xs ih =>
    rw [map_cons, getArgsSize, h x mem_cons_self,
      ih fun y hy => h y (mem_cons_of_mem _ hy), map_cons, sum_cons]
    rfl

/-- The sizes of all inputs or outputs add up to the size of their wildcard. -/
theorem ioCalcSize_all (type : AddrType) {irs : OpDesc → List (Text × IrType)}
    {names : OpDesc → List (Text × ℕ)}
    (hsize : ∀ d, d.addrType = type → argSize op d = ioCalcSize irs names op.opDesc d) :
    getArgsSize op (allIos type (irs op.opDesc))
      = ioCalcSize irs names op.opDesc (plainArg type (-1) false) := by
  have hone : ∀ ir ∈ (irs op.opDesc).zipIdx,
      argSize op (plainArg type ir.2 (ir.1.2 = .dynamic))
        = some (irCount (names op.opDesc) ir.1 true * sizeofUintptr) := by
    intro ir hir
    have hget : (irs op.opDesc)[ir.2]? = some ir.1 := mem_zipIdx_iff_getElem?.mp hir
    have hcount : irCount (names op.opDesc) ir.1 (ir.1.2 = .dynamic)
        = irCount (names op.opDesc) ir.1 true := by
      unfold irCount
      split
      · next hdyn => simp [hdyn]
      · rfl
    rw [hsize _ rfl, ioCalcSize, if_pos (Int.natCast_nonneg _), Int.toNat_natCast, hget,
      Option.map_some, hcount]
  have hfst : (irs op.opDesc).zipIdx.map (fun ir => irCount (names op.opDesc) ir.1 true * sizeofUintptr)
      = ((irs op.opDesc).map fun ir => irCount (names op.opDesc) ir true * sizeofUintptr) := by
    have hzip := zipIdx_map_fst 0 (irs op.opDesc)
    conv_rhs => rw [← hzip]
    rw [map_map]
    rfl
  have hsum : ∀ l : List (Text × IrType),
      (l.map fun ir => irCount (names op.opDesc) ir true * sizeofUintptr).sum
        = (l.map fun ir => irCount (names op.opDesc) ir true).sum * sizeofUintptr := by
    intro l
    induction l with
    | nil => simp
    | cons ir l ih => rw [map_cons, sum_cons, ih, map_cons, sum_cons, add_mul]
  rw [allIos, getArgsSize_map _ _ _ hone, hfst, hsum]
  rfl

theorem instanceCalcSize_all (type : AddrType) {validSize : OpDesc → ℕ}
    (hsize : ∀ d, d.addrType = type → argSize op d = instanceCalcSize validSize op.opDesc d) :
    getArgsSize op (allInstances type (validSize op.opDesc))
      = instanceCalcSize validSize op.opDesc (plainArg type (-1) false) := by
  have hone : ∀ i ∈ range (validSize op.opDesc),
      argSize op (plainArg type (i : ℕ) false) = some sizeofUintptr := by
    intro i _
    rw [hsize _ rfl, instanceCalcSize, if_neg (by simp)]
    rfl
  rw [allInstances, getArgsSize_map _ _ _ hone, map_const', length_range,
    sum_replicate]
  simp [instanceCalcSize]

theorem getArgsSize_singleton : getArgsSize op [d] = argSize op d := by
  rw [getArgsSize, getArgsSize]
  cases argSize op d with
  | none => rfl
  | some size => rfl

theorem getArgsSize_expand (h : PlainForm d) : getArgsSize op (expand op.opDesc d) = argSize op d := by
  unfold expand
  split
  · exact getArgsSize_singleton
  · next hwild =>
    have hidx : d.irIdx = -1 := by
      by_contra hne
      exact hwild hne
    have hd : d = plainArg d.addrType (-1) false := by
      have hfolded := h.2.2.2.2 (by omega)
      have hform := h.1
      rwa [hidx, hfolded] at hform
    split
    · next ht =>
      rw [hd, ht]
      exact ioCalcSize_all .INPUT fun d hd => by rw [argSize, if_neg (by simp [hd]), skGetArgsSize, hd]; rfl
    · next ht =>
      rw [hd, ht]
      exact ioCalcSize_all .OUTPUT fun d hd => by rw [argSize, if_neg (by simp [hd]), skGetArgsSize, hd]; rfl
    · next ht =>
      rw [hd, ht]
      exact instanceCalcSize_all .INPUT_INSTANCE fun d hd => by
        rw [argSize, if_neg (by simp [hd]), skGetArgsSize, hd]; rfl
    · next ht =>
      rw [hd, ht]
      exact instanceCalcSize_all .OUTPUT_INSTANCE fun d hd => by
        rw [argSize, if_neg (by simp [hd]), skGetArgsSize, hd]; rfl
    · exact getArgsSize_singleton

end Sizes

/-! ## Sub operators -/

section SubOperators

variable {op : KernelOp} {node : OpDesc} {d e : ArgDesc} {n : ℕ}

/-- An argument of a super kernel names the operator; what follows the id is the argument's own text. -/
theorem sknParser_eq (op : KernelOp) (n : ℕ) (d : ArgDesc) :
    sknParser op (textSkn ++ (decimal n ++ skSerialize d))
      = match findSkSubNode op n with
        | none => none
        | some node =>
          match skParse node (skSerialize d) with
          | some [read] => (convertArgDescNormal2Sk read n).map fun sk => [sk]
          | _ => none := by
  have hhead : ∀ c, (skSerialize d).head? = some c → c.isDigit = false := fun c hc =>
    ((skSerialize_enclosed d).2 c hc).1
  have hdrop : (decimal n ++ skSerialize d).dropWhile Char.isDigit = skSerialize d := by
    rw [dropWhile_append_of_pos fun c hc => isDigit_of_mem_decimal hc]
    cases htext : skSerialize d with
    | nil => rfl
    | cons c text => exact dropWhile_cons_of_neg (by simp [hhead c (by rw [htext]; rfl)])
  unfold sknParser
  rw [drop_left]
  dsimp only
  rw [scanNat_decimal hhead]
  generalize (decimal n ++ skSerialize d).dropWhile Char.isDigit = text at hdrop ⊢
  subst hdrop
  rfl

theorem singleParser_skn (n : ℕ) (d : ArgDesc) :
    singleParser op (textSkn ++ (decimal n ++ skSerialize d))
      = sknParser op (textSkn ++ (decimal n ++ skSerialize d)) := by
  rw [singleParser, if_pos (List.isPrefixOf_iff_prefix.mpr (prefix_append _ _))]

theorem singleParser_plain (htype : d.addrType ≠ .SUPER_KERNEL_SUB_NODE) :
    singleParser op (argText d) = skParse op.opDesc (skSerialize d) := by
  rw [argText, if_neg htype, singleParser, if_neg]
  intro hpre
  obtain ⟨rest, hrest⟩ := List.isPrefixOf_iff_prefix.mp hpre
  have hhead : (skSerialize d).head? = some 's' := by
    rw [← hrest]
    rfl
  exact ((skSerialize_enclosed d).2 's' hhead).2 rfl

theorem convertArgDescSk2Normal_normal2Sk (h : PlainForm d) (hhidden : d.addrType = .HIDDEN_INPUT → d.folded = false)
    (hcustom : d.addrType ≠ .CUSTOM_VALUE) (z : ℤ) :
    ∃ sk, convertArgDescNormal2Sk d z = some sk ∧ sk.addrType = .SUPER_KERNEL_SUB_NODE ∧
      convertArgDescSk2Normal sk = (d, z) := by
  have hd := h.1
  unfold convertArgDescNormal2Sk
  rw [if_neg hcustom]
  by_cases ht : d.addrType = .HIDDEN_INPUT
  · rw [if_pos ht]
    refine ⟨_, rfl, rfl, ?_⟩
    rw [hd]
    simp only [convertArgDescSk2Normal, ht, hhidden ht, ArgDesc.hiddenType]
    rfl
  · rw [if_neg ht]
    refine ⟨_, rfl, rfl, ?_⟩
    conv_rhs => rw [hd]
    simp [convertArgDescSk2Normal, ht]

/-- The argument of a sub operator, written for the super kernel and read on it. -/
theorem singleParser_normal2Sk {sk : ArgDesc} (hnode : findSkSubNode op n = some node)
    (hsk : convertArgDescNormal2Sk d n = some sk) (htype : sk.addrType = .SUPER_KERNEL_SUB_NODE)
    (hback : convertArgDescSk2Normal sk = (d, (n : ℤ)))
    (hparse : skParse node (skSerialize d) = some [d]) :
    singleParser op (argText sk) = some [sk] := by
  have htext : argText sk = textSkn ++ (decimal n ++ skSerialize d) := by
    rw [argText, if_pos htype, sknSerializer, hback, decimalInt_natCast]
  rw [htext, singleParser_skn, sknParser_eq, hnode]
  simp only [hparse, hsk, Option.map_some]

end SubOperators

/-! ## The round trip -/

/-- When an argument comes back on an operator that may be a super kernel: the argument that
`Append` leaves for a sub operator names its first input. -/
def Kept (op : KernelOp) (d : ArgDesc) : Prop :=
  if d.addrType = .SUPER_KERNEL_SUB_NODE then
    0 ≤ d.irIdx ∧ ∃ node, findSkSubNode op d.irIdx = some node ∧
      PlainKept node (plainArg .INPUT 0 d.folded)
  else PlainKept op.opDesc d

def expandAll (op : KernelOp) (l : List ArgDesc) : List ArgDesc := l.flatMap (expand op.opDesc)

/-- The format is read as the list with its wildcards expanded, and once more as the same; the size
is the same; and the arguments survive on a super kernel that has the operator as a sub operator. -/
structure RoundTrips (op : KernelOp) (l : List ArgDesc) : Prop where
  parsed : parse op (serialize l) = (true, expandAll op l)
  again : parse op (serialize (expandAll op l)) = (true, expandAll op l)
  size : getArgsSize op (expandAll op l) = getArgsSize op l
  superKernel : op.skSubGraph = none → (∀ d ∈ l, d.addrType ≠ .CUSTOM_VALUE) →
    ∀ sk, findSkSubNode sk op.opDesc.id = some op.opDesc → ∃ text ds,
      convertToSuperKernelArgFormat op.opDesc (serialize l) [] = some text ∧
        parse sk text = (true, ds) ∧
        ds.map convertArgDescSk2Normal = (expandAll op l).map fun d => (d, (op.opDesc.id : ℤ))

section RoundTrip

variable {op : KernelOp} {d e : ArgDesc} {l : List ArgDesc}

theorem expand_customValue (value : BitVec 64) (width : ArgsFormatWidth) :
    expand op.opDesc (appendCustomValue value width) = [appendCustomValue value width] := by
  cases width <;> rfl

theorem expand_skn {op : OpDesc} (h : d.addrType = .SUPER_KERNEL_SUB_NODE) : expand op d = [d] := by
  unfold expand
  split
  · rfl
  · rw [h]

/-- What `Append` leaves for a sub operator. -/
theorem singleParser_append_skn (irIdx : ℤ) (folded : Bool) (hidx : -1 ≤ irIdx) :
    let d := appendArg .SUPER_KERNEL_SUB_NODE irIdx folded
    (singleParser op (argText d) = some [d] ↔ Kept op d) ∧
      ∀ read, singleParser op (argText d) = some read → read.length = 1 := by
  intro d
  have htext : argText d = textSkn ++ (decimalInt irIdx ++ skSerialize (plainArg .INPUT 0 folded)) :=
    rfl
  rcases Int.lt_or_le irIdx 0 with hneg | hpos
  · -- the sign is no digit
    obtain rfl : irIdx = -1 := by omega
    have hnone : singleParser op (argText d) = none := rfl
    rw [hnone]
    refine ⟨?_, fun read hread => nomatch hread⟩
    simp [Kept, d, appendArg]
  obtain ⟨n, rfl⟩ := Int.eq_ofNat_of_zero_le hpos
  rw [htext, decimalInt_natCast, singleParser_skn, sknParser_eq]
  have hkept : Kept op d ↔ ∃ node, findSkSubNode op n = some node ∧
      PlainKept node (plainArg .INPUT 0 folded) := by
    simp [Kept, d, appendArg]
  rw [hkept]
  cases hnode : findSkSubNode op n with
  | none => simp
  | some node =>
    have hread := @skParse_io_input node 0 folded
    have hform : skSerialize (plainArg .INPUT 0 folded) = arrayLikeSerializer ['i'] (plainArg .INPUT 0 folded) :=
      rfl
    have hiff := @ioReadBack_eq_some_iff node.irInputs .INPUT 0 folded (le_refl 0)
    simp only [hform, hread, Option.some.injEq, exists_eq_left']
    rw [show PlainKept node (plainArg .INPUT 0 folded) ↔ IrKept node.irInputs (plainArg .INPUT 0 folded)
      from Iff.rfl, ← hiff]
    simp only [ioReadBack]
    cases hir : node.irInputs[(0 : ℤ).toNat]? with
    | none => simp
    | some ir =>
      simp [convertArgDescNormal2Sk, d, appendArg]

theorem singleParser_appended (h : Appended d) :
    (singleParser op (argText d) = some (expand op.opDesc d) ↔ Kept op d) ∧
      ∀ read, singleParser op (argText d) = some read → read.length = (expand op.opDesc d).length := by
  by_cases hskn : d.addrType = .SUPER_KERNEL_SUB_NODE
  · rw [expand_skn hskn]
    cases h with
    | append type irIdx folded hidx hwild =>
      obtain rfl : type = .SUPER_KERNEL_SUB_NODE := hskn
      exact singleParser_append_skn irIdx folded hidx
    | tilingContext subType => exact nomatch hskn
    | placeholder width => exact nomatch hskn
    | customValue value width => exact nomatch hskn
  · rw [singleParser_plain hskn, Kept, if_neg hskn]
    rcases h.plainForm with hform | ⟨value, width, rfl⟩
    · rw [skParse_plainForm hform hskn]
      exact readBack_plainForm hform hskn
    · rw [skParse_customValue, expand_customValue]
      refine ⟨?_, fun read hread => ?_⟩
      · cases width <;> simp [PlainKept, appendCustomValue, ArgsFormatWidth.toInt]
      · rw [← Option.some.inj hread]

/-- What a kept argument is expanded to comes back by itself. -/
theorem plainForm_of_mem_expand (hform : PlainForm d) (hskn : d.addrType ≠ .SUPER_KERNEL_SUB_NODE)
    (hkept : PlainKept op.opDesc d) (he : e ∈ expand op.opDesc d) :
    PlainForm e ∧ e.addrType = d.addrType ∧ skParse op.opDesc (skSerialize e) = some [e] ∧
      (e.addrType = .HIDDEN_INPUT → e.folded = false) := by
  have hself : expand op.opDesc d = [d] → PlainForm e ∧ e.addrType = d.addrType ∧
      skParse op.opDesc (skSerialize e) = some [e] ∧ (e.addrType = .HIDDEN_INPUT → e.folded = false) := by
    intro hexpand
    rw [hexpand, mem_singleton] at he
    subst he
    refine ⟨hform, rfl, ?_, fun ht => ?_⟩
    · rw [skParse_plainForm hform hskn, (readBack_plainForm hform hskn).1.mpr hkept, hexpand]
    · simpa only [PlainKept, ht] using hkept
  -- an element of a wildcard has an index of the operator
  have helem : ∀ type i folded, type ≠ .SUPER_KERNEL_SUB_NODE → type ≠ .HIDDEN_INPUT →
      d.addrType = type → e = plainArg type (i : ℕ) folded →
      PlainKept op.opDesc (plainArg type (i : ℕ) folded) →
      PlainForm e ∧ e.addrType = d.addrType ∧ skParse op.opDesc (skSerialize e) = some [e] ∧
        (e.addrType = .HIDDEN_INPUT → e.folded = false) := by
    intro type i folded htype hhidden hd heq hk
    subst heq
    have hf : PlainForm (plainArg type (i : ℕ) folded) := by
      refine ⟨rfl, fun ht => absurd ht hhidden, by simp only; omega, fun h => ?_, fun h => ?_⟩
      · simp only at h
        omega
      · simp only at h
        omega
    refine ⟨hf, hd.symm, ?_, fun ht => absurd ht hhidden⟩
    rw [skParse_plainForm hf htype, (readBack_plainForm hf htype).1.mpr hk,
      expand_of_nonneg (Int.natCast_nonneg i)]
  have hall := he
  unfold expand at hself hall
  split at hall
  · next hwild => exact hself (if_pos hwild)
  · next hwild =>
    rw [if_neg hwild] at hself
    split at hall
    · next hin =>
      obtain ⟨ir, hir, rfl⟩ := mem_map.mp hall
      exact helem .INPUT ir.2 _ (by decide) (by decide) hin rfl
        (.inr ⟨ir.1, mem_zipIdx_iff_getElem?.mp hir, fun h => by simpa using h⟩)
    · next hout =>
      obtain ⟨ir, hir, rfl⟩ := mem_map.mp hall
      exact helem .OUTPUT ir.2 _ (by decide) (by decide) hout rfl
        (.inr ⟨ir.1, mem_zipIdx_iff_getElem?.mp hir, fun h => by simpa using h⟩)
    · next hinst =>
      obtain ⟨i, hi, rfl⟩ := mem_map.mp hall
      exact helem .INPUT_INSTANCE i false (by decide) (by decide) hinst rfl
        (.inr ⟨Int.ofNat_lt.mpr (mem_range.mp hi), rfl⟩)
    · next houtst =>
      obtain ⟨i, hi, rfl⟩ := mem_map.mp hall
      exact helem .OUTPUT_INSTANCE i false (by decide) (by decide) houtst rfl
        (.inr ⟨Int.ofNat_lt.mpr (mem_range.mp hi), rfl⟩)
    · refine hself ?_
      split <;> first | rfl | contradiction

theorem singleParser_of_mem_expand (h : Appended d) (hkept : Kept op d) (he : e ∈ expand op.opDesc d) :
    singleParser op (argText e) = some [e] := by
  by_cases hskn : d.addrType = .SUPER_KERNEL_SUB_NODE
  · have hread := (singleParser_appended h).1.mpr hkept
    rw [expand_skn hskn] at hread he
    obtain rfl := mem_singleton.mp he
    exact hread
  · rw [Kept, if_neg hskn] at hkept
    rcases h.plainForm with hform | ⟨value, width, rfl⟩
    · obtain ⟨-, htype, hparse, -⟩ := plainForm_of_mem_expand hform hskn hkept he
      rw [singleParser_plain (htype ▸ hskn), hparse]
    · rw [expand_customValue, mem_singleton] at he
      subst he
      rw [singleParser_plain hskn, skParse_customValue]

theorem mapM_eq_some {β : Type*} {f : ArgDesc → Option β} {g : ArgDesc → β} (ds : List ArgDesc)
    (h : ∀ d ∈ ds, f d = some (g d)) : ds.mapM f = some (ds.map g) := by
  induction ds with
  | nil => rfl
  | cons d ds ih =>
    rw [mapM_cons, h d mem_cons_self, ih fun e he => h e (mem_cons_of_mem _ he)]
    rfl

theorem readArgs_self {ds : List ArgDesc} (h : ∀ d ∈ ds, singleParser op (argText d) = some [d]) :
    readArgs op ds = (true, ds) := by
  induction ds with
  | nil => rfl
  | cons d ds ih =>
    rw [readArgs, h d mem_cons_self]
    simp [ih fun e he => h e (mem_cons_of_mem _ he)]

/-- The arguments of a list without super kernel arguments and custom values, on a super kernel. -/
theorem superKernel_roundTrip {op : OpDesc} {ds : List ArgDesc}
    (hplain : ∀ d ∈ ds, PlainForm d ∧ d.addrType ≠ .CUSTOM_VALUE ∧
      (d.addrType = .HIDDEN_INPUT → d.folded = false) ∧ skParse op (skSerialize d) = some [d])
    {sk : KernelOp} (hnode : findSkSubNode sk op.id = some op) :
    ∃ sks, (ds.mapM fun d => convertArgDescNormal2Sk d op.id) = some sks ∧
      readArgs sk sks = (true, sks) ∧
      sks.map convertArgDescSk2Normal = ds.map fun d => (d, (op.id : ℤ)) := by
  have hconv : ∀ d ∈ ds, ∃ s, convertArgDescNormal2Sk d op.id = some s ∧
      s.addrType = .SUPER_KERNEL_SUB_NODE ∧ convertArgDescSk2Normal s = (d, (op.id : ℤ)) := by
    intro d hd
    obtain ⟨hform, hcustom, hhidden, -⟩ := hplain d hd
    exact convertArgDescSk2Normal_normal2Sk hform hhidden hcustom op.id
  let conv := fun d => (convertArgDescNormal2Sk d op.id).getD d
  have hget : ∀ d ∈ ds, convertArgDescNormal2Sk d op.id = some (conv d) := by
    intro d hd
    obtain ⟨s, hs, -⟩ := hconv d hd
    simp [conv, hs]
  refine ⟨ds.map conv, mapM_eq_some ds hget, readArgs_self fun s hs => ?_, ?_⟩
  · obtain ⟨d, hd, rfl⟩ := mem_map.mp hs
    obtain ⟨s, hs, htype, hback⟩ := hconv d hd
    obtain rfl : s = conv d := Option.some.inj (hs.symm.trans (hget d hd))
    exact singleParser_normal2Sk hnode hs htype hback (hplain d hd).2.2.2
  · rw [map_map]
    refine map_congr_left fun d hd => ?_
    obtain ⟨s, hs, -, hback⟩ := hconv d hd
    obtain rfl : s = conv d := Option.some.inj (hs.symm.trans (hget d hd))
    exact hback

/-- A format goes round exactly when each of its arguments is kept. -/
theorem roundTrips_iff (op : KernelOp) (l : List ArgDesc) (hl : ∀ d ∈ l, Appended d) :
    RoundTrips op l ↔ ∀ d ∈ l, Kept op d := by
  have hparsed : parse op (serialize l) = (true, expandAll op l) ↔ ∀ d ∈ l, Kept op d := by
    rw [parse_serialize, expandAll,
      readArgs_eq_iff fun d hd => (singleParser_appended (hl d hd)).2]
    exact forall₂_congr fun d hd => (singleParser_appended (hl d hd)).1
  refine ⟨fun h => hparsed.mp h.parsed, fun hkept => ⟨hparsed.mpr hkept, ?_, ?_, ?_⟩⟩
  · rw [parse_serialize]
    refine readArgs_self fun e he => ?_
    obtain ⟨d, hd, hmem⟩ := mem_flatMap.mp he
    exact singleParser_of_mem_expand (hl d hd) (hkept d hd) hmem
  · refine getArgsSize_flatMap fun d hd => ?_
    rcases (hl d hd).plainForm with hform | ⟨value, width, rfl⟩
    · exact getArgsSize_expand hform
    · rw [expand_customValue]
      exact getArgsSize_singleton
  · intro hsub hcustom sk hnode
    have hplain : ∀ e ∈ expandAll op l, PlainForm e ∧ e.addrType ≠ .CUSTOM_VALUE ∧
        (e.addrType = .HIDDEN_INPUT → e.folded = false) ∧
        skParse op.opDesc (skSerialize e) = some [e] := by
      intro e he
      obtain ⟨d, hd, hmem⟩ := mem_flatMap.mp he
      have hk := hkept d hd
      -- a plain operator has no arguments of sub operators
      have hskn : d.addrType ≠ .SUPER_KERNEL_SUB_NODE := by
        intro ht
        rw [Kept, if_pos ht] at hk
        obtain ⟨-, node, hfind, -⟩ := hk
        simp [findSkSubNode, hsub] at hfind
      rw [Kept, if_neg hskn] at hk
      rcases (hl d hd).plainForm with hform | ⟨value, width, rfl⟩
      · obtain ⟨hf, htype, hparse, hhidden⟩ := plainForm_of_mem_expand hform hskn hk hmem
        exact ⟨hf, htype ▸ hcustom d hd, hhidden, hparse⟩
      · exact absurd rfl (hcustom _ hd)
    obtain ⟨sks, hmap, hread, hback⟩ := superKernel_roundTrip hplain hnode
    refine ⟨serialize sks, sks, ?_, ?_, hback⟩
    · have hop : (⟨op.opDesc, none⟩ : KernelOp) = op := by
        rw [← hsub]
      rw [convertToSuperKernelArgFormat, hop, hparsed.mpr hkept, hmap]
      rfl
    · rw [parse_serialize, hread]

/-- An operator with a required and a dynamic input. -/
def dynamicOp : KernelOp where
  opDesc :=
    { id := 3, irInputs := [(['x'], .required), (['y'], .dynamic)], irOutputs := [(['z'], .required)]
      allInputName := [(['x'], 0), (['y', '0'], 1), (['y', '1'], 2)], allOutputName := [(['z'], 0)]
      inputsSize := 3, outputsSize := 1
      inputShape := fun _ => .scalar, outputShape := fun _ => .scalar }
  skSubGraph := none

theorem dynamicOp_roundTrips :
    RoundTrips dynamicOp [appendArg .INPUT 1 true, appendArg .OUTPUT (-1) false,
      appendTilingContext .TILING_DATA, appendCustomValue 7 .BIT32] := by
  refine (roundTrips_iff dynamicOp _ fun d hd => ?_).mpr fun d hd => ?_
  · simp only [mem_cons, not_mem_nil, or_false] at hd
    rcases hd with rfl | rfl | rfl | rfl
    · exact .append .INPUT 1 true (by decide) (by decide)
    · exact .append .OUTPUT (-1) false (by decide) (by decide)
    · exact .tilingContext .TILING_DATA
    · exact .customValue 7 .BIT32
  · simp only [mem_cons, not_mem_nil, or_false] at hd
    rcases hd with rfl | rfl | rfl | rfl
    · exact .inr ⟨(['y'], .dynamic), rfl, fun _ => rfl⟩
    · exact .inl (by decide)
    · exact ⟨by decide, rfl⟩
    · exact ⟨by decide, rfl⟩

/-- The tail flag of the tiling data is written, and not read back. -/
theorem dynamicOp_not_roundTrips : ¬ RoundTrips dynamicOp [appendArg .TILING_FFTS 0 false] := by
  intro h
  have hparsed := h.parsed
  have hread : parse dynamicOp (serialize [appendArg .TILING_FFTS 0 false]) =
      (true, [appendArg .TILING_FFTS (-1) false]) := by decide +kernel
  have hsame := congrArg Prod.snd (hread.symm.trans hparsed)
  exact absurd hsame (by decide)

end RoundTrip

end GraphAutofusion.GraphMetadef
