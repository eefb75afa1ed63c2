import GraphAutofusion.GraphMetadef.ArgsFormat

/-!
# GraphMetadef.ArgsFormatText — one argument, written and read

For each kind of argument: what its text is read as. Inputs and outputs come back with the index
they were written with, when the operator has it; kinds whose text is a bare word come back without
any index, whether they had one or not.
-/

namespace GraphAutofusion.GraphMetadef

open Lib List Option

/-! ## Shape of the texts -/

section Shape

variable {d : ArgDesc} {c : Char} {z : ℤ} {n : ℕ}

theorem decimalInt_natCast (n : ℕ) : decimalInt n = decimal n := by
  unfold decimalInt
  rw [if_neg (by omega), Int.natAbs_natCast]

theorem mem_decimalInt (h : c ∈ decimalInt z) : c.isDigit = true ∨ c = '-' := by
  unfold decimalInt at h
  split at h
  · rcases mem_cons.mp h with h | h
    · exact .inr h
    · exact .inl (isDigit_of_mem_decimal h)
  · exact .inl (isDigit_of_mem_decimal h)

theorem ne_of_isDigit {c' : Char} (h : c.isDigit = true) (h' : c'.isDigit = false) : c ≠ c' := by
  rintro rfl
  rw [h] at h'
  exact nomatch h'

theorem ne_brace_of_mem_decimalInt (h : c ∈ decimalInt z) : c ≠ '\x7d' := by
  rcases mem_decimalInt h with h | rfl
  · exact ne_of_isDigit h rfl
  · decide

theorem ne_brace_of_mem_decimal (h : c ∈ decimal n) : c ≠ '\x7d' :=
  ne_of_isDigit (isDigit_of_mem_decimal h) rfl

/-- The head of a number and of what may follow it. -/
theorem decimal_append (n : ℕ) (rest : Text) :
    ∃ c digits, decimal n ++ rest = c :: digits ∧ c.isDigit = true := by
  obtain ⟨c, digits, hc⟩ : ∃ c digits, decimal n = c :: digits :=
    exists_cons_of_ne_nil decimal_ne_nil
  exact ⟨c, digits ++ rest, by rw [hc, cons_append],
    isDigit_of_mem_decimal (hc ▸ mem_cons_self)⟩

/-- What ends an index: nothing when the argument is folded, else a star. -/
def foldedText (folded : Bool) : Text := if folded then [] else textStar

theorem isDigit_of_mem_foldedText {folded : Bool} (h : c ∈ foldedText folded) : c.isDigit = false := by
  unfold foldedText textStar at h
  split at h
  · exact nomatch h
  · rw [mem_singleton] at h
    subst h
    decide

theorem head_foldedText {folded : Bool} : ∀ c, (foldedText folded).head? = some c → c.isDigit = false :=
  fun _ h => isDigit_of_mem_foldedText (mem_of_head? h)

theorem ne_star_append_decimal (pattern rest : Text) :
    pattern ++ (decimal n ++ rest) ≠ pattern ++ textStar := by
  intro h
  obtain ⟨c, digits, hc, hdigit⟩ := decimal_append n rest
  rw [hc] at h
  have heq := append_cancel_left h
  rw [textStar, cons.injEq] at heq
  exact ne_of_isDigit hdigit rfl heq.1

theorem collectDigits_index (n : ℕ) (folded : Bool) :
    collectDigits (decimal n ++ foldedText folded) = (n, true) :=
  collectDigits_decimal [] _ (fun _ hc => nomatch hc) fun _ hc => isDigit_of_mem_foldedText hc

theorem getLast?_index (pattern : Text) (n : ℕ) (folded : Bool) :
    decide ((pattern ++ (decimal n ++ foldedText folded)).getLast? ≠ some '*') = folded := by
  cases folded with
  | false =>
    rw [← append_assoc]
    simp [foldedText, textStar]
  | true =>
    have hne : (decimal n).getLast? ≠ some '*' := by
      intro h
      exact absurd (isDigit_of_mem_decimal (mem_of_getLast? h)) (by decide)
    simp [foldedText, getLast?_append_of_ne_nil _ decimal_ne_nil, hne]

end Shape

/-! ## Each parser on the texts of its kind -/

abbrev plainArg (type : AddrType) (irIdx : ℤ) (folded : Bool) : ArgDesc :=
  ⟨type, irIdx, folded, 0, .INPUT, 0⟩

section Parsers

variable {op : OpDesc} {type : AddrType} {folded : Bool} {n : ℕ} {irs : OpDesc → List (Text × IrType)}

theorem ioParser_index {head : Char} (n : ℕ) :
    ioParser [head] irs op ([head] ++ (decimal n ++ foldedText folded)) type
      = ((irs op)[n]?).map fun ir => [plainArg type n (ir.2 = .dynamic && folded)] := by
  have hdigits : collectDigits (([head] ++ (decimal n ++ foldedText folded)).drop 1) = (n, true) :=
    collectDigits_index n folded
  unfold ioParser
  rw [if_neg (ne_star_append_decimal [head] _)]
  simp only [hdigits, getLast?_index]
  cases (irs op)[n]? with
  | none => rfl
  | some ir => rfl

theorem ioDescParser_index {pattern : Text} (hlen : pattern.length = 6) (n : ℕ) :
    ioDescParser op (pattern ++ (decimal n ++ foldedText folded)) type
      = some [plainArg type n folded] := by
  have hdrop : (pattern ++ (decimal n ++ foldedText folded)).drop 6 = decimal n ++ foldedText folded := by
    rw [← hlen, drop_left]
  unfold ioDescParser
  simp only [hdrop, collectDigits_index, getLast?_index]
  rfl

theorem instanceParser_index {pattern : Text} {validSize : OpDesc → ℕ} (n : ℕ) :
    instanceParser pattern validSize op (pattern ++ (decimal n ++ foldedText folded)) type
      = if n < validSize op then some [plainArg type n false] else none := by
  unfold instanceParser
  rw [if_neg (ne_star_append_decimal pattern _), scanLiteral_append, bind_some,
    scanInt_decimal head_foldedText]
  simp only [Int.natCast_nonneg, true_and, Int.ofNat_lt]

theorem workspaceParser_index (n : ℕ) :
    workspaceParser op (['w', 's'] ++ (decimal n ++ foldedText folded)) type
      = some [plainArg type n false] := by
  have hne : ['w', 's'] ++ (decimal n ++ foldedText folded) ≠ ['w', 's', '*'] :=
    ne_star_append_decimal ['w', 's'] _
  have hdigits : collectDigits ((['w', 's'] ++ (decimal n ++ foldedText folded)).drop 2) = (n, true) :=
    collectDigits_index n folded
  unfold workspaceParser
  rw [if_neg hne, hdigits]

theorem eventAddrParser_index {pattern : Text} (hlen : pattern.length = 10) (z : ℤ) :
    eventAddrParser op (pattern ++ (decimalInt z ++ textStar)) type
      = some [plainArg type z.natAbs false] := by
  have hback : ∀ c ∈ textStar, c.isDigit = false := fun c hc =>
    @isDigit_of_mem_foldedText c false hc
  -- a sign is no digit, so it is passed over
  have hdigits : collectDigits (decimalInt z ++ textStar) = (z.natAbs, true) := by
    unfold decimalInt
    split
    · refine collectDigits_decimal ['-'] _ (fun c hc => ?_) hback
      rw [mem_singleton.mp hc]
      rfl
    · exact collectDigits_decimal [] _ (fun c hc => nomatch hc) hback
  unfold eventAddrParser
  rw [← hlen, drop_left, hdigits]

theorem customValueParser_value (value : BitVec 64) (width : ArgsFormatWidth) :
    customValueParser op (customValueSerializer ['#'] (appendCustomValue value width)) type
      = some [⟨type, width.toInt, false, value, .INPUT, 0⟩] := by
  have hvalue : scanULong (decimal value.toNat) = some value := by
    have hscan := @scanInt_decimal value.toNat [] (by simp)
    rw [append_nil] at hscan
    rw [scanULong, hscan, map_some, BitVec.ofInt_natCast, BitVec.ofNat_toNat,
      BitVec.setWidth_eq]
  cases width with
  | BIT64 =>
    obtain ⟨c, digits, hc, hdigit⟩ := decimal_append value.toNat []
    rw [append_nil] at hc
    have hne : c ≠ '.' := ne_of_isDigit hdigit rfl
    have hno : scanLiteral (['#'] ++ text32b) (['#'] ++ decimal value.toNat) = none := by
      rw [hc]
      simp [scanLiteral, text32b, isPrefixOf, Ne.symm hne]
    have htext : customValueSerializer ['#'] (appendCustomValue value .BIT64)
        = ['#'] ++ decimal value.toNat := rfl
    rw [htext, customValueParser, hno, scanLiteral_append, Option.bind_none, bind_some, hvalue]
  | BIT32 =>
    have htext : customValueSerializer ['#'] (appendCustomValue value .BIT32)
        = (['#'] ++ text32b) ++ decimal value.toNat := rfl
    rw [htext, customValueParser, scanLiteral_append, bind_some, hvalue]

end Parsers

/-! ## What each argument is read as -/

/-- What the builder functions put into a list: an index or the wildcard, which is never folded. -/
inductive Appended : ArgDesc → Prop
  | append (type : AddrType) (irIdx : ℤ) (folded : Bool) (hidx : -1 ≤ irIdx)
      (hwild : irIdx = -1 → folded = false) : Appended (appendArg type irIdx folded)
  | tilingContext (subType : TilingContextSubType) : Appended (appendTilingContext subType)
  | placeholder (width : ArgsFormatWidth) : Appended (appendPlaceholder width)
  | customValue (value : BitVec 64) (width : ArgsFormatWidth) :
      Appended (appendCustomValue value width)

/-- All inputs or outputs, the dynamic ones folded. -/
def allIos (type : AddrType) (irs : List (Text × IrType)) : List ArgDesc :=
  irs.zipIdx.map fun ir => plainArg type ir.2 (ir.1.2 = .dynamic)

def allInstances (type : AddrType) (validSize : ℕ) : List ArgDesc :=
  (range validSize).map fun (i : ℕ) => plainArg type i false

def ioReadBack (irs : List (Text × IrType)) (d : ArgDesc) : Option (List ArgDesc) :=
  if d.irIdx < 0 then some (allIos d.addrType irs)
  else (irs[d.irIdx.toNat]?).map fun ir =>
    [plainArg d.addrType d.irIdx (ir.2 = .dynamic && d.folded)]

def instanceReadBack (validSize : ℕ) (d : ArgDesc) : Option (List ArgDesc) :=
  if d.irIdx < 0 then some (allInstances d.addrType validSize)
  else if d.irIdx < validSize then some [plainArg d.addrType d.irIdx false]
  else none

def widthReadBack (irIdx : ℤ) : ℤ := if irIdx = -2 then -2 else -1

/-- What the text of an argument is read as. -/
def readBack (op : OpDesc) (d : ArgDesc) : Option (List ArgDesc) :=
  match d.addrType with
  | .INPUT => ioReadBack op.irInputs d
  | .OUTPUT => ioReadBack op.irOutputs d
  | .INPUT_INSTANCE => instanceReadBack op.inputsSize d
  | .OUTPUT_INSTANCE => instanceReadBack op.outputsSize d
  | .INPUT_DESC | .OUTPUT_DESC =>
    if d.irIdx < 0 then none else some [plainArg d.addrType d.irIdx d.folded]
  | .WORKSPACE => some [plainArg .WORKSPACE (if d.irIdx < 0 then -1 else d.irIdx) false]
  | .EVENT_ADDR => some [plainArg .EVENT_ADDR d.irIdx.natAbs false]
  | .HIDDEN_INPUT => some [plainArg .HIDDEN_INPUT 0 false]
  | .TILING_CONTEXT =>
    some [plainArg .TILING_CONTEXT (if 0 ≤ d.irIdx ∧ d.irIdx ≤ 2 then d.irIdx else -1) false]
  | .PLACEHOLDER => some [plainArg .PLACEHOLDER (widthReadBack d.irIdx) false]
  | .CUSTOM_VALUE => some [⟨.CUSTOM_VALUE, widthReadBack d.irIdx, false, d.reserved, .INPUT, 0⟩]
  | .TILING | .FFTS_ADDR | .OVERFLOW_ADDR | .TILING_FFTS | .OP_TYPE =>
    some [plainArg d.addrType (-1) false]
  | .SUPER_KERNEL_SUB_NODE => none

section Dispatch

variable {op : OpDesc} {rest : Text} {irIdx : ℤ} {folded : Bool}

theorem skParse_input {c : Char} (h : c.isDigit = true) :
    skParse op ('i' :: c :: rest) = ioParser ['i'] OpDesc.irInputs op ('i' :: c :: rest) .INPUT := by
  have hc : ('_' == c) = false := beq_eq_false_iff_ne.mpr (ne_of_isDigit h rfl).symm
  simp [skParse, kSkPatternToHandler, isPrefixOf, find?, hc]

theorem skParse_output {c : Char} (h : c.isDigit = true) :
    skParse op ('o' :: c :: rest) = ioParser ['o'] OpDesc.irOutputs op ('o' :: c :: rest) .OUTPUT := by
  have hc : ('_' == c) = false := beq_eq_false_iff_ne.mpr (ne_of_isDigit h rfl).symm
  have hv : ('v' == c) = false := beq_eq_false_iff_ne.mpr (ne_of_isDigit h rfl).symm
  simp [skParse, kSkPatternToHandler, isPrefixOf, find?, hc, hv]

/-- The text of an index, or of the wildcard. -/
theorem arrayLikeSerializer_eq (pattern : Text) (type : AddrType) (irIdx : ℤ) (folded : Bool) :
    arrayLikeSerializer pattern (plainArg type irIdx folded)
      = if irIdx < 0 then pattern ++ textStar
        else pattern ++ (decimal irIdx.toNat ++ foldedText folded) := by
  unfold arrayLikeSerializer
  by_cases h : 0 ≤ irIdx
  · obtain ⟨n, rfl⟩ := Int.eq_ofNat_of_zero_le h
    have hneg : ¬ (n : ℤ) < 0 := by omega
    rw [if_pos h, if_neg hneg, decimalInt_natCast, Int.toNat_natCast]
    rfl
  · have hneg : irIdx < 0 := by omega
    rw [if_neg h, if_pos hneg]

theorem skParse_io {head : Char} {type : AddrType} {irs : OpDesc → List (Text × IrType)}
    (hall : skParse op ([head] ++ textStar) = some (allIos type (irs op)))
    (hdispatch : ∀ {c rest}, c.isDigit = true →
      skParse op (head :: c :: rest) = ioParser [head] irs op (head :: c :: rest) type) :
    skParse op (arrayLikeSerializer [head] (plainArg type irIdx folded))
      = ioReadBack (irs op) (plainArg type irIdx folded) := by
  rw [arrayLikeSerializer_eq, ioReadBack]
  split
  · exact hall
  · obtain ⟨c, digits, hc, hdigit⟩ := decimal_append irIdx.toNat (foldedText folded)
    have hback := @ioParser_index op type folded irs head irIdx.toNat
    rw [hc] at hback ⊢
    rw [singleton_append] at hback ⊢
    rw [hdispatch hdigit, hback, Int.toNat_of_nonneg (by omega)]

theorem skParse_io_input : skParse op (arrayLikeSerializer ['i'] (plainArg .INPUT irIdx folded))
    = ioReadBack op.irInputs (plainArg .INPUT irIdx folded) :=
  skParse_io rfl skParse_input

theorem skParse_io_output : skParse op (arrayLikeSerializer ['o'] (plainArg .OUTPUT irIdx folded))
    = ioReadBack op.irOutputs (plainArg .OUTPUT irIdx folded) :=
  skParse_io rfl skParse_output

theorem skParse_arrayLike {pattern : Text} {type : AddrType}
    {parse : OpDesc → Text → AddrType → Option (List ArgDesc)}
    (h : ∀ text, skParse op (pattern ++ text) = parse op (pattern ++ text) type) :
    skParse op (arrayLikeSerializer pattern (plainArg type irIdx folded))
      = parse op (arrayLikeSerializer pattern (plainArg type irIdx folded)) type := by
  rw [arrayLikeSerializer_eq]
  split <;> exact h _

theorem instanceParser_eq (pattern : Text) (type : AddrType) (validSize : OpDesc → ℕ) :
    instanceParser pattern validSize op
        (arrayLikeSerializer pattern (plainArg type irIdx folded)) type
      = instanceReadBack (validSize op) (plainArg type irIdx folded) := by
  rw [arrayLikeSerializer_eq, instanceReadBack]
  split
  · rw [instanceParser, if_pos rfl]
    rfl
  · next h =>
    obtain ⟨n, rfl⟩ := Int.eq_ofNat_of_zero_le (not_lt.mp h)
    rw [Int.toNat_natCast, instanceParser_index]
    simp only [Int.ofNat_lt]

theorem ioDescParser_eq (pattern : Text) (hlen : pattern.length = 6) (type : AddrType) :
    ioDescParser op (arrayLikeSerializer pattern (plainArg type irIdx folded)) type
      = if irIdx < 0 then none else some [plainArg type irIdx folded] := by
  rw [arrayLikeSerializer_eq]
  split
  · -- the wildcard has no digit
    have hdrop : (pattern ++ textStar).drop 6 = textStar := by rw [← hlen, drop_left]
    rw [ioDescParser]
    simp only [hdrop]
    rfl
  · next h =>
    obtain ⟨n, rfl⟩ := Int.eq_ofNat_of_zero_le (not_lt.mp h)
    rw [Int.toNat_natCast, ioDescParser_index hlen]

theorem skParse_workspace :
    skParse op (arrayLikeSerializer ['w', 's'] (plainArg .WORKSPACE irIdx folded))
      = some [plainArg .WORKSPACE (if irIdx < 0 then -1 else irIdx) false] := by
  rw [arrayLikeSerializer_eq]
  split
  · rfl
  · next h =>
    obtain ⟨n, rfl⟩ := Int.eq_ofNat_of_zero_le (not_lt.mp h)
    rw [Int.toNat_natCast]
    exact @workspaceParser_index op .WORKSPACE folded n

theorem skParse_tilingContext : skParse op (skSerialize (plainArg .TILING_CONTEXT irIdx folded))
    = some [plainArg .TILING_CONTEXT (if 0 ≤ irIdx ∧ irIdx ≤ 2 then irIdx else -1) false] := by
  by_cases h : 0 ≤ irIdx ∧ irIdx ≤ 2
  · rw [if_pos h]
    have hcases : irIdx = 0 ∨ irIdx = 1 ∨ irIdx = 2 := by omega
    rcases hcases with rfl | rfl | rfl <;> rfl
  have htext : skSerialize (plainArg .TILING_CONTEXT irIdx folded)
      = ['t', 'i', 'l', 'i', 'n', 'g', '_', 'c', 'o', 'n', 't', 'e', 'x', 't'] := by
    have h0 : irIdx ≠ 0 := by omega
    have h1 : irIdx ≠ 1 := by omega
    have h2 : irIdx ≠ 2 := by omega
    show tilingContextSerializer _ _ = _
    simp [tilingContextSerializer, TilingContextSubType.toInt, h0, h1, h2]
  rw [if_neg h, htext]
  rfl

theorem skParse_placeholder : skParse op (skSerialize (plainArg .PLACEHOLDER irIdx folded))
    = some [plainArg .PLACEHOLDER (widthReadBack irIdx) false] := by
  by_cases h : irIdx = -2
  · subst h
    rfl
  · have htext : skSerialize (plainArg .PLACEHOLDER irIdx folded) = [] := by
      show placeholderSerializer [] _ = _
      exact if_neg h
    rw [htext, widthReadBack, if_neg h]
    rfl

theorem skParse_tilingFfts : skParse op (skSerialize (plainArg .TILING_FFTS irIdx folded))
    = some [plainArg .TILING_FFTS (-1) false] := by
  by_cases h : irIdx = 0
  · subst h
    rfl
  · have htext : skSerialize (plainArg .TILING_FFTS irIdx folded)
        = ['t', '_', 'f', 'f', 't', 's'] ++ ['.', 't', 'a', 'i', 'l'] := by
      show fftsTilingSerializer ['t', '_', 'f', 'f', 't', 's'] _ = _
      exact if_neg h
    rw [htext]
    rfl

theorem skParse_customValue (value : BitVec 64) (width : ArgsFormatWidth) :
    skParse op (skSerialize (appendCustomValue value width))
      = some [appendCustomValue value width] := by
  have hhead : ∃ text, skSerialize (appendCustomValue value width) = '#' :: text := by
    cases width with
    | BIT64 => exact ⟨_, rfl⟩
    | BIT32 => exact ⟨_, rfl⟩
  obtain ⟨text, htext⟩ := hhead
  have hparse : skParse op ('#' :: text) = customValueParser op ('#' :: text) .CUSTOM_VALUE := rfl
  rw [htext, hparse, ← htext]
  exact customValueParser_value value width

/-- A custom value of any other width is written with 64 bits. -/
theorem skParse_append_customValue : skParse op (skSerialize (plainArg .CUSTOM_VALUE irIdx folded))
    = some [plainArg .CUSTOM_VALUE (widthReadBack irIdx) false] := by
  by_cases h : irIdx = -2
  · subst h
    exact skParse_customValue 0 .BIT32
  · have htext : skSerialize (plainArg .CUSTOM_VALUE irIdx folded)
        = skSerialize (appendCustomValue 0 .BIT64) := by
      show customValueSerializer ['#'] _ = _
      exact if_neg h
    rw [htext, skParse_customValue, widthReadBack, if_neg h]
    rfl

theorem skParse_append (type : AddrType) (htype : type ≠ .SUPER_KERNEL_SUB_NODE) (irIdx : ℤ)
    (folded : Bool) : skParse op (skSerialize (appendArg type irIdx folded))
      = readBack op (appendArg type irIdx folded) := by
  cases type with
  | INPUT => exact skParse_io_input
  | OUTPUT => exact skParse_io_output
  | WORKSPACE => exact skParse_workspace
  | TILING | FFTS_ADDR | OVERFLOW_ADDR | OP_TYPE => rfl
  | INPUT_DESC =>
    exact (skParse_arrayLike fun _ => rfl).trans
      (ioDescParser_eq ['i', '_', 'd', 'e', 's', 'c'] rfl .INPUT_DESC)
  | OUTPUT_DESC =>
    exact (skParse_arrayLike fun _ => rfl).trans
      (ioDescParser_eq ['o', '_', 'd', 'e', 's', 'c'] rfl .OUTPUT_DESC)
  | TILING_FFTS => exact skParse_tilingFfts
  | HIDDEN_INPUT =>
    -- the index is overwritten, and the kind is the one that is zero
    have htext : skSerialize (appendArg .HIDDEN_INPUT irIdx folded)
        = ['h', 'i', '.', 'h', 'c', 'o', 'm'] ++ (decimal 0 ++ textStar) := by
      have hzero : appendArg .HIDDEN_INPUT irIdx folded = plainArg .HIDDEN_INPUT 0 folded := by
        simp [appendArg]
      rw [hzero]
      show hiddenInputSerializer ['h', 'i'] (plainArg .HIDDEN_INPUT 0 folded) = _
      have hkind : (plainArg .HIDDEN_INPUT 0 folded).hiddenType = hcom := by
        cases folded <;> decide
      have hnum : decimalInt (plainArg .HIDDEN_INPUT 0 folded).irIdx = decimal 0 := decimalInt_natCast 0
      rw [hiddenInputSerializer, if_pos hkind, hnum]
      rfl
    have hparse : ∀ text : Text, skParse op (['h', 'i', '.', 'h', 'c', 'o', 'm'] ++ text)
        = hiddenInputParser op (['h', 'i', '.', 'h', 'c', 'o', 'm'] ++ text) .HIDDEN_INPUT :=
      fun text => rfl
    have hscan := @scanInt_decimal 0 textStar fun c hc =>
      @isDigit_of_mem_foldedText c false (mem_of_mem_head? hc)
    rw [htext, hparse, hiddenInputParser, scanLiteral_append, bind_some, hscan]
    rfl
  | TILING_CONTEXT => exact skParse_tilingContext
  | PLACEHOLDER => exact skParse_placeholder
  | CUSTOM_VALUE => exact skParse_append_customValue
  | INPUT_INSTANCE =>
    exact (skParse_arrayLike fun _ => rfl).trans
      (instanceParser_eq ['i', '_', 'i', 'n', 's', 't', 'a', 'n', 'c', 'e'] .INPUT_INSTANCE OpDesc.inputsSize)
  | OUTPUT_INSTANCE =>
    exact (skParse_arrayLike fun _ => rfl).trans
      (instanceParser_eq ['o', '_', 'i', 'n', 's', 't', 'a', 'n', 'c', 'e'] .OUTPUT_INSTANCE OpDesc.outputsSize)
  | SUPER_KERNEL_SUB_NODE => exact absurd rfl htype
  | EVENT_ADDR =>
    show eventAddrParser op (_ ++ (decimalInt irIdx ++ textStar)) _ = _
    exact eventAddrParser_index rfl irIdx

end Dispatch

end GraphAutofusion.GraphMetadef
