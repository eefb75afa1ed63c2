import GraphAutofusion.AscIr.Links

/-!
# AscIr.RoundTrip — what survives a message

A graph comes back as it was when the anchors are read in order, which the ranges of dynamic inputs
and the counting of edges break, when no field is used that the messages do not have, and when
sources stand before the nodes they feed. These are all the conditions.
-/

namespace GraphAutofusion.AscIr

open List Option

variable {E V T : Type} {text : ExprText E}

/-! ## Ranges -/

/-- An input or output of the IR, without its descriptors but for their number. -/
def IrIOSpec.signature (spec : IrIOSpec) : String × IrType × ℕ := (spec.name, spec.type, spec.num)

/-- The ranges of dynamic inputs begin with the first anchor. -/
def StartsAtZero (ranges : List (Option (ℕ × ℕ))) : Prop :=
  ∀ range ∈ ranges, ∀ anchors ∈ range, anchors.1 = 0

instance (ranges : List (Option (ℕ × ℕ))) : Decidable (StartsAtZero ranges) :=
  inferInstanceAs (Decidable (∀ range ∈ ranges, ∀ anchors ∈ range, anchors.1 = 0))

/-- The anchor that is read for each instance when the ranges begin with the first anchor: a
dynamic input makes the count of anchors begin anew. -/
def readPlaces : ℕ → List IrIOSpec → List ℕ
  | _, [] => []
  | _, .dynamic _ num :: specs => List.range num ++ readPlaces num specs
  | cur, _ :: specs => cur :: readPlaces (cur + 1) specs

/-- A range is there for a dynamic input and has the number of its instances. -/
def RangeOf (spec : IrIOSpec) (range : Option (ℕ × ℕ)) : Prop :=
  range.map Prod.snd = if spec.type = .dynamic then some spec.num else none

theorem mappingDynamicIrDesc_rangeOf (specs : List IrIOSpec) (index start : ℕ) :
    Forall₂ RangeOf specs (mappingDynamicIrDesc index start specs) := by
  induction specs generalizing index start with
  | nil => exact Forall₂.nil
  | cons spec specs ih =>
    cases spec with
    | required name => exact Forall₂.cons rfl (ih _ _)
    | optional name descValid => exact Forall₂.cons rfl (ih _ _)
    | dynamic name num =>
      unfold mappingDynamicIrDesc
      by_cases hnum : num = 0
      · rw [if_pos hnum]
        refine Forall₂.cons ?_ (ih _ _)
        rw [hnum]
        rfl
      · rw [if_neg hnum]
        exact Forall₂.cons rfl (ih _ _)

theorem getIrDescRange_rangeOf (specs : List IrIOSpec) (raw : Bool) :
    Forall₂ RangeOf specs (getIrDescRange specs raw) := by
  unfold getIrDescRange
  rw [forall₂_map_right_iff]
  refine (mappingDynamicIrDesc_rangeOf specs 0 0).imp fun spec range h => ?_
  unfold RangeOf at h ⊢
  rw [← h, Option.map_map]
  rfl

theorem length_readPlaces (cur : ℕ) (specs : List IrIOSpec) :
    (readPlaces cur specs).length = (specs.map IrIOSpec.num).sum := by
  induction specs generalizing cur with
  | nil => rfl
  | cons spec specs ih =>
    rw [map_cons, sum_cons]
    cases spec with
    | dynamic name num =>
      show (List.range num ++ readPlaces num specs).length = num + _
      rw [length_append, length_range, ih]
    | required name =>
      show (cur :: readPlaces (cur + 1) specs).length = 1 + _
      rw [length_cons, ih, add_comm]
    | optional name descValid =>
      show (cur :: readPlaces (cur + 1) specs).length = 1 + _
      rw [length_cons, ih, add_comm]

/-- No anchor is read for an instance that stands before it. -/
theorem readPlaces_le (cur : ℕ) (specs : List IrIOSpec) (i p : ℕ)
    (h : (readPlaces cur specs)[i]? = some p) : p ≤ cur + i := by
  induction specs generalizing cur i with
  | nil => exact nomatch h
  | cons spec specs ih =>
    have hone : (cur :: readPlaces (cur + 1) specs)[i]? = some p → p ≤ cur + i := by
      intro h
      cases i with
      | zero => exact Nat.le_of_eq (Option.some.inj h).symm
      | succ i =>
        have := ih (cur + 1) i h
        omega
    cases spec with
    | required name => exact hone h
    | optional name descValid => exact hone h
    | dynamic name num =>
      have h : (List.range num ++ readPlaces num specs)[i]? = some p := h
      by_cases hi : i < num
      · rw [getElem?_append_left (by rwa [length_range]), getElem?_range hi] at h
        have := Option.some.inj h
        omega
      · rw [getElem?_append_right (by rw [length_range]; omega), length_range] at h
        have := ih num (i - num) h
        omega

/-- The anchors that are written for an input with a range, from the anchor `cur` on. -/
def irAnchors (cur : ℕ) : IrIOSpec → Option (ℕ × ℕ) → ℕ × ℕ
  | .dynamic _ _, some range => range
  | .dynamic _ _, none => (cur, cur)
  | _, _ => (cur, cur + 1)

theorem irRanges_cons (total cur : ℕ) (spec : IrIOSpec) (range : Option (ℕ × ℕ))
    (rest : List (IrIOSpec × Option (ℕ × ℕ))) (rs : List (ℕ × ℕ)) :
    irRanges total cur ((spec, range) :: rest) = some rs ↔
      ((irAnchors cur spec range).1 ≤ (irAnchors cur spec range).2 ∧
        (irAnchors cur spec range).2 ≤ total) ∧
      ∃ rs', irRanges total (irAnchors cur spec range).2 rest = some rs' ∧
        rs = irAnchors cur spec range :: rs' := by
  have hanchors : irRanges total cur ((spec, range) :: rest)
      = if (irAnchors cur spec range).1 ≤ (irAnchors cur spec range).2 ∧
            (irAnchors cur spec range).2 ≤ total then
          (irRanges total (irAnchors cur spec range).2 rest).bind fun rs' =>
            some (irAnchors cur spec range :: rs')
        else none := by
    cases spec <;> cases range <;> rfl
  rw [hanchors]
  split
  · rename_i hbounds
    rw [bind_eq_some_iff]
    constructor
    · rintro ⟨rs', hrest, heq⟩
      exact ⟨hbounds, rs', hrest, (some.inj heq).symm⟩
    · rintro ⟨-, rs', hrest, rfl⟩
      exact ⟨rs', hrest, rfl⟩
  · rename_i hbounds
    constructor
    · intro h
      exact nomatch h
    · intro h
      exact absurd h.1 hbounds

variable {ranges : List (Option (ℕ × ℕ))} {specs : List IrIOSpec} {total cur : ℕ}

section

variable (hranges : Forall₂ RangeOf specs ranges)
include hranges

theorem irRanges_length {rs : List (ℕ × ℕ)} (h : irRanges total cur (specs.zip ranges) = some rs) :
    rs.length = specs.length := by
  induction hranges generalizing cur rs with
  | nil =>
    obtain rfl := some.inj h
    rfl
  | cons hspec hrest ih =>
    rw [zip_cons_cons, irRanges_cons] at h
    obtain ⟨-, rs', hrs, rfl⟩ := h
    rw [length_cons, length_cons, ih hrs]

/-- Ranges that begin with the first anchor are written with the number of instances. -/
theorem irRanges_of_startsAtZero (hzero : StartsAtZero ranges)
    (htotal : cur + (specs.map IrIOSpec.num).sum ≤ total) :
    ∃ rs, irRanges total cur (specs.zip ranges) = some rs ∧
      (rs.map fun range => range.2 - range.1) = specs.map IrIOSpec.num ∧
      (rs.flatMap fun range => range' range.1 (range.2 - range.1)) = readPlaces cur specs := by
  induction hranges generalizing cur with
  | nil => exact ⟨[], rfl, rfl, rfl⟩
  | @cons spec range specs ranges hspec hrest ih =>
    have hzero' : StartsAtZero ranges := fun r hr => hzero r (mem_cons_of_mem _ hr)
    rw [map_cons, sum_cons] at htotal
    have hone : irAnchors cur spec range = (cur, cur + 1) → spec.num = 1 →
        readPlaces cur (spec :: specs) = cur :: readPlaces (cur + 1) specs →
        ∃ rs, irRanges total cur ((spec :: specs).zip (range :: ranges)) = some rs ∧
          (rs.map fun range => range.2 - range.1) = (spec :: specs).map IrIOSpec.num ∧
          (rs.flatMap fun range => range' range.1 (range.2 - range.1))
            = readPlaces cur (spec :: specs) := by
      intro hanchors hnum hplaces
      obtain ⟨rs, hrs, hnums, hread⟩ := @ih (cur + 1) hzero' (by omega)
      refine ⟨(cur, cur + 1) :: rs, ?_, ?_, ?_⟩
      · rw [zip_cons_cons, irRanges_cons, hanchors]
        exact ⟨⟨Nat.le_succ _, show cur + 1 ≤ total by omega⟩, rs, hrs, rfl⟩
      · rw [map_cons, map_cons, hnums, hnum, Nat.add_sub_cancel_left]
      · rw [flatMap_cons, hread, hplaces, Nat.add_sub_cancel_left]
        rfl
    cases spec with
    | required name => exact hone rfl rfl rfl
    | optional name descValid => exact hone rfl rfl rfl
    | dynamic name num =>
      have htotal : cur + (num + (specs.map IrIOSpec.num).sum) ≤ total := htotal
      obtain ⟨anchors, rfl, hnum⟩ := map_eq_some_iff.mp hspec
      have hstart : anchors.1 = 0 := hzero _ mem_cons_self _ rfl
      have hanchors : anchors = (0, num) := Prod.ext hstart hnum
      obtain ⟨rs, hrs, hnums, hread⟩ := @ih num hzero' (by omega)
      refine ⟨(0, num) :: rs, ?_, ?_, ?_⟩
      · rw [zip_cons_cons, irRanges_cons, hanchors]
        exact ⟨⟨Nat.zero_le _, show num ≤ total by omega⟩, rs, hrs, rfl⟩
      · rw [map_cons, map_cons, hnums]
        rfl
      · rw [flatMap_cons, hread]
        show range' 0 (num - 0) ++ _ = List.range num ++ _
        rw [Nat.sub_zero, range_eq_range']

/-- The written numbers give the inputs back only if the ranges begin with the first anchor. -/
theorem startsAtZero_of_signature
    {rs : List (ℕ × ℕ)}
    (h : irRanges total cur (specs.zip ranges) = some rs)
    (hsig : (buildSpecs (specs.map IrIOSpec.name) (specs.map IrIOSpec.type)
      (rs.map fun range => range.2 - range.1)).map IrIOSpec.signature
        = specs.map IrIOSpec.signature) : StartsAtZero ranges := by
  induction hranges generalizing cur rs with
  | nil => exact fun _ h => absurd h not_mem_nil
  | @cons spec range specs ranges hspec hrest ih =>
    rw [zip_cons_cons, irRanges_cons] at h
    obtain ⟨hbounds, rs', hrs, rfl⟩ := h
    obtain ⟨hhead, htail⟩ := List.cons.inj hsig
    intro r hr anchors hanchors
    rcases mem_cons.mp hr with rfl | hr
    · cases spec with
      | required name =>
        rw [hanchors] at hspec
        exact nomatch hspec
      | optional name descValid =>
        rw [hanchors] at hspec
        exact nomatch hspec
      | dynamic name num =>
        -- the length of the range is the number, which is its end
        subst hanchors
        have hlen : anchors.2 - anchors.1 = num := congrArg (fun sig => sig.2.2) hhead
        have hnum : anchors.2 = num := some.inj hspec
        have hle : anchors.1 ≤ anchors.2 := hbounds.1
        omega
    · exact ih hrs htail r hr anchors hanchors

end

theorem buildSpecs_signature (specs : List IrIOSpec) :
    (buildSpecs (specs.map IrIOSpec.name) (specs.map IrIOSpec.type)
      (specs.map IrIOSpec.num)).map IrIOSpec.signature = specs.map IrIOSpec.signature := by
  induction specs with
  | nil => rfl
  | cons spec specs ih =>
    have hhead : (IrIOSpec.build spec.name spec.type spec.num).signature = spec.signature := by
      cases spec <;> rfl
    show (IrIOSpec.build spec.name spec.type spec.num).signature :: _ = _
    rw [hhead, map_cons]
    congr 1

/-! ## Gaps

Edges are counted without the inputs that have no source, so what comes back has no gap. -/

section Gaps

variable {α : Type}

/-- No input without a source stands before one that has a source. -/
def NoGap (l : List (Option α)) : Prop := l.Pairwise fun a b => b.isSome → a.isSome

instance (l : List (Option α)) : Decidable (NoGap l) :=
  inferInstanceAs (Decidable (l.Pairwise fun a b => b.isSome → a.isSome))

/-- The sources moved to the front. -/
def compact (l : List (Option α)) : List (Option α) :=
  l.filter isSome ++ replicate (l.length - (l.filter isSome).length) none

theorem compact_noGap (l : List (Option α)) : NoGap (compact l) := by
  unfold NoGap compact
  rw [pairwise_append]
  refine ⟨?_, ?_, ?_⟩
  · rw [pairwise_iff_forall_sublist]
    intro a b hsub _
    have hmem : a ∈ l.filter isSome := hsub.subset mem_cons_self
    exact (mem_filter.mp hmem).2
  · rw [pairwise_replicate]
    exact .inr fun h => h
  · intro a ha b _ _
    exact (mem_filter.mp ha).2

/-- Nothing moves when the sources are in front already. -/
theorem compact_eq_self {l : List (Option α)}
    (hfront : ∀ i < (l.filter isSome).length, (l[i]?).join.isSome) : compact l = l := by
  have htake : ∀ a ∈ l.take (l.filter isSome).length, a.isSome := by
    intro a ha
    obtain ⟨i, hi⟩ := mem_iff_getElem?.mp ha
    rw [getElem?_take] at hi
    split at hi
    · rename_i hlt
      have := hfront i hlt
      rwa [hi] at this
    · exact nomatch hi
  have hsplit := take_append_drop (l.filter isSome).length l
  have hfilter : (l.take (l.filter isSome).length).filter isSome
      ++ (l.drop (l.filter isSome).length).filter isSome
        = l.filter isSome := by
    rw [← filter_append, hsplit]
  rw [filter_eq_self.mpr htake] at hfilter
  -- the front holds all of them, so that nothing is left behind it
  have hdrop : (l.drop (l.filter isSome).length).filter isSome = [] := by
    have hlen := congrArg length hfilter
    have hle := length_filter_le isSome l
    rw [length_append, length_take] at hlen
    apply eq_nil_of_length_eq_zero
    omega
  have hnone : l.drop (l.filter isSome).length
      = replicate (l.length - (l.filter isSome).length) none := by
    rw [eq_replicate_iff, length_drop]
    refine ⟨rfl, fun a ha => ?_⟩
    rw [filter_eq_nil_iff] at hdrop
    exact not_isSome_iff_eq_none.mp (hdrop a ha)
  rw [hdrop, append_nil] at hfilter
  unfold compact
  rw [← hnone]
  nth_rewrite 1 [← hfilter]
  exact hsplit

theorem isSome_of_noGap {l : List (Option α)} (h : NoGap l) :
    ∀ i < (l.filter isSome).length, (l[i]?).join.isSome := by
  induction l with
  | nil =>
    intro i hi
    exact absurd hi (Nat.not_lt_zero i)
  | cons a l ih =>
    obtain ⟨hhead, htail⟩ := pairwise_cons.mp h
    intro i hi
    cases a with
    | none =>
      have hnil : l.filter isSome = [] := by
        rw [filter_eq_nil_iff]
        intro b hb hsome
        exact absurd (hhead b hb hsome) (by simp)
      rw [filter_cons_of_neg (by simp), hnil] at hi
      exact absurd hi (Nat.not_lt_zero i)
    | some a =>
      cases i with
      | zero => rfl
      | succ i =>
        rw [filter_cons_of_pos (by simp), length_cons] at hi
        exact ih htail i (Nat.lt_of_succ_lt_succ hi)

/-- The sources that are read for the anchors, when anchor `places[i]` is read for the `i`-th. -/
def reread (peers : List (Option α)) (places : List ℕ) : List (Option α) :=
  places.map fun place => (peers[place]?).join

/-- When no anchor is read for one before it, the edges come back only if each is read from its own
anchor and there is no gap. -/
theorem compact_reread_iff {peers : List (Option α)} {places : List ℕ}
    (hle : ∀ i p : ℕ, places[i]? = some p → p ≤ i) :
    compact (reread peers places) = peers ↔ NoGap peers ∧ reread peers places = peers := by
  constructor
  · intro h
    have hgap : NoGap peers := h ▸ compact_noGap _
    refine ⟨hgap, ?_⟩
    have hcount : (peers.filter isSome).length
        = ((reread peers places).filter isSome).length := by
      have hrest : (replicate ((reread peers places).length
          - ((reread peers places).filter isSome).length) (none : Option α)).filter
            isSome = [] := by
        rw [filter_eq_nil_iff]
        intro a ha hsome
        rw [(mem_replicate.mp ha).2] at hsome
        exact nomatch hsome
      conv_lhs => rw [← h]
      unfold compact
      rw [filter_append, hrest, append_nil, List.filter_filter]
      simp only [Bool.and_self]
    have hself : compact (reread peers places) = reread peers places := by
      apply compact_eq_self
      intro i hi
      have hlt : i < places.length := by
        have := length_filter_le isSome (reread peers places)
        unfold reread at hi this
        rw [length_map] at this
        omega
      have hplace := hle i _ (getElem?_eq_getElem hlt)
      unfold reread
      rw [getElem?_map, getElem?_eq_getElem hlt]
      exact isSome_of_noGap hgap _ (by omega)
    exact hself.symm.trans h
  · rintro ⟨hgap, hread⟩
    rw [hread]
    exact compact_eq_self (isSome_of_noGap hgap)

end Gaps

/-! ## Messages of nodes -/

theorem inputSources_eq (peers : List (Option (String × ℕ))) (ranges : List (ℕ × ℕ)) :
    inputSources peers ranges
      = (reread peers (ranges.flatMap fun range =>
          range' range.1 (range.2 - range.1))).map sourceDef := by
  unfold inputSources reread
  rw [List.map_map, map_flatMap]
  rfl

theorem connected_map_sourceDef {l : List (Option (String × ℕ))}
    (hnamed : ∀ src, some src ∈ l → src.1 ≠ "") :
    connected (l.map sourceDef) = (l.filter isSome).map sourceDef := by
  unfold connected
  rw [List.filter_map]
  congr 1
  apply filter_congr
  intro src hsrc
  cases src with
  | none => rfl
  | some src =>
    have hname : src.1 ≠ "" := hnamed src hsrc
    simp [sourceDef, hname]

theorem serializeNode_iff {node : AscNode E V} {msg : AscNodeDef V} :
    serializeNode text node = some msg ↔ ∃ inputRanges outputRanges,
      irRanges node.peers.length 0 (node.irInputs.zip (getIrDescRange node.irInputs false))
        = some inputRanges ∧
      irRanges node.outputs.length 0 (node.irOutputs.zip (getIrDescRange node.irOutputs true))
        = some outputRanges ∧
      nodeDef text node inputRanges outputRanges = msg := by
  unfold serializeNode
  simp only [bind_eq_bind, bind_eq_some_iff, Option.pure_def, some.injEq]
  constructor
  · rintro ⟨inputRanges, hin, outputRanges, hout, hmsg⟩
    exact ⟨inputRanges, outputRanges, hin, hout, hmsg⟩
  · rintro ⟨inputRanges, outputRanges, hin, hout, hmsg⟩
    exact ⟨inputRanges, hin, outputRanges, hout, hmsg⟩

theorem serializeNode_lengthsAgree {node : AscNode E V} {msg : AscNodeDef V}
    (h : serializeNode text node = some msg) : LengthsAgree msg := by
  obtain ⟨inputRanges, outputRanges, hin, hout, rfl⟩ := serializeNode_iff.mp h
  have hinputs := irRanges_length (getIrDescRange_rangeOf _ _) hin
  have houtputs := irRanges_length (getIrDescRange_rangeOf _ _) hout
  unfold LengthsAgree nodeDef
  simp only [length_map]
  exact ⟨hinputs, hinputs, houtputs, houtputs⟩

/-- A node has an anchor for each instance of its IR. -/
structure AnchorsFit (node : AscNode E V) : Prop where
  peers : node.peers.length = (node.irInputs.map IrIOSpec.num).sum
  outputs : node.outputs.length = (node.irOutputs.map IrIOSpec.num).sum

variable (text) in
/-- A message has the name, the numbers and the anchors of its node. -/
structure Faithful (node : AscNode E V) (msg : AscNodeDef V) : Prop where
  name : msg.attr.name = node.name
  type : msg.irDef.type = node.type
  irInputs : (fresh (E := E) msg).irInputs.map IrIOSpec.signature
    = node.irInputs.map IrIOSpec.signature
  irOutputs : (fresh (E := E) msg).irOutputs.map IrIOSpec.signature
    = node.irOutputs.map IrIOSpec.signature
  inputSrc : msg.inputSrc = (reread node.peers (readPlaces 0 node.irInputs)).map sourceDef
  outputs : msg.outputs = node.outputs.map (AscTensorAttr.serializeAttr text)
  attr : msg.attr = node.attr.serializeAttr text

theorem sum_num_of_signature {specs specs' : List IrIOSpec}
    (h : specs'.map IrIOSpec.signature = specs.map IrIOSpec.signature) :
    (specs'.map IrIOSpec.num).sum = (specs.map IrIOSpec.num).sum := by
  have hnum : ∀ l : List IrIOSpec,
      l.map IrIOSpec.num = (l.map IrIOSpec.signature).map fun sig => sig.2.2 := by
    intro l
    rw [List.map_map]
    rfl
  rw [hnum, hnum specs, h]

section Node

variable {node : AscNode E V} {msg : AscNodeDef V}

theorem exists_faithful (hfit : AnchorsFit node) (hname : node.attr.name = node.name)
    (hin : StartsAtZero (getIrDescRange node.irInputs false))
    (hout : StartsAtZero (getIrDescRange node.irOutputs true)) :
    ∃ msg, serializeNode text node = some msg ∧ Faithful text node msg := by
  obtain ⟨inputRanges, hinRanges, hinNums, hread⟩ := irRanges_of_startsAtZero
    (getIrDescRange_rangeOf node.irInputs false) hin
    (show 0 + _ ≤ node.peers.length from Nat.le_of_eq ((Nat.zero_add _).trans hfit.peers.symm))
  obtain ⟨outputRanges, houtRanges, houtNums, -⟩ := irRanges_of_startsAtZero
    (getIrDescRange_rangeOf node.irOutputs true) hout
    (show 0 + _ ≤ node.outputs.length from
      Nat.le_of_eq ((Nat.zero_add _).trans hfit.outputs.symm))
  refine ⟨nodeDef text node inputRanges outputRanges,
    serializeNode_iff.mpr ⟨_, _, hinRanges, houtRanges, rfl⟩, hname, rfl, ?_, ?_, ?_, rfl, rfl⟩
  · show (buildSpecs _ _ (inputRanges.map fun range => range.2 - range.1)).map _ = _
    rw [hinNums]
    exact buildSpecs_signature node.irInputs
  · show (buildSpecs _ _ (outputRanges.map fun range => range.2 - range.1)).map _ = _
    rw [houtNums]
    exact buildSpecs_signature node.irOutputs
  · show inputSources node.peers inputRanges = _
    rw [inputSources_eq, hread]

/-- When the IR comes back, the message was faithful. -/
theorem startsAtZero_of_serializeNode (h : serializeNode text node = some msg)
    (hin : (fresh (E := E) msg).irInputs.map IrIOSpec.signature
      = node.irInputs.map IrIOSpec.signature)
    (hout : (fresh (E := E) msg).irOutputs.map IrIOSpec.signature
      = node.irOutputs.map IrIOSpec.signature) :
    StartsAtZero (getIrDescRange node.irInputs false) ∧
      StartsAtZero (getIrDescRange node.irOutputs true) := by
  obtain ⟨inputRanges, outputRanges, hinRanges, houtRanges, rfl⟩ := serializeNode_iff.mp h
  exact ⟨startsAtZero_of_signature (getIrDescRange_rangeOf _ _) hinRanges hin,
    startsAtZero_of_signature (getIrDescRange_rangeOf _ _) houtRanges hout⟩

namespace Faithful

section

variable (h : Faithful text node msg)
include h

theorem inputNum_eq (hfit : AnchorsFit node) : inputNum msg = node.peers.length :=
  (sum_num_of_signature h.irInputs).trans hfit.peers.symm

theorem outputNum_eq (hfit : AnchorsFit node) : outputNum msg = node.outputs.length :=
  (sum_num_of_signature h.irOutputs).trans hfit.outputs.symm

theorem outputs_length (hfit : AnchorsFit node) : msg.outputs.length ≤ outputNum msg := by
  have hlen : msg.outputs.length = outputNum msg := by
    rw [h.outputNum_eq hfit, h.outputs, length_map]
  exact Nat.le_of_eq hlen

theorem readOutputAttrs_eq (hfit : AnchorsFit node) :
    readOutputAttrs text msg = node.outputs.map fun out =>
      { out with mem := { out.mem with reuseId := kIdNone } } := by
  unfold readOutputAttrs
  rw [h.outputNum_eq hfit, h.outputs, length_map, Nat.sub_self, replicate_zero,
    append_nil, List.map_map]
  apply map_congr_left
  intro out _
  exact AscTensorAttr.deserializeAttr_serializeAttr out

theorem connected_eq (hnamed : ∀ src, some src ∈ node.peers → src.1 ≠ "") :
    connected msg.inputSrc
      = ((reread node.peers (readPlaces 0 node.irInputs)).filter isSome).map sourceDef := by
  rw [h.inputSrc]
  apply connected_map_sourceDef
  intro src hsrc
  obtain ⟨place, -, hplace⟩ := List.mem_map.mp hsrc
  exact hnamed src (mem_of_getElem? (join_eq_some_iff.mp hplace))

theorem peers_eq (hfit : AnchorsFit node)
    (hnamed : ∀ src, some src ∈ node.peers → src.1 ≠ "") (v : View E) :
    (readNode text v msg).peers
      = compact (reread node.peers (readPlaces 0 node.irInputs)) := by
  show (connected msg.inputSrc).map _ ++ replicate (inputNum msg - _) none = _
  have hlen : (reread node.peers (readPlaces 0 node.irInputs)).length = node.peers.length := by
    unfold reread
    rw [length_map, length_readPlaces, hfit.peers]
  unfold compact
  rw [h.connected_eq hnamed, h.inputNum_eq hfit, length_map, List.map_map, hlen]
  congr 1
  refine (map_congr_left fun src hsrc => ?_).trans (List.map_id _)
  obtain ⟨src, rfl⟩ := isSome_iff_exists.mp (mem_filter.mp hsrc).2
  rfl

end

end Faithful

end Node

/-! ## Graphs -/

/-- The nodes are the same, with the instances of their IR, the sources of their anchors, their
attributes and those of their outputs. -/
structure SameNode (node node' : AscNode E V) : Prop where
  name : node'.name = node.name
  type : node'.type = node.type
  irInputs : node'.irInputs.map IrIOSpec.signature = node.irInputs.map IrIOSpec.signature
  irOutputs : node'.irOutputs.map IrIOSpec.signature = node.irOutputs.map IrIOSpec.signature
  peers : node'.peers = node.peers
  attr : node'.attr = node.attr
  outputs : node'.outputs = node.outputs

/-- A graph comes back: its attributes and its nodes in order are the same, and an input with a
source has the attributes of that output. -/
structure Survives (g g' : AscGraph E V T) : Prop where
  name : g'.name = g.name
  attr : g'.attr = g.attr
  nodes : Forall₂ SameNode g.nodes g'.nodes
  inputs : ∀ node ∈ g'.nodes, ∀ (i : ℕ) src, node.peers[i]? = some (some src) →
    node.inputs[i]? = sourceAttr (view g'.nodes) (sourceDef (some src))

/-- Nodes have distinct names, and each source is an output of a node. -/
structure WellFormed (g : AscGraph E V T) : Prop where
  nodup : (g.nodes.map AscNode.name).Nodup
  named : ∀ node ∈ g.nodes, node.name ≠ ""
  fit : ∀ node ∈ g.nodes, AnchorsFit node
  sources : ∀ node ∈ g.nodes, ∀ src, some src ∈ node.peers →
    (sourceAttr (view g.nodes) (sourceDef (some src))).isSome

/-- A size variable that is its expression only. -/
def SizeVar.Plain (var : SizeVar E) : Prop := var = { expr := var.expr }

/-- What the message of a graph can hold. -/
structure AttrWritten (attr : AscGraphAttr E T) : Prop where
  transInfoRoad : attr.transInfoRoad = []
  sizeVars : ∀ var ∈ attr.sizeVars, var.Plain

/-- What the message of a node can hold: no field is used that is not written, and the anchors are
read from the places where they stand. -/
structure NodeWritten (node : AscNode E V) : Prop where
  name : node.attr.name = node.name
  execOrder : node.attr.sched.execOrder = kIdNone
  reuseId : ∀ out ∈ node.outputs, out.mem.reuseId = kIdNone
  irInputs : StartsAtZero (getIrDescRange node.irInputs false)
  irOutputs : StartsAtZero (getIrDescRange node.irOutputs true)
  noGap : NoGap node.peers
  places : reread node.peers (readPlaces 0 node.irInputs) = node.peers

/-- A source stands before the nodes it feeds, or has no attributes that differ from new ones. -/
def SourcesFirst (nodes : List (AscNode E V)) : Prop :=
  ∀ (p : ℕ) node, nodes[p]? = some node → ∀ src, some src ∈ node.peers →
    ∀ (q : ℕ) srcNode, nodes[q]? = some srcNode → srcNode.name = src.1 →
      q ≤ p ∨ srcNode.outputs[src.2]? = some {}

structure Serializable (g : AscGraph E V T) : Prop where
  attr : AttrWritten g.attr
  nodes : ∀ node ∈ g.nodes, NodeWritten node
  order : SourcesFirst g.nodes

/-! ## Attributes -/

theorem map_plain_iff (vars : List (SizeVar E)) :
    (vars.map fun var => ({ expr := var.expr } : SizeVar E)) = vars ↔
      ∀ var ∈ vars, var.Plain := by
  induction vars with
  | nil => simp
  | cons var vars ih =>
    rw [map_cons, List.cons.injEq, ih, forall_mem_cons]
    exact and_congr_left' eq_comm

theorem attr_survives_iff (attr : AscGraphAttr E T) :
    AscGraphAttr.deserializeAttr text (attr.serializeAttr text) {} = attr ↔
      AttrWritten attr := by
  rw [AscGraphAttr.deserializeAttr_serializeAttr]
  constructor
  · intro h
    have hroad := congrArg AscGraphAttr.transInfoRoad h
    have hvars := congrArg AscGraphAttr.sizeVars h
    exact ⟨hroad.symm, (map_plain_iff _).mp hvars⟩
  · rintro ⟨hroad, hvars⟩
    have hvars := (map_plain_iff _).mpr hvars
    obtain ⟨tilingKey, axis, transInfoRoad, sizeVars, type⟩ := attr
    simp only at hroad hvars
    simp [hroad, hvars]

/-- The axes and the size variables of a copy are those of the source when the destination had
none. -/
theorem doCopyAscGraphAttr_iff (src dst : AscGraphAttr E T) :
    ((doCopyAscGraphAttr text src dst).axis = src.axis ∧
      (doCopyAscGraphAttr text src dst).sizeVars = src.sizeVars) ↔
      dst.axis = [] ∧ dst.sizeVars = [] ∧ ∀ var ∈ src.sizeVars, var.Plain := by
  unfold doCopyAscGraphAttr
  rw [AscGraphAttr.deserializeAttr_serializeAttr]
  show (dst.axis ++ src.axis = src.axis ∧ dst.sizeVars ++ _ = src.sizeVars) ↔ _
  refine and_congr append_left_eq_self ?_
  constructor
  · intro h
    have hlen := congrArg length h
    rw [length_append, length_map] at hlen
    have hnil : dst.sizeVars = [] := eq_nil_of_length_eq_zero (by omega)
    rw [hnil, nil_append] at h
    exact ⟨hnil, (map_plain_iff _).mp h⟩
  · rintro ⟨hnil, hvars⟩
    rw [hnil, nil_append]
    exact (map_plain_iff _).mpr hvars

/-! ## Nodes -/

theorem attr_execOrder_iff (attr : AscNodeAttr E V) :
    { attr with sched := { attr.sched with execOrder := kIdNone } } = attr ↔
      attr.sched.execOrder = kIdNone := by
  constructor
  · intro h
    have := congrArg (fun a : AscNodeAttr E V => a.sched.execOrder) h
    exact this.symm
  · intro h
    rw [← h]

theorem outputs_reuseId_iff (outs : List (AscTensorAttr E)) :
    (outs.map fun out => { out with mem := { out.mem with reuseId := kIdNone } }) = outs ↔
      ∀ out ∈ outs, out.mem.reuseId = kIdNone := by
  induction outs with
  | nil => simp
  | cons out outs ih =>
    rw [map_cons, List.cons.injEq, ih, forall_mem_cons]
    apply and_congr_left'
    constructor
    · intro h
      have := congrArg (fun a : AscTensorAttr E => a.mem.reuseId) h
      exact this.symm
    · intro h
      rw [← h]

/-- When a node of a faithful message is the node that was written. -/
theorem Faithful.sameNode_iff {node : AscNode E V} {msg : AscNodeDef V} (h : Faithful text node msg)
    (hfit : AnchorsFit node) (hnamed : ∀ src, some src ∈ node.peers → src.1 ≠ "") (v : View E) :
    SameNode node (readNode text v msg) ↔
      node.attr.sched.execOrder = kIdNone ∧ (∀ out ∈ node.outputs, out.mem.reuseId = kIdNone) ∧
        NoGap node.peers ∧ reread node.peers (readPlaces 0 node.irInputs) = node.peers := by
  have hattr : (readNode text v msg).attr
      = { node.attr with sched := { node.attr.sched with execOrder := kIdNone } } := by
    show AscNodeAttr.deserializeAttr text msg.attr _ = _
    rw [h.attr]
    exact AscNodeAttr.deserializeAttr_serializeAttr node.attr _ _
  have houtputs : (readNode text v msg).outputs = _ := h.readOutputAttrs_eq hfit
  have hpeers := h.peers_eq hfit hnamed v
  have hle : ∀ i p : ℕ, (readPlaces 0 node.irInputs)[i]? = some p → p ≤ i := by
    intro i p hp
    have := readPlaces_le 0 node.irInputs i p hp
    omega
  rw [← attr_execOrder_iff, ← outputs_reuseId_iff, ← compact_reread_iff hle, ← hattr, ← houtputs,
    ← hpeers]
  constructor
  · intro hsame
    exact ⟨hsame.attr, hsame.outputs, hsame.peers⟩
  · rintro ⟨hattr, houtputs, hpeers⟩
    exact ⟨h.name, h.type, h.irInputs, h.irOutputs, hpeers, hattr, houtputs⟩

/-- The attributes that an input gets. -/
theorem Faithful.inputs_getElem? {node : AscNode E V} {msg : AscNodeDef V}
    (h : Faithful text node msg) (hnamed : ∀ src, some src ∈ node.peers → src.1 ≠ "")
    (hgap : NoGap node.peers) (hplaces : reread node.peers (readPlaces 0 node.irInputs) = node.peers)
    (v : View E) {i : ℕ} {src : String × ℕ} (hsrc : node.peers[i]? = some (some src)) :
    (readNode text v msg).inputs[i]? = some ((sourceAttr v (sourceDef (some src))).getD {}) := by
  have hself := compact_eq_self (isSome_of_noGap hgap)
  have hfront : (node.peers.filter isSome)[i]? = some (some src) := by
    rw [← hself] at hsrc
    unfold compact at hsrc
    by_cases hi : i < (node.peers.filter isSome).length
    · rwa [getElem?_append_left hi] at hsrc
    · -- behind the front no anchor has a source
      rw [getElem?_append_right (Nat.not_lt.mp hi)] at hsrc
      have := eq_of_mem_replicate (mem_of_getElem? hsrc)
      exact nomatch this
  have hconn : (connected msg.inputSrc)[i]? = some (sourceDef (some src)) := by
    rw [h.connected_eq hnamed, hplaces, getElem?_map, hfront]
    rfl
  show ((connected msg.inputSrc).map _ ++ _)[i]? = _
  obtain ⟨hlt, -⟩ := List.getElem?_eq_some_iff.mp hconn
  rw [getElem?_append_left (by rwa [length_map]), getElem?_map, hconn]
  rfl

/-! ## Sources in the graph -/

theorem sourceAttr_of_getElem? {v : View E} (hnodup : (v.map Prod.fst).Nodup)
    {src : AscInputSourceDef} {q : ℕ} {entry : String × List (AscTensorAttr E)}
    (hq : v[q]? = some entry) (hname : entry.1 = src.srcNodeName) :
    sourceAttr v src = entry.2[src.srcOutIndex]? := by
  have hfind : (v.find? fun entry => entry.1 = src.srcNodeName) = some entry := by
    induction v generalizing q with
    | nil => exact nomatch hq
    | cons head v ih =>
      rw [map_cons, nodup_cons] at hnodup
      cases q with
      | zero =>
        obtain rfl := some.inj hq
        exact find?_cons_of_pos (by simpa using hname)
      | succ q =>
        have hhead : head.1 ≠ src.srcNodeName := by
          intro heq
          apply hnodup.1
          rw [heq, ← hname]
          exact List.mem_map_of_mem (mem_of_getElem? hq)
        rw [find?_cons_of_neg (by simpa using hhead)]
        exact ih hnodup.2 hq
  unfold sourceAttr
  rw [hfind]
  rfl

variable {nodes : List (AscNode E V)}

theorem exists_source {src : AscInputSourceDef} (h : (sourceAttr (view nodes) src).isSome) :
    ∃ (q : ℕ) (srcNode : AscNode E V) (a : AscTensorAttr E), nodes[q]? = some srcNode ∧ srcNode.name = src.srcNodeName ∧
      srcNode.outputs[src.srcOutIndex]? = some a := by
  rw [sourceAttr_view] at h
  obtain ⟨a, ha⟩ := isSome_iff_exists.mp h
  obtain ⟨srcNode, hfind, hout⟩ := bind_eq_some_iff.mp ha
  obtain ⟨q, hq⟩ := mem_iff_getElem?.mp (mem_of_find?_eq_some hfind)
  exact ⟨q, srcNode, a, hq, by simpa using find?_some hfind, hout⟩

theorem viewAt_getElem? (msgs : List (AscNodeDef V)) (p q : ℕ) :
    (viewAt text msgs p)[q]? = (msgs[q]?).map fun msg =>
      (msg.attr.name, if q ≤ p then readOutputAttrs text msg
        else replicate (outputNum msg) {}) := by
  unfold viewAt
  by_cases hq : q ≤ p
  · simp only [if_pos hq]
    by_cases hlen : q < msgs.length
    · rw [getElem?_append_left (by rw [length_map, length_take]; omega),
        getElem?_map, getElem?_take_of_lt (by omega)]
    · have hall : msgs.drop (p + 1) = [] := drop_eq_nil_of_le (by omega)
      rw [hall, map_nil, append_nil, take_of_length_le (by omega),
        getElem?_map]
  · simp only [if_neg hq]
    by_cases hlen : q < msgs.length
    · rw [getElem?_append_right (by rw [length_map, length_take]; omega),
        getElem?_map, getElem?_drop, length_map, length_take]
      congr 2
      omega
    · rw [getElem?_eq_none (by simp; omega), getElem?_eq_none (by omega)]
      rfl

theorem forall₂_getElem? {α β : Type} {r : α → β → Prop} {as : List α} {bs : List β}
    (h : Forall₂ r as bs) {i : ℕ} {a : α} (ha : as[i]? = some a) :
    ∃ b, bs[i]? = some b ∧ r a b := by
  induction h generalizing i with
  | nil => exact nomatch ha
  | cons hr _ ih =>
    cases i with
    | zero =>
      obtain rfl := some.inj ha
      exact ⟨_, rfl, hr⟩
    | succ i => exact ih ha

theorem map_eq_of_forall₂ {α β γ : Type} {r : α → β → Prop} {f : α → γ} {f' : β → γ} {as : List α}
    {bs : List β} (h : Forall₂ r as bs) (hr : ∀ a b, r a b → f' b = f a) :
    bs.map f' = as.map f := by
  induction h with
  | nil => rfl
  | cons hab _ ih => rw [map_cons, map_cons, ih, hr _ _ hab]

section Graph

variable {g : AscGraph E V T} {msgs : List (AscNodeDef V)}

theorem Faithful.map_name (h : Forall₂ (Faithful text) nodes msgs) :
    (msgs.map fun msg => msg.attr.name) = nodes.map AscNode.name :=
  map_eq_of_forall₂ h fun _ _ hmsg => hmsg.name

theorem WellFormed.source_named (hwf : WellFormed g) {node : AscNode E V} (hnode : node ∈ g.nodes) :
    ∀ src, some src ∈ node.peers → src.1 ≠ "" := by
  intro src hsrc
  obtain ⟨q, srcNode, -, hq, hname, -⟩ := exists_source (hwf.sources node hnode src hsrc)
  have hname : srcNode.name = src.1 := hname
  rw [← hname]
  exact hwf.named srcNode (mem_of_getElem? hq)

/-- The messages of a graph can be linked: their sources are sources of the graph. -/
theorem WellFormed.linkable (hwf : WellFormed g) (h : Forall₂ (Faithful text) g.nodes msgs) :
    ∀ msg ∈ msgs, Linkable (view (E := E) (msgs.map fresh)) msg := by
  have hshape : (view (E := E) (msgs.map fresh)).map (fun entry => (entry.1, entry.2.length))
      = (view g.nodes).map fun entry => (entry.1, entry.2.length) := by
    have hfit := hwf.fit
    generalize g.nodes = nodes at h hfit
    induction h with
    | nil => rfl
    | cons hmsg _ ih =>
      have hnode := hfit _ mem_cons_self
      have hrest := ih fun node hnode => hfit node (mem_cons_of_mem _ hnode)
      unfold view at hrest ⊢
      rw [map_cons, map_cons, map_cons, map_cons, map_cons, hrest]
      congr 2
      · exact hmsg.name
      · show (replicate _ _).length = _
        rw [length_replicate, hmsg.outputNum_eq hnode]
  intro msg hmsg
  obtain ⟨p, hp⟩ := mem_iff_getElem?.mp hmsg
  obtain ⟨node, hnode, hfaithful⟩ := forall₂_getElem? h.flip hp
  have hmem := mem_of_getElem? hnode
  have hsources := hwf.sources node hmem
  have hconn := hfaithful.connected_eq (hwf.source_named hmem)
  constructor
  · intro src hsrc
    rw [hconn] at hsrc
    obtain ⟨peer, hpeer, rfl⟩ := List.mem_map.mp hsrc
    obtain ⟨hread, hsome⟩ := mem_filter.mp hpeer
    obtain ⟨peer, rfl⟩ := isSome_iff_exists.mp hsome
    obtain ⟨place, -, hplace⟩ := List.mem_map.mp hread
    rw [sourceAttr_isSome_congr _ hshape]
    exact hsources peer (mem_of_getElem? (join_eq_some_iff.mp hplace))
  · have hlen : (reread node.peers (readPlaces 0 node.irInputs)).length = inputNum msg := by
      unfold reread
      rw [length_map, length_readPlaces, hfaithful.inputNum_eq (hwf.fit node hmem),
        (hwf.fit node hmem).peers]
    rw [hconn, length_map, ← hlen]
    exact length_filter_le _ _

variable (text) in
/-- The graph that is read from the messages of the nodes. -/
def readGraph (g : AscGraph E V T) (msgs : List (AscNodeDef V)) : AscGraph E V T where
  name := g.name
  attr := AscGraphAttr.deserializeAttr text (g.attr.serializeAttr text) {}
  nodes := msgs.zipIdx.map fun entry => readNode text (viewAt text msgs entry.2) entry.1

theorem readGraph_getElem? (p : ℕ) :
    (readGraph text g msgs).nodes[p]?
      = (msgs[p]?).map fun msg => readNode text (viewAt text msgs p) msg := by
  show (msgs.zipIdx.map _)[p]? = _
  rw [getElem?_map, getElem?_zipIdx, Option.map_map, Nat.zero_add]
  rfl

theorem view_readGraph :
    view (readGraph text g msgs).nodes
      = msgs.map fun msg => (msg.attr.name, readOutputAttrs text msg) := by
  apply ext_getElem?
  intro p
  unfold view
  rw [getElem?_map, readGraph_getElem?, getElem?_map, Option.map_map]
  rfl

theorem WellFormed.deserializeFromProto_eq (hwf : WellFormed g)
    (hagree : ∀ m ∈ msgs, LengthsAgree m) (h : Forall₂ (Faithful text) g.nodes msgs) :
    deserializeFromProto text
        { ascGraphAttr := g.attr.serializeAttr text, ascNode := msgs, graphName := g.name }
      = some (readGraph text g msgs) := by
  have hnames := Faithful.map_name h
  have hnamed : ∀ m ∈ msgs, m.attr.name ≠ "" := by
    intro m hm
    have hmem : m.attr.name ∈ g.nodes.map AscNode.name := by
      rw [← hnames]
      exact List.mem_map_of_mem hm
    obtain ⟨node, hnode, heq⟩ := List.mem_map.mp hmem
    rw [← heq]
    exact hwf.named node hnode
  have hfit : ∀ m ∈ msgs, m.outputs.length ≤ outputNum m := by
    intro m hm
    obtain ⟨p, hp⟩ := mem_iff_getElem?.mp hm
    obtain ⟨node, hnode, hfaithful⟩ := forall₂_getElem? h.flip hp
    exact hfaithful.outputs_length (hwf.fit node (mem_of_getElem? hnode))
  rw [AscIr.deserializeFromProto_eq _ hagree (hnames ▸ hwf.nodup) hnamed,
    if_pos ⟨hwf.linkable h, hfit⟩]
  rfl

/-- An input gets the attributes of its source when the source is read before, or has those of a
new output. -/
theorem WellFormed.input_iff (hwf : WellFormed g) (h : Forall₂ (Faithful text) g.nodes msgs)
    (hreuse : ∀ node ∈ g.nodes, ∀ out ∈ node.outputs, out.mem.reuseId = kIdNone)
    {p q : ℕ} {src : String × ℕ} {srcNode : AscNode E V} (hq : g.nodes[q]? = some srcNode)
    (hname : srcNode.name = src.1) (hout : (srcNode.outputs[src.2]?).isSome) :
    some ((sourceAttr (viewAt text msgs p) (sourceDef (some src))).getD {})
        = sourceAttr (view (readGraph text g msgs).nodes) (sourceDef (some src)) ↔
      q ≤ p ∨ srcNode.outputs[src.2]? = some {} := by
  obtain ⟨msg, hmsg, hfaithful⟩ := forall₂_getElem? h hq
  have hmem := mem_of_getElem? hq
  have hnames := Faithful.map_name h
  have hfinal : readOutputAttrs text msg = srcNode.outputs := by
    rw [hfaithful.readOutputAttrs_eq (hwf.fit srcNode hmem)]
    exact (outputs_reuseId_iff _).mpr (hreuse srcNode hmem)
  have hnodupAt : ((viewAt text msgs p).map Prod.fst).Nodup := by
    have hfst : (viewAt text msgs p).map Prod.fst = msgs.map fun msg => msg.attr.name := by
      apply ext_getElem?
      intro i
      rw [getElem?_map, viewAt_getElem?, Option.map_map, getElem?_map]
      rfl
    rw [hfst, hnames]
    exact hwf.nodup
  have hnodup : ((view (readGraph text g msgs).nodes).map Prod.fst).Nodup := by
    rw [view_readGraph, List.map_map]
    exact hnames ▸ hwf.nodup
  have hat : (viewAt text msgs p)[q]? = some (msg.attr.name, if q ≤ p then srcNode.outputs
      else replicate (outputNum msg) {}) := by
    rw [viewAt_getElem?, hmsg, map_some, hfinal]
  have hend : (view (readGraph text g msgs).nodes)[q]? = some (msg.attr.name, srcNode.outputs) := by
    rw [view_readGraph, getElem?_map, hmsg, map_some, hfinal]
  have hsrc : msg.attr.name = (sourceDef (some src)).srcNodeName := hfaithful.name.trans hname
  rw [sourceAttr_of_getElem? hnodupAt hat hsrc, sourceAttr_of_getElem? hnodup hend hsrc]
  show some (Option.getD (_)[src.2]? {}) = srcNode.outputs[src.2]? ↔ _
  obtain ⟨a, ha⟩ := isSome_iff_exists.mp hout
  obtain ⟨hlt, -⟩ := List.getElem?_eq_some_iff.mp ha
  by_cases hqp : q ≤ p
  · rw [if_pos hqp, ha]
    exact iff_of_true rfl (.inl hqp)
  -- the source is still new
  rw [if_neg hqp, hfaithful.outputNum_eq (hwf.fit srcNode hmem), getElem?_replicate,
    if_pos hlt]
  constructor
  · intro heq
    exact .inr heq.symm
  · rintro (hle | heq)
    · exact absurd hle hqp
    · exact heq.symm

/-- When the graph that is read from faithful messages is the one that was written. -/
theorem WellFormed.survives_iff (hwf : WellFormed g) (h : Forall₂ (Faithful text) g.nodes msgs) :
    Survives g (readGraph text g msgs) ↔ AttrWritten g.attr ∧
      (∀ node ∈ g.nodes, node.attr.sched.execOrder = kIdNone ∧
        (∀ out ∈ node.outputs, out.mem.reuseId = kIdNone) ∧ NoGap node.peers ∧
          reread node.peers (readPlaces 0 node.irInputs) = node.peers) ∧
      SourcesFirst g.nodes := by
  -- what comes back at the place of a node
  have hback : ∀ (p : ℕ) node, g.nodes[p]? = some node → ∃ msg, Faithful text node msg ∧
      (readGraph text g msgs).nodes[p]? = some (readNode text (viewAt text msgs p) msg) := by
    intro p node hnode
    obtain ⟨msg, hmsg, hfaithful⟩ := forall₂_getElem? h hnode
    exact ⟨msg, hfaithful, by rw [readGraph_getElem?, hmsg, map_some]⟩
  have hlen : (readGraph text g msgs).nodes.length = g.nodes.length := by
    show (msgs.zipIdx.map _).length = _
    rw [length_map, length_zipIdx, h.length_eq]
  have hsource : ∀ node ∈ g.nodes, ∀ src, some src ∈ node.peers → ∃ (q : ℕ) (srcNode : AscNode E V),
      g.nodes[q]? = some srcNode ∧ srcNode.name = src.1 ∧ (srcNode.outputs[src.2]?).isSome := by
    intro node hnode src hsrc
    obtain ⟨q, srcNode, a, hq, hname, ha⟩ := exists_source (hwf.sources node hnode src hsrc)
    exact ⟨q, srcNode, hq, hname, isSome_iff_exists.mpr ⟨a, ha⟩⟩
  constructor
  · intro hsurvives
    have hnodes : ∀ node ∈ g.nodes, node.attr.sched.execOrder = kIdNone ∧
        (∀ out ∈ node.outputs, out.mem.reuseId = kIdNone) ∧ NoGap node.peers ∧
          reread node.peers (readPlaces 0 node.irInputs) = node.peers := by
      intro node hnode
      obtain ⟨p, hp⟩ := mem_iff_getElem?.mp hnode
      obtain ⟨node', hnode', hsame⟩ := forall₂_getElem? hsurvives.nodes hp
      obtain ⟨msg, hfaithful, hmsg⟩ := hback p node hp
      rw [hmsg] at hnode'
      obtain rfl := some.inj hnode'
      exact (hfaithful.sameNode_iff (hwf.fit node hnode) (hwf.source_named hnode) _).mp hsame
    refine ⟨(attr_survives_iff g.attr).mp hsurvives.attr, hnodes, ?_⟩
    intro p node hp src hsrc q srcNode hq hname
    have hmem := mem_of_getElem? hp
    obtain ⟨-, -, hgap, hplaces⟩ := hnodes node hmem
    obtain ⟨msg, hfaithful, hmsg⟩ := hback p node hp
    obtain ⟨node', hnode', hsame⟩ := forall₂_getElem? hsurvives.nodes hp
    rw [hmsg] at hnode'
    obtain rfl := some.inj hnode'
    obtain ⟨i, hi⟩ := mem_iff_getElem?.mp hsrc
    have hinput := hsurvives.inputs _ (mem_of_getElem? hmsg) i src (hsame.peers ▸ hi)
    rw [hfaithful.inputs_getElem? (hwf.source_named hmem) hgap hplaces _ hi] at hinput
    -- the node of that name is the one that the source was found at
    obtain ⟨q', srcNode', hq', hname', hout⟩ := hsource node hmem src hsrc
    obtain rfl : q = q' := by
      have hlt : q < (g.nodes.map AscNode.name).length := by
        rw [length_map]
        exact (List.getElem?_eq_some_iff.mp hq).1
      have heq : (g.nodes.map AscNode.name)[q]? = (g.nodes.map AscNode.name)[q']? := by
        rw [getElem?_map, getElem?_map, hq, hq', map_some, map_some, hname,
          hname']
      exact (getElem?_inj hlt hwf.nodup).mp heq
    rw [hq] at hq'
    obtain rfl := some.inj hq'
    exact (hwf.input_iff h (fun node hnode => (hnodes node hnode).2.1) hq hname hout).mp hinput
  · rintro ⟨hattr, hnodes, horder⟩
    have hsame : ∀ (p : ℕ) node msg, g.nodes[p]? = some node → Faithful text node msg →
        SameNode node (readNode text (viewAt text msgs p) msg) := by
      intro p node msg hp hfaithful
      have hmem := mem_of_getElem? hp
      exact (hfaithful.sameNode_iff (hwf.fit node hmem) (hwf.source_named hmem) _).mpr
        (hnodes node hmem)
    refine ⟨rfl, (attr_survives_iff g.attr).mpr hattr, ?_, ?_⟩
    · rw [forall₂_iff_get]
      refine ⟨hlen.symm, fun p hp hp' => ?_⟩
      have hget : g.nodes[p]? = some (g.nodes.get ⟨p, hp⟩) := getElem?_eq_getElem hp
      obtain ⟨msg, hfaithful, hmsg⟩ := hback p _ hget
      rw [getElem?_eq_getElem hp'] at hmsg
      show SameNode _ (readGraph text g msgs).nodes[p]
      rw [some.inj hmsg]
      exact hsame p _ msg hget hfaithful
    · intro node' hnode' i src hi
      obtain ⟨p, hp'⟩ := mem_iff_getElem?.mp hnode'
      have hlt : p < g.nodes.length := by
        rw [← hlen]
        exact (List.getElem?_eq_some_iff.mp hp').1
      have hp := getElem?_eq_getElem hlt
      obtain ⟨msg, hfaithful, hmsg⟩ := hback p _ hp
      rw [hmsg] at hp'
      obtain rfl := some.inj hp'
      have hmem := mem_of_getElem? hp
      obtain ⟨-, -, hgap, hplaces⟩ := hnodes _ hmem
      rw [(hsame p _ msg hp hfaithful).peers] at hi
      have hsrc := mem_of_getElem? hi
      rw [hfaithful.inputs_getElem? (hwf.source_named hmem) hgap hplaces _ hi]
      obtain ⟨q, srcNode, hq, hname, hout⟩ := hsource _ hmem src hsrc
      exact (hwf.input_iff h (fun node hnode => (hnodes node hnode).2.1) hq hname hout).mpr
        (horder p _ hp src hsrc q srcNode hq hname)

end Graph

/-! ## Round trips -/

theorem mapM_iff_forall₂ {α β : Type} {f : α → Option β} {as : List α} {bs : List β} :
    as.mapM f = some bs ↔ Forall₂ (fun a b => f a = some b) as bs := by
  induction as generalizing bs with
  | nil =>
    rw [forall₂_nil_left_iff]
    constructor
    · intro h
      exact (some.inj h).symm
    · intro h
      rw [h]
      rfl
  | cons a as ih =>
    rw [mapM_cons]
    constructor
    · intro h
      obtain ⟨b, hb, h⟩ := bind_eq_some_iff.mp h
      obtain ⟨bs', hbs, h⟩ := bind_eq_some_iff.mp h
      obtain rfl := some.inj h
      exact Forall₂.cons hb (ih.mp hbs)
    · intro h
      cases h with
      | cons hb hbs =>
        rw [hb, ih.mpr hbs]
        rfl

theorem lengthsAgree_of_serializeNode {msgs : List (AscNodeDef V)}
    (h : Forall₂ (fun node msg => serializeNode text node = some msg) nodes msgs) :
    ∀ m ∈ msgs, LengthsAgree m := by
  intro m hm
  obtain ⟨p, hp⟩ := mem_iff_getElem?.mp hm
  obtain ⟨node, -, hnode⟩ := forall₂_getElem? h.flip hp
  exact serializeNode_lengthsAgree hnode

theorem Serializable.exists_faithful {g : AscGraph E V T} (hwf : WellFormed g)
    (h : ∀ node ∈ g.nodes, NodeWritten node) :
    ∃ msgs, g.nodes.mapM (serializeNode text) = some msgs ∧
      Forall₂ (Faithful text) g.nodes msgs := by
  have hfit := hwf.fit
  generalize g.nodes = nodes at h hfit
  induction nodes with
  | nil => exact ⟨[], rfl, Forall₂.nil⟩
  | cons node nodes ih =>
    obtain ⟨hnode, hrest⟩ := forall_mem_cons.mp h
    obtain ⟨hfitNode, hfitRest⟩ := forall_mem_cons.mp hfit
    obtain ⟨msg, hmsg, hfaithful⟩ :=
      @AscIr.exists_faithful E V text node hfitNode hnode.name hnode.irInputs hnode.irOutputs
    obtain ⟨msgs, hmsgs, hall⟩ := ih hrest hfitRest
    refine ⟨msg :: msgs, ?_, Forall₂.cons hfaithful hall⟩
    rw [mapM_cons, hmsg, hmsgs]
    rfl

/-- A graph that comes back was written faithfully. -/
theorem Survives.faithful {g g' : AscGraph E V T} {msgs : List (AscNodeDef V)} (hwf : WellFormed g)
    (hmsgs : Forall₂ (fun node msg => serializeNode text node = some msg) g.nodes msgs)
    (hg' : deserializeFromProto text
      { ascGraphAttr := g.attr.serializeAttr text, ascNode := msgs, graphName := g.name } = some g')
    (h : Survives g g') :
    (∀ node ∈ g.nodes, node.attr.name = node.name ∧
      StartsAtZero (getIrDescRange node.irInputs false) ∧
      StartsAtZero (getIrDescRange node.irOutputs true)) ∧
    Forall₂ (Faithful text) g.nodes msgs := by
  have hagree := lengthsAgree_of_serializeNode hmsgs
  -- the names that come back are the written ones, whatever they are
  have hnames : (msgs.map fun m => m.attr.name) = g.nodes.map AscNode.name := by
    rw [← deserializeFromProto_names hagree hg']
    exact map_eq_of_forall₂ h.nodes fun _ _ hnode => hnode.name
  have hnamed : ∀ m ∈ msgs, m.attr.name ≠ "" := by
    intro m hm
    have hmem : m.attr.name ∈ g.nodes.map AscNode.name := by
      rw [← hnames]
      exact List.mem_map_of_mem hm
    obtain ⟨node, hnode, heq⟩ := List.mem_map.mp hmem
    rw [← heq]
    exact hwf.named node hnode
  have hread := @AscIr.deserializeFromProto_eq E V T text
    { ascGraphAttr := g.attr.serializeAttr text, ascNode := msgs, graphName := g.name }
    hagree (hnames ▸ hwf.nodup) hnamed
  rw [hg'] at hread
  split at hread
  · obtain rfl := some.inj hread
    have hnode : ∀ (p : ℕ) node, g.nodes[p]? = some node → ∃ msg, msgs[p]? = some msg ∧
        serializeNode text node = some msg ∧ node.attr.name = node.name ∧
        StartsAtZero (getIrDescRange node.irInputs false) ∧
        StartsAtZero (getIrDescRange node.irOutputs true) := by
      intro p node hp
      obtain ⟨msg, hmsg, hser⟩ := forall₂_getElem? hmsgs hp
      obtain ⟨node', hnode', hsame⟩ := forall₂_getElem? h.nodes hp
      rw [getElem?_map, getElem?_zipIdx, hmsg] at hnode'
      obtain rfl := some.inj hnode'
      refine ⟨msg, hmsg, hser, ?_, startsAtZero_of_serializeNode hser hsame.irInputs hsame.irOutputs⟩
      obtain ⟨_, _, _, _, rfl⟩ := serializeNode_iff.mp hser
      exact hsame.name
    constructor
    · intro node hmem
      obtain ⟨p, hp⟩ := mem_iff_getElem?.mp hmem
      obtain ⟨-, -, -, hwritten⟩ := hnode p node hp
      exact hwritten
    · rw [forall₂_iff_get]
      refine ⟨hmsgs.length_eq, fun p hp hp' => ?_⟩
      have hget : g.nodes[p]? = some (g.nodes.get ⟨p, hp⟩) := getElem?_eq_getElem hp
      obtain ⟨msg, hmsg, hser, hname, hin, hout⟩ := hnode p _ hget
      obtain ⟨msg', hser', hfaithful⟩ := @AscIr.exists_faithful E V text _
        (hwf.fit _ (mem_of_getElem? hget)) hname hin hout
      rw [hser] at hser'
      obtain rfl := some.inj hser'
      rw [getElem?_eq_getElem hp'] at hmsg
      show Faithful text _ msgs[p]
      rw [some.inj hmsg]
      exact hfaithful
  · exact nomatch hread

/-- A graph comes back from its messages, and a copy of graph attributes has the axes and the size
variables of its source, exactly when all that is used is written and read in place. -/
theorem roundTrip_survives_iff (g : AscGraph E V T) (hwf : WellFormed g)
    (src dst : AscGraphAttr E T) :
    ((∃ g', roundTrip text g = some g' ∧ Survives g g') ∧
      (doCopyAscGraphAttr text src dst).axis = src.axis ∧
      (doCopyAscGraphAttr text src dst).sizeVars = src.sizeVars) ↔
    Serializable g ∧ dst.axis = [] ∧ dst.sizeVars = [] ∧ ∀ var ∈ src.sizeVars, var.Plain := by
  refine and_congr ?_ (doCopyAscGraphAttr_iff src dst)
  unfold roundTrip serializeToProto
  constructor
  · rintro ⟨g', hg', hsurvives⟩
    obtain ⟨msg, hmsg, hg'⟩ := bind_eq_some_iff.mp hg'
    obtain ⟨msgs, hmsgs, hmsg⟩ := bind_eq_some_iff.mp hmsg
    obtain rfl := Option.some.inj hmsg
    have hser := mapM_iff_forall₂.mp hmsgs
    obtain ⟨hwritten, hfaithful⟩ := hsurvives.faithful hwf hser hg'
    have hagree := lengthsAgree_of_serializeNode hser
    rw [hwf.deserializeFromProto_eq hagree hfaithful] at hg'
    obtain rfl := Option.some.inj hg'
    obtain ⟨hattr, hnodes, horder⟩ := (hwf.survives_iff hfaithful).mp hsurvives
    refine ⟨hattr, fun node hnode => ?_, horder⟩
    obtain ⟨hname, hin, hout⟩ := hwritten node hnode
    obtain ⟨hexec, hreuse, hgap, hplaces⟩ := hnodes node hnode
    exact ⟨hname, hexec, hreuse, hin, hout, hgap, hplaces⟩
  · intro h
    obtain ⟨msgs, hmsgs, hfaithful⟩ := @Serializable.exists_faithful E V T text g hwf h.nodes
    have hagree := lengthsAgree_of_serializeNode (mapM_iff_forall₂.mp hmsgs)
    refine ⟨readGraph text g msgs, ?_, ?_⟩
    · rw [hmsgs]
      exact hwf.deserializeFromProto_eq hagree hfaithful
    · refine (hwf.survives_iff hfaithful).mpr ⟨h.attr, fun node hnode => ?_, h.order⟩
      have hnode := h.nodes node hnode
      exact ⟨hnode.execOrder, hnode.reuseId, hnode.noGap, hnode.places⟩

/-! ## Two graphs -/

/-- Expressions that are their texts. -/
def plainText : ExprText String where
  toString := id
  deserialize := id
  deserialize_toString := fun _ => rfl

def dataNode : AscNode String Unit where
  name := "data"
  type := "Data"
  irInputs := []
  irOutputs := [.required "y"]
  peers := []
  attr := { name := "data", type := "Data", sched := { axis := [0] } }
  outputs := [{ axis := [0], repeats := ["s0"], strides := ["1"] }]
  inputs := []

def userNode (irInputs : List IrIOSpec) (peers : List (Option (String × ℕ))) :
    AscNode String Unit where
  name := "user"
  type := "User"
  irInputs := irInputs
  irOutputs := [.required "y"]
  peers := peers
  attr := { name := "user", type := "User", sched := { axis := [0] } }
  outputs := [{ axis := [0], repeats := ["s0"], strides := ["1"] }]
  inputs := peers.map fun _ => {}

def sampleGraph (irInputs : List IrIOSpec) (peers : List (Option (String × ℕ))) :
    AscGraph String Unit Unit where
  name := "sample"
  attr := { sizeVars := [{ expr := "s0" }] }
  nodes := [dataNode, userNode irInputs peers]

/-- An input without a source behind those that have one. -/
def behindDynamic : AscGraph String Unit Unit :=
  sampleGraph [.dynamic "x" 2, .optional "bias" true]
    [some ("data", 0), some ("data", 0), none]

/-- An input without a source in front of one that has a source. -/
def behindGap : AscGraph String Unit Unit :=
  sampleGraph [.optional "bias" true, .required "x"] [none, some ("data", 0)]

theorem sampleGraph_wellFormed {irInputs : List IrIOSpec} {peers : List (Option (String × ℕ))}
    (hlen : peers.length = (irInputs.map IrIOSpec.num).sum)
    (hpeers : ∀ src, some src ∈ peers → src = ("data", 0)) :
    WellFormed (sampleGraph irInputs peers) := by
  constructor
  · show ["data", "user"].Nodup
    simp
  · intro node hnode
    rcases mem_pair.mp hnode with rfl | rfl
    · show "data" ≠ ""
      simp
    · show "user" ≠ ""
      simp
  · intro node hnode
    rcases mem_pair.mp hnode with rfl | rfl
    · exact ⟨rfl, rfl⟩
    · exact ⟨hlen, rfl⟩
  · intro node hnode src hsrc
    rcases mem_pair.mp hnode with rfl | rfl
    · exact nomatch hsrc
    · rw [hpeers src hsrc]
      rfl

theorem roundTrip_survives_iff_behindDynamic :
    (∃ g', roundTrip plainText behindDynamic = some g' ∧ Survives behindDynamic g') ∧
      (doCopyAscGraphAttr plainText behindDynamic.attr {}).axis = behindDynamic.attr.axis ∧
      (doCopyAscGraphAttr plainText behindDynamic.attr {}).sizeVars
        = behindDynamic.attr.sizeVars := by
  have hwf : WellFormed behindDynamic := sampleGraph_wellFormed rfl (by simp)
  refine (roundTrip_survives_iff behindDynamic hwf behindDynamic.attr {}).mpr
    ⟨⟨⟨rfl, ?_⟩, ?_, ?_⟩, rfl, rfl, ?_⟩
  · intro var hvar
    rw [mem_singleton.mp hvar]
    rfl
  · intro node hnode
    rcases mem_pair.mp hnode with rfl | rfl
    · refine ⟨rfl, rfl, by simp [dataNode], by decide, by decide, List.Pairwise.nil, rfl⟩
    · refine ⟨rfl, rfl, by simp [userNode], ?_, ?_, ?_, rfl⟩
      · decide
      · decide
      · decide
  · intro p node hp src hsrc q srcNode hq hname
    left
    -- no other node has the name of the source
    match q, hq with
    | 0, _ => exact Nat.zero_le p
    | 1, hq =>
      obtain rfl := Option.some.inj hq
      have hdata : src = ("data", 0) := by
        rcases mem_pair.mp (mem_of_getElem? hp) with rfl | rfl
        · exact nomatch hsrc
        · simpa [userNode] using hsrc
      rw [hdata] at hname
      simp [userNode] at hname
  · intro var hvar
    rw [mem_singleton.mp hvar]
    rfl

/-- The source of the second input comes back as that of the first. -/
theorem behindGap_not_survives :
    ¬ ∃ g', roundTrip plainText behindGap = some g' ∧ Survives behindGap g' := by
  rintro ⟨g', hg', hsurvives⟩
  have hpeers : (roundTrip plainText behindGap).map (fun g => g.nodes.map AscNode.peers)
      = some [[], [some ("data", 0), none]] := by
    decide +kernel
  rw [hg', map_some, Option.some.injEq] at hpeers
  have hsame : g'.nodes.map AscNode.peers = behindGap.nodes.map AscNode.peers :=
    map_eq_of_forall₂ hsurvives.nodes fun _ _ hnode => hnode.peers
  rw [hpeers] at hsame
  revert hsame
  decide

end GraphAutofusion.AscIr
