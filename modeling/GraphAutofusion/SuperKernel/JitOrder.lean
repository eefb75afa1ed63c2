import GraphAutofusion.SuperKernel.JitPrune

/-!
# SuperKernel.JitOrder — dependencies and flags after the label passes

All dependencies stay enforced, both sides of a pair carry the same label, and no operator
sends or receives twice in one direction. That the flags of the cube-to-vec direction come
in order, and with it the agreement with the pruning at run time, depends on the edges that
the first pass leaves by mistake: each of them must be replaced by a later pass.
-/

namespace GraphAutofusion.SuperKernel

open Lib Relation List Option

/-- A sub operator before any event is inserted: its name and its kernel type. -/
abbrev JitKernel := String × { type : SkKernelType // type ≠ .default }

def subOperator (kernel : JitKernel) : SubOperatorInfos :=
  { kernelNameForMultiStream := kernel.1, kernelType := kernel.2.1, known := kernel.2.2 }

/-- All dependencies inserted, then the passes. -/
def jitSync (kernels : List JitKernel) (deps : List (ℕ × ℕ)) : List SubOperatorInfos :=
  optimizeSyncPass (deps.foldl (fun ops dep => insertJitSyncEvent ops dep.1 dep.2)
    (kernels.map subOperator))

/-- The label from the operator at place `s` to the one at place `r` names the direction. -/
def Carries (ops : List SubOperatorInfos) (b : Bool) (s r : ℕ) : Prop :=
  ∃ sendOp recvOp, ops[s]? = some sendOp ∧ ops[r]? = some recvOp ∧
    ∃ label, sendOp.sendInfo.get? recvOp.kernelNameForMultiStream = some label ∧ syncName b ∈ label

instance (ops : List SubOperatorInfos) (b : Bool) (s r : ℕ) : Decidable (Carries ops b s r) :=
  decidable_of_iff ((ops[s]?.any fun sendOp => ops[r]?.any fun recvOp =>
    (sendOp.sendInfo.get? recvOp.kernelNameForMultiStream).any (·.contains (syncName b))) = true)
    (by simp [Carries, Option.any_eq_true])

/-- One step between operator parts: down `cub_op_list` or `vec_op_list`, or along a label. -/
inductive OpStep (ops : List SubOperatorInfos) : ℕ × Bool → ℕ × Bool → Prop where
  | queue {i j : ℕ} {isCub : Bool} {opI opJ : SubOperatorInfos} (hi : ops[i]? = some opI)
      (hj : ops[j]? = some opJ) (hopI : isOfList (!isCub) opI = true)
      (hopJ : isOfList (!isCub) opJ = true) (hlt : i < j) : OpStep ops (i, isCub) (j, isCub)
  | sync {s r : ℕ} {isCubToVec : Bool} (h : Carries ops isCubToVec s r) :
      OpStep ops (s, isCubToVec) (r, !isCubToVec)

/-- Both sides agree, no operator sends or receives twice in one direction, the pairs of a
direction come in the same order on both queues, and every dependency is enforced. -/
structure SyncKept (deps : List (ℕ × ℕ)) (ops : List SubOperatorInfos) : Prop where
  agree : ∀ sendOp ∈ ops, ∀ recvOp ∈ ops,
    sendOp.sendInfo.get? recvOp.kernelNameForMultiStream
      = recvOp.recvInfo.get? sendOp.kernelNameForMultiStream
  once : ∀ op ∈ ops, ∀ b,
    (op.sendInfo.items.filter fun item => item.2.contains (syncName b)).length ≤ 1 ∧
      (op.recvInfo.items.filter fun item => item.2.contains (syncName b)).length ≤ 1
  increasing : ∀ b s r s' r', Carries ops b s r → Carries ops b s' r' → (s, r) ≠ (s', r') →
    s < s' ∧ r < r' ∨ s' < s ∧ r' < r
  implied : ∀ dep ∈ deps, ∀ preOp currentOp, ops[dep.1]? = some preOp →
    ops[dep.2]? = some currentOp → ∀ q q', isOfList (!q) preOp = true →
      isOfList (!q') currentOp = true → TransGen (OpStep ops) (dep.1, q) (dep.2, q')

/-! ## The inserted labels -/

def kernelTypes (kernels : List JitKernel) : List (String × SkKernelType) :=
  kernels.map fun kernel => (kernel.1, kernel.2.1)

def queueTypes (kernels : List JitKernel) : List SkQueueType :=
  kernels.map fun kernel => toQueueType kernel.2.1

/-- The edges of a direction that the dependencies need. -/
def jitDepEdges (kernels : List JitKernel) (deps : List (ℕ × ℕ)) : Bool → Set (ℕ × ℕ) :=
  depEdges (fun i => (queueTypes kernels).getD i .unknown) deps

variable {kernels : List JitKernel} {ops : List SubOperatorInfos}
  {L : String → String → SyncEvent} {deps : List (ℕ × ℕ)} {s r : ℕ} {b : Bool}
  {E : Bool → Set (ℕ × ℕ)}

/-- `gen_sync_name` names the direction exactly when `GenSyncDirection` needs the edge. -/
theorem mem_genSyncName {preType currentType : SkKernelType} (hpre : preType ≠ .default)
    (hcurrent : currentType ≠ .default) :
    syncName b ∈ genSyncName (getTaskType preType) (getTaskType currentType) ↔
      needsEdge b (genSyncDirection (toQueueType preType) (toQueueType currentType)) = true := by
  cases preType <;> cases currentType <;> cases b <;>
    simp_all [getTaskType, genSyncName, syncName, needsEdge, genSyncDirection, toQueueType,
      syncDirection]

theorem genSyncName_ne_nil (preType currentType : JitTaskType) :
    genSyncName preType currentType ≠ [] := by
  cases preType <;> cases currentType <;> simp [genSyncName]

theorem queueTypes_getD (hs : s < kernels.length) :
    (queueTypes kernels).getD s .unknown = toQueueType kernels[s].2.1 := by
  simp [queueTypes, getD_eq_getElem?_getD, hs]

theorem kernelPos_getElem (hnames : (kernels.map Prod.fst).Nodup) (hs : s < kernels.length) :
    kernelPos (kernelTypes kernels) kernels[s].1 = s := by
  have hfst : (kernelTypes kernels).map Prod.fst = kernels.map Prod.fst := by
    simp [kernelTypes]
  have hmem : kernels[s].1 ∈ (kernelTypes kernels).map Prod.fst := by
    rw [hfst]
    exact mem_map_of_mem (getElem_mem hs)
  have hget := getElem?_kernelPos hmem
  have hget' : (kernels.map Prod.fst)[s]? = some kernels[s].1 := by simp [hs]
  rw [hfst, ← hget'] at hget
  exact ((getElem?_inj (by simpa using hs) hnames).mp hget.symm).symm

/-- Updating one operator in its place is updating it by name. -/
theorem modify_eq_map {α : Type*} (key : α → String) (f : α → α) :
    ∀ (l : List α) (i : ℕ) (x : α), (l.map key).Nodup → l[i]? = some x →
      l.modify i f = l.map fun y => if key y = key x then f y else y := by
  intro l i x hnodup hget
  refine ext_getElem? fun j => ?_
  rw [getElem?_modify, getElem?_map]
  by_cases hj : i = j
  · subst hj
    simp [hget]
  cases hgetj : l[j]? with
  | none => simp
  | some y =>
    have hne : key y ≠ key x := by
      intro heq
      have hi : i < (l.map key).length := by
        rw [length_map]
        exact (List.getElem?_eq_some_iff.mp hget).1
      exact hj ((getElem?_inj hi hnodup).mp (by simp [hget, hgetj, heq]))
    simp [hj, hne]

/-- Inserting an event writes its label on both sides. -/
theorem insertJitSyncEvent_eq (hnames : (ops.map (·.kernelNameForMultiStream)).Nodup)
    {preIdx currentIdx : ℕ} {preOp currentOp : SubOperatorInfos} (hpre : ops[preIdx]? = some preOp)
    (hcurrent : ops[currentIdx]? = some currentOp) :
    let label := genSyncName (getTaskType preOp.kernelType) (getTaskType currentOp.kernelType)
    insertJitSyncEvent ops preIdx currentIdx = removeInfos ops
      [⟨preOp.kernelNameForMultiStream, currentOp.kernelNameForMultiStream, false, label⟩,
        ⟨currentOp.kernelNameForMultiStream, preOp.kernelNameForMultiStream, true, label⟩] := by
  intro label
  have hlabel : label ≠ [] := genSyncName_ne_nil _ _
  have hsend : ops.modify preIdx (fun op =>
      op.updateSend (·.set currentOp.kernelNameForMultiStream label))
        = removeInfoByName ops
          ⟨preOp.kernelNameForMultiStream, currentOp.kernelNameForMultiStream, false, label⟩ := by
    rw [modify_eq_map _ _ ops preIdx preOp hnames hpre]
    simp [removeInfoByName, hlabel]
  have hnames' : ((ops.modify preIdx fun op => op.updateSend
      (·.set currentOp.kernelNameForMultiStream label)).map
        (·.kernelNameForMultiStream)).Nodup := by
    rw [hsend, removeInfoByName, List.map_map]
    refine (map_congr_left fun op _ => ?_) ▸ hnames
    by_cases hop : op.kernelNameForMultiStream = preOp.kernelNameForMultiStream <;>
      simp [hop, SubOperatorInfos.updateSend]
  have hcurrent' : ∃ op, (ops.modify preIdx fun op => op.updateSend
      (·.set currentOp.kernelNameForMultiStream label))[currentIdx]? = some op ∧
        op.kernelNameForMultiStream = currentOp.kernelNameForMultiStream := by
    rw [getElem?_modify, hcurrent]
    refine ⟨_, rfl, ?_⟩
    split <;> rfl
  rcases hcurrent' with ⟨op, hget, hname⟩
  rw [insertJitSyncEvent, hpre, hcurrent]
  show (ops.modify preIdx fun op => op.updateSend
      (·.set currentOp.kernelNameForMultiStream label)).modify currentIdx
        (fun op => op.updateRecv (·.set preOp.kernelNameForMultiStream label)) = _
  rw [modify_eq_map _ _ _ currentIdx op hnames' hget, hsend, hname]
  simp [removeInfos, removeInfoByName, hlabel]

theorem ops_getElem? (hops : ops.map (fun op => (op.kernelNameForMultiStream, op.kernelType))
    = kernelTypes kernels) (hs : s < kernels.length) :
    ∃ op, ops[s]? = some op ∧ op.kernelNameForMultiStream = kernels[s].1 ∧
      op.kernelType = kernels[s].2.1 := by
  have hget : (ops.map fun op => (op.kernelNameForMultiStream, op.kernelType))[s]?
      = some (kernels[s].1, kernels[s].2.1) := by
    rw [hops]
    simp [kernelTypes, hs]
  rw [getElem?_map] at hget
  rcases map_eq_some_iff.mp hget with ⟨op, hop, heq⟩
  injection heq with hname htype
  exact ⟨op, hop, hname, htype⟩

section Insert

variable (hnames : (kernels.map Prod.fst).Nodup)

include hnames

theorem JitEdges.insert (h : JitEdges (kernelTypes kernels) ops (jitDepEdges kernels deps))
    {preIdx currentIdx : ℕ} (hpre : preIdx < kernels.length) (hcurrent : currentIdx < kernels.length) :
    JitEdges (kernelTypes kernels) (insertJitSyncEvent ops preIdx currentIdx)
      (jitDepEdges kernels (deps ++ [(preIdx, currentIdx)])) := by
  rcases h with ⟨L, hlabelled, hplaced, hE⟩
  rcases ops_getElem? hlabelled.kernels hpre with ⟨preOp, hgetPre, hnamePre, htypePre⟩
  rcases ops_getElem? hlabelled.kernels hcurrent with
    ⟨currentOp, hgetCurrent, hnameCurrent, htypeCurrent⟩
  have hopNames : (ops.map (·.kernelNameForMultiStream)).Nodup := by
    have hfst : ops.map (·.kernelNameForMultiStream) = kernels.map Prod.fst := by
      have hmap := congrArg (map Prod.fst) hlabelled.kernels
      simpa [kernelTypes, Function.comp_def] using hmap
    rw [hfst]
    exact hnames
  rw [insertJitSyncEvent_eq hopNames hgetPre hgetCurrent, hnamePre, hnameCurrent, htypePre,
    htypeCurrent]
  have hneeds : ∀ b, syncName b ∈ genSyncName (getTaskType kernels[preIdx].2.1)
      (getTaskType kernels[currentIdx].2.1) ↔ needsEdge b
        (genSyncDirection ((queueTypes kernels).getD preIdx .unknown)
          ((queueTypes kernels).getD currentIdx .unknown)) = true := by
    intro b
    rw [queueTypes_getD hpre, queueTypes_getD hcurrent]
    exact mem_genSyncName kernels[preIdx].2.2 kernels[currentIdx].2.2
  generalize hlabel : genSyncName (getTaskType kernels[preIdx].2.1)
    (getTaskType kernels[currentIdx].2.1) = label at hneeds ⊢
  have hposPre := kernelPos_getElem hnames hpre
  have hposCurrent := kernelPos_getElem hnames hcurrent
  have honQueue : ∀ {i q} (hi : i < kernels.length), hasPart (toQueueType kernels[i].2.1) q = true →
      OnQueue (kernelTypes kernels) q kernels[i].1 := by
    intro i q hi hpart
    exact ⟨_, mem_map_of_mem (getElem_mem hi), hpart⟩
  have hunknown : ∀ type, toQueueType type ≠ .unknown := by
    intro type
    cases type <;> simp [toQueueType]
  refine ⟨_, (hlabelled.removeSend _ _ label).removeRecv _ _ label, ?_, ?_⟩
  · intro b s r hmem
    simp only [setLabel] at hmem
    split at hmem
    · next hsame =>
      rcases hsame with ⟨rfl, rfl⟩
      have hneed := (hneeds b).mp hmem
      rw [queueTypes_getD hpre, queueTypes_getD hcurrent] at hneed
      have hparts := hasPart_of_needsEdge (hunknown _) (hunknown _) hneed
      exact ⟨honQueue hpre hparts.1, honQueue hcurrent hparts.2⟩
    · exact hplaced b s r hmem
  · intro b e
    have hold : e ∈ depEdges (fun i => (queueTypes kernels).getD i .unknown) deps b ↔ _ := hE b e
    simp only [jitDepEdges, depEdges, Set.mem_ofPred_eq, mem_append, mem_singleton]
      at hold ⊢
    constructor
    · intro h
      rcases h with ⟨hmem | rfl, hneed⟩
      · rcases hold.mp ⟨hmem, hneed⟩ with ⟨s, r, hname, rfl⟩
        refine ⟨s, r, ?_, rfl⟩
        simp only [setLabel]
        split
        · next hsame =>
          rcases hsame with ⟨rfl, rfl⟩
          rw [hposPre, hposCurrent] at hneed
          exact (hneeds b).mpr hneed
        · exact hname
      · refine ⟨kernels[preIdx].1, kernels[currentIdx].1, ?_, by rw [hposPre, hposCurrent]⟩
        simpa [setLabel] using (hneeds b).mpr hneed
    · intro h
      rcases h with ⟨s, r, hname, rfl⟩
      simp only [setLabel] at hname
      split at hname
      · next hsame =>
        rcases hsame with ⟨rfl, rfl⟩
        rw [hposPre, hposCurrent]
        exact ⟨.inr rfl, (hneeds b).mp hname⟩
      · have hdep := hold.mpr ⟨s, r, hname, rfl⟩
        exact ⟨.inl hdep.1, hdep.2⟩

/-- After all insertions the labels are those the dependencies need. -/
theorem jitEdges_insertAll (hdeps : ∀ e ∈ deps, e.1 < e.2 ∧ e.2 < kernels.length) :
    JitEdges (kernelTypes kernels)
      (deps.foldl (fun ops dep => insertJitSyncEvent ops dep.1 dep.2) (kernels.map subOperator))
      (jitDepEdges kernels deps) := by
  induction deps using reverseRecOn with
  | nil =>
    refine ⟨fun _ _ => [], ⟨?_, ?_, ?_⟩, ?_, ?_⟩
    · simp [kernelTypes, subOperator, Function.comp_def]
    · intro op hop key value
      rcases mem_map.mp hop with ⟨kernel, _, rfl⟩
      simp [subOperator, eq_comm]
    · intro op hop key value
      rcases mem_map.mp hop with ⟨kernel, _, rfl⟩
      simp [subOperator, eq_comm]
    · intro b s r hmem
      simp at hmem
    · intro b e
      simp [jitDepEdges, depEdges, labelEdges]
  | append_singleton deps dep ih =>
    have hdep := hdeps dep (mem_append_right _ (mem_singleton_self dep))
    rw [foldl_append]
    exact (ih fun e he => hdeps e (mem_append_left _ he)).insert hnames
      (hdep.1.trans hdep.2) hdep.2

/-- The edges of each direction that the passes leave. -/
theorem jitEdges_jitSync (hdeps : ∀ e ∈ deps, e.1 < e.2 ∧ e.2 < kernels.length) :
    JitEdges (kernelTypes kernels) (jitSync kernels deps) fun b =>
      if b then prunedWith (crossedTwice (jitDepEdges kernels deps)) (jitDepEdges kernels deps true)
      else pruned (jitDepEdges kernels deps false) := by
  have hnames' : ((kernelTypes kernels).map Prod.fst).Nodup := by
    simpa [kernelTypes, Function.comp_def] using hnames
  exact (jitEdges_insertAll hnames hdeps).optimizeSyncPass hnames'

end Insert

/-! ## What the edges say about the operators -/

section Edges

variable {kernels : List (String × SkKernelType)}

theorem Labelled.kernelPos_eq (h : Labelled kernels ops L L) (hnames : (kernels.map Prod.fst).Nodup)
    {op : SubOperatorInfos} (hop : ops[s]? = some op) :
    kernelPos kernels op.kernelNameForMultiStream = s := by
  have hget : (kernels.map Prod.fst)[s]? = some op.kernelNameForMultiStream := by
    rw [← h.kernels]
    simp [hop]
  have hmem := mem_of_getElem? hget
  have hpos := getElem?_kernelPos hmem
  rw [← hget] at hpos
  have hlt : s < (kernels.map Prod.fst).length := (List.getElem?_eq_some_iff.mp hget).1
  exact ((getElem?_inj hlt hnames).mp hpos.symm).symm

theorem Labelled.getElem?_kernelPos (h : Labelled kernels ops L L) {name : String}
    (hname : name ∈ kernels.map Prod.fst) :
    ∃ op, ops[kernelPos kernels name]? = some op ∧ op.kernelNameForMultiStream = name := by
  have hpos := SuperKernel.getElem?_kernelPos hname
  rw [← h.kernels, List.map_map, getElem?_map, h.kernels] at hpos
  exact map_eq_some_iff.mp hpos

theorem carries_iff (h : JitEdges kernels ops E) (hnames : (kernels.map Prod.fst).Nodup) :
    Carries ops b s r ↔ (s, r) ∈ E b := by
  rcases h with ⟨L, hlabelled, hplaced, hE⟩
  rw [hE]
  constructor
  · intro hcarries
    rcases hcarries with ⟨sendOp, recvOp, hs, hr, label, hlabel, hname⟩
    have hitem := (hlabelled.send sendOp (mem_of_getElem? hs) _ _).mp
      (OrderedDict.mem_items.mpr hlabel)
    refine ⟨_, _, hitem.2 ▸ hname, ?_⟩
    rw [hlabelled.kernelPos_eq hnames hs, hlabelled.kernelPos_eq hnames hr]
  · intro hmem
    rcases hmem with ⟨sendName, recvName, hname, hsame⟩
    injection hsame with hs hr
    subst hs hr
    have hends := hplaced b _ _ hname
    rcases hlabelled.getElem?_kernelPos hends.1.mem_names with ⟨sendOp, hs, rfl⟩
    rcases hlabelled.getElem?_kernelPos hends.2.mem_names with ⟨recvOp, hr, rfl⟩
    have hitem := (hlabelled.send sendOp (mem_of_getElem? hs) _ _).mpr
      ⟨ne_nil_of_mem hname, rfl⟩
    exact ⟨sendOp, recvOp, hs, hr, _, OrderedDict.mem_items.mp hitem, hname⟩

/-- Both sides of a pair carry the same label. -/
theorem JitEdges.agree (h : JitEdges kernels ops E) {sendOp recvOp : SubOperatorInfos}
    (hsend : sendOp ∈ ops) (hrecv : recvOp ∈ ops) :
    sendOp.sendInfo.get? recvOp.kernelNameForMultiStream
      = recvOp.recvInfo.get? sendOp.kernelNameForMultiStream := by
  rcases h with ⟨L, hlabelled, -, -⟩
  refine Option.ext fun label => ?_
  rw [← OrderedDict.mem_items, ← OrderedDict.mem_items, hlabelled.send sendOp hsend,
    hlabelled.recv recvOp hrecv]

/-- At most one item of a list with distinct keys satisfies a predicate that only one key
allows. -/
theorem length_filter_le_one (info : OrderedDict String SyncEvent) (p : String × SyncEvent → Bool)
    (hone : ∀ x ∈ info.items, ∀ y ∈ info.items, p x = true → p y = true → x.1 = y.1) :
    (info.items.filter p).length ≤ 1 := by
  have hnodup := (Nodup.of_map Prod.fst info.nodup).filter p
  by_contra hlt
  have hlen : 1 < (info.items.filter p).length := not_le.mp hlt
  have hfirst := getElem_mem (l := info.items.filter p) (n := 0) (by omega)
  have hsecond := getElem_mem (l := info.items.filter p) (n := 1) hlen
  rcases mem_filter.mp hfirst with ⟨hmem, hp⟩
  rcases mem_filter.mp hsecond with ⟨hmem', hp'⟩
  have hkey := hone _ hmem _ hmem' hp hp'
  have hsame := inj_on_of_nodup_map info.nodup hmem hmem' hkey
  have hplace := (hnodup.getElem_inj_iff).mp hsame
  omega

/-- No operator sends twice or receives twice in one direction. -/
theorem JitEdges.once (h : JitEdges kernels ops E)
    (hsource : ∀ e ∈ E b, ∀ e' ∈ E b, e.1 = e'.1 → e = e')
    (htarget : ∀ e ∈ E b, ∀ e' ∈ E b, e.2 = e'.2 → e = e')
    {op : SubOperatorInfos} (hop : op ∈ ops) :
    (op.sendInfo.items.filter fun item => item.2.contains (syncName b)).length ≤ 1 ∧
      (op.recvInfo.items.filter fun item => item.2.contains (syncName b)).length ≤ 1 := by
  rcases h with ⟨L, hlabelled, hplaced, hE⟩
  have hinj : ∀ {q name name'}, OnQueue kernels q name → OnQueue kernels q name' →
      kernelPos kernels name = kernelPos kernels name' → name = name' :=
    fun hname hname' => kernelPos_inj hname.mem_names hname'.mem_names
  constructor
  · refine length_filter_le_one _ _ fun x hx y hy hpx hpy => ?_
    have hLx := ((hlabelled.send op hop x.1 x.2).mp hx).2
    have hLy := ((hlabelled.send op hop y.1 y.2).mp hy).2
    rw [contains_iff_mem, ← hLx] at hpx
    rw [contains_iff_mem, ← hLy] at hpy
    have heq := hsource _ ((hE b _).mpr ⟨_, _, hpx, rfl⟩) _ ((hE b _).mpr ⟨_, _, hpy, rfl⟩) rfl
    exact hinj (hplaced b _ _ hpx).2 (hplaced b _ _ hpy).2 (congrArg Prod.snd heq)
  · refine length_filter_le_one _ _ fun x hx y hy hpx hpy => ?_
    have hLx := ((hlabelled.recv op hop x.1 x.2).mp hx).2
    have hLy := ((hlabelled.recv op hop y.1 y.2).mp hy).2
    rw [contains_iff_mem, ← hLx] at hpx
    rw [contains_iff_mem, ← hLy] at hpy
    have heq := htarget _ ((hE b _).mpr ⟨_, _, hpx, rfl⟩) _ ((hE b _).mpr ⟨_, _, hpy, rfl⟩) rfl
    exact hinj (hplaced b _ _ hpx).1 (hplaced b _ _ hpy).1 (congrArg Prod.fst heq)

end Edges

/-! ## The result of the passes -/

/-- A cover of a dependency's edges enforces it. -/
theorem JitEdges.implied (h : JitEdges (kernelTypes kernels) ops E)
    (hnames : (kernels.map Prod.fst).Nodup) (hcover : ∀ b, CoversAll (E b) (jitDepEdges kernels deps b))
    {dep : ℕ × ℕ} (hdep : dep ∈ deps) (hlt : dep.1 < dep.2) {preOp currentOp : SubOperatorInfos}
    (hpre : ops[dep.1]? = some preOp) (hcurrent : ops[dep.2]? = some currentOp) {q q' : Bool}
    (hq : isOfList (!q) preOp = true) (hq' : isOfList (!q') currentOp = true) :
    TransGen (OpStep ops) (dep.1, q) (dep.2, q') := by
  by_cases hsame : q' = q
  · subst hsame
    exact TransGen.single (OpStep.queue hpre hcurrent hq hq' hlt)
  -- the label that covers the dependency starts no earlier and ends no later
  have hother : q' = !q := by cases q <;> cases q' <;> simp_all
  subst hother
  have hnames' : ((kernelTypes kernels).map Prod.fst).Nodup := by
    simpa [kernelTypes, Function.comp_def] using hnames
  have hkernels : ops.map (fun op => (op.kernelNameForMultiStream, op.kernelType))
      = kernelTypes kernels := by
    rcases h with ⟨L, hlabelled, -, -⟩
    exact hlabelled.kernels
  have htype : ∀ {i : ℕ} {op : SubOperatorInfos}, ops[i]? = some op →
      (queueTypes kernels).getD i .unknown = toQueueType op.kernelType := by
    intro i op hop
    have hget : (ops.map fun op => (op.kernelNameForMultiStream, op.kernelType))[i]?
        = some (op.kernelNameForMultiStream, op.kernelType) := by simp [hop]
    rw [hkernels, kernelTypes, getElem?_map] at hget
    rcases map_eq_some_iff.mp hget with ⟨kernel, hkernel, heq⟩
    injection heq with _ htype
    simp [queueTypes, getD_eq_getElem?_getD, hkernel, htype]
  have hedge : dep ∈ jitDepEdges kernels deps q := by
    refine ⟨hdep, needsEdge_of_hasPart ?_ ?_⟩
    · show hasPart ((queueTypes kernels).getD dep.1 .unknown) q = true
      rw [htype hpre]
      rwa [isOfList_eq, Bool.not_not] at hq
    · show hasPart ((queueTypes kernels).getD dep.2 .unknown) (!q) = true
      rw [htype hcurrent]
      rwa [isOfList_eq, Bool.not_not] at hq'
  rcases hcover q dep hedge with ⟨e, he, hstart, hend⟩
  have hcarries := (carries_iff h hnames').mpr he
  have hcarries' := hcarries
  rcases hcarries' with ⟨sendOp, recvOp, hs, hr, label, hlabel, hname⟩
  have hparts : isOfList (!q) sendOp = true ∧ isOfList q recvOp = true := by
    rcases h with ⟨L, hlabelled, hplaced, hE⟩
    have hitem := (hlabelled.send sendOp (mem_of_getElem? hs) _ _).mp
      (OrderedDict.mem_items.mpr hlabel)
    have hends := hplaced q _ _ (hitem.2 ▸ hname)
    have hpart : ∀ {p : Bool} {i : ℕ} {op : SubOperatorInfos}, ops[i]? = some op →
        OnQueue (kernelTypes kernels) p op.kernelNameForMultiStream → isOfList (!p) op = true := by
      intro p i op hop hqueue
      rcases hqueue with ⟨type, hmem, hpart⟩
      have hmem' := hlabelled.mem_kernels (mem_of_getElem? hop)
      rw [isOfList_eq, Bool.not_not, type_unique hnames' hmem' hmem]
      exact hpart
    refine ⟨hpart hs hends.1, ?_⟩
    simpa using hpart hr hends.2
  have hqueue : ∀ {p : Bool} {i j : ℕ} {opI opJ : SubOperatorInfos},
      ops[i]? = some opI → ops[j]? = some opJ → isOfList (!p) opI = true → isOfList (!p) opJ = true → i ≤ j →
        ReflTransGen (OpStep ops) (i, p) (j, p) := by
    intro p i j opI opJ hi hj hopI hopJ hle
    rcases Nat.eq_or_lt_of_le hle with rfl | hlt
    · exact .refl
    · exact .single (OpStep.queue hi hj hopI hopJ hlt)
  have hfirst := hqueue hpre hs hq hparts.1 hstart
  have hlast : ReflTransGen (OpStep ops) (e.2, !q) (dep.2, !q) :=
    hqueue hr hcurrent (by simpa using hparts.2) hq' hend
  exact TransGen.trans_left (TransGen.tail' hfirst (OpStep.sync hcarries)) hlast

section Result

variable (hnames : (kernels.map Prod.fst).Nodup)
  (hdeps : ∀ e ∈ deps, e.1 < e.2 ∧ e.2 < kernels.length)

include hnames hdeps

theorem carries_jitSync : Carries (jitSync kernels deps) b s r ↔
    (s, r) ∈ (if b then prunedWith (crossedTwice (jitDepEdges kernels deps))
      (jitDepEdges kernels deps true) else pruned (jitDepEdges kernels deps false)) := by
  have hnames' : ((kernelTypes kernels).map Prod.fst).Nodup := by
    simpa [kernelTypes, Function.comp_def] using hnames
  exact carries_iff (jitEdges_jitSync hnames hdeps) hnames'

omit hnames hdeps in
theorem jitDepEdges_finite (b : Bool) : (jitDepEdges kernels deps b).Finite :=
  deps.finite_toSet.subset fun _ he => he.1

omit hnames hdeps in
theorem allCrossed_crossedTwice :
    AllCrossed (crossedTwice (jitDepEdges kernels deps)) (jitDepEdges kernels deps true) :=
  fun _ he => he true

/-- The passes keep what they promise exactly when every cube-to-vec edge between two mixed
operators that is crossed in both directions is replaced by another edge that is left. -/
theorem syncKept_iff : SyncKept deps (jitSync kernels deps) ↔
    ∀ e ∈ crossedTwice (jitDepEdges kernels deps),
      Replaced (crossedTwice (jitDepEdges kernels deps)) (jitDepEdges kernels deps true) e := by
  have hfin : (jitDepEdges kernels deps true).Finite := jitDepEdges_finite true
  have hcarries := fun b s r =>
    carries_jitSync hnames hdeps (b := b) (s := s) (r := r)
  constructor
  · intro hkept
    refine (prunedWith_uncrossed_iff hfin allCrossed_crossedTwice).mp fun e he e' he' hcross => ?_
    have hne : (e.1, e.2) ≠ (e'.1, e'.2) := by
      intro heq
      injection heq with hs _
      exact Nat.lt_irrefl _ (hs ▸ hcross.1)
    rcases hkept.increasing true _ _ _ _ ((hcarries true e.1 e.2).mpr he)
      ((hcarries true e'.1 e'.2).mpr he') hne with hlt | hlt
    · exact Nat.lt_asymm hlt.2 hcross.2
    · exact Nat.lt_asymm hlt.1 hcross.1
  · intro hreplaced
    have hedges := jitEdges_jitSync hnames hdeps
    have hmatching : ∀ b : Bool, Matching (if b then
        prunedWith (crossedTwice (jitDepEdges kernels deps)) (jitDepEdges kernels deps true)
        else pruned (jitDepEdges kernels deps false)) := by
      intro b
      cases b
      · exact pruned_matching _
      · exact lastSources_firstTargets_matching
          ((prunedWith_uncrossed_iff hfin allCrossed_crossedTwice).mpr hreplaced)
    refine ⟨fun _ hs _ hr => hedges.agree hs hr, fun op hop b => ?_, ?_, ?_⟩
    · exact hedges.once (hmatching b).source (hmatching b).target hop
    · intro b s r s' r' h h' hne
      rw [hcarries] at h h'
      rcases Nat.lt_trichotomy s s' with hlt | heq | hlt
      · exact .inl ⟨hlt, (hmatching b).increasing _ h _ h' hlt⟩
      · exact absurd ((hmatching b).source _ h _ h' heq) hne
      · exact .inr ⟨hlt, (hmatching b).increasing _ h' _ h hlt⟩
    · intro dep hdep preOp currentOp hpre hcurrent q q' hq hq'
      refine hedges.implied hnames (fun b => ?_) hdep (hdeps dep hdep).1 hpre hcurrent hq hq'
      cases b
      · exact pruned_coversAll (jitDepEdges_finite false)
      · exact prunedWith_coversAll hfin allCrossed_crossedTwice

/-- The pruning at run time leaves the same edges exactly under the same condition. -/
theorem jitSync_agrees_iff :
    (∀ b s r, Carries (jitSync kernels deps) b s r ↔
      ((pruneSync kernels.length (insertSyncEvents (queueTypes kernels) deps)) s).sendInfo b r
        = some (syncDirection b)) ↔
    ∀ e ∈ crossedTwice (jitDepEdges kernels deps),
      Replaced (crossedTwice (jitDepEdges kernels deps)) (jitDepEdges kernels deps true) e := by
  have hbound : Bounded kernels.length (jitDepEdges kernels deps) := by
    intro b e he
    rcases hdeps e he.1 with ⟨hlt, hlen⟩
    exact ⟨hlt.trans hlen, hlen⟩
  have hrep := (represents_insertSyncEvents (queueTypes kernels) deps).pruneSync hbound
  have hsend := fun b s r => hrep.send b s r
  rw [← prunedWith_eq_iff (jitDepEdges_finite true) allCrossed_crossedTwice]
  simp only [carries_jitSync hnames hdeps, hsend]
  constructor
  · intro h e
    exact h true e.1 e.2
  · intro h b s r
    cases b
    · exact Iff.rfl
    · exact h (s, r)

end Result

/-- Four operators in list order, of which two run on the cube or the vec queue alone. -/
def fourKernels : List JitKernel :=
  [("a", ⟨.aicOnly, by decide⟩), ("b", ⟨.mixAic11, by decide⟩), ("c", ⟨.mixAic12, by decide⟩),
    ("d", ⟨.aivOnly, by decide⟩)]

theorem fourKernels_replaced : ∀ e ∈ crossedTwice (jitDepEdges fourKernels [(0, 3), (1, 2)]),
    Replaced (crossedTwice (jitDepEdges fourKernels [(0, 3), (1, 2)]))
      (jitDepEdges fourKernels [(0, 3), (1, 2)] true) e := by
  intro e he
  rcases he false with ⟨⟨hmem, hneed⟩, _⟩
  rcases (he true).2 with ⟨e', ⟨hmem', _⟩, hcross⟩
  simp only [mem_cons, not_mem_nil, or_false] at hmem hmem'
  rcases hmem with rfl | rfl
  · -- only the cube queue sends
    exact absurd hneed (by decide)
  · rcases hmem' with rfl | rfl <;> exact absurd hcross.1 (by decide)

theorem syncKept_iff_four : SyncKept [(0, 3), (1, 2)] (jitSync fourKernels [(0, 3), (1, 2)]) :=
  (syncKept_iff (by decide) (by decide)).mpr fourKernels_replaced

theorem jitSync_agrees_iff_four :
    (∀ e ∈ crossedTwice (jitDepEdges fourKernels [(0, 3), (1, 2)]),
      Replaced (crossedTwice (jitDepEdges fourKernels [(0, 3), (1, 2)]))
        (jitDepEdges fourKernels [(0, 3), (1, 2)] true) e) ∧
    ∀ b s r, Carries (jitSync fourKernels [(0, 3), (1, 2)]) b s r ↔
      ((pruneSync 4 (insertSyncEvents (queueTypes fourKernels) [(0, 3), (1, 2)])) s).sendInfo b r
        = some (syncDirection b) :=
  ⟨fourKernels_replaced,
    (@jitSync_agrees_iff fourKernels _ (by decide) (by decide)).mpr fourKernels_replaced⟩

/-- Two streams of mixed operators, the second between the operators of the first. -/
def nestedKernels : List JitKernel :=
  [("a", ⟨.mixAic11, by decide⟩), ("b", ⟨.mixAic11, by decide⟩), ("c", ⟨.mixAic11, by decide⟩),
    ("d", ⟨.mixAic11, by decide⟩)]

/-- The outer label keeps its cube-to-vec part, and so the first wait takes the flag of the
other sender. -/
theorem nestedKernels_not_syncKept :
    ¬ SyncKept [(0, 3), (1, 2)] (jitSync nestedKernels [(0, 3), (1, 2)]) := by
  intro h
  have houter : Carries (jitSync nestedKernels [(0, 3), (1, 2)]) true 0 3 := by decide +kernel
  have hinner : Carries (jitSync nestedKernels [(0, 3), (1, 2)]) true 1 2 := by decide +kernel
  rcases h.increasing true 0 3 1 2 houter hinner (by decide) with hlt | hlt
  · exact absurd hlt.2 (by decide)
  · exact absurd hlt.1 (by decide)

/-- The pruning at run time removes the outer edge in both directions. -/
theorem nestedKernels_not_agrees :
    ¬ ∀ b s r, Carries (jitSync nestedKernels [(0, 3), (1, 2)]) b s r ↔
      ((pruneSync 4 (insertSyncEvents (queueTypes nestedKernels) [(0, 3), (1, 2)])) s).sendInfo b r
        = some (syncDirection b) := by
  intro h
  have houter : Carries (jitSync nestedKernels [(0, 3), (1, 2)]) true 0 3 := by decide +kernel
  exact absurd ((h true 0 3).mp houter) (by decide +kernel)

end GraphAutofusion.SuperKernel
