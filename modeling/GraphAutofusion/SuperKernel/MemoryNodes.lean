import GraphAutofusion.SuperKernel.ModelRI

/-!
# SuperKernel.MemoryNodes — value writes and waits become events

`PostProcessMemoryNode` turns the value writes and value waits of an address into NOTIFY,
RESET and WAIT nodes of one event. It decides their fusibility anew: writes nobody waits for
become fusible, and `value_breaker_bypass` says whether waits, and the write that notifies
them, may be fused.
-/

namespace GraphAutofusion.SuperKernel

open List Option TaskParams

/-- The order in which an unordered container is iterated. -/
structure HashOrder where
  order : List ℕ → List ℕ
  perm : ∀ xs, (order xs).Perm xs

def HashOrder.insertion : HashOrder := ⟨id, fun _ => .refl _⟩

@[simp]
theorem HashOrder.mem_order (hash : HashOrder) {xs : List ℕ} {x : ℕ} :
    x ∈ hash.order xs ↔ x ∈ xs := (hash.perm xs).mem_iff

@[simp]
theorem HashOrder.isEmpty_order (hash : HashOrder) (xs : List ℕ) :
    (hash.order xs).isEmpty = xs.isEmpty := by
  have hlen := (hash.perm xs).length_eq
  rw [Bool.eq_iff_iff, isEmpty_iff_length_eq_zero, isEmpty_iff_length_eq_zero, hlen]

def enablePairedWaitBypass (valueBreakerBypass : ℕ) : Bool :=
  valueBreakerBypass &&& ACLSK_VALUE_BREAKER_BYPASS_PAIRED_WAIT != 0

def enableUnpairedWaitBypass (valueBreakerBypass : ℕ) : Bool :=
  valueBreakerBypass &&& ACLSK_VALUE_BREAKER_BYPASS_UNPAIRED_WAIT != 0

/-- `IsNotifyByMemoryWaitRule`: the written value satisfies the wait. -/
def isNotifyByMemoryWaitRule (writeMemoryValue memoryWaitValue : BitVec 64) (waitFlag : ℕ) : Bool :=
  match SkMemoryWaitFlag.ofFlag waitFlag with
  | some .geq => memoryWaitValue ≤ writeMemoryValue
  | some .eq => writeMemoryValue == memoryWaitValue
  | some .and => writeMemoryValue &&& memoryWaitValue != 0
  | some .nor => ~~~(writeMemoryValue ||| memoryWaitValue) != 0
  | none => false

/-- `ResolveEventValue`: an unset value is that of the node's type. -/
def resolveEventValue (n : SuperKernelBaseNode) : ℕ :=
  match n.syncInfos.memoryValue, n.nodeType with
  | some v, _ => v
  | none, .nodeNotify => SK_DEFAULT_NOTIFY_VALUE
  | none, .nodeWait => SK_DEFAULT_WAIT_VALUE
  | none, .nodeReset => SK_DEFAULT_RESET_VALUE
  | none, _ => 0

/-- The value and the flag a wait compares with. -/
def waitInfo (n : SuperKernelBaseNode) : BitVec 64 × ℕ :=
  (decodeValue n.syncInfos.memoryValue, n.syncInfos.memoryWaitFlag)

def toWait (fusible : Bool) (n : SuperKernelBaseNode) : SuperKernelBaseNode :=
  { n with nodeType := .nodeWait, isFusible := fusible }

def toNotify (fusible : Bool) (n : SuperKernelBaseNode) : SuperKernelBaseNode :=
  { n with nodeType := .nodeNotify, isFusible := fusible }

/-- A write that does not satisfy the wait keeps its fusibility. -/
def toReset (n : SuperKernelBaseNode) : SuperKernelBaseNode := { n with nodeType := .nodeReset }

/-- A write that nobody waits for: the default reset value resets, any other one notifies. -/
def toWriteOnly (n : SuperKernelBaseNode) : SuperKernelBaseNode :=
  { n with
    nodeType := if resolveEventValue n = SK_DEFAULT_RESET_VALUE then .nodeReset else .nodeNotify
    isFusible := true }

@[simp] theorem toWait_nodeId (b : Bool) (n : SuperKernelBaseNode) :
    (toWait b n).nodeId = n.nodeId := rfl
@[simp] theorem toNotify_nodeId (b : Bool) (n : SuperKernelBaseNode) :
    (toNotify b n).nodeId = n.nodeId := rfl
@[simp] theorem toReset_nodeId (n : SuperKernelBaseNode) : (toReset n).nodeId = n.nodeId := rfl
@[simp] theorem toWait_isScopeNode (b : Bool) (n : SuperKernelBaseNode) :
    (toWait b n).isScopeNode = n.isScopeNode := rfl
@[simp] theorem toNotify_isScopeNode (b : Bool) (n : SuperKernelBaseNode) :
    (toNotify b n).isScopeNode = n.isScopeNode := rfl
@[simp] theorem toReset_isFusible (n : SuperKernelBaseNode) :
    (toReset n).isFusible = n.isFusible := rfl
@[simp] theorem toReset_isScopeNode (n : SuperKernelBaseNode) :
    (toReset n).isScopeNode = n.isScopeNode := rfl
@[simp] theorem toWriteOnly_isScopeNode (n : SuperKernelBaseNode) :
    (toWriteOnly n).isScopeNode = n.isScopeNode := rfl
@[simp] theorem toWriteOnly_nodeId (n : SuperKernelBaseNode) :
    (toWriteOnly n).nodeId = n.nodeId := rfl

variable {hash : HashOrder}

namespace ModelGraph

def isNodeOfType (g : ModelGraph) (nodeId : NodeId) (nodeType : SkNodeType) : Bool :=
  (g.getNodeById nodeId).any (·.nodeType == nodeType)

variable (eventId : EventId)

/-- A wait of an address becomes a WAIT of the event; a node of another type is skipped. -/
def convertWait (fusible : Bool) (g : ModelGraph) (waitNodeId : NodeId) : Option ModelGraph :=
  if g.isNodeOfType waitNodeId .nodeMemoryWait then
    (g.modifyNode waitNodeId (toWait fusible)).addEventAssociateWait eventId waitNodeId
  else some g

def convertWriteOnly (g : ModelGraph) (writeNodeId : NodeId) : Option ModelGraph :=
  match g.getNodeById writeNodeId with
  | some n =>
    if n.nodeType = .nodeMemoryWrite then
      let g := g.modifyNode writeNodeId toWriteOnly
      if resolveEventValue n = SK_DEFAULT_RESET_VALUE then
        g.addEventAssociateReset eventId writeNodeId
      else g.addEventAssociateNotify eventId writeNodeId
    else some g
  | none => some g

def convertNotify (fusible : Bool) (g : ModelGraph) (writeNodeId : NodeId) : Option ModelGraph :=
  (g.modifyNode writeNodeId (toNotify fusible)).addEventAssociateNotify eventId writeNodeId

def convertReset (g : ModelGraph) (resetId : NodeId) : Option ModelGraph :=
  (g.modifyNode resetId toReset).addEventAssociateReset eventId resetId

/-- The writes of an address that satisfy its wait (`true`) or do not (`false`). -/
def classifyWrites (g : ModelGraph) (writeNodeIds : List NodeId) (memoryWaitValue : BitVec 64)
    (waitFlag : ℕ) (isNotify : Bool) : List NodeId :=
  writeNodeIds.filter fun i => (g.getNodeById i).any fun n =>
    n.nodeType == .nodeMemoryWrite &&
      isNotifyByMemoryWaitRule (decodeValue n.syncInfos.memoryValue) memoryWaitValue waitFlag
        == isNotify

/-- The write that notifies the waits, if there is one, and the fusibility of the waits. Two
such writes are illegal. -/
def processNotify (valueBreakerBypass : ℕ) (g : ModelGraph) (eventId : EventId) :
    List NodeId → Option (ModelGraph × Bool)
  | [] => some (g, enableUnpairedWaitBypass valueBreakerBypass)
  | [i] =>
    (convertNotify eventId (enablePairedWaitBypass valueBreakerBypass) g i).map
      fun g => (g, enablePairedWaitBypass valueBreakerBypass)
  | _ => none

def processMemoryWriteNodes (valueBreakerBypass : ℕ) (g : ModelGraph) (eventId : EventId)
    (writeNodeIds waitNodeIds : List NodeId) (memoryWaitValue : BitVec 64) (waitFlag : ℕ) :
    Option ModelGraph := do
  let notifyIds := g.classifyWrites writeNodeIds memoryWaitValue waitFlag true
  let resetIds := g.classifyWrites writeNodeIds memoryWaitValue waitFlag false
  let notified ← g.processNotify valueBreakerBypass eventId notifyIds
  let g ← waitNodeIds.foldlM (convertWait eventId notified.2) notified.1
  resetIds.foldlM (convertReset eventId) g

/-- All waits of an address must compare with one value under one flag. -/
def checkWaits (g : ModelGraph) (first : Option (BitVec 64 × ℕ)) :
    List NodeId → Option (BitVec 64 × ℕ)
  | [] => first
  | i :: is =>
    match g.getNodeById i with
    | some n =>
      if n.nodeType = .nodeMemoryWait ∧ (first = none ∨ first = some (waitInfo n)) then
        checkWaits g (some (waitInfo n)) is
      else none
    | none => none

/-- The body of the loop of `PostProcessMemoryNode`. -/
def processMemoryEvent (hash : HashOrder) (valueBreakerBypass : ℕ) (g : ModelGraph)
    (eventId : EventId) : Option ModelGraph :=
  let writes := hash.order (g.memoryInfo eventId).writeNodeIdList
  let waits := hash.order (g.memoryInfo eventId).waitNodeIdList
  if writes.isEmpty && !waits.isEmpty then
    waits.foldlM (convertWait eventId (enableUnpairedWaitBypass valueBreakerBypass)) g
  else if !writes.isEmpty && waits.isEmpty then
    writes.foldlM (convertWriteOnly eventId) g
  else do
    let (memoryWaitValue, waitFlag) ← g.checkWaits none waits
    g.processMemoryWriteNodes valueBreakerBypass eventId writes waits memoryWaitValue waitFlag

def postProcessMemoryNode (hash : HashOrder) (valueBreakerBypass : ℕ) (g : ModelGraph) :
    Option ModelGraph :=
  (hash.order g.memoryToNodes.keys).foldlM (processMemoryEvent hash valueBreakerBypass) g

/-! ## Rewriting nodes -/

variable {g g' g'' : ModelGraph} {i : NodeId}

/-- A step that rewrites nodes and keeps the memory table. -/
structure Rewrites (g g' : ModelGraph) (f : SuperKernelBaseNode → SuperKernelBaseNode) : Prop where
  nodes : g'.nodes = g.nodes.map f
  memoryToNodes : g'.memoryToNodes = g.memoryToNodes

/-- Every node has an id of its own. -/
def NodupIds (g : ModelGraph) : Prop := (g.nodes.map (·.nodeId)).Nodup

theorem NodupIds.eq_of_nodeId (hg : g.NodupIds) {x y : SuperKernelBaseNode} (hx : x ∈ g.nodes)
    (hy : y ∈ g.nodes) (h : x.nodeId = y.nodeId) : x = y :=
  inj_on_of_nodup_map hg hx hy h

theorem NodupIds.getNodeById_of_mem (hg : g.NodupIds) {x : SuperKernelBaseNode}
    (hx : x ∈ g.nodes) : g.getNodeById x.nodeId = some x := by
  cases hfind : g.getNodeById x.nodeId with
  | none => simpa using find?_eq_none.mp hfind x hx
  | some y =>
    obtain ⟨hy, hid⟩ := SuperKernelGraph.getNodeById_some hfind
    rw [hg.eq_of_nodeId hy hx hid]

theorem Rewrites.nodupIds {f : SuperKernelBaseNode → SuperKernelBaseNode} (h : Rewrites g g' f)
    (hf : ∀ n, (f n).nodeId = n.nodeId) (hg : g.NodupIds) : g'.NodupIds := by
  unfold NodupIds at hg ⊢
  rw [h.nodes, List.map_map]
  simpa [Function.comp_def, hf] using hg

theorem Rewrites.comp {f f' : SuperKernelBaseNode → SuperKernelBaseNode} (h : Rewrites g g' f)
    (h' : Rewrites g' g'' f') : Rewrites g g'' (f' ∘ f) :=
  ⟨by rw [h'.nodes, h.nodes, List.map_map], h'.memoryToNodes.trans h.memoryToNodes⟩

theorem SameNodes.rewrites (h : SameNodes g g') : Rewrites g g' id :=
  ⟨by simpa using h.nodes, h.memoryToNodes⟩

/-- Rewrite the node `i` when it satisfies `p`. -/
def rewriteAt (i : NodeId) (p : SuperKernelBaseNode → Bool)
    (upd : SuperKernelBaseNode → SuperKernelBaseNode) (n : SuperKernelBaseNode) :
    SuperKernelBaseNode :=
  if n.nodeId = i ∧ p n then upd n else n

/-- Rewrite the nodes of a list of ids that satisfy `p`. -/
def rewriteAll (is : List NodeId) (p : SuperKernelBaseNode → Bool)
    (upd : SuperKernelBaseNode → SuperKernelBaseNode) (n : SuperKernelBaseNode) :
    SuperKernelBaseNode :=
  if n.nodeId ∈ is ∧ p n then upd n else n

section

variable {p : SuperKernelBaseNode → Bool} {upd : SuperKernelBaseNode → SuperKernelBaseNode}

theorem rewriteAll_nodeId (hid : ∀ n, (upd n).nodeId = n.nodeId) (is : List NodeId)
    (n : SuperKernelBaseNode) : (rewriteAll is p upd n).nodeId = n.nodeId := by
  unfold rewriteAll
  split_ifs
  · exact hid n
  · rfl

theorem rewriteAll_isScopeNode (hscope : ∀ n, (upd n).isScopeNode = n.isScopeNode)
    (is : List NodeId) (n : SuperKernelBaseNode) :
    (rewriteAll is p upd n).isScopeNode = n.isScopeNode := by
  unfold rewriteAll
  split_ifs
  · exact hscope n
  · rfl

theorem rewriteAll_isFusible (hfus : ∀ n, (upd n).isFusible = n.isFusible) (is : List NodeId)
    (n : SuperKernelBaseNode) : (rewriteAll is p upd n).isFusible = n.isFusible := by
  unfold rewriteAll
  split_ifs
  · exact hfus n
  · rfl

/-- A node that satisfies the test is rewritten where it stands. -/
theorem modifyNode_rewrites (hg : g.NodupIds) {n : SuperKernelBaseNode}
    (hn : g.getNodeById i = some n) (hp : p n = true) :
    Rewrites g (g.modifyNode i upd) (rewriteAt i p upd) := by
  obtain ⟨hmem, hid⟩ := SuperKernelGraph.getNodeById_some hn
  refine ⟨map_congr_left fun x hx => ?_, rfl⟩
  unfold rewriteAt
  by_cases hxi : x.nodeId = i
  · obtain rfl : x = n := hg.eq_of_nodeId hx hmem (hxi.trans hid.symm)
    simp [hxi, hp]
  · simp [hxi]

/-- No node with the id satisfies the test. -/
theorem rewrites_self (h : ∀ n ∈ g.nodes, n.nodeId = i → p n = false) :
    Rewrites g g (rewriteAt i p upd) := by
  refine ⟨?_, rfl⟩
  conv_lhs => rw [← List.map_id g.nodes]
  refine map_congr_left fun x hx => ?_
  unfold rewriteAt
  split_ifs with hx'
  · simp [h x hx hx'.1] at hx'
  · rfl

/-- A loop of rewriting steps rewrites the nodes of its ids, when rewriting twice changes
nothing more. -/
theorem foldlM_rewrites {step : ModelGraph → NodeId → Option ModelGraph}
    (hid : ∀ n, (upd n).nodeId = n.nodeId) (htwice : ∀ n, p n → p (upd n) → upd (upd n) = upd n)
    (hstep : ∀ g g' i, g.NodupIds → step g i = some g' → Rewrites g g' (rewriteAt i p upd)) :
    ∀ (is : List NodeId) {g g' : ModelGraph}, g.NodupIds → is.foldlM step g = some g' →
      Rewrites g g' (rewriteAll is p upd) := by
  intro is
  induction is with
  | nil =>
    intro g g' hg h
    obtain rfl : g = g' := by simpa using h
    refine ⟨?_, rfl⟩
    conv_lhs => rw [← List.map_id g.nodes]
    exact map_congr_left fun x _ => by simp [rewriteAll]
  | cons i is ih =>
    intro g g' hg h
    simp only [foldlM_cons, bind_eq_bind, bind_eq_some_iff] at h
    obtain ⟨g₁, hg₁, h⟩ := h
    have hfirst := hstep g g₁ i hg hg₁
    have hrest := ih (hfirst.nodupIds (fun n => by unfold rewriteAt; split_ifs <;> simp [hid]) hg) h
    have hcomp := hfirst.comp hrest
    refine ⟨hcomp.nodes.trans (map_congr_left fun x _ => ?_), hcomp.memoryToNodes⟩
    simp only [Function.comp_apply]
    unfold rewriteAt rewriteAll
    -- a node of the first id is rewritten at once; a later visit finds it rewritten
    by_cases hx : x.nodeId = i ∧ p x
    · simp only [hx, and_self, if_true, mem_cons, true_or]
      split_ifs with hagain
      · exact htwice x hx.2 hagain.2
      · rfl
    · rw [if_neg hx]
      by_cases hpx : p x
      · have hxi : x.nodeId ≠ i := fun h => hx ⟨h, hpx⟩
        simp [hpx, hxi]
      · simp [hpx]

end

/-! ## The conversion steps -/

theorem isNodeOfType_iff {ty : SkNodeType} :
    g.isNodeOfType i ty = true ↔ ∃ n, g.getNodeById i = some n ∧ n.nodeType = ty := by
  simp [isNodeOfType, Option.any_eq_true]

variable {fusible : Bool}

theorem convertWait_rewrites {e : EventId} (hg : g.NodupIds)
    (h : convertWait e fusible g i = some g') :
    Rewrites g g' (rewriteAt i (·.nodeType == .nodeMemoryWait) (toWait fusible)) := by
  unfold convertWait at h
  split_ifs at h with htype
  · obtain ⟨n, hn, hty⟩ := isNodeOfType_iff.mp htype
    have hmod : Rewrites g (g.modifyNode i (toWait fusible))
        (rewriteAt i (·.nodeType == .nodeMemoryWait) (toWait fusible)) :=
      modifyNode_rewrites hg hn (by simp [hty])
    exact hmod.comp (addEventAssociateWait_same h).rewrites
  · obtain rfl : g = g' := by simpa using h
    refine rewrites_self fun n hn hid => ?_
    by_contra hty
    exact htype (isNodeOfType_iff.mpr ⟨n, hid ▸ hg.getNodeById_of_mem hn, by simpa using hty⟩)

theorem convertWriteOnly_rewrites {e : EventId} (hg : g.NodupIds)
    (h : convertWriteOnly e g i = some g') :
    Rewrites g g' (rewriteAt i (·.nodeType == .nodeMemoryWrite) toWriteOnly) := by
  unfold convertWriteOnly at h
  cases hfind : g.getNodeById i with
  | none =>
    rw [hfind] at h
    obtain rfl : g = g' := by simpa using h
    refine rewrites_self fun n hn hid => ?_
    rw [← hid, hg.getNodeById_of_mem hn] at hfind
    cases hfind
  | some n =>
    rw [hfind] at h
    by_cases hty : n.nodeType = .nodeMemoryWrite
    · have hmod : Rewrites g (g.modifyNode i toWriteOnly)
          (rewriteAt i (·.nodeType == .nodeMemoryWrite) toWriteOnly) :=
        modifyNode_rewrites hg hfind (by simp [hty])
      simp only [hty, if_true] at h
      split_ifs at h with hreset
      · exact hmod.comp (addEventAssociateReset_same h).rewrites
      · exact hmod.comp (addEventAssociateNotify_same h).rewrites
    · obtain rfl : g = g' := by simpa [hty] using h
      refine rewrites_self fun m hm hid => ?_
      obtain ⟨hn, hni⟩ := SuperKernelGraph.getNodeById_some hfind
      simp [hg.eq_of_nodeId hm hn (hid.trans hni.symm), hty]

theorem convertNotify_rewrites {e : EventId} (h : convertNotify e fusible g i = some g') :
    Rewrites g g' (rewriteAt i (fun _ => true) (toNotify fusible)) := by
  have hsame := addEventAssociateNotify_same h
  refine ⟨?_, hsame.memoryToNodes⟩
  rw [hsame.nodes]
  exact map_congr_left fun x _ => by simp [rewriteAt]

theorem convertReset_rewrites {e : EventId} (h : convertReset e g i = some g') :
    Rewrites g g' (rewriteAt i (fun _ => true) toReset) := by
  have hsame := addEventAssociateReset_same h
  refine ⟨?_, hsame.memoryToNodes⟩
  rw [hsame.nodes]
  exact map_congr_left fun x _ => by simp [rewriteAt]

/-- All waits of an address that passes the check agree. -/
theorem checkWaits_spec {info : BitVec 64 × ℕ} : ∀ {is : List NodeId}
    {first : Option (BitVec 64 × ℕ)}, g.checkWaits first is = some info →
    (first = none ∨ first = some info) ∧ ∀ i ∈ is, ∃ n, g.getNodeById i = some n ∧
      n.nodeType = .nodeMemoryWait ∧ waitInfo n = info
  | [], first, h => ⟨.inr h, by simp⟩
  | i :: is, first, h => by
    unfold checkWaits at h
    cases hn : g.getNodeById i with
    | none => simp [hn] at h
    | some n =>
      simp only [hn, ite_none_right_eq_some] at h
      obtain ⟨⟨hty, hfirst⟩, h⟩ := h
      obtain ⟨hinfo, hrest⟩ := checkWaits_spec h
      obtain hinfo : waitInfo n = info := by simpa using hinfo
      refine ⟨hinfo ▸ hfirst, fun j hj => ?_⟩
      rcases mem_cons.mp hj with rfl | hj
      · exact ⟨n, hn, hty, hinfo⟩
      · exact hrest j hj

theorem mem_classifyWrites {is : List NodeId} {v : BitVec 64} {f : ℕ} {b : Bool} :
    i ∈ g.classifyWrites is v f b ↔ i ∈ is ∧ ∃ n, g.getNodeById i = some n ∧
      n.nodeType = .nodeMemoryWrite ∧
      isNotifyByMemoryWaitRule (decodeValue n.syncInfos.memoryValue) v f = b := by
  simp [classifyWrites, Option.any_eq_true]

/-- The write `w` notifies the wait `x`. -/
def notifies (w x : SuperKernelBaseNode) : Bool :=
  isNotifyByMemoryWaitRule (decodeValue w.syncInfos.memoryValue) (waitInfo x).1 (waitInfo x).2

/-- What the conversion of an address, with writes `W` and waits `R`, makes of a node. -/
structure EventConverted (g : ModelGraph) (valueBreakerBypass : ℕ) (W R : List NodeId)
    (m m' : SuperKernelBaseNode) : Prop where
  nodeId : m'.nodeId = m.nodeId
  isScopeNode : m'.isScopeNode = m.isScopeNode
  off : m.nodeId ∉ W → m.nodeId ∉ R → m' = m
  wait : m.nodeId ∈ R → m.nodeType = .nodeMemoryWait →
    m'.isFusible =
      if ∃ x ∈ g.nodes, x.nodeId ∈ W ∧ x.nodeType = .nodeMemoryWrite ∧ notifies x m then
        enablePairedWaitBypass valueBreakerBypass
      else enableUnpairedWaitBypass valueBreakerBypass
  write : m.nodeId ∈ W → m.nodeType = .nodeMemoryWrite → m.isFusible = false →
    (m'.isFusible = true ↔ R = [] ∨ enablePairedWaitBypass valueBreakerBypass = true ∧
      ∃ x ∈ g.nodes, x.nodeId ∈ R ∧ x.nodeType = .nodeMemoryWait ∧ notifies m x)

section

variable {valueBreakerBypass : ℕ} {e : EventId} {W R : List NodeId}

theorem convertWaits_rewrites (hg : g.NodupIds) (h : R.foldlM (convertWait e fusible) g = some g') :
    Rewrites g g' (rewriteAll R (·.nodeType == .nodeMemoryWait) (toWait fusible)) := by
  refine foldlM_rewrites (toWait_nodeId fusible) (fun n _ htwice => ?_)
    (fun g g' i hg h => convertWait_rewrites hg h) R hg h
  simp [toWait] at htwice

theorem convertWriteOnlys_rewrites (hg : g.NodupIds)
    (h : W.foldlM (convertWriteOnly e) g = some g') :
    Rewrites g g' (rewriteAll W (·.nodeType == .nodeMemoryWrite) toWriteOnly) := by
  refine foldlM_rewrites toWriteOnly_nodeId (fun n _ htwice => ?_)
    (fun g g' i hg h => convertWriteOnly_rewrites hg h) W hg h
  simp only [toWriteOnly, beq_iff_eq] at htwice
  split_ifs at htwice

theorem convertResets_rewrites (hg : g.NodupIds) (h : R.foldlM (convertReset e) g = some g') :
    Rewrites g g' (rewriteAll R (fun _ => true) toReset) :=
  foldlM_rewrites toReset_nodeId (fun _ _ _ => rfl) (fun _ _ _ _ h => convertReset_rewrites h) R hg h

theorem waitOnly_converted (m : SuperKernelBaseNode) :
    EventConverted g valueBreakerBypass [] R m
      (rewriteAll (hash.order R) (·.nodeType == .nodeMemoryWait)
        (toWait (enableUnpairedWaitBypass valueBreakerBypass)) m) := by
  refine ⟨rewriteAll_nodeId (toWait_nodeId _) _ m,
    rewriteAll_isScopeNode (toWait_isScopeNode _) _ m, ?_, ?_, ?_⟩
  · intro _ hm
    simp [rewriteAll, hm]
  · intro hm hty
    simp [rewriteAll, hm, hty, toWait]
  · simp

theorem writeOnly_converted (m : SuperKernelBaseNode) :
    EventConverted g valueBreakerBypass W [] m
      (rewriteAll (hash.order W) (·.nodeType == .nodeMemoryWrite) toWriteOnly m) := by
  refine ⟨rewriteAll_nodeId toWriteOnly_nodeId _ m,
    rewriteAll_isScopeNode toWriteOnly_isScopeNode _ m, ?_, ?_, ?_⟩
  · intro hm _
    simp [rewriteAll, hm]
  · simp
  · intro hm hty _
    simp [rewriteAll, hm, hty, toWriteOnly]

theorem processNotify_rewrites {is : List NodeId}
    (h : g.processNotify valueBreakerBypass e is = some (g', fusible)) :
    fusible = (if is ≠ [] then enablePairedWaitBypass valueBreakerBypass
      else enableUnpairedWaitBypass valueBreakerBypass) ∧
    Rewrites g g' (rewriteAll is (fun _ => true) (toNotify fusible)) := by
  match is with
  | [] =>
    simp only [processNotify, some.injEq, Prod.mk.injEq] at h
    obtain ⟨rfl, rfl⟩ := h
    refine ⟨by simp, ?_, rfl⟩
    conv_lhs => rw [← List.map_id g.nodes]
    exact map_congr_left fun x _ => by simp [rewriteAll]
  | [i] =>
    simp only [processNotify, map_eq_some_iff, Prod.mk.injEq] at h
    obtain ⟨g₁, hg₁, rfl, rfl⟩ := h
    have hrewrites := convertNotify_rewrites hg₁
    refine ⟨by simp, hrewrites.nodes.trans (map_congr_left fun x _ => ?_), 
      hrewrites.memoryToNodes⟩
    simp [rewriteAt, rewriteAll]
  | _ :: _ :: _ => simp [processNotify] at h

/-- The conversion of an address with both writes and waits. -/
theorem processMemoryWriteNodes_converted {info : BitVec 64 × ℕ}
    (hg : g.NodupIds) (hcheck : g.checkWaits none (hash.order R) = some info)
    (h : g.processMemoryWriteNodes valueBreakerBypass e (hash.order W) (hash.order R) info.1 info.2
      = some g') :
    ∃ G, Rewrites g g' G ∧ ∀ m ∈ g.nodes, EventConverted g valueBreakerBypass W R m (G m) := by
  have hwaits := (checkWaits_spec hcheck).2
  have hR : R ≠ [] := by
    rintro rfl
    have hnil : hash.order [] = [] := (hash.perm []).eq_nil
    simp [hnil, checkWaits] at hcheck
  have hinfo : ∀ m ∈ g.nodes, m.nodeId ∈ R → waitInfo m = info := by
    intro m hm hmR
    obtain ⟨n, hn, -, hni⟩ := hwaits m.nodeId (hash.mem_order.mpr hmR)
    rw [hg.getNodeById_of_mem hm] at hn
    cases hn
    exact hni
  obtain ⟨x, hx⟩ := exists_mem_of_ne_nil R hR
  obtain ⟨wx, hwx, hwxty, hwxinfo⟩ := hwaits x (hash.mem_order.mpr hx)
  obtain ⟨hwxmem, hwxid⟩ := SuperKernelGraph.getNodeById_some hwx
  -- a write is in a class of writes when it passes the class's test
  have hclass : ∀ b, ∀ m ∈ g.nodes, m.nodeId ∈ g.classifyWrites (hash.order W) info.1 info.2 b ↔
      m.nodeId ∈ W ∧ m.nodeType = .nodeMemoryWrite ∧
        isNotifyByMemoryWaitRule (decodeValue m.syncInfos.memoryValue) info.1 info.2 = b := by
    intro b m hm
    rw [mem_classifyWrites, hash.mem_order, hg.getNodeById_of_mem hm]
    simp
  have hnotified : ∀ m ∈ g.nodes, m.nodeId ∈ R →
      ((∃ y ∈ g.nodes, y.nodeId ∈ W ∧ y.nodeType = .nodeMemoryWrite ∧ notifies y m) ↔
        g.classifyWrites (hash.order W) info.1 info.2 true ≠ []) := by
    intro m hm hmR
    constructor
    · rintro ⟨y, hy, hyW, hyty, hyn⟩
      refine ne_nil_of_mem ((hclass true y hy).mpr ⟨hyW, hyty, ?_⟩)
      rwa [notifies, hinfo m hm hmR] at hyn
    · intro hne
      obtain ⟨i, hi⟩ := exists_mem_of_ne_nil _ hne
      obtain ⟨hiW, y, hy, hyty, hyn⟩ := mem_classifyWrites.mp hi
      obtain ⟨hymem, rfl⟩ := SuperKernelGraph.getNodeById_some hy
      refine ⟨y, hymem, hash.mem_order.mp hiW, hyty, ?_⟩
      rw [notifies, hinfo m hm hmR]
      exact hyn
  have hnotifying : ∀ m, ((∃ y ∈ g.nodes, y.nodeId ∈ R ∧ y.nodeType = .nodeMemoryWait ∧
      notifies m y) ↔
        isNotifyByMemoryWaitRule (decodeValue m.syncInfos.memoryValue) info.1 info.2 = true) := by
    intro m
    constructor
    · rintro ⟨y, hy, hyR, -, hyn⟩
      rwa [notifies, hinfo y hy hyR] at hyn
    · intro hm
      refine ⟨wx, hwxmem, hwxid ▸ hx, hwxty, ?_⟩
      rw [notifies, hwxinfo]
      exact hm
  obtain ⟨⟨g₁, fusible⟩, hfirst, g₂, hg₂, hg'⟩ : ∃ r, g.processNotify valueBreakerBypass e
      (g.classifyWrites (hash.order W) info.1 info.2 true) = some r ∧
      ∃ g₂, (hash.order R).foldlM (convertWait e r.2) r.1 = some g₂ ∧
        (g.classifyWrites (hash.order W) info.1 info.2 false).foldlM (convertReset e) g₂
          = some g' := by
    simpa only [processMemoryWriteNodes, bind_eq_bind, bind_eq_some_iff] using h
  obtain ⟨hfusible, hnotify⟩ := processNotify_rewrites hfirst
  have hg₁ := hnotify.nodupIds (rewriteAll_nodeId (toNotify_nodeId _) _) hg
  have hwait := convertWaits_rewrites hg₁ hg₂
  have hg₂' := hwait.nodupIds (rewriteAll_nodeId (toWait_nodeId _) _) hg₁
  have hreset := convertResets_rewrites hg₂' hg'
  refine ⟨_, (hnotify.comp hwait).comp hreset, fun m hm => ?_⟩
  have hclassTrue := hclass true m hm
  have hclassFalse := hclass false m hm
  simp only [Function.comp_apply]
  refine ⟨?_, ?_, ?_, ?_, ?_⟩
  · simp only [rewriteAll_nodeId toReset_nodeId, rewriteAll_nodeId (toWait_nodeId _),
      rewriteAll_nodeId (toNotify_nodeId _)]
  · simp only [rewriteAll_isScopeNode toReset_isScopeNode, rewriteAll_isScopeNode
      (toWait_isScopeNode _), rewriteAll_isScopeNode (toNotify_isScopeNode _)]
  · intro hW hR
    have h₁ : m.nodeId ∉ g.classifyWrites (hash.order W) info.1 info.2 true :=
      fun h => hW (hclassTrue.mp h).1
    have h₂ : m.nodeId ∉ g.classifyWrites (hash.order W) info.1 info.2 false :=
      fun h => hW (hclassFalse.mp h).1
    simp [rewriteAll, h₁, h₂, hR]
  · intro hmR hty
    have h₁ : m.nodeId ∉ g.classifyWrites (hash.order W) info.1 info.2 true := by
      intro h
      simpa [hty] using (hclassTrue.mp h).2.1
    have h₂ : m.nodeId ∉ g.classifyWrites (hash.order W) info.1 info.2 false := by
      intro h
      simpa [hty] using (hclassFalse.mp h).2.1
    simp [rewriteAll, h₁, h₂, hmR, hty, toWait, hfusible, hnotified m hm hmR]
  · intro hmW hty hfus
    -- a reset keeps the fusibility the earlier steps leave
    rw [hnotifying m, rewriteAll_isFusible toReset_isFusible]
    by_cases hn : isNotifyByMemoryWaitRule (decodeValue m.syncInfos.memoryValue) info.1 info.2
    · have hmem := hclassTrue.mpr ⟨hmW, hty, hn⟩
      have hne := ne_nil_of_mem hmem
      simp [rewriteAll, hmem, toNotify, hfusible, hne, hn, hR]
    · have hmem : m.nodeId ∉ g.classifyWrites (hash.order W) info.1 info.2 true :=
        fun h => hn (hclassTrue.mp h).2.2
      simp [rewriteAll, hmem, hty, hfus, hn, hR]

theorem processMemoryEvent_converted (hg : g.NodupIds)
    (h : processMemoryEvent hash valueBreakerBypass g e = some g') :
    ∃ G, Rewrites g g' G ∧ ∀ m ∈ g.nodes, EventConverted g valueBreakerBypass
      (g.memoryInfo e).writeNodeIdList (g.memoryInfo e).waitNodeIdList m (G m) := by
  simp only [processMemoryEvent, hash.isEmpty_order] at h
  split_ifs at h with hwaitOnly hwriteOnly
  · have hW : (g.memoryInfo e).writeNodeIdList = [] := by
      simpa using (Bool.and_eq_true_iff.mp hwaitOnly).1
    rw [hW]
    exact ⟨_, convertWaits_rewrites hg h, fun m _ => waitOnly_converted m⟩
  · have hR : (g.memoryInfo e).waitNodeIdList = [] := by
      simpa using (Bool.and_eq_true_iff.mp hwriteOnly).2
    rw [hR]
    exact ⟨_, convertWriteOnlys_rewrites hg h, fun m _ => writeOnly_converted m⟩
  · simp only [bind_eq_bind, bind_eq_some_iff] at h
    obtain ⟨info, hcheck, h⟩ := h
    exact processMemoryWriteNodes_converted hg hcheck h

end

end ModelGraph

/-! ## The whole pass -/

/-- The address of a value write or a value wait. -/
def TaskParams.memoryAddr : TaskParams → Option EventId
  | .valueWrite a _ | .valueWait a _ _ => some a
  | _ => none

/-- The values and flags of the waits on an address. -/
def valueWaitsOn (ts : List ModelTask) (a : EventId) : List (BitVec 64 × ℕ) :=
  ts.filterMap fun t =>
    match t.params with
    | .valueWait b v f => if b = a then some (v, f) else none
    | _ => none

/-- The values written to an address. -/
def valueWritesOn (ts : List ModelTask) (a : EventId) : List (BitVec 64) :=
  ts.filterMap fun t =>
    match t.params with
    | .valueWrite b v => if b = a then some v else none
    | _ => none

/-- The pass makes the node of a memory task fusible, said of the tasks of the model alone. -/
def madeFusible (ts : List ModelTask) (valueBreakerBypass : ℕ) : TaskParams → Bool
  | .valueWrite a w =>
    (valueWaitsOn ts a).isEmpty || (enablePairedWaitBypass valueBreakerBypass &&
      (valueWaitsOn ts a).any fun x => isNotifyByMemoryWaitRule w x.1 x.2)
  | .valueWait a v f =>
    if (valueWritesOn ts a).any fun w => isNotifyByMemoryWaitRule w v f then
      enablePairedWaitBypass valueBreakerBypass
    else enableUnpairedWaitBypass valueBreakerBypass
  | _ => false

theorem mem_valueWaitsOn {ts : List ModelTask} {a : EventId} {x : BitVec 64 × ℕ} :
    x ∈ valueWaitsOn ts a ↔ ∃ i, ⟨i, .valueWait a x.1 x.2⟩ ∈ ts := by
  rw [valueWaitsOn, mem_filterMap]
  constructor
  · rintro ⟨⟨i, p⟩, ht, hx⟩
    cases p with
    | valueWait b v f =>
      obtain ⟨rfl, rfl⟩ : b = a ∧ (v, f) = x := by simpa using hx
      exact ⟨i, ht⟩
    | _ => cases hx
  · rintro ⟨i, hi⟩
    exact ⟨_, hi, by simp⟩

theorem mem_valueWritesOn {ts : List ModelTask} {a : EventId} {w : BitVec 64} :
    w ∈ valueWritesOn ts a ↔ ∃ i, ⟨i, .valueWrite a w⟩ ∈ ts := by
  rw [valueWritesOn, mem_filterMap]
  constructor
  · rintro ⟨⟨i, p⟩, ht, hx⟩
    cases p with
    | valueWrite b v =>
      obtain ⟨rfl, rfl⟩ : b = a ∧ v = w := by simpa using hx
      exact ⟨i, ht⟩
    | _ => cases hx
  · rintro ⟨i, hi⟩
    exact ⟨_, hi, by simp⟩

namespace Built

variable {ts : List ModelTask} {g : ModelGraph} (hb : Built ts g) {t : ModelTask}
  {n : SuperKernelBaseNode}
include hb

theorem mem_writeNodeIdList (ht : t ∈ ts) (hn : n ∈ g.nodes) (hnt : NodeOfTask t n) {a : EventId} :
    n.nodeId ∈ (g.memoryInfo a).writeNodeIdList ↔ ∃ v, t.params = .valueWrite a v := by
  rw [hb.write]
  constructor
  · rintro ⟨v, hv⟩
    -- the write on record has the id of `n`, so `n` is its node
    obtain ⟨m, hm, hmt⟩ := hb.taskOf _ hv
    obtain rfl : m = n := ModelGraph.NodupIds.eq_of_nodeId hb.nodup hm hn hmt.nodeId
    have htype := hnt.nodeType.symm.trans hmt.nodeType
    have hsync := hnt.syncInfos.symm.trans hmt.syncInfos
    obtain ⟨i, p⟩ := t
    cases p with
    | valueWrite b w =>
      have hab : b = a := by simpa [syncInfos] using congrArg SyncInfos.eventId hsync
      exact ⟨w, by rw [hab]⟩
    | _ => cases htype
  · rintro ⟨v, hv⟩
    refine ⟨v, ?_⟩
    rwa [hnt.nodeId, ← hv]

theorem mem_waitNodeIdList (ht : t ∈ ts) (hn : n ∈ g.nodes) (hnt : NodeOfTask t n) {a : EventId} :
    n.nodeId ∈ (g.memoryInfo a).waitNodeIdList ↔ ∃ v f, t.params = .valueWait a v f := by
  rw [hb.wait]
  constructor
  · rintro ⟨v, f, hv⟩
    obtain ⟨m, hm, hmt⟩ := hb.taskOf _ hv
    obtain rfl : m = n := ModelGraph.NodupIds.eq_of_nodeId hb.nodup hm hn hmt.nodeId
    have htype := hnt.nodeType.symm.trans hmt.nodeType
    have hsync := hnt.syncInfos.symm.trans hmt.syncInfos
    obtain ⟨i, p⟩ := t
    cases p with
    | valueWait b w f' =>
      have hab : b = a := by simpa [syncInfos] using congrArg SyncInfos.eventId hsync
      exact ⟨w, f', by rw [hab]⟩
    | _ => cases htype
  · rintro ⟨v, f, hv⟩
    refine ⟨v, f, ?_⟩
    rwa [hnt.nodeId, ← hv]

end Built

namespace ModelGraph

/-- What the pass has made of node `n` once the addresses `done` are converted. -/
structure Converted (ts : List ModelTask) (valueBreakerBypass : ℕ) (done : List EventId)
    (n n' : SuperKernelBaseNode) : Prop where
  nodeId : n'.nodeId = n.nodeId
  isScopeNode : n'.isScopeNode = n.isScopeNode
  other : ∀ t ∈ ts, NodeOfTask t n → (∀ a ∈ t.params.memoryAddr, a ∉ done) → n' = n
  memory : ∀ t ∈ ts, NodeOfTask t n → ∀ a ∈ t.params.memoryAddr, a ∈ done →
    n'.isFusible = madeFusible ts valueBreakerBypass t.params

/-- The graph `g` is what the pass has made of `g₀` once the addresses `done` are converted. -/
def Progress (ts : List ModelTask) (valueBreakerBypass : ℕ) (g₀ : ModelGraph)
    (done : List EventId) (g : ModelGraph) : Prop :=
  ∃ F, Rewrites g₀ g F ∧ ∀ n ∈ g₀.nodes, Converted ts valueBreakerBypass done n (F n)

section

variable {ts : List ModelTask} {valueBreakerBypass : ℕ} {g₀ g g' : ModelGraph}
  {done : List EventId} {a : EventId}

theorem Progress.start : Progress ts valueBreakerBypass g₀ [] g₀ :=
  ⟨id, ⟨by simp, rfl⟩, fun n _ => ⟨rfl, rfl, fun _ _ _ _ => rfl, by simp⟩⟩

theorem Progress.nodupIds (hb : Built ts g₀) (h : Progress ts valueBreakerBypass g₀ done g) :
    g.NodupIds := by
  obtain ⟨F, hF, hconv⟩ := h
  have hids : g.nodes.map (·.nodeId) = g₀.nodes.map (·.nodeId) := by
    rw [hF.nodes, List.map_map]
    exact map_congr_left fun n hn => (hconv n hn).nodeId
  rw [NodupIds, hids]
  exact hb.nodup

/-- A node of an address that is not yet converted is in the graph as it was. -/
theorem Progress.mem_of_pending (h : Progress ts valueBreakerBypass g₀ done g)
    {t : ModelTask} (ht : t ∈ ts) {n : SuperKernelBaseNode} (hn : n ∈ g₀.nodes)
    (hnt : NodeOfTask t n) (hpending : ∀ b ∈ t.params.memoryAddr, b ∉ done) : n ∈ g.nodes := by
  obtain ⟨F, hF, hconv⟩ := h
  rw [hF.nodes]
  exact List.mem_map.mpr ⟨n, hn, (hconv n hn).other t ht hnt hpending⟩

/-- The writes in the graph that notify a wait on `a` are those of the model. -/
theorem Progress.exists_write_iff (hb : Built ts g₀)
    (h : Progress ts valueBreakerBypass g₀ done g) (ha : a ∉ done) (q : BitVec 64 → Prop) :
    (∃ x ∈ g.nodes, x.nodeId ∈ (g₀.memoryInfo a).writeNodeIdList ∧
      x.nodeType = .nodeMemoryWrite ∧ q (decodeValue x.syncInfos.memoryValue)) ↔
    ∃ w ∈ valueWritesOn ts a, q w := by
  constructor
  · rintro ⟨x, hx, hxW, -, hq⟩
    obtain ⟨F, hF, hconv⟩ := h
    rw [hF.nodes] at hx
    obtain ⟨y, hy, rfl⟩ := List.mem_map.mp hx
    obtain ⟨t, ht, hyt⟩ := hb.nodeOf y hy
    rw [(hconv y hy).nodeId] at hxW
    obtain ⟨w, hw⟩ := (hb.mem_writeNodeIdList ht hy hyt).mp hxW
    have hFy : F y = y := by
      refine (hconv y hy).other t ht hyt fun b hb' => ?_
      obtain rfl : a = b := by simpa [hw, memoryAddr] using hb'
      exact ha
    rw [hFy, hyt.syncInfos, hw] at hq
    refine ⟨w, mem_valueWritesOn.mpr ⟨t.seqId, hw ▸ ht⟩, ?_⟩
    simpa [syncInfos] using hq
  · rintro ⟨w, hw, hq⟩
    obtain ⟨i, hi⟩ := mem_valueWritesOn.mp hw
    obtain ⟨y, hy, hyt⟩ := hb.taskOf _ hi
    refine ⟨y, h.mem_of_pending hi hy hyt ?_, (hb.mem_writeNodeIdList hi hy hyt).mpr ⟨w, rfl⟩,
      hyt.nodeType, ?_⟩
    · intro b hb'
      obtain rfl : a = b := by simpa [memoryAddr] using hb'
      exact ha
    · rw [hyt.syncInfos]
      simpa [syncInfos] using hq

/-- The waits in the graph on `a` are those of the model. -/
theorem Progress.exists_wait_iff (hb : Built ts g₀)
    (h : Progress ts valueBreakerBypass g₀ done g) (ha : a ∉ done) (q : BitVec 64 × ℕ → Prop) :
    (∃ x ∈ g.nodes, x.nodeId ∈ (g₀.memoryInfo a).waitNodeIdList ∧
      x.nodeType = .nodeMemoryWait ∧ q (waitInfo x)) ↔
    ∃ w ∈ valueWaitsOn ts a, q w := by
  constructor
  · rintro ⟨x, hx, hxR, -, hq⟩
    obtain ⟨F, hF, hconv⟩ := h
    rw [hF.nodes] at hx
    obtain ⟨y, hy, rfl⟩ := List.mem_map.mp hx
    obtain ⟨t, ht, hyt⟩ := hb.nodeOf y hy
    rw [(hconv y hy).nodeId] at hxR
    obtain ⟨v, f, hw⟩ := (hb.mem_waitNodeIdList ht hy hyt).mp hxR
    have hFy : F y = y := by
      refine (hconv y hy).other t ht hyt fun b hb' => ?_
      obtain rfl : a = b := by simpa [hw, memoryAddr] using hb'
      exact ha
    rw [hFy, waitInfo, hyt.syncInfos, hw] at hq
    refine ⟨(v, f), mem_valueWaitsOn.mpr ⟨t.seqId, hw ▸ ht⟩, ?_⟩
    simpa [syncInfos] using hq
  · rintro ⟨⟨v, f⟩, hw, hq⟩
    obtain ⟨i, hi⟩ := mem_valueWaitsOn.mp hw
    obtain ⟨y, hy, hyt⟩ := hb.taskOf _ hi
    refine ⟨y, h.mem_of_pending hi hy hyt ?_,
      (hb.mem_waitNodeIdList hi hy hyt).mpr ⟨v, f, rfl⟩, hyt.nodeType, ?_⟩
    · intro b hb'
      obtain rfl : a = b := by simpa [memoryAddr] using hb'
      exact ha
    · rw [waitInfo, hyt.syncInfos]
      simpa [syncInfos] using hq

/-- The conversion of an address leaves the nodes of other addresses alone. -/
theorem EventConverted.of_memoryAddr_ne (hb : Built ts g₀) {n : SuperKernelBaseNode}
    {t : ModelTask} (ht : t ∈ ts) (hn : n ∈ g₀.nodes) (hnt : NodeOfTask t n)
    {k k' : SuperKernelBaseNode} (hk : k.nodeId = n.nodeId)
    (hconv : EventConverted g valueBreakerBypass (g₀.memoryInfo a).writeNodeIdList
      (g₀.memoryInfo a).waitNodeIdList k k')
    (hne : a ∉ t.params.memoryAddr) : k' = k := by
  apply hconv.off
  · rw [hk, hb.mem_writeNodeIdList ht hn hnt]
    rintro ⟨v, hv⟩
    simp [hv, memoryAddr] at hne
  · rw [hk, hb.mem_waitNodeIdList ht hn hnt]
    rintro ⟨v, f, hv⟩
    simp [hv, memoryAddr] at hne

/-- The conversion of an address makes the node of its task fusible as `madeFusible` says. -/
theorem EventConverted.madeFusible (hb : Built ts g₀)
    (h : Progress ts valueBreakerBypass g₀ done g) (ha : a ∉ done) {n n' : SuperKernelBaseNode}
    {t : ModelTask} (ht : t ∈ ts) (hn : n ∈ g₀.nodes) (hnt : NodeOfTask t n)
    (hconv : EventConverted g valueBreakerBypass (g₀.memoryInfo a).writeNodeIdList
      (g₀.memoryInfo a).waitNodeIdList n n')
    (haddr : a ∈ t.params.memoryAddr) :
    n'.isFusible = SuperKernel.madeFusible ts valueBreakerBypass t.params := by
  obtain ⟨i, p⟩ := t
  cases p with
  | valueWrite b w =>
    obtain rfl : b = a := by simpa [memoryAddr] using haddr
    have hempty : (g₀.memoryInfo b).waitNodeIdList = [] ↔ valueWaitsOn ts b = [] := by
      simp only [eq_nil_iff_forall_not_mem, hb.wait, mem_valueWaitsOn]
      constructor
      · rintro hnone x ⟨j, hj⟩
        exact hnone j ⟨x.1, x.2, hj⟩
      · rintro hnone j ⟨v, f, hj⟩
        exact hnone (v, f) ⟨j, hj⟩
    have hnotifies := h.exists_wait_iff hb ha fun x =>
      isNotifyByMemoryWaitRule (decodeValue n.syncInfos.memoryValue) x.1 x.2 = true
    have hvalue : decodeValue n.syncInfos.memoryValue = w := by
      simp [hnt.syncInfos, syncInfos]
    rw [Bool.eq_iff_iff, hconv.write ((hb.mem_writeNodeIdList ht hn hnt).mpr ⟨w, rfl⟩) hnt.nodeType
      (hnt.notFusible rfl rfl), hempty]
    unfold notifies
    rw [hnotifies, hvalue]
    simp [SuperKernel.madeFusible, List.any_eq_true]
  | valueWait b v f =>
    obtain rfl : b = a := by simpa [memoryAddr] using haddr
    have hnotified := h.exists_write_iff hb ha fun w => isNotifyByMemoryWaitRule w v f = true
    have hinfo : waitInfo n = (v, f) := by
      simp [waitInfo, hnt.syncInfos, syncInfos]
    rw [hconv.wait ((hb.mem_waitNodeIdList ht hn hnt).mpr ⟨v, f, rfl⟩) hnt.nodeType]
    unfold notifies
    rw [hinfo]
    simp only [hnotified, SuperKernel.madeFusible, List.any_eq_true]
  | _ => simp [memoryAddr] at haddr

theorem Progress.step (hb : Built ts g₀) (h : Progress ts valueBreakerBypass g₀ done g)
    (ha : a ∉ done) (hstep : processMemoryEvent hash valueBreakerBypass g a = some g') :
    Progress ts valueBreakerBypass g₀ (a :: done) g' := by
  obtain ⟨G, hG, hconv⟩ := processMemoryEvent_converted (h.nodupIds hb) hstep
  obtain ⟨F, hF, hdone⟩ := id h
  have hinfo : g.memoryInfo a = g₀.memoryInfo a := by
    rw [memoryInfo, hF.memoryToNodes, ← memoryInfo]
  rw [hinfo] at hconv
  refine ⟨G ∘ F, hF.comp hG, fun n hn => ?_⟩
  have hm : F n ∈ g.nodes := hF.nodes ▸ List.mem_map_of_mem hn
  have hGF := hconv (F n) hm
  have hFn := hdone n hn
  refine ⟨hGF.nodeId.trans hFn.nodeId, hGF.isScopeNode.trans hFn.isScopeNode, ?_, ?_⟩
  · intro t ht hnt hpending
    have hsame : F n = n := hFn.other t ht hnt fun b hb' hbd =>
      hpending b hb' (mem_cons_of_mem _ hbd)
    have hoff := hGF.of_memoryAddr_ne hb ht hn hnt hFn.nodeId
      fun haddr => hpending a haddr mem_cons_self
    exact hoff.trans hsame
  · intro t ht hnt b hb' hbd
    by_cases hab : a ∈ t.params.memoryAddr
    · have hsame : F n = n := by
        refine hFn.other t ht hnt fun c hc => ?_
        obtain rfl : a = c := mem_unique hab hc
        exact ha
      rw [Function.comp_apply, hsame] 
      exact (hsame ▸ hGF).madeFusible hb h ha ht hn hnt hab
    · have hoff := hGF.of_memoryAddr_ne hb ht hn hnt hFn.nodeId hab
      rw [Function.comp_apply, hoff]
      refine hFn.memory t ht hnt b hb' ?_
      rcases mem_cons.mp hbd with rfl | hbd
      · exact absurd hb' hab
      · exact hbd

theorem Progress.run (hb : Built ts g₀) : ∀ {events : List EventId}
    {done : List EventId} {g : ModelGraph}, (events ++ done).Nodup →
    Progress ts valueBreakerBypass g₀ done g →
    events.foldlM (processMemoryEvent hash valueBreakerBypass) g = some g' →
    Progress ts valueBreakerBypass g₀ (events.reverse ++ done) g'
  | [], done, g, _, h, hrun => by
    obtain rfl : g = g' := by simpa using hrun
    exact h
  | a :: events, done, g, hnodup, h, hrun => by
    simp only [foldlM_cons, bind_eq_bind, bind_eq_some_iff] at hrun
    obtain ⟨g₁, hg₁, hrun⟩ := hrun
    rw [cons_append, nodup_cons, mem_append] at hnodup
    obtain ⟨ha, hnodup⟩ := hnodup
    have hstep := h.step hb (fun h => ha (.inr h)) hg₁
    have hnodup' : (events ++ a :: done).Nodup := by
      rw [nodup_middle, nodup_cons, mem_append]
      exact ⟨ha, hnodup⟩
    simpa using Progress.run hb hnodup' hstep hrun

/-- The address of a memory task has an entry in the memory table. -/
theorem mem_keys_of_memoryAddr (hb : Built ts g) {t : ModelTask} (ht : t ∈ ts)
    (ha : a ∈ t.params.memoryAddr) : a ∈ g.memoryToNodes.keys := by
  obtain ⟨n, hn, hnt⟩ := hb.taskOf t ht
  by_contra hkey
  have hnone : g.memoryInfo a = {} := by
    rw [memoryInfo, AList.lookup_eq_none.mpr hkey]
    rfl
  obtain ⟨i, p⟩ := t
  cases p with
  | valueWrite b v =>
    obtain rfl : b = a := by simpa [memoryAddr] using ha
    have hmem := (hb.mem_writeNodeIdList ht hn hnt).mpr ⟨v, rfl⟩
    simp [hnone] at hmem
  | valueWait b v f =>
    obtain rfl : b = a := by simpa [memoryAddr] using ha
    have hmem := (hb.mem_waitNodeIdList ht hn hnt).mpr ⟨v, f, rfl⟩
    simp [hnone] at hmem
  | _ => simp [memoryAddr] at ha

/-- The pass decides the fusibility of the memory nodes by `madeFusible`, whatever it was,
and leaves every other node alone. -/
theorem postProcessMemoryNode_spec (hb : Built ts g)
    (h : postProcessMemoryNode hash valueBreakerBypass g = some g') :
    ∃ F, g'.nodes = g.nodes.map F ∧ ∀ n ∈ g.nodes, (F n).nodeId = n.nodeId ∧
      (F n).isScopeNode = n.isScopeNode ∧ ∀ t ∈ ts, NodeOfTask t n → (F n).isFusible =
        if t.params.memoryAddr.isSome then SuperKernel.madeFusible ts valueBreakerBypass t.params
        else n.isFusible := by
  have hnodup : (hash.order g.memoryToNodes.keys ++ []).Nodup := by
    rw [append_nil]
    exact (hash.perm _).nodup_iff.mpr g.memoryToNodes.keys_nodup
  obtain ⟨F, hF, hconv⟩ := Progress.run hb hnodup Progress.start h
  refine ⟨F, hF.nodes, fun n hn => ⟨(hconv n hn).nodeId, (hconv n hn).isScopeNode, ?_⟩⟩
  intro t ht hnt
  cases haddr : t.params.memoryAddr with
  | none =>
    rw [(hconv n hn).other t ht hnt (by simp [haddr])]
    rfl
  | some a =>
    refine (hconv n hn).memory t ht hnt a haddr ?_
    rw [append_nil, mem_reverse, hash.mem_order]
    exact mem_keys_of_memoryAddr hb ht haddr

end

end ModelGraph

end GraphAutofusion.SuperKernel
