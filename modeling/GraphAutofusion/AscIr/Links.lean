import GraphAutofusion.AscIr.Proto
import Mathlib.Data.List.Nodup

/-!
# AscIr.Links — the nodes that come out of the messages

With distinct names each message works on a node of its own. The edges are counted through: the
sources that are there become the peers of the first in-anchors. An input gets the attributes
its source has at the time.
-/

namespace GraphAutofusion.AscIr

open List Option

variable {E V T : Type} {text : ExprText E}

/-! ## Sources -/

/-- What sources are looked up in: the names of the nodes with their output attributes. -/
abbrev View (E : Type) := List (String × List (AscTensorAttr E))

def view (nodes : List (AscNode E V)) : View E := nodes.map fun node => (node.name, node.outputs)

variable (v : View E)

/-- The attributes that a source has. -/
def sourceAttr (src : AscInputSourceDef) : Option (AscTensorAttr E) :=
  (v.find? fun entry => entry.1 = src.srcNodeName).bind fun entry => entry.2[src.srcOutIndex]?

theorem findNode_bind (nodes : List (AscNode E V)) (name : String) :
    ((findNode nodes name).bind fun place => nodes[place]?)
      = nodes.find? fun node => node.name = name := by
  unfold findNode
  induction nodes with
  | nil => rfl
  | cons node nodes ih =>
    rw [findIdx?_cons, find?_cons]
    by_cases hname : node.name = name
    · simp [hname]
    · simp only [hname, decide_false, Bool.false_eq_true, if_false]
      rw [← ih, bind_map]
      rfl

theorem sourceAttr_view (nodes : List (AscNode E V)) (src : AscInputSourceDef) :
    sourceAttr (view nodes) src
      = (nodes.find? fun node => node.name = src.srcNodeName).bind
          fun node => node.outputs[src.srcOutIndex]? := by
  unfold sourceAttr view
  rw [find?_map]
  cases hfind : nodes.find? fun node => node.name = src.srcNodeName with
  | none =>
    have : find? ((fun entry : String × List (AscTensorAttr E) => decide
      (entry.1 = src.srcNodeName)) ∘ fun node : AscNode E V => (node.name, node.outputs)) nodes
      = none := hfind
    rw [this]
    rfl
  | some node =>
    have : find? ((fun entry : String × List (AscTensorAttr E) => decide
      (entry.1 = src.srcNodeName)) ∘ fun node : AscNode E V => (node.name, node.outputs)) nodes
      = some node := hfind
    rw [this]
    rfl

/-- The sources that are there, without the empty messages. -/
def connected (srcs : List AscInputSourceDef) : List AscInputSourceDef :=
  srcs.filter fun src => src.srcNodeName ≠ ""

def AscInputSourceDef.peer (src : AscInputSourceDef) : String × ℕ :=
  (src.srcNodeName, src.srcOutIndex)

/-! ## Edges -/

section Edges

variable {nodes nodes' done rest : List (AscNode E V)} {node : AscNode E V}
  {src : AscInputSourceDef} {srcs : List AscInputSourceDef} {name : String} {i m : ℕ}

section

variable (hdone : name ∉ done.map AscNode.name)
include hdone

theorem findNode_append (hname : node.name = name) :
    findNode (done ++ node :: rest) name = some done.length := by
  unfold findNode
  rw [findIdx?_append, findIdx?_cons]
  have hnone : done.findIdx? (fun n => decide (n.name = name)) = none := by
    rw [findIdx?_eq_none_iff]
    intro n hn
    rw [decide_eq_false_iff_not]
    intro heq
    exact hdone (List.mem_map.mpr ⟨n, hn, heq⟩)
  rw [hnone]
  simp [hname]

theorem addEdge_append (hname : node.name = name) :
    addEdge (done ++ node :: rest) src name i
      = if (sourceAttr (view (done ++ node :: rest)) src).isSome ∧ node.peers[i]? = some none then
          some (done ++ { node with peers := node.peers.set i (some src.peer) } :: rest)
        else none := by
  unfold addEdge
  rw [findNode_bind, findNode_append hdone hname, sourceAttr_view]
  have hget : (done ++ node :: rest)[done.length]? = some node := by
    rw [getElem?_append_right (Nat.le_refl _), Nat.sub_self, getElem?_cons_zero]
  have hset : ∀ n : AscNode E V,
      (done ++ node :: rest).set done.length n = done ++ n :: rest := by
    intro n
    rw [set_append_right _ _ (Nat.le_refl _), Nat.sub_self, set_cons_zero]
  cases (done ++ node :: rest).find? fun n => n.name = src.srcNodeName with
  | none => simp
  | some srcNode =>
    simp only [bind_eq_bind, bind_some, hget, hset]
    by_cases hidx : src.srcOutIndex < srcNode.outputs.length
    · have hsome : srcNode.outputs[src.srcOutIndex]?.isSome := by
        rw [getElem?_eq_getElem hidx]
        rfl
      simp only [hidx, hsome, true_and]
      rfl
    · simp [hidx]

/-- The sources that are there become the peers of the free anchors, from the first one on. -/
theorem addEdges_append (hname : node.name = name)
    (pre : List (Option (String × ℕ))) (hpeers : node.peers = pre ++ replicate m none) :
    addEdges name pre.length srcs (done ++ node :: rest)
      = if (∀ src ∈ connected srcs, (sourceAttr (view (done ++ node :: rest)) src).isSome) ∧
            (connected srcs).length ≤ m then
          some (done ++ { node with
            peers := pre ++ (connected srcs).map (fun src => some src.peer)
              ++ replicate (m - (connected srcs).length) none } :: rest)
        else none := by
  induction srcs generalizing pre m node with
  | nil =>
    unfold connected
    simp [addEdges, ← hpeers]
  | cons src srcs ih =>
    unfold addEdges
    by_cases hempty : src.srcNodeName = ""
    · have hsame : connected (src :: srcs) = connected srcs := by
        unfold connected
        rw [filter_cons_of_neg (by simp [hempty])]
      rw [if_pos hempty, hsame]
      exact ih hname pre hpeers
    have hcons : connected (src :: srcs) = src :: connected srcs := by
      unfold connected
      rw [filter_cons_of_pos (by simp [hempty])]
    rw [if_neg hempty, hcons, addEdge_append hdone hname]
    cases m with
    | zero =>
      -- no anchor is left
      have hout : node.peers[pre.length]? = none := by
        rw [hpeers, replicate_zero, append_nil]
        exact getElem?_eq_none (Nat.le_refl _)
      simp [hout]
    | succ m =>
      have hfree : node.peers[pre.length]? = some none := by
        rw [hpeers, getElem?_append_right (Nat.le_refl _), Nat.sub_self]
        rfl
      have hlinked : node.peers.set pre.length (some src.peer)
          = (pre ++ [some src.peer]) ++ replicate m none := by
        rw [hpeers, set_append_right _ _ (Nat.le_refl _), Nat.sub_self,
          replicate_succ, set_cons_zero, append_assoc, singleton_append]
      have hview : view (done ++ { node with
          peers := node.peers.set pre.length (some src.peer) } :: rest)
          = view (done ++ node :: rest) := by
        unfold view
        simp only [map_append, map_cons]
      have hnext : ∀ n : AscNode E V, n.name = name →
          n.peers = (pre ++ [some src.peer]) ++ replicate m none → _ :=
        fun n hn hp => @ih n m hn (pre ++ [some src.peer]) hp
      have hrest := hnext { node with peers := node.peers.set pre.length (some src.peer) }
        hname hlinked
      rw [length_append, length_singleton, hview] at hrest
      by_cases hsrc : (sourceAttr (view (done ++ node :: rest)) src).isSome
      · simp only [hsrc, hfree, and_self, if_true, bind_eq_bind, bind_some, hrest,
          forall_mem_cons, true_and, length_cons, Nat.succ_le_succ_iff, map_cons,
          append_assoc, singleton_append, Nat.succ_sub_succ]
      · simp [hsrc]

end

end Edges

/-! ## New nodes -/

variable (msg : AscNodeDef V)

def inputNum : ℕ :=
  ((buildSpecs msg.irDef.inputNames msg.irDef.inputIrType msg.irDef.inputNums).map
    IrIOSpec.num).sum

def outputNum : ℕ :=
  ((buildSpecs msg.irDef.outputNames msg.irDef.outputIrType msg.irDef.outputNums).map
    IrIOSpec.num).sum

/-- The node that is built for a message, before anything is linked or read. -/
def fresh : AscNode E V where
  name := msg.attr.name
  type := msg.irDef.type
  irInputs := buildSpecs msg.irDef.inputNames msg.irDef.inputIrType msg.irDef.inputNums
  irOutputs := buildSpecs msg.irDef.outputNames msg.irDef.outputIrType msg.irDef.outputNums
  peers := replicate (inputNum msg) none
  attr := { name := msg.attr.name, type := msg.irDef.type }
  outputs := replicate (outputNum msg) {}
  inputs := replicate (inputNum msg) {}

def LengthsAgree : Prop :=
  msg.irDef.inputNums.length = msg.irDef.inputIrType.length ∧
    msg.irDef.inputNums.length = msg.irDef.inputNames.length ∧
    msg.irDef.outputNums.length = msg.irDef.outputIrType.length ∧
    msg.irDef.outputNums.length = msg.irDef.outputNames.length

theorem mapM_buildNode {msgs : List (AscNodeDef V)} (h : ∀ msg ∈ msgs, LengthsAgree msg) :
    msgs.mapM (buildNode (E := E)) = some (msgs.map fresh) := by
  induction msgs with
  | nil => rfl
  | cons msg msgs ih =>
    have hmsg : buildNode (E := E) msg = some (fresh msg) := if_pos (h msg mem_cons_self)
    have hrest := ih fun m hm => h m (mem_cons_of_mem _ hm)
    rw [mapM_cons, hmsg, hrest]
    rfl

/-- The sources of a message exist and there are anchors for them. -/
def Linkable (msg : AscNodeDef V) : Prop :=
  (∀ src ∈ connected msg.inputSrc, (sourceAttr v src).isSome) ∧
    (connected msg.inputSrc).length ≤ inputNum msg

instance (v : View E) (msg : AscNodeDef V) : Decidable (Linkable v msg) :=
  inferInstanceAs (Decidable (_ ∧ _))

/-- The node of a message with its edges. -/
def linked : AscNode E V :=
  { fresh msg with
    peers := (connected msg.inputSrc).map (fun src => some src.peer)
      ++ replicate (inputNum msg - (connected msg.inputSrc).length) none }

theorem view_linked (done rest : List (AscNode E V)) :
    view (done ++ linked msg :: rest) = view (done ++ fresh msg :: rest) := by
  unfold view
  simp only [map_append, map_cons]
  rfl

theorem foldlM_addEdges (msgs : List (AscNodeDef V)) (done : List (AscNode E V))
    (hnames : (done.map AscNode.name ++ msgs.map fun msg => msg.attr.name).Nodup)
    (hv : view (done ++ msgs.map fresh) = v) :
    msgs.foldlM (fun nodes msg => addEdges msg.attr.name 0 msg.inputSrc nodes)
        (done ++ msgs.map fresh)
      = if ∀ msg ∈ msgs, Linkable v msg then some (done ++ msgs.map linked) else none := by
  induction msgs generalizing done with
  | nil => simp
  | cons msg msgs ih =>
    have hdone : msg.attr.name ∉ done.map AscNode.name := by
      intro hmem
      exact disjoint_of_nodup_append hnames hmem mem_cons_self
    rw [map_cons] at hv
    have hadd : addEdges msg.attr.name 0 msg.inputSrc (done ++ fresh msg :: msgs.map fresh)
        = if Linkable v msg then some (done ++ linked msg :: msgs.map fresh) else none := by
      rw [← hv]
      exact addEdges_append hdone rfl [] (nil_append _).symm
    rw [foldlM_cons, map_cons, hadd]
    by_cases hmsg : Linkable v msg
    · have hview : view ((done ++ [linked msg]) ++ msgs.map fresh) = v := by
        rw [append_assoc, singleton_append, view_linked, hv]
      have hnames' : ((done ++ [linked (E := E) msg]).map AscNode.name
          ++ msgs.map fun msg => msg.attr.name).Nodup := by
        rw [map_append, append_assoc]
        exact hnames
      have hrest := ih (done ++ [linked msg]) hnames' hview
      rw [append_assoc, singleton_append, append_assoc, singleton_append] at hrest
      rw [if_pos hmsg]
      simp only [forall_mem_cons, hmsg, true_and, map_cons]
      exact hrest
    · rw [if_neg hmsg, if_neg fun hall => hmsg (hall msg mem_cons_self)]
      rfl

/-! ## Reading -/

theorem readOutputs_replicate (msgs : List AscTensorAttrGroupsDef) (n : ℕ) :
    readOutputs text msgs (replicate n ({} : AscTensorAttr E))
      = if msgs.length ≤ n then
          some (msgs.map (fun msg => AscTensorAttr.deserializeAttr text msg {})
            ++ replicate (n - msgs.length) ({} : AscTensorAttr E))
        else none := by
  induction msgs generalizing n with
  | nil => simp [readOutputs]
  | cons msg msgs ih =>
    cases n with
    | zero => simp [readOutputs]
    | succ n =>
      rw [replicate_succ]
      unfold readOutputs
      rw [ih]
      by_cases hlen : msgs.length ≤ n
      · simp [hlen]
      · simp [hlen]

theorem findNode_none {nodes : List (AscNode E V)} {name : String}
    (h : name ∉ (view nodes).map Prod.fst) : findNode nodes name = none := by
  unfold findNode
  rw [findIdx?_eq_none_iff]
  intro node hnode
  rw [decide_eq_false_iff_not]
  intro heq
  apply h
  unfold view
  rw [List.map_map]
  exact List.mem_map.mpr ⟨node, hnode, heq⟩

theorem readInputs_append (done rest : List (AscNode E V)) (node : AscNode E V)
    (srcs : List AscInputSourceDef) (m : ℕ) (pre : List (AscTensorAttr E))
    (hv : view (done ++ node :: rest) = v) (hempty : "" ∉ v.map Prod.fst)
    (hsrcs : ∀ src ∈ connected srcs, (sourceAttr v src).isSome)
    (hlen : (connected srcs).length ≤ m) (hinputs : node.inputs = pre ++ replicate m ({} : AscTensorAttr E)) :
    readInputs done.length pre.length srcs (done ++ node :: rest)
      = some (done ++ { node with
          inputs := pre ++ (connected srcs).map (fun src => (sourceAttr v src).getD {})
            ++ replicate (m - (connected srcs).length) ({} : AscTensorAttr E) } :: rest) := by
  induction srcs generalizing pre m node with
  | nil =>
    unfold connected
    simp [readInputs, ← hinputs]
  | cons src srcs ih =>
    unfold readInputs
    by_cases hname : src.srcNodeName = ""
    · have hsame : connected (src :: srcs) = connected srcs := by
        unfold connected
        rw [filter_cons_of_neg (by simp [hname])]
      rw [hsame] at hsrcs hlen ⊢
      rw [← hv] at hempty
      rw [hname, findNode_none hempty]
      exact ih node m pre hv hsrcs hlen hinputs
    have hcons : connected (src :: srcs) = src :: connected srcs := by
      unfold connected
      rw [filter_cons_of_pos (by simp [hname])]
    rw [hcons, forall_mem_cons] at hsrcs
    rw [hcons] at hlen ⊢
    obtain ⟨attr, hattr⟩ := isSome_iff_exists.mp hsrcs.1
    have hfound := hattr
    rw [← hv, sourceAttr_view, ← findNode_bind] at hfound
    obtain ⟨m, rfl⟩ : ∃ k, m = k + 1 := ⟨m - 1, by
      rw [length_cons] at hlen
      omega⟩
    have hget : (done ++ node :: rest)[done.length]? = some node := by
      rw [getElem?_append_right (Nat.le_refl _), Nat.sub_self, getElem?_cons_zero]
    have hset : ∀ n : AscNode E V,
        (done ++ node :: rest).set done.length n = done ++ n :: rest := by
      intro n
      rw [set_append_right _ _ (Nat.le_refl _), Nat.sub_self, set_cons_zero]
    have hroom : pre.length < node.inputs.length := by
      rw [hinputs, length_append, length_replicate]
      omega
    have hread : node.inputs.set pre.length attr
        = (pre ++ [attr]) ++ replicate m ({} : AscTensorAttr E) := by
      rw [hinputs, set_append_right _ _ (Nat.le_refl _), Nat.sub_self,
        replicate_succ, set_cons_zero, append_assoc, singleton_append]
    have hview : view (done ++ { node with inputs := node.inputs.set pre.length attr } :: rest)
        = v := by
      rw [← hv]
      unfold view
      simp only [map_append, map_cons]
    have hrest := ih { node with inputs := node.inputs.set pre.length attr } m (pre ++ [attr])
      hview hsrcs.2 (Nat.le_of_succ_le_succ hlen) hread
    rw [length_append, length_singleton] at hrest
    cases hfind : findNode (done ++ node :: rest) src.srcNodeName with
    | none =>
      rw [hfind] at hfound
      exact nomatch hfound
    | some place =>
      rw [hfind, bind_some] at hfound
      obtain ⟨srcNode, hsrcNode, hout⟩ := bind_eq_some_iff.mp hfound
      simp only [bind_eq_bind, hsrcNode, bind_some, hout, hget, hset, if_pos hroom,
        hrest, map_cons, hattr, getD_some, length_cons, Nat.succ_sub_succ,
        append_assoc, singleton_append]

variable (text) in
/-- The output attributes of the node of a message, once they are read. -/
def readOutputAttrs : List (AscTensorAttr E) :=
  msg.outputs.map (fun attr => AscTensorAttr.deserializeAttr text attr {})
    ++ replicate (outputNum msg - msg.outputs.length) ({} : AscTensorAttr E)

variable (text) in
/-- What a source is looked up in while the node at `place` is read. The nodes up to it have their
output attributes, those behind it are new. -/
def viewAt (msgs : List (AscNodeDef V)) (place : ℕ) : View E :=
  (msgs.take (place + 1)).map (fun msg => (msg.attr.name, readOutputAttrs text msg))
    ++ (msgs.drop (place + 1)).map fun msg =>
      (msg.attr.name, replicate (outputNum msg) ({} : AscTensorAttr E))

variable (text) in
/-- The node of a message, once it is read. -/
def readNode (msg : AscNodeDef V) : AscNode E V :=
  { linked (E := E) msg with
    attr := AscNodeAttr.deserializeAttr text msg.attr
      { name := msg.attr.name, type := msg.irDef.type }
    outputs := readOutputAttrs text msg
    inputs := (connected msg.inputSrc).map (fun src => (sourceAttr v src).getD {})
      ++ replicate (inputNum msg - (connected msg.inputSrc).length) {} }

/-- Whether a source is found depends on the names and the number of outputs only. -/
theorem sourceAttr_isSome_congr {v w : View E} (src : AscInputSourceDef)
    (h : v.map (fun entry => (entry.1, entry.2.length))
      = w.map fun entry => (entry.1, entry.2.length)) :
    (sourceAttr v src).isSome = (sourceAttr w src).isSome := by
  have hshape : ∀ u : View E, (sourceAttr u src).isSome
      = ((u.map fun entry => (entry.1, entry.2.length)).find? fun entry =>
          decide (entry.1 = src.srcNodeName)).any fun entry => src.srcOutIndex < entry.2 := by
    intro u
    unfold sourceAttr
    rw [find?_map]
    have hcomp : ((fun entry : String × ℕ => decide (entry.1 = src.srcNodeName)) ∘
        fun entry : String × List (AscTensorAttr E) => (entry.1, entry.2.length))
        = fun entry => decide (entry.1 = src.srcNodeName) := rfl
    rw [hcomp]
    cases u.find? fun entry => decide (entry.1 = src.srcNodeName) with
    | none => rfl
    | some entry =>
      rw [bind_some, map_some, any_some]
      by_cases hidx : src.srcOutIndex < entry.2.length
      · simp [hidx]
      · simp [hidx]
  rw [hshape v, hshape w, h]

theorem length_readOutputAttrs {msg : AscNodeDef V} (h : msg.outputs.length ≤ outputNum msg) :
    (readOutputAttrs text msg).length = outputNum msg := by
  unfold readOutputAttrs
  rw [length_append, length_map, length_replicate]
  omega

theorem deserializeNode_append (msg : AscNodeDef V) (done rest : List (AscNode E V))
    (hv : view done ++ (msg.attr.name, readOutputAttrs text msg) :: view rest = v)
    (hempty : "" ∉ v.map Prod.fst) (hlinks : msg.outputs.length ≤ outputNum msg → Linkable v msg) :
    deserializeNode text (done ++ linked msg :: rest) (msg, done.length)
      = if msg.outputs.length ≤ outputNum msg then some (done ++ readNode text v msg :: rest)
        else none := by
  have hget : (done ++ linked msg :: rest)[done.length]? = some (linked msg) := by
    rw [getElem?_append_right (Nat.le_refl _), Nat.sub_self, getElem?_cons_zero]
  have houtputs : (linked (E := E) msg).outputs
      = replicate (outputNum msg) ({} : AscTensorAttr E) := rfl
  unfold deserializeNode
  rw [hget, bind_eq_bind, bind_some, houtputs, readOutputs_replicate]
  by_cases hfit : msg.outputs.length ≤ outputNum msg
  · rw [if_pos hfit, if_pos hfit, bind_eq_bind, bind_some,
      set_append_right _ _ (Nat.le_refl _), Nat.sub_self, set_cons_zero]
    have hview : ∀ node : AscNode E V, node.name = msg.attr.name →
        node.outputs = readOutputAttrs text msg → view (done ++ node :: rest) = v := by
      intro node hname hout
      rw [← hv, ← hname, ← hout]
      unfold view
      rw [map_append, map_cons]
    have hread := readInputs_append v done rest
      { linked msg with
        attr := AscNodeAttr.deserializeAttr text msg.attr
          { name := msg.attr.name, type := msg.irDef.type }
        outputs := readOutputAttrs text msg }
      msg.inputSrc (inputNum msg) [] (hview _ rfl rfl) hempty (hlinks hfit).1 (hlinks hfit).2
      (nil_append _).symm
    exact hread
  · rw [if_neg hfit, if_neg hfit]
    rfl

/-- Reading all nodes, the `past` ones of which are read. -/
theorem foldlM_deserializeNode (msgs past rest : List (AscNodeDef V)) (done : List (AscNode E V))
    (hmsgs : past ++ rest = msgs) (hempty : ∀ msg ∈ msgs, msg.attr.name ≠ "")
    (hlinks : ∀ msg ∈ msgs, Linkable (view (E := E) (msgs.map fresh)) msg)
    (hpast : ∀ msg ∈ past, msg.outputs.length ≤ outputNum msg)
    (hview : view done = past.map fun msg => (msg.attr.name, readOutputAttrs text msg)) :
    (rest.zipIdx past.length).foldlM (deserializeNode text) (done ++ rest.map linked)
      = if ∀ msg ∈ rest, msg.outputs.length ≤ outputNum msg then
          some (done ++ (rest.zipIdx past.length).map
            fun entry => readNode text (viewAt text msgs entry.2) entry.1)
        else none := by
  induction rest generalizing past done with
  | nil => simp
  | cons msg rest ih =>
    have hlen : done.length = past.length := by
      have := congrArg length hview
      unfold view at this
      rw [length_map, length_map] at this
      exact this
    have hrest : view (rest.map (linked (E := E)))
        = rest.map fun msg => (msg.attr.name, replicate (outputNum msg) ({} : AscTensorAttr E)) := by
      unfold view
      rw [List.map_map]
      rfl
    have hat : viewAt text msgs past.length
        = view done ++ (msg.attr.name, readOutputAttrs text msg)
          :: view (rest.map (linked (E := E))) := by
      unfold viewAt
      rw [hrest, hview, ← hmsgs, take_append, drop_append, take_of_length_le (by omega),
        drop_eq_nil_of_le (by omega)]
      simp
    have hnames : "" ∉ (viewAt text msgs past.length).map Prod.fst := by
      intro hmem
      unfold viewAt at hmem
      rw [map_append, List.map_map, List.map_map] at hmem
      rcases mem_append.mp hmem with hmem | hmem
      · obtain ⟨m, hm, heq⟩ := List.mem_map.mp hmem
        exact hempty m (mem_of_mem_take hm) heq
      · obtain ⟨m, hm, heq⟩ := List.mem_map.mp hmem
        exact hempty m (mem_of_mem_drop hm) heq
    have hmsg : msg ∈ msgs := by
      rw [← hmsgs]
      exact mem_append_right _ mem_cons_self
    have hlink : msg.outputs.length ≤ outputNum msg → Linkable (viewAt text msgs past.length) msg := by
      intro hfit
      refine ⟨fun src hsrc => ?_, (hlinks msg hmsg).2⟩
      rw [← (hlinks msg hmsg).1 src hsrc]
      apply sourceAttr_isSome_congr
      -- a node that is read has as many outputs as it was built with
      have hread : ∀ m ∈ past ++ [msg], (readOutputAttrs text m).length = outputNum m := by
        intro m hm
        apply length_readOutputAttrs
        rcases mem_append.mp hm with hm | hm
        · exact hpast m hm
        · rw [mem_singleton.mp hm]
          exact hfit
      have htake : msgs.take (past.length + 1) = past ++ [msg] := by
        rw [← hmsgs, take_append, take_of_length_le (by omega)]
        simp
      unfold viewAt view
      rw [map_append, List.map_map, List.map_map, List.map_map, htake]
      have hfst : (past ++ [msg]).map ((fun entry : String × List (AscTensorAttr E) =>
          (entry.1, entry.2.length)) ∘ fun m => (m.attr.name, readOutputAttrs text m))
          = (past ++ [msg]).map fun m => (m.attr.name, outputNum m) := by
        apply map_congr_left
        intro m hm
        show (m.attr.name, (readOutputAttrs text m).length) = _
        rw [hread m hm]
      rw [hfst, ← htake]
      simp only [List.map_map, Function.comp_def, length_replicate]
      rw [← map_append, take_append_drop]
      apply map_congr_left
      intro m _
      show _ = (m.attr.name, (replicate (outputNum m) ({} : AscTensorAttr E)).length)
      rw [length_replicate]
    have hnode := deserializeNode_append (viewAt text msgs past.length) msg done
      (rest.map linked) hat.symm hnames hlink
    rw [zipIdx_cons, foldlM_cons, map_cons, ← hlen, hnode]
    by_cases hfit : msg.outputs.length ≤ outputNum msg
    · have hpast' : ∀ m ∈ past ++ [msg], m.outputs.length ≤ outputNum m := by
        intro m hm
        rcases mem_append.mp hm with hm | hm
        · exact hpast m hm
        · rw [mem_singleton.mp hm]
          exact hfit
      have hview' : view (done ++ [readNode text (viewAt text msgs past.length) msg])
          = (past ++ [msg]).map fun msg => (msg.attr.name, readOutputAttrs text msg) := by
        rw [map_append, ← hview]
        unfold view
        rw [map_append]
        rfl
      have hnext := ih (past ++ [msg]) (done ++ [readNode text (viewAt text msgs past.length) msg])
        (by rw [append_assoc, singleton_append, hmsgs]) hpast' hview'
      rw [length_append, length_singleton, append_assoc, singleton_append,
        append_assoc, singleton_append] at hnext
      rw [if_pos hfit, bind_eq_bind, bind_some, hlen, hnext]
      simp only [forall_mem_cons, hfit, true_and, map_cons]
    · rw [if_neg hfit, if_neg fun hall => hfit (hall msg mem_cons_self)]
      rfl

/-- What is read from the messages of a graph, and when it is. -/
theorem deserializeFromProto_eq (msg : AscGraphDef V) (hagree : ∀ m ∈ msg.ascNode, LengthsAgree m)
    (hnodup : (msg.ascNode.map fun m => m.attr.name).Nodup)
    (hempty : ∀ m ∈ msg.ascNode, m.attr.name ≠ "") :
    deserializeFromProto (T := T) text msg
      = if (∀ m ∈ msg.ascNode, Linkable (view (E := E) (msg.ascNode.map fresh)) m) ∧
            ∀ m ∈ msg.ascNode, m.outputs.length ≤ outputNum m then
          some {
            name := msg.graphName
            attr := AscGraphAttr.deserializeAttr text msg.ascGraphAttr {}
            nodes := msg.ascNode.zipIdx.map fun entry =>
              readNode text (viewAt text msg.ascNode entry.2) entry.1 }
        else none := by
  have hedges := foldlM_addEdges (view (E := E) (msg.ascNode.map fresh)) msg.ascNode []
    hnodup rfl
  rw [nil_append, nil_append] at hedges
  unfold deserializeFromProto establishAscNodeAndEdges
  rw [mapM_buildNode hagree]
  simp only [bind_eq_bind, bind_some]
  rw [hedges]
  by_cases hlinks : ∀ m ∈ msg.ascNode, Linkable (view (E := E) (msg.ascNode.map fresh)) m
  · have hread := @foldlM_deserializeNode E V text msg.ascNode [] msg.ascNode [] rfl hempty
      hlinks (fun _ h => absurd h not_mem_nil) rfl
    rw [length_nil, nil_append] at hread
    rw [if_pos hlinks, bind_some, hread]
    by_cases hfit : ∀ m ∈ msg.ascNode, m.outputs.length ≤ outputNum m
    · rw [if_pos hfit, if_pos ⟨hlinks, hfit⟩]
      rfl
    · rw [if_neg hfit, if_neg fun h => hfit h.2]
      rfl
  · rw [if_neg hlinks, if_neg fun h => hlinks h.1]
    rfl

/-! ## Names

Whatever the names are, no step changes them. -/

section Names

variable {nodes nodes' : List (AscNode E V)}

theorem map_name_set {node new : AscNode E V} {place : ℕ} (hget : nodes[place]? = some node)
    (hname : new.name = node.name) : (nodes.set place new).map AscNode.name
      = nodes.map AscNode.name := by
  rw [map_set, hname]
  apply ext_getElem?
  intro i
  rw [getElem?_set, length_map]
  obtain ⟨hlt, hnode⟩ := List.getElem?_eq_some_iff.mp hget
  by_cases hi : place = i
  · rw [if_pos hi, if_pos hlt, ← hi, getElem?_map, hget]
    rfl
  · rw [if_neg hi]

theorem addEdge_names {src : AscInputSourceDef} {name : String} {i : ℕ}
    (h : addEdge nodes src name i = some nodes') :
    nodes'.map AscNode.name = nodes.map AscNode.name := by
  unfold addEdge at h
  obtain ⟨srcNode, -, h⟩ := bind_eq_some_iff.mp h
  obtain ⟨dst, -, h⟩ := bind_eq_some_iff.mp h
  obtain ⟨dstNode, hdst, h⟩ := bind_eq_some_iff.mp h
  split at h
  · obtain rfl := some.inj h
    exact map_name_set hdst rfl
  · exact nomatch h

theorem addEdges_names {srcs : List AscInputSourceDef} {name : String} {i : ℕ}
    (h : addEdges name i srcs nodes = some nodes') :
    nodes'.map AscNode.name = nodes.map AscNode.name := by
  induction srcs generalizing i nodes with
  | nil =>
    obtain rfl := some.inj h
    rfl
  | cons src srcs ih =>
    unfold addEdges at h
    split at h
    · exact ih h
    · obtain ⟨linked, hadd, h⟩ := bind_eq_some_iff.mp h
      rw [ih h, addEdge_names hadd]

theorem readInputs_names {srcs : List AscInputSourceDef} {place i : ℕ}
    (h : readInputs place i srcs nodes = some nodes') :
    nodes'.map AscNode.name = nodes.map AscNode.name := by
  induction srcs generalizing i nodes with
  | nil =>
    obtain rfl := some.inj h
    rfl
  | cons src srcs ih =>
    unfold readInputs at h
    split at h
    · exact ih h
    · obtain ⟨srcNode, -, h⟩ := bind_eq_some_iff.mp h
      obtain ⟨attr, -, h⟩ := bind_eq_some_iff.mp h
      obtain ⟨node, hnode, h⟩ := bind_eq_some_iff.mp h
      split at h
      · rw [ih h]
        exact map_name_set hnode rfl
      · exact nomatch h

theorem deserializeNode_names {msg : AscNodeDef V × ℕ}
    (h : deserializeNode text nodes msg = some nodes') :
    nodes'.map AscNode.name = nodes.map AscNode.name := by
  unfold deserializeNode at h
  obtain ⟨node, hnode, h⟩ := bind_eq_some_iff.mp h
  obtain ⟨outputs, -, h⟩ := bind_eq_some_iff.mp h
  rw [readInputs_names h]
  exact map_name_set hnode rfl

theorem foldlM_names {α : Type} {step : List (AscNode E V) → α → Option (List (AscNode E V))}
    (hstep : ∀ nodes a nodes', step nodes a = some nodes' →
      nodes'.map AscNode.name = nodes.map AscNode.name)
    {as : List α} (h : as.foldlM step nodes = some nodes') :
    nodes'.map AscNode.name = nodes.map AscNode.name := by
  induction as generalizing nodes with
  | nil =>
    obtain rfl := some.inj h
    rfl
  | cons a as ih =>
    rw [foldlM_cons] at h
    obtain ⟨next, hnext, h⟩ := bind_eq_some_iff.mp h
    rw [ih h, hstep _ _ _ hnext]

theorem deserializeFromProto_names {msg : AscGraphDef V} {g : AscGraph E V T}
    (hagree : ∀ m ∈ msg.ascNode, LengthsAgree m) (h : deserializeFromProto text msg = some g) :
    g.nodes.map AscNode.name = msg.ascNode.map fun m => m.attr.name := by
  unfold deserializeFromProto establishAscNodeAndEdges at h
  rw [mapM_buildNode hagree] at h
  obtain ⟨edged, hedged, h⟩ := bind_eq_some_iff.mp h
  obtain ⟨nodes, hnodes, h⟩ := bind_eq_some_iff.mp h
  obtain rfl := some.inj h
  rw [foldlM_names (fun _ _ _ => deserializeNode_names) hnodes,
    foldlM_names (fun _ _ _ => addEdges_names) hedged, List.map_map]
  rfl

end Names

end GraphAutofusion.AscIr
