import GraphAutofusion.GraphMetadef.ExecuteGraph

/-!
# GraphMetadef.TopoStrategies — sorting by counters

Breadth-first and depth-first sorting are Kahn's algorithm. They differ in when a ready node is
taken, not in which nodes become ready: the containers of ready nodes hold the same nodes up to a
permutation.
-/

namespace GraphAutofusion.GraphMetadef

open Lib Function List

/-- A list of ready nodes, the next one in front. With memory priority it is a map that is ordered
by the number of out edges, the output size and the name. -/
structure TopoSortStack where
  isMemPriority : Bool
  isDfs : Bool
  isReverseDfs : Bool

variable {Name : Type*} [LinearOrder Name]

/-- `NodeOutInfo::operator<`. -/
def ExecuteGraph.nodeOutInfoLt (g : ExecuteGraph Name) (a b : Name) : Bool :=
  if g.getAllOutEdgesSize a < g.getAllOutEdgesSize b then true
  else if g.getAllOutEdgesSize a > g.getAllOutEdgesSize b then false
  else if g.outputSize a < g.outputSize b then true
  else if g.outputSize a > g.outputSize b then false
  else a < b

def TopoSortStack.push (s : TopoSortStack) (g : ExecuteGraph Name) (node : Name) (l : List Name) :
    List Name :=
  if s.isMemPriority ∧ ¬ s.isReverseDfs then emplace g.nodeOutInfoLt node l
  else if s.isDfs then node :: l
  else l ++ [node]

def TopoSortStack.pushAll (s : TopoSortStack) (g : ExecuteGraph Name) (nodes l : List Name) :
    List Name :=
  nodes.foldl (fun l node => s.push g node l) l

namespace ExecuteGraph

variable (g : ExecuteGraph Name)

/-! ## The nodes without inputs -/

def swapAt (l : List Name) (i j : ℕ) : List Name :=
  match l[i]?, l[j]? with
  | some a, some b => (l.set i b).set j a
  | _, _ => l

/-- The inner loop: `inx_i` stays the one of the node that stood at `i` when the loop began. -/
def orderInputAt (inputsOrder stack : List Name) (i : ℕ) : List Name :=
  match stack[i]?.bind (fun node => inputsOrder.idxOf? node) with
  | none => stack
  | some inxI =>
    (range' (i + 1) (stack.length - (i + 1))).foldl (fun stack j =>
      match stack[j]?.bind (fun node => inputsOrder.idxOf? node) with
      | none => stack
      | some inxJ => if inxI < inxJ then swapAt stack i j else stack) stack

/-- The counters of the in edges, 32 bits wide. -/
def mapInEdgeNum (node : Name) : ℕ := g.getInEdgeSize node % 2 ^ 32

def sortNodes : List Name :=
  let ready := g.nodes.filter fun node => g.mapInEdgeNum node = 0
  let stack := (ready.filter fun node => ¬ g.isData node).reverse ++
    (ready.filter fun node => g.isData node).reverse
  (range stack.length).foldl (orderInputAt g.inputsOrder) stack

/-! ## The counters -/

/-- The counters go down along the edges; the nodes that reach zero, in this order. -/
def getOutNodesFromEdges (rem : Name → ℕ) : List Name → (Name → ℕ) × List Name
  | [] => (rem, [])
  | node :: nodes =>
    let num := (rem node + (2 ^ 32 - 1)) % 2 ^ 32
    let rest := getOutNodesFromEdges (update rem node num) nodes
    (rest.1, if num = 0 then node :: rest.2 else rest.2)

/-- `CollectBreadthOutNode`: the nodes are collected by name. -/
def collectBreadthOutNode (rem : Name → ℕ) (node : Name) : (Name → ℕ) × List Name :=
  let released := getOutNodesFromEdges rem (g.getAllOutNodes node)
  (released.1, emplaceAll (fun a b => a < b) released.2)

/-- One round for each node; a run without enough fuel has no result. -/
def bfsLoop (s : TopoSortStack) :
    ℕ → (Name → ℕ) → List Name → List Name → List Name → Option (List Name)
  | 0, _, _, _, _ => none
  | fuel + 1, rem, stackInput, topoSortStack, nodeVec =>
    match topoSortStack, stackInput with
    | node :: topoSortStack, stackInput =>
      let released := g.collectBreadthOutNode rem node
      bfsLoop s fuel released.1 stackInput (s.pushAll g released.2 topoSortStack) (nodeVec ++ [node])
    | [], node :: stackInput =>
      let released := g.collectBreadthOutNode rem node
      bfsLoop s fuel released.1 stackInput (s.pushAll g released.2 []) (nodeVec ++ [node])
    | [], [] => some nodeVec

def bfsTopologicalSorting (isMemoryPriority : Bool) : Option (List Name) :=
  g.bfsLoop ⟨isMemoryPriority, false, false⟩ (g.nodes.length + 1) g.mapInEdgeNum g.sortNodes.reverse
    [] []

/-- The ready nodes of each output in turn, then those of the control edges. -/
def pushOutNodes (s : TopoSortStack) (reverse : Bool) :
    (Name → ℕ) → List Name → List (List Name) → (Name → ℕ) × List Name
  | rem, l, [] => (rem, l)
  | rem, l, edges :: rest =>
    let released := getOutNodesFromEdges rem edges
    pushOutNodes s reverse released.1
      (s.pushAll g (if reverse then released.2.reverse else released.2) l) rest

def dfsLoop (s : TopoSortStack) (reverse : Bool) :
    ℕ → (Name → ℕ) → List Name → List Name → Option (List Name)
  | 0, _, _, _ => none
  | _ + 1, _, [], nodeVec => some nodeVec
  | fuel + 1, rem, node :: topoSortStack, nodeVec =>
    let pushed := g.pushOutNodes s reverse rem topoSortStack
      (g.outDataEdges node ++ [g.outControlEdges node])
    dfsLoop s reverse fuel pushed.1 pushed.2 (nodeVec ++ [node])

def dfsTopologicalSorting (isMemoryPriority reverse : Bool) : Option (List Name) :=
  let s : TopoSortStack := ⟨isMemoryPriority, true, reverse⟩
  g.dfsLoop s reverse (g.nodes.length + 1) g.mapInEdgeNum (s.pushAll g g.sortNodes []) []

end ExecuteGraph

/-! ## The nodes without inputs are sorted, not changed -/

section Inputs

variable {l stack : List Name} {i j : ℕ}

omit [LinearOrder Name] in
theorem swapAt_perm : (ExecuteGraph.swapAt l i j).Perm l := by
  unfold ExecuteGraph.swapAt
  split
  · next a b ha hb =>
    obtain ⟨hi, rfl⟩ := List.getElem?_eq_some_iff.mp ha
    obtain ⟨hj, rfl⟩ := List.getElem?_eq_some_iff.mp hb
    exact set_set_perm hi hj
  · exact Perm.refl l

omit [LinearOrder Name] in
theorem foldl_perm {β : Type*} {f : List Name → β → List Name} (hf : ∀ l b, (f l b).Perm l)
    (bs : List β) (l : List Name) : (bs.foldl f l).Perm l := by
  induction bs generalizing l with
  | nil => exact Perm.refl l
  | cons b bs ih => exact (ih (f l b)).trans (hf l b)

theorem orderInputAt_perm (inputsOrder : List Name) :
    (ExecuteGraph.orderInputAt inputsOrder stack i).Perm stack := by
  unfold ExecuteGraph.orderInputAt
  split
  · exact Perm.refl stack
  · refine foldl_perm (fun l j => ?_) _ stack
    split
    · exact Perm.refl l
    · split
      · exact swapAt_perm
      · exact Perm.refl l

variable {g : ExecuteGraph Name}

theorem sortNodes_perm : g.sortNodes.Perm (g.nodes.filter fun node => g.mapInEdgeNum node = 0) := by
  unfold ExecuteGraph.sortNodes
  refine (foldl_perm (fun l i => orderInputAt_perm g.inputsOrder) _ _).trans ?_
  refine ((reverse_perm _).append (reverse_perm _)).trans ?_
  refine perm_append_comm.trans ?_
  have hneg := filter_append_perm (fun node => g.isData node)
    (g.nodes.filter fun node => g.mapInEdgeNum node = 0)
  simpa only [Bool.not_eq_true', decide_not, Bool.decide_eq_true] using hneg

end Inputs

/-! ## What becomes ready -/

section Released

/-- The counters went down along `l`, and `new` are the nodes that reached zero. -/
def Released (rem : Name → ℕ) (l : List Name) (rem' : Name → ℕ) (new : List Name) : Prop :=
  (∀ n, rem' n = rem n - l.count n) ∧ new.Nodup ∧ ∀ n, n ∈ new ↔ n ∈ l ∧ rem' n = 0

variable {rem rem' rem'' : Name → ℕ} {l l' new new' : List Name}

theorem Released.append (h : Released rem l rem' new) (h' : Released rem' l' rem'' new')
    (hcount : ∀ n, l'.count n ≤ rem' n) : Released rem (l ++ l') rem'' (new ++ new') := by
  obtain ⟨hrem, hnodup, hmem⟩ := h
  obtain ⟨hrem', hnodup', hmem'⟩ := h'
  -- a counter that is zero has no edge left
  have hdone : ∀ n ∈ new, n ∉ l' := by
    intro n hn hl'
    have hpos := count_pos_iff.mpr hl'
    have hle := hcount n
    rw [((hmem n).mp hn).2] at hle
    omega
  refine ⟨fun n => ?_, ?_, fun n => ?_⟩
  · rw [hrem', hrem, count_append]
    omega
  · refine nodup_append.mpr ⟨hnodup, hnodup', ?_⟩
    intro a ha b hb hab
    exact hdone a ha (hab ▸ ((hmem' b).mp hb).1)
  · rw [mem_append, mem_append, hmem', hmem]
    by_cases hl' : n ∈ l'
    · constructor
      · rintro (⟨_, hz⟩ | h)
        · exact absurd hl' (hdone n ((hmem n).mpr ⟨by assumption, hz⟩))
        · exact ⟨.inr hl', h.2⟩
      · exact fun h => .inr ⟨hl', h.2⟩
    · have hsame : rem'' n = rem' n := by
        rw [hrem', count_eq_zero.mpr hl']
        rfl
      simp [hl', hsame]

theorem getOutNodesFromEdges_released (hcount : ∀ n, l.count n ≤ rem n)
    (hbound : ∀ n, rem n < 2 ^ 32) :
    Released rem l (ExecuteGraph.getOutNodesFromEdges rem l).1
      (ExecuteGraph.getOutNodesFromEdges rem l).2 := by
  induction l generalizing rem with
  | nil => exact ⟨fun n => by simp [ExecuteGraph.getOutNodesFromEdges], nodup_nil, by simp [ExecuteGraph.getOutNodesFromEdges]⟩
  | cons x l ih =>
    have hx := hcount x
    rw [count_cons_self] at hx
    have hxb := hbound x
    -- no counter wraps around, since it is positive
    have hnum : (rem x + (2 ^ 32 - 1)) % 2 ^ 32 = rem x - 1 := by omega
    have hcount' : ∀ n, l.count n ≤ update rem x (rem x - 1) n := by
      intro n
      by_cases hn : n = x
      · subst hn
        rw [update_self]
        omega
      · rw [update_of_ne hn]
        have := hcount n
        rwa [count_cons_of_ne (Ne.symm hn)] at this
    have hbound' : ∀ n, update rem x (rem x - 1) n < 2 ^ 32 := by
      intro n
      by_cases hn : n = x
      · subst hn
        rw [update_self]
        omega
      · rw [update_of_ne hn]
        exact hbound n
    have hstep : Released rem [x] (update rem x (rem x - 1))
        (if rem x - 1 = 0 then [x] else []) := by
      refine ⟨fun n => ?_, ?_, fun n => ?_⟩
      · by_cases hn : n = x
        · subst hn
          rw [update_self, count_singleton_self]
        · rw [update_of_ne hn, count_eq_zero.mpr (by simpa using hn)]
          rfl
      · split <;> simp
      · by_cases hn : n = x
        · subst hn
          rw [update_self]
          split <;> simp_all
        · split <;> simp [hn]
    have happ := hstep.append (ih hcount' hbound') hcount'
    have hrun : ExecuteGraph.getOutNodesFromEdges rem (x :: l)
        = ((ExecuteGraph.getOutNodesFromEdges (update rem x (rem x - 1)) l).1,
          (if rem x - 1 = 0 then [x] else [])
            ++ (ExecuteGraph.getOutNodesFromEdges (update rem x (rem x - 1)) l).2) := by
      simp only [ExecuteGraph.getOutNodesFromEdges, hnum]
      split <;> rfl
    rw [hrun]
    exact happ

variable {g : ExecuteGraph Name} {s : TopoSortStack} {node : Name} {nodes : List Name}

theorem push_perm (h : node ∉ l) : (s.push g node l).Perm (node :: l) := by
  unfold TopoSortStack.push
  split
  · exact emplace_perm h
  · split
    · exact Perm.refl _
    · exact perm_append_singleton node l

theorem pushAll_perm (hnodup : nodes.Nodup) (h : ∀ n ∈ nodes, n ∉ l) :
    (s.pushAll g nodes l).Perm (l ++ nodes) := by
  induction nodes generalizing l with
  | nil => simp [TopoSortStack.pushAll]
  | cons node nodes ih =>
    rw [nodup_cons] at hnodup
    have hpush : (s.push g node l).Perm (node :: l) := push_perm (h node mem_cons_self)
    have hfresh : ∀ n ∈ nodes, n ∉ s.push g node l := by
      intro n hn hmem
      rcases mem_cons.mp (hpush.mem_iff.mp hmem) with rfl | hl
      · exact hnodup.1 hn
      · exact h n (mem_cons_of_mem _ hn) hl
    refine (ih hnodup.2 hfresh).trans ?_
    exact (hpush.append_right nodes).trans perm_middle.symm

theorem collectBreadthOutNode_released (hcount : ∀ n, (g.getAllOutNodes node).count n ≤ rem n)
    (hbound : ∀ n, rem n < 2 ^ 32) :
    Released rem (g.getAllOutNodes node) (g.collectBreadthOutNode rem node).1
      (g.collectBreadthOutNode rem node).2 := by
  have h := getOutNodesFromEdges_released hcount hbound
  refine ⟨h.1, nodup_emplaceAll, fun n => ?_⟩
  exact mem_emplaceAll.trans (h.2.2 n)

/-- The outputs are served one after the other, which comes to serving all edges at once. -/
theorem pushOutNodes_released {reverse : Bool} (ports : List (List Name))
    (hcount : ∀ n, ports.flatten.count n ≤ rem n) (hbound : ∀ n, rem n < 2 ^ 32)
    (hfresh : ∀ n ∈ ports.flatten, n ∉ l) :
    ∃ new, Released rem ports.flatten (g.pushOutNodes s reverse rem l ports).1 new ∧
      (g.pushOutNodes s reverse rem l ports).2.Perm (l ++ new) := by
  induction ports generalizing rem l with
  | nil =>
    refine ⟨[], ⟨fun n => ?_, nodup_nil, fun n => ?_⟩, ?_⟩
    · simp [ExecuteGraph.pushOutNodes]
    · simp
    · simp [ExecuteGraph.pushOutNodes]
  | cons edges ports ih =>
    have hsplit : ∀ n, edges.count n + ports.flatten.count n ≤ rem n := by
      intro n
      have := hcount n
      rwa [flatten_cons, count_append] at this
    have hrel := getOutNodesFromEdges_released (fun n => Nat.le_trans (Nat.le_add_right _ _) (hsplit n))
      hbound
    obtain ⟨rem1, new1, hres⟩ : ∃ rem1 new1, ExecuteGraph.getOutNodesFromEdges rem edges = (rem1, new1) :=
      ⟨_, _, rfl⟩
    rw [hres] at hrel
    have hcount1 : ∀ n, ports.flatten.count n ≤ rem1 n := by
      intro n
      have hr : rem1 n = rem n - edges.count n := hrel.1 n
      have := hsplit n
      omega
    have hbound1 : ∀ n, rem1 n < 2 ^ 32 := by
      intro n
      have hr : rem1 n = rem n - edges.count n := hrel.1 n
      exact hr ▸ Nat.lt_of_le_of_lt (Nat.sub_le _ _) (hbound n)
    have hfresh1 : ∀ n ∈ new1, n ∉ l := fun n hn =>
      hfresh n (mem_append.mpr (.inl ((hrel.2.2 n).mp hn).1))
    -- the order within one output depends on the flag
    have hpush : ∀ nodes, nodes.Perm new1 → (s.pushAll g nodes l).Perm (l ++ new1) := by
      intro nodes hperm
      refine (pushAll_perm (hperm.nodup_iff.mpr hrel.2.1) fun n hn => ?_).trans (hperm.append_left l)
      exact hfresh1 n (hperm.mem_iff.mp hn)
    have hpushed : (s.pushAll g (if reverse then new1.reverse else new1) l).Perm (l ++ new1) := by
      split
      · exact hpush _ (reverse_perm new1)
      · exact hpush _ (Perm.refl new1)
    have hfresh2 : ∀ n ∈ ports.flatten,
        n ∉ s.pushAll g (if reverse then new1.reverse else new1) l := by
      intro n hn hmem
      rcases mem_append.mp (hpushed.mem_iff.mp hmem) with hl | hnew
      · exact hfresh n (mem_append.mpr (.inr hn)) hl
      · have hz : rem1 n = 0 := ((hrel.2.2 n).mp hnew).2
        have hpos := count_pos_iff.mpr hn
        have := hcount1 n
        omega
    obtain ⟨new2, hrel2, hperm2⟩ := ih hcount1 hbound1 hfresh2
    refine ⟨new1 ++ new2, ?_, ?_⟩
    · simp only [ExecuteGraph.pushOutNodes, hres, flatten_cons]
      exact hrel.append hrel2 hcount1
    · simp only [ExecuteGraph.pushOutNodes, hres]
      refine hperm2.trans ?_
      rw [← append_assoc]
      exact hpushed.append_right new2

end Released

/-! ## Both strategies run Kahn's algorithm -/

section Run

variable (g : ExecuteGraph Name)

/-- The in edges of every node can be counted in 32 bits. -/
def InEdgesCounted : Prop := ∀ n ∈ g.nodes, g.getInEdgeSize n < 2 ^ 32

/-- A sorting that stops when nothing is ready: all nodes are listed exactly when the graph is
acyclic, and then no edge goes back. -/
structure KahnResult (nodeVec : List Name) : Prop where
  length_iff : nodeVec.length = g.nodes.length ↔ Acyclic g.Edge
  perm : nodeVec.length = g.nodes.length → nodeVec.Perm g.nodes
  forward : Forward g.Edge nodeVec

variable {g} {s : TopoSortStack} {rem : Name → ℕ} {node : Name}
  {stackInput topoSortStack nodeVec ready : List Name}

theorem mapInEdgeNum_eq (h : InEdgesCounted g) (n : Name) :
    g.mapInEdgeNum n = (g.nodes.flatMap g.getAllOutNodes).count n := by
  unfold ExecuteGraph.mapInEdgeNum
  rw [← ExecuteGraph.getInEdgeSize_eq]
  by_cases hn : n ∈ g.nodes
  · exact Nat.mod_eq_of_lt (h n hn)
  · -- no edge ends outside the graph
    have hnil : g.getInNodes n = [] := by
      rw [eq_nil_iff_forall_not_mem]
      intro a ha
      exact hn (ExecuteGraph.mem_getInNodes.mp ha).mem.2
    rw [ExecuteGraph.getInEdgeSize, hnil]
    rfl

/-- The state of the algorithm, with counters that fit their width. -/
def KahnReady (g : ExecuteGraph Name) (rem : Name → ℕ) (ready nodeVec : List Name) : Prop :=
  KahnInv g.nodes g.getAllOutNodes ⟨rem, ready, nodeVec⟩ ∧ ∀ n, rem n < 2 ^ 32

theorem KahnReady.init (h : InEdgesCounted g) (hready : ready.Perm g.sortNodes) :
    KahnReady g g.mapInEdgeNum ready [] := by
  have hperm := hready.trans sortNodes_perm
  refine ⟨KahnInv.init (fun n _ => mapInEdgeNum_eq h n) ?_ fun n => ?_, fun n => ?_⟩
  · exact hperm.nodup_iff.mpr (g.nodup.filter _)
  · rw [hperm.mem_iff, mem_filter, decide_eq_true_iff]
  · exact Nat.mod_lt _ (Nat.two_pow_pos 32)

section

variable (h : KahnReady g rem ready nodeVec)
include h

theorem KahnReady.mem (hnode : node ∈ ready) : node ∈ g.nodes ∧ node ∉ nodeVec := by
  refine ⟨h.1.sub node (mem_append.mpr (.inr hnode)), fun hout => ?_⟩
  exact (nodup_append.mp h.1.nodup).2.2 node hout node hnode rfl

theorem KahnReady.count_le (hnode : node ∈ ready) (n : Name) :
    (g.getAllOutNodes node).count n ≤ rem n := by
  obtain ⟨hmem, hout⟩ := h.mem hnode
  by_cases hn : n ∈ g.nodes
  · have hrem : rem n = pending g.nodes g.getAllOutNodes nodeVec n := h.1.rem n hn
    rw [hrem, pending_append_singleton g.nodup hmem hout]
    exact Nat.le_add_right _ _
  · have hzero : (g.getAllOutNodes node).count n = 0 :=
      count_eq_zero.mpr fun hin => hn (g.ends node n hin).2
    omega

/-- A successor of a ready node is not ready itself. -/
theorem KahnReady.fresh (hnode : node ∈ ready) {n : Name}
    (hn : n ∈ g.getAllOutNodes node) : n ∉ ready := by
  intro hready
  obtain ⟨hmem, hout⟩ := h.mem hnode
  have hz := (h.1.ready n (h.mem hready).1).mp (mem_append.mpr (.inr hready))
  exact pending_eq_zero.mp hz node hmem hout hn

theorem KahnReady.step {rest new ready' : List Name} {rem' : Name → ℕ}
    (hready : ready.Perm (node :: rest)) (hrel : Released rem (g.getAllOutNodes node) rem' new)
    (hready' : ready'.Perm (rest ++ new)) : KahnReady g rem' ready' (nodeVec ++ [node]) := by
  refine ⟨h.1.step g.nodup (fun a _ b hb => (g.ends a b hb).2)
    ⟨node, rest, new, hready, hready', rfl, hrel.1, hrel.2⟩, fun n => ?_⟩
  exact (hrel.1 n) ▸ lt_of_le_of_lt (Nat.sub_le _ _) (h.2 n)

omit h in
theorem KahnReady.result (h : KahnReady g rem [] nodeVec) : KahnResult g nodeVec := by
  refine ⟨h.1.length_eq_iff g.nodup (fun a b hb => (g.ends a b hb).1) rfl, fun hlen => ?_,
    h.1.forward⟩
  have hnodup : nodeVec.Nodup := (nodup_append.mp h.1.nodup).1
  have hsub := hnodup.subperm fun n hn => h.1.sub n (mem_append.mpr (.inl hn))
  exact hsub.perm_of_length_le (le_of_eq hlen.symm)

/-- One round of the breadth-first loop; the node taken is the first of either container. -/
theorem KahnReady.bfs_round {rest : List Name}
    (hready : ready.Perm (node :: (topoSortStack ++ rest))) :
    KahnReady g (g.collectBreadthOutNode rem node).1
      (s.pushAll g (g.collectBreadthOutNode rem node).2 topoSortStack ++ rest) (nodeVec ++ [node]) := by
  have hnode : node ∈ ready := hready.mem_iff.mpr mem_cons_self
  have hrel := collectBreadthOutNode_released (h.count_le hnode) h.2
  refine h.step hready hrel ?_
  have hpush := @pushAll_perm _ _ topoSortStack g s _ hrel.2.1 fun n hn hmem =>
    h.fresh hnode ((hrel.2.2 n).mp hn).1
      (hready.mem_iff.mpr (mem_cons_of_mem _ (mem_append.mpr (.inl hmem))))
  refine (hpush.append_right rest).trans ?_
  rw [append_assoc, append_assoc]
  exact perm_append_comm.append_left topoSortStack

end

theorem bfsLoop_result (fuel : ℕ) (h : KahnReady g rem (topoSortStack ++ stackInput) nodeVec)
    (hfuel : g.nodes.length < nodeVec.length + fuel) :
    ∃ nodeVec', g.bfsLoop s fuel rem stackInput topoSortStack nodeVec = some nodeVec' ∧
      KahnResult g nodeVec' := by
  induction fuel generalizing rem stackInput topoSortStack nodeVec with
  | zero =>
    have hle := h.1.length_le
    simp only at hle
    omega
  | succ fuel ih =>
    cases topoSortStack with
    | cons node topoSortStack =>
      refine ih (h.bfs_round (Perm.refl _)) ?_
      rw [length_append, length_singleton]
      omega
    | nil =>
      cases stackInput with
      | cons node stackInput =>
        have hready : ([] ++ node :: stackInput).Perm (node :: ([] ++ stackInput)) := by simp
        refine ih (h.bfs_round hready) ?_
        rw [length_append, length_singleton]
        omega
      | nil => exact ⟨nodeVec, rfl, h.result⟩

theorem dfsLoop_result {reverse : Bool} (fuel : ℕ) (h : KahnReady g rem topoSortStack nodeVec)
    (hfuel : g.nodes.length < nodeVec.length + fuel) :
    ∃ nodeVec', g.dfsLoop s reverse fuel rem topoSortStack nodeVec = some nodeVec' ∧
      KahnResult g nodeVec' := by
  induction fuel generalizing rem topoSortStack nodeVec with
  | zero =>
    have hle := h.1.length_le
    simp only at hle
    omega
  | succ fuel ih =>
    cases topoSortStack with
    | nil => exact ⟨nodeVec, rfl, h.result⟩
    | cons node topoSortStack =>
      have hports : (g.outDataEdges node ++ [g.outControlEdges node]).flatten = g.getAllOutNodes node := by
        simp [ExecuteGraph.getAllOutNodes]
      obtain ⟨new, hrel, hperm⟩ := @pushOutNodes_released _ _ rem topoSortStack g s reverse
        (g.outDataEdges node ++ [g.outControlEdges node])
        (fun n => hports ▸ h.count_le mem_cons_self n) h.2
        (fun n hn hmem => h.fresh mem_cons_self (hports ▸ hn) (mem_cons_of_mem _ hmem))
      rw [hports] at hrel
      refine ih (h.step (Perm.refl _) hrel hperm) ?_
      rw [length_append, length_singleton]
      omega

theorem bfsTopologicalSorting_result (h : InEdgesCounted g) (isMemoryPriority : Bool) :
    ∃ nodeVec, g.bfsTopologicalSorting isMemoryPriority = some nodeVec ∧ KahnResult g nodeVec := by
  refine bfsLoop_result _ (KahnReady.init h ?_) ?_
  · exact reverse_perm _
  · simp

theorem dfsTopologicalSorting_result (h : InEdgesCounted g) (isMemoryPriority reverse : Bool) :
    ∃ nodeVec, g.dfsTopologicalSorting isMemoryPriority reverse = some nodeVec ∧
      KahnResult g nodeVec := by
  refine dfsLoop_result _ (KahnReady.init h ?_) ?_
  · have hnodup : g.sortNodes.Nodup := sortNodes_perm.nodup_iff.mpr (g.nodup.filter _)
    have hpush := @pushAll_perm _ _ [] g ⟨isMemoryPriority, true, reverse⟩ _ hnodup (by simp)
    simpa using hpush
  · simp

end Run

end GraphAutofusion.GraphMetadef
