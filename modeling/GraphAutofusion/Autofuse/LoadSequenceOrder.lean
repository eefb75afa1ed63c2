import GraphAutofusion.Autofuse.LoadSequence
import GraphAutofusion.Lib.MoveForward

/-!
# Autofuse.LoadSequenceOrder — when the order stays valid

The search always ends. The new ids are a topological numbering again, with the nodes that stay in
their order, exactly when no new node is recorded behind a repeated one and the inputs of a recorded
node behind the first load are recorded before it. Two candidates that read one buffer break the
first condition, a buffer that a store behind the first load fills breaks the second.
-/

namespace GraphAutofusion.Autofuse.LoadSequence

open Lib Function List Option

/-! ## The graphs -/

def Edge (g : Graph) (u v : ℕ) : Prop := ∃ node, g[u]? = some node ∧ v ∈ node.outNodes

/-- The ids are a topological numbering and the compute nodes all lead to a store. Only stores feed
buffers other than outputs. -/
structure ImplGraph (g : Graph) : Prop where
  in_iff : ∀ (v : ℕ) (node : Node), g[v]? = some node → ∀ u, u ∈ node.inNodes ↔ Edge g u v
  topological : ∀ u v, Edge g u v → u < v ∧ v < g.length
  load_compute : ∀ (v : ℕ) (node : Node), g[v]? = some node → node.type = .load → node.apiType = .compute
  leads : ∀ (u : ℕ) (node : Node), g[u]? = some node → node.apiType = .compute →
    ∃ s, Relation.ReflTransGen (Edge g) u s ∧ isType g .store s = true
  flow : ∀ (u v : ℕ) (node next : Node), g[u]? = some node → g[v]? = some next →
    node.apiType = .compute → node.type ≠ .store → v ∈ node.outNodes →
      next.apiType = .compute ∨ next.type = .output

/-! ## What is recorded -/

variable (g : Graph)

def directFather (id : ℕ) : ℕ :=
  (g[id]?.elim [] Node.outNodes).head?.elim 0 (fatherOf g id)

/-- The end of the chain of direct fathers. -/
def rootOf (id : ℕ) : ℕ := (directFather g)^[g.length] id

/-- The recordings from some place on. -/
def recordedFrom (first : ℕ) : List ℕ → List ℕ
  | [] => []
  | id :: ids =>
    match g[id]? with
    | none => recordedFrom first ids
    | some node =>
      if isLaterLoad g first id node && rootOf g id == rootOf g first then
        buffersBehind g first node ++
          (if isOutNodeWithMultiInputs g node then recordedFrom first ids else [id])
      else recordedFrom first ids

/-- The first load, and the nodes in the order in which they are recorded. -/
def recordedNodes : Option (ℕ × List ℕ) :=
  match (range g.length).dropWhile fun id => !isType g .load id with
  | [] => none
  | first :: rest => some (first, recordedFrom g first rest)

variable {g} {u v id first fuel : ℕ} {node : Node} {fathers fathers' : Fathers}

/-! ## The forest -/

theorem foldl_insertFather (outs : List ℕ) (fathers : Fathers) (id x : ℕ) :
    outs.foldl (fun fathers out => insertFather fathers id (fatherOf g id out)) fathers x =
      if x = id then (fathers id).or (outs.head?.map (fatherOf g id)) else fathers x := by
  induction outs generalizing fathers with
  | nil =>
    by_cases hx : x = id
    · rw [if_pos hx, hx, foldl_nil, head?_nil, map_none, or_none]
    · rw [if_neg hx, foldl_nil]
  | cons out outs ih =>
    rw [foldl_cons, ih, insertFather]
    by_cases hsome : (fathers id).isSome = true
    · rcases isSome_iff_exists.mp hsome with ⟨father, hfather⟩
      rw [if_pos hsome, hfather]
      rfl
    · have hnone : fathers id = none := not_isSome_iff_eq_none.mp hsome
      rw [if_neg hsome, update_self]
      by_cases hx : x = id
      · rw [if_pos hx, if_pos hx, hnone]
        rfl
      · rw [if_neg hx, if_neg hx, update_of_ne hx]

theorem getDirectFatherNode_eq (x : ℕ) :
    getDirectFatherNode g x = (g[x]?.elim [] Node.outNodes).head?.map (fatherOf g x) := by
  have hloop : ∀ k, (range k).foldl (fun fathers id =>
      (g[id]?.elim [] Node.outNodes).foldl (fun fathers out =>
        insertFather fathers id (fatherOf g id out)) fathers) (fun _ => none) x =
      if x < k then (g[x]?.elim [] Node.outNodes).head?.map (fatherOf g x) else none := by
    intro k
    induction k with
    | zero => rfl
    | succ k ih =>
      rw [range_succ, foldl_append, foldl_cons, foldl_nil, foldl_insertFather]
      by_cases hx : x = k
      · subst hx
        rw [if_pos rfl, ih, if_neg (Nat.lt_irrefl x), if_pos (Nat.lt_succ_self x), none_or]
      · rw [if_neg hx, ih]
        by_cases hlt : x < k
        · rw [if_pos hlt, if_pos (by omega)]
        · rw [if_neg hlt, if_neg (by omega)]
  rw [getDirectFatherNode, hloop]
  by_cases hx : x < g.length
  · rw [if_pos hx]
  · rw [if_neg hx, getElem?_eq_none (Nat.not_lt.mp hx)]
    rfl

theorem readFather_getDirectFatherNode : readFather (getDirectFatherNode g) = directFather g := by
  funext x
  rw [readFather, getDirectFatherNode_eq, directFather]
  cases (g[x]?.elim [] Node.outNodes).head? <;> rfl

/-- The nodes whose chain goes up. -/
def Climbs (g : Graph) (id : ℕ) : Prop :=
  ∃ node, g[id]? = some node ∧ node.apiType = .compute ∧ node.type ≠ .store

theorem Climbs.lt (h : Climbs g id) : id < g.length := by
  rcases h with ⟨node, hnode, -⟩
  exact (List.getElem?_eq_some_iff.mp hnode).1

theorem Climbs.directFather (hg : ImplGraph g) (h : Climbs g id) :
    LoadSequence.directFather g id = id ∨
      (id < LoadSequence.directFather g id ∧ Climbs g (LoadSequence.directFather g id)) := by
  rcases h with ⟨node, hnode, hcompute, hstore⟩
  -- the way to a store leads over some out node
  have hout : node.outNodes ≠ [] := by
    rcases hg.leads id node hnode hcompute with ⟨s, hpath, hs⟩
    rcases Relation.ReflTransGen.cases_head hpath with rfl | ⟨v, ⟨node', hnode', hv⟩, -⟩
    · rw [isType, hnode] at hs
      exact absurd (of_decide_eq_true hs) hstore
    · rw [hnode] at hnode'
      rw [some.inj hnode']
      exact ne_nil_of_mem hv
  rcases exists_cons_of_ne_nil hout with ⟨out, outs, houts⟩
  have hfather : LoadSequence.directFather g id = fatherOf g id out := by
    rw [LoadSequence.directFather, hnode]
    show node.outNodes.head?.elim 0 _ = _
    rw [houts]
    rfl
  have hmem : out ∈ node.outNodes := houts ▸ mem_cons_self
  have hedge := hg.topological id out ⟨node, hnode, hmem⟩
  rw [hfather, fatherOf]
  by_cases hend : (isType g .store out || isType g .output out) = true
  · rw [if_pos hend]
    exact .inl rfl
  · rw [if_neg hend]
    refine .inr ⟨hedge.1, g[out], getElem?_eq_getElem hedge.2, ?_⟩
    rw [Bool.or_eq_true, not_or, isType, isType, getElem?_eq_getElem hedge.2] at hend
    have hflow := hg.flow id out node g[out] hnode (getElem?_eq_getElem hedge.2) hcompute
      hstore hmem
    exact ⟨hflow.resolve_right fun h => hend.2 (decide_eq_true h),
      fun h => hend.1 (decide_eq_true h)⟩

theorem climbing_directFather (hg : ImplGraph g) :
    Climbing (LoadSequence.directFather g) (Climbs g) g.length :=
  ⟨fun _ h => h.lt, fun _ h => h.directFather hg⟩

theorem root_rootOf (hg : ImplGraph g) (h : Climbs g id) :
    Root (directFather g) id (rootOf g id) ∧ Climbs g (rootOf g id) ∧ id ≤ rootOf g id := by
  rcases (climbing_directFather hg).exists_root h with ⟨r, hr, hclimbs, hle, hiter⟩
  have heq : rootOf g id = r := hiter g.length (by omega)
  rw [heq]
  exact ⟨hr, hclimbs, hle⟩

/-- What the look-ups keep: chains go up, and end where they ended. -/
structure GoodFathers (g : Graph) (fathers : Fathers) : Prop where
  climbing : Climbing (readFather fathers) (Climbs g) g.length
  root : ∀ x r, Root (directFather g) x r → Root (readFather fathers) x r

theorem goodFathers_initial (hg : ImplGraph g) : GoodFathers g (getDirectFatherNode g) := by
  constructor
  · rw [readFather_getDirectFatherNode]
    exact climbing_directFather hg
  · intro x r h
    rwa [readFather_getDirectFatherNode]

theorem readFather_update (fathers : Fathers) (x r : ℕ) :
    readFather (update fathers x (some r)) = update (readFather fathers) x r := by
  funext y
  by_cases hy : y = x
  · rw [hy, readFather, update_self, update_self]
    rfl
  · rw [readFather, update_of_ne hy, update_of_ne hy]
    rfl

theorem GoodFathers.compress (hg : ImplGraph g) (h : GoodFathers g fathers) (hid : Climbs g id) :
    GoodFathers g (update fathers id (some (rootOf g id))) := by
  rcases root_rootOf hg hid with ⟨hroot, hclimbs, hle⟩
  constructor
  · rw [readFather_update]
    refine ⟨h.climbing.lt, fun x hx => ?_⟩
    by_cases heq : x = id
    · rw [heq, update_self]
      rcases Nat.eq_or_lt_of_le hle with hself | hup
      · exact .inl hself.symm
      · exact .inr ⟨hup, hclimbs⟩
    · rw [update_of_ne heq]
      exact h.climbing.up x hx
  · intro x r hr
    rw [readFather_update]
    exact Root.compress (h.root id _ hroot) (h.root x r hr)

/-- The look-up ends at the root. -/
theorem findRoot_spec (hg : ImplGraph g) (h : GoodFathers g fathers) (hid : Climbs g id)
    (hfuel : g.length < id + fuel) :
    ∃ fathers', findRoot fuel fathers id = some (rootOf g id, fathers') ∧
      GoodFathers g fathers' := by
  induction fuel generalizing id with
  | zero => exact absurd hid.lt (by omega)
  | succ fuel ih =>
    have hroot := h.root id _ (root_rootOf hg hid).1
    rw [findRoot]
    by_cases hself : id = readFather fathers id
    · have heq : id = rootOf g id := (Root.self hself.symm).unique hroot
      rw [if_pos hself, ← heq]
      exact ⟨fathers, rfl, h⟩
    · rcases h.climbing.up id hid with hfix | ⟨hup, hfather⟩
      · exact absurd hfix.symm hself
      · rcases ih hfather (by omega) with ⟨fathers', hfind, hgood⟩
        have heq : rootOf g (readFather fathers id) = rootOf g id :=
          (h.root _ _ (root_rootOf hg hfather).1).of_parent.unique hroot
        rw [if_neg hself, hfind, heq]
        exact ⟨_, rfl, hgood.compress hg hid⟩

theorem hasSameComputeNode_spec (hg : ImplGraph g) (h : GoodFathers g fathers) (hu : Climbs g u)
    (hv : Climbs g v) (hfuel : g.length < fuel) :
    ∃ fathers', hasSameComputeNode fuel fathers u v = some (rootOf g u == rootOf g v, fathers') ∧
      GoodFathers g fathers' := by
  rcases findRoot_spec hg h hu (show g.length < u + fuel by omega) with ⟨fathers₁, hfind₁, hgood₁⟩
  rcases findRoot_spec hg hgood₁ hv (show g.length < v + fuel by omega) with ⟨fathers₂, hfind₂, hgood₂⟩
  refine ⟨fathers₂, ?_, hgood₂⟩
  rw [hasSameComputeNode, hfind₁, bind_some]
  dsimp only
  rw [hfind₂]
  rfl

/-! ## The search -/

/-- The map and the counter after a row of recordings. -/
structure Recorded (s : SearchState) (seq : List ℕ) : Prop where
  lookup : ∀ x, s.needForward.lookup x = if x ∈ seq then some (seq.idxOf x) else none
  mem_keys : ∀ x, x ∈ s.needForward.map Prod.fst ↔ x ∈ seq
  nodup_keys : (s.needForward.map Prod.fst).Nodup
  index : s.indexDataAndLoad = seq.length

variable {s : SearchState} {seq : List ℕ}

theorem recorded_nil (hneed : s.needForward = []) (hindex : s.indexDataAndLoad = 0) :
    Recorded s [] := by
  constructor
  · exact fun x => by rw [hneed]; rfl
  · exact fun x => by rw [hneed]; rfl
  · rw [hneed]
    exact nodup_nil
  · exact hindex

theorem Recorded.insertForward (h : Recorded s seq) (id : ℕ) :
    Recorded (s.insertForward id) (seq ++ [id]) := by
  have hindex : (s.insertForward id).indexDataAndLoad = (seq ++ [id]).length := by
    rw [length_append, ← h.index]
    rfl
  by_cases hid : id ∈ seq
  · -- the entry that is there stays
    have hneed : (s.insertForward id).needForward = s.needForward :=
      if_pos (by rw [h.lookup, if_pos hid]; rfl)
    have hmem : ∀ x, x ∈ seq ++ [id] ↔ x ∈ seq := by
      intro x
      rw [mem_append, mem_singleton]
      exact or_iff_left_of_imp fun heq => heq ▸ hid
    refine ⟨fun x => ?_, fun x => ?_, hneed ▸ h.nodup_keys, hindex⟩
    · rw [hneed, h.lookup]
      by_cases hx : x ∈ seq
      · rw [if_pos hx, if_pos ((hmem x).mpr hx), idxOf_append_of_mem hx]
      · rw [if_neg hx, if_neg fun h => hx ((hmem x).mp h)]
    · rw [hneed, h.mem_keys, hmem]
  · have hneed : (s.insertForward id).needForward = s.needForward ++ [(id, seq.length)] := by
      rw [← h.index]
      exact if_neg (by rw [h.lookup, if_neg hid]; exact Bool.false_ne_true)
    refine ⟨fun x => ?_, fun x => ?_, ?_, hindex⟩
    · rw [hneed, lookup_append, h.lookup]
      by_cases hx : x ∈ seq
      · rw [if_pos hx, if_pos (mem_append_left _ hx), idxOf_append_of_mem hx]
        rfl
      rw [if_neg hx, none_or, lookup_singleton]
      by_cases heq : x = id
      · subst heq
        rw [if_pos (beq_self_eq_true x), if_pos (mem_append_right _ (mem_singleton_self x)),
          idxOf_append_of_notMem hx, idxOf_cons_self, add_zero]
      · have hnot : x ∉ seq ++ [id] := by
          rw [mem_append, mem_singleton]
          exact not_or.mpr ⟨hx, heq⟩
        rw [if_neg fun hbeq => heq (eq_of_beq hbeq), if_neg hnot]
    · rw [hneed, map_append, mem_append, mem_append, h.mem_keys]
      rfl
    · rw [hneed, map_append, nodup_append']
      refine ⟨h.nodup_keys, nodup_singleton id, fun x hx hx' => hid ?_⟩
      have heq : x = id := mem_singleton.mp hx'
      exact heq ▸ (h.mem_keys x).mp hx

theorem Recorded.foldl_insertForward (h : Recorded s seq) (ids : List ℕ) :
    Recorded (ids.foldl SearchState.insertForward s) (seq ++ ids) := by
  induction ids generalizing s seq with
  | nil => rwa [append_nil]
  | cons id ids ih =>
    rw [append_cons]
    exact ih (h.insertForward id)

theorem foldl_insertForward_eq (s : SearchState) (ids : List ℕ) :
    (ids.foldl SearchState.insertForward s).fathers = s.fathers ∧
      (ids.foldl SearchState.insertForward s).firstLoadId = s.firstLoadId ∧
      (ids.foldl SearchState.insertForward s).numOfLoadNeedAdjust = s.numOfLoadNeedAdjust := by
  induction ids generalizing s with
  | nil => exact ⟨rfl, rfl, rfl⟩
  | cons id ids ih => exact ih (s.insertForward id)

theorem Climbs.of_load (hg : ImplGraph g) (hnode : g[id]? = some node)
    (hload : node.type = .load) : Climbs g id :=
  ⟨node, hnode, hg.load_compute id node hnode hload, by rw [hload]; decide⟩

/-- The loop is left when the threshold is reached. -/
theorem searchFrom_done (ids : List ℕ) (h : loadThresh ≤ s.numOfLoadNeedAdjust) :
    searchFrom g ids s = some s := by
  cases ids with
  | nil => rfl
  | cons id ids => exact if_pos h

/-- The loop behind the first load. -/
theorem searchFrom_spec (hg : ImplGraph g) (hfirst : Climbs g first) (ids : List ℕ)
    (hgood : GoodFathers g s.fathers) (hload : s.firstLoadId = some first)
    (hnum : s.numOfLoadNeedAdjust = 1) (hrec : Recorded s seq) :
    ∃ s', searchFrom g ids s = some s' ∧ s'.firstLoadId = some first ∧
      Recorded s' (seq ++ recordedFrom g first ids) := by
  induction ids generalizing s seq with
  | nil =>
    refine ⟨s, rfl, hload, ?_⟩
    rwa [recordedFrom, append_nil]
  | cons id ids ih =>
    rcases s with ⟨fathers₀, need, firstLoadId, num, index⟩
    cases hload
    cases hnum
    rw [searchFrom, if_neg (show ¬ loadThresh ≤ 1 by decide), recordedFrom]
    cases hnode : g[id]? with
    | none => exact ih hgood rfl rfl hrec
    | some node =>
      rw [elim_some, searchNode]
      dsimp only
      by_cases hlater : isLaterLoad g first id node = true
      · have hnodeload : node.type = .load := by
          rw [isLaterLoad, Bool.and_eq_true, Bool.and_eq_true] at hlater
          exact eq_of_beq hlater.1.1
        rcases hasSameComputeNode_spec hg hgood (Climbs.of_load hg hnode hnodeload) hfirst
          (Nat.lt_succ_self g.length) with ⟨fathers, hsame, hgood'⟩
        rw [if_pos hlater, hsame, hlater, Bool.true_and, map_some, bind_some]
        dsimp only
        have hrec' : Recorded ⟨fathers, need, some first, 1, index⟩ seq :=
          ⟨hrec.lookup, hrec.mem_keys, hrec.nodup_keys, hrec.index⟩
        by_cases hroot : (rootOf g id == rootOf g first) = true
        · rw [if_pos hroot, if_pos hroot]
          -- the buffers are recorded in any case
          have hbuffers := hrec'.foldl_insertForward (buffersBehind g first node)
          rcases foldl_insertForward_eq ⟨fathers, need, some first, 1, index⟩
            (buffersBehind g first node) with ⟨hfathers, hload, hnum⟩
          by_cases hmulti : isOutNodeWithMultiInputs g node = true
          · rw [if_pos hmulti, if_pos hmulti, ← append_assoc]
            refine ih ?_ hload hnum hbuffers
            rw [hfathers]
            exact hgood'
          · rw [if_neg hmulti, if_neg hmulti, ← append_assoc]
            refine ⟨_, searchFrom_done ids ?_, hload, ?_⟩
            · exact le_of_eq (congrArg (· + 1) hnum).symm
            · have hone := hbuffers.insertForward id
              exact ⟨hone.lookup, hone.mem_keys, hone.nodup_keys, hone.index⟩
        · rw [if_neg hroot, if_neg hroot]
          exact ih hgood' rfl rfl hrec'
      · rw [if_neg hlater, eq_false_of_ne_true hlater, Bool.false_and, if_neg Bool.false_ne_true]
        exact ih hgood rfl rfl hrec

/-- The loop up to the first load, and behind it. -/
theorem searchFrom_initial (hg : ImplGraph g) (ids : List ℕ) (hgood : GoodFathers g fathers) :
    ∃ s, searchFrom g ids { fathers := fathers } = some s ∧
      match ids.dropWhile fun id => !isType g .load id with
      | [] => s.firstLoadId = none
      | first :: rest => s.firstLoadId = some first ∧ Recorded s (recordedFrom g first rest) := by
  induction ids with
  | nil => exact ⟨_, rfl, rfl⟩
  | cons id ids ih =>
    rw [searchFrom, if_neg (show ¬ loadThresh ≤ 0 by decide)]
    by_cases hload : isType g .load id = true
    · rw [dropWhile_cons_of_neg (by rw [hload]; exact Bool.false_ne_true)]
      rw [isType, Option.any_eq_true] at hload
      rcases hload with ⟨node, hnode, htype⟩
      have hnodeload : node.type = .load := of_decide_eq_true htype
      rw [hnode, elim_some, searchNode]
      dsimp only
      rw [if_pos (beq_iff_eq.mpr hnodeload), bind_some]
      exact searchFrom_spec hg (Climbs.of_load hg hnode hnodeload) ids hgood rfl rfl
        (recorded_nil rfl rfl)
    · rw [dropWhile_cons_of_pos (by rw [eq_false_of_ne_true hload]; rfl)]
      cases hnode : g[id]? with
      | none => exact ih
      | some node =>
        have hnot : ¬ (node.type == .load) = true := by
          intro hbeq
          refine hload ?_
          rw [isType, hnode]
          exact decide_eq_true (eq_of_beq hbeq)
        rw [elim_some, searchNode]
        dsimp only
        rw [if_neg hnot]
        exact ih

theorem searchNodesNeedForward_spec (hg : ImplGraph g) :
    ∃ s, searchNodesNeedForward g = some s ∧
      match recordedNodes g with
      | none => s.firstLoadId = none
      | some (first, seq) => s.firstLoadId = some first ∧ Recorded s seq := by
  rcases searchFrom_initial hg (range g.length) (goodFathers_initial hg) with ⟨s, hs, hresult⟩
  refine ⟨s, hs, ?_⟩
  rw [recordedNodes]
  cases hdrop : (range g.length).dropWhile fun id => !isType g .load id with
  | nil => rwa [hdrop] at hresult
  | cons first rest => rwa [hdrop] at hresult

/-! ## The new ids -/

theorem adjustFrom_prefix {need : List (ℕ × ℕ)} {last next : ℕ} {ids rest : List ℕ}
    (h : ∀ id ∈ ids, id ≤ first) :
    adjustFrom need first last next (ids ++ rest) = ids ++ adjustFrom need first last next rest := by
  induction ids with
  | nil => rfl
  | cons id ids ih =>
    rw [cons_append, adjustFrom, if_pos (h id mem_cons_self),
      ih fun x hx => h x (mem_cons_of_mem _ hx), cons_append]

/-- The loop behind the first load. -/
theorem adjustFrom_eq {need : List (ℕ × ℕ)} {last : ℕ}
    (hlookup : ∀ x, need.lookup x = if x ∈ seq then some (seq.idxOf x) else none)
    (hlast : ∀ v ∈ seq, v ≤ last) (k b : ℕ) (hb : first ≤ b) :
    adjustFrom need first last (b + 1 + movedAfter seq b) (range' (b + 1) k) =
      (range' (b + 1) k).map (newPlace first seq) := by
  induction k generalizing b with
  | zero => rfl
  | succ k ih =>
    rw [range'_succ, adjustFrom, if_neg (by omega), map_cons]
    by_cases hend : last < b + 1
    · -- the rest stays
      rw [if_pos hend, ← map_cons, ← range'_succ]
      refine (List.map_id _).symm.trans (map_congr_left fun x hx => ?_)
      have hx' := (mem_range'_1.mp hx).1
      have hnot : x ∉ seq := fun hmem => absurd (hlast x hmem) (by omega)
      rw [newPlace_of_notMem (by omega) hnot, movedAfter_eq_zero fun v hv => by
        have := hlast v hv
        omega]
      rfl
    · rw [if_neg hend, hlookup]
      by_cases hmem : b + 1 ∈ seq
      · have hnext : b + 1 + movedAfter seq b = b + 1 + 1 + movedAfter seq (b + 1) := by
          rw [movedAfter_succ_of_mem hmem]
          omega
        rw [if_pos hmem, newPlace_of_mem (by omega) hmem, hnext, ← ih (b + 1) (by omega)]
      · have hnext : b + 1 + movedAfter seq b + 1 = b + 1 + 1 + movedAfter seq (b + 1) := by
          rw [movedAfter_succ_of_notMem hmem]
          omega
        rw [if_neg hmem, newPlace_of_notMem (by omega) hmem, ← ih (b + 1) (by omega), ← hnext,
          ← movedAfter_succ_of_notMem hmem]

theorem Recorded.length_eq (h : Recorded s seq) : s.needForward.length = seq.toFinset.card := by
  have hkeys : (s.needForward.map Prod.fst).toFinset = seq.toFinset := by
    apply Finset.ext
    intro x
    rw [List.mem_toFinset, List.mem_toFinset, h.mem_keys]
  rw [← hkeys, toFinset_card_of_nodup h.nodup_keys, length_map]

theorem le_foldl_max {l : List ℕ} {a x : ℕ} (h : x = a ∨ x ∈ l) : x ≤ l.foldl max a := by
  induction l generalizing a x with
  | nil => exact le_of_eq (h.resolve_right not_mem_nil)
  | cons y l ih =>
    have hstart : max a y ≤ l.foldl max (max a y) := ih (.inl rfl)
    rcases h with rfl | h
    · exact (le_max_left x y).trans hstart
    · rcases mem_cons.mp h with rfl | h
      · exact (le_max_right a x).trans hstart
      · exact ih (.inr h)

/-- The ids that the code gives are the places of the rule. -/
theorem doSeqAdjustment_eq (h : Recorded s seq) (hfirst : first < g.length)
    (hseq : ∀ v ∈ seq, first < v) :
    doSeqAdjustment g s.needForward (some first) =
      (range g.length).map (newPlace first seq) := by
  rw [doSeqAdjustment]
  by_cases hempty : s.needForward.isEmpty = true
  · have hnil : seq = [] := by
      rw [eq_nil_iff_forall_not_mem]
      intro x hx
      have hkey := (h.mem_keys x).mpr hx
      rw [List.isEmpty_iff.mp hempty] at hkey
      exact not_mem_nil hkey
    rw [if_pos hempty, hnil]
    exact (List.map_id _).symm.trans (map_congr_left fun x _ => (newPlace_nil first x).symm)
  · have hsplit : range g.length =
        range (first + 1) ++ range' (first + 1) (g.length - (first + 1)) := by
      have happend := @range'_append_1 0 (first + 1) (g.length - (first + 1))
      rw [zero_add, Nat.add_sub_of_le hfirst] at happend
      rw [range_eq_range', range_eq_range', happend]
    have hlow : ∀ x ∈ range (first + 1), x ≤ first := fun x hx =>
      Nat.lt_succ_iff.mp (mem_range.mp hx)
    have hnext : first + s.needForward.length + 1 = first + 1 + movedAfter seq first := by
      rw [h.length_eq, movedAfter_first hseq]
      omega
    have hlast : ∀ v ∈ seq, v ≤ (s.needForward.map Prod.fst).foldl max 0 := fun v hv =>
      le_foldl_max (.inr ((h.mem_keys v).mpr hv))
    rw [if_neg hempty, hsplit, adjustFrom_prefix hlow, hnext,
      adjustFrom_eq h.lookup hlast _ first le_rfl, map_append]
    congr 1
    exact (List.map_id _).symm.trans
      (map_congr_left fun x hx => (newPlace_of_le (hlow x hx)).symm)

/-! ## The order -/

theorem mem_recordedFrom (hg : ImplGraph g) {ids : List ℕ} (hids : ∀ id ∈ ids, id < g.length)
    (hv : v ∈ recordedFrom g first ids) : first < v ∧ v < g.length := by
  induction ids with
  | nil => exact absurd hv not_mem_nil
  | cons id ids ih =>
    have hrest := ih fun x hx => hids x (mem_cons_of_mem _ hx)
    rw [recordedFrom] at hv
    cases hnode : g[id]? with
    | none =>
      rw [hnode] at hv
      exact hrest hv
    | some node =>
      rw [hnode] at hv
      dsimp only at hv
      by_cases hcandidate : (isLaterLoad g first id node && rootOf g id == rootOf g first) = true
      · rw [if_pos hcandidate, mem_append] at hv
        rcases hv with hv | hv
        · rw [buffersBehind, mem_filter, Bool.and_eq_true] at hv
          have hedge := hg.topological v id ((hg.in_iff id node hnode v).mp hv.1)
          exact ⟨of_decide_eq_true hv.2.2, hedge.1.trans hedge.2⟩
        · by_cases hmulti : isOutNodeWithMultiInputs g node = true
          · rw [if_pos hmulti] at hv
            exact hrest hv
          · rw [if_neg hmulti, mem_singleton] at hv
            rw [isLaterLoad, Bool.and_eq_true, Bool.and_eq_true, Bool.and_eq_true] at hcandidate
            rw [hv]
            exact ⟨of_decide_eq_true hcandidate.1.1.2, hids id mem_cons_self⟩
      · rw [if_neg hcandidate] at hv
        exact hrest hv

theorem recordedNodes_bounds (hg : ImplGraph g) (h : recordedNodes g = some (first, seq)) :
    first < g.length ∧ ∀ v ∈ seq, first < v ∧ v < g.length := by
  rw [recordedNodes] at h
  cases hdrop : (range g.length).dropWhile fun id => !isType g .load id with
  | nil =>
    rw [hdrop] at h
    exact nomatch h
  | cons id rest =>
    rw [hdrop] at h
    cases h
    have hlt : ∀ x ∈ first :: rest, x < g.length := by
      intro x hx
      rw [← hdrop] at hx
      exact mem_range.mp ((dropWhile_sublist _).mem hx)
    exact ⟨hlt first mem_cons_self, fun v hv =>
      mem_recordedFrom hg (fun x hx => hlt x (mem_cons_of_mem _ hx)) hv⟩

/-- A topological numbering in which the nodes that stay keep their order. -/
structure ValidOrder (g : Graph) (seq : List ℕ) (ids : List ℕ) : Prop where
  perm : ids.Perm (range g.length)
  topological : ∀ u v, Edge g u v → ids[u]?.getD 0 < ids[v]?.getD 0
  stable : ∀ u v, u < v → v < g.length → u ∉ seq → v ∉ seq → ids[u]?.getD 0 < ids[v]?.getD 0

/-- No new node is recorded behind a repeated one, and what feeds a recorded node is not moved
behind it. -/
structure SafelyRecorded (g : Graph) (first : ℕ) (seq : List ℕ) : Prop where
  repeats_last : RepeatsLast seq
  inputs : ∀ u v, Edge g u v → v ∈ seq → u ≤ first ∨ seq.idxOf u < seq.idxOf v

theorem getElem?_map_newPlace {n x : ℕ} (hx : x < n) :
    ((range n).map (newPlace first seq))[x]?.getD 0 = newPlace first seq x := by
  rw [getElem?_map, getElem?_range hx]
  rfl

theorem validOrder_newPlace_iff (hg : ImplGraph g) (hseq : ∀ v ∈ seq, first < v ∧ v < g.length) :
    ValidOrder g seq ((range g.length).map (newPlace first seq)) ↔
      SafelyRecorded g first seq := by
  have hfirst : ∀ v ∈ seq, first < v := fun v hv => (hseq v hv).1
  have hperm := perm_newPlace_iff hfirst fun v hv => (hseq v hv).2
  constructor
  · intro h
    have hrepeats := hperm.mp h.perm
    refine ⟨hrepeats, fun u v hedge hv => ?_⟩
    have hlt := hg.topological u v hedge
    have hnew := h.topological u v hedge
    rw [getElem?_map_newPlace hlt.2, getElem?_map_newPlace (hlt.1.trans hlt.2)] at hnew
    exact (newPlace_lt_iff hfirst hrepeats hlt.1).mp hnew hv
  · intro h
    refine ⟨hperm.mpr h.repeats_last, fun u v hedge => ?_, fun u v huv hv hu hv' => ?_⟩
    · have hlt := hg.topological u v hedge
      rw [getElem?_map_newPlace hlt.2, getElem?_map_newPlace (hlt.1.trans hlt.2)]
      exact (newPlace_lt_iff hfirst h.repeats_last hlt.1).mpr (h.inputs u v hedge)
    · rw [getElem?_map_newPlace hv, getElem?_map_newPlace (huv.trans hv)]
      exact newPlace_lt_of_notMem hfirst huv hu hv'

/-- The nodes that move. -/
def movedNodes (g : Graph) : List ℕ := (recordedNodes g).elim [] Prod.snd

/-- The adjustment ends with a valid order exactly when the nodes are safely recorded. -/
theorem loadOpSeqAdjust_valid_iff (hg : ImplGraph g) :
    (∃ ids, loadOpSeqAdjust g = some ids ∧ ValidOrder g (movedNodes g) ids) ↔
      ∀ first seq, recordedNodes g = some (first, seq) → SafelyRecorded g first seq := by
  rcases searchNodesNeedForward_spec hg with ⟨s, hs, hresult⟩
  rw [loadOpSeqAdjust, hs, map_some, movedNodes]
  cases hrecorded : recordedNodes g with
  | none =>
    rw [hrecorded] at hresult
    have hids : doSeqAdjustment g s.needForward s.firstLoadId
        = (range g.length).map (newPlace 0 []) := by
      rw [hresult]
      exact (List.map_id _).symm.trans (map_congr_left fun x _ => (newPlace_nil 0 x).symm)
    have hsafe : SafelyRecorded g 0 [] :=
      ⟨fun v hv => absurd hv not_mem_nil, fun u v _ hv => absurd hv not_mem_nil⟩
    refine iff_of_true ⟨_, rfl, ?_⟩ fun first seq h => nomatch h
    rw [hids]
    exact (validOrder_newPlace_iff hg fun v hv => absurd hv not_mem_nil).mpr hsafe
  | some p =>
    rcases p with ⟨first, seq⟩
    rw [hrecorded] at hresult
    rcases hresult with ⟨hfirst, hrec⟩
    rcases recordedNodes_bounds hg hrecorded with ⟨hlt, hseq⟩
    rw [hfirst, doSeqAdjustment_eq hrec hlt fun v hv => (hseq v hv).1]
    have hiff := validOrder_newPlace_iff hg hseq
    constructor
    · rintro ⟨ids, hids, hvalid⟩ first' seq' heq
      cases hids
      cases heq
      exact hiff.mp hvalid
    · intro h
      exact ⟨_, rfl, hiff.mpr (h first seq rfl)⟩

/-! ## Two graphs -/

def insOf (g : Graph) (v : ℕ) : List ℕ := g[v]?.elim [] Node.inNodes

def outsOf (g : Graph) (u : ℕ) : List ℕ := g[u]?.elim [] Node.outNodes

/-- What has to be looked at in a listed graph. -/
structure Checked (g : Graph) : Prop where
  ins : ∀ v < g.length, ∀ u ∈ insOf g v, u < g.length
  in_iff : ∀ v < g.length, ∀ u < g.length, u ∈ insOf g v ↔ v ∈ outsOf g u
  outs : ∀ u < g.length, ∀ v ∈ outsOf g u, u < v ∧ v < g.length
  load_compute : ∀ node ∈ g, node.type = .load → node.apiType = .compute
  next : ∀ node ∈ g, node.apiType = .compute → node.type ≠ .store →
    ∃ v ∈ node.outNodes, g[v]?.any (fun next => next.apiType = .compute) = true
  flow : ∀ node ∈ g, node.apiType = .compute → node.type ≠ .store → ∀ v ∈ node.outNodes,
    g[v]?.any (fun next => next.apiType = .compute ∨ next.type = .output) = true

theorem edge_iff : Edge g u v ↔ u < g.length ∧ v ∈ outsOf g u := by
  constructor
  · rintro ⟨node, hnode, hv⟩
    refine ⟨(List.getElem?_eq_some_iff.mp hnode).1, ?_⟩
    rw [outsOf, hnode]
    exact hv
  · rintro ⟨hu, hv⟩
    rw [outsOf, getElem?_eq_getElem hu] at hv
    exact ⟨g[u], getElem?_eq_getElem hu, hv⟩

theorem Checked.implGraph (h : Checked g) : ImplGraph g := by
  constructor
  · intro v node hnode u
    have hv := (List.getElem?_eq_some_iff.mp hnode).1
    have hins : insOf g v = node.inNodes := by
      rw [insOf, hnode]
      rfl
    rw [edge_iff, ← hins]
    constructor
    · intro hu
      have hlt := h.ins v hv u hu
      exact ⟨hlt, (h.in_iff v hv u hlt).mp hu⟩
    · rintro ⟨hlt, hout⟩
      exact (h.in_iff v hv u hlt).mpr hout
  · intro u v hedge
    rcases edge_iff.mp hedge with ⟨hu, hv⟩
    exact h.outs u hu v hv
  · exact fun v node hnode => h.load_compute node (mem_of_getElem? hnode)
  · -- a compute node that is no store has another one behind it
    intro u
    induction hd : g.length - u using Nat.strong_induction_on generalizing u with
    | _ d ih =>
      intro node hnode hcompute
      by_cases hstore : node.type = .store
      · refine ⟨u, .refl, ?_⟩
        rw [isType, hnode]
        exact decide_eq_true hstore
      rcases h.next node (mem_of_getElem? hnode) hcompute hstore with ⟨v, hv, hany⟩
      rcases Option.any_eq_true _ _ |>.mp hany with ⟨next, hnext, hnextc⟩
      have hedge : Edge g u v := ⟨node, hnode, hv⟩
      rcases edge_iff.mp hedge with ⟨hu, hv'⟩
      have hlt := h.outs u hu v hv'
      rcases ih (g.length - v) (by omega) v rfl next hnext (of_decide_eq_true hnextc) with
        ⟨s, hpath, hs⟩
      exact ⟨s, .head hedge hpath, hs⟩
  · intro u v node next hnode hnext hcompute hstore hv
    have hflow := h.flow node (mem_of_getElem? hnode) hcompute hstore v hv
    rw [hnext] at hflow
    exact of_decide_eq_true hflow

/-- Three loads before one node. The third reads the buffer of the second one if it is shared, and
that of the first one otherwise. -/
def threeLoads (shared : Bool) : Graph := [
  { apiType := .buffer, outNodes := if shared then [1] else [1, 4] },
  { type := .load, queId := 0, inNodes := [0], inDataNodes := 1, outNodes := [6] },
  { apiType := .buffer, outNodes := if shared then [3, 4] else [3] },
  { type := .load, queId := 1, inNodes := [2], inDataNodes := 1, outNodes := [6] },
  { type := .load, queId := 2, inNodes := if shared then [2] else [0], inDataNodes := 1,
    outNodes := [5] },
  { inNodes := [4], inDataNodes := 1, outNodes := [6] },
  { inNodes := [1, 3, 5], inDataNodes := 3, outNodes := [7] },
  { type := .store, inNodes := [6], inDataNodes := 1, outNodes := [8] },
  { type := .output, apiType := .buffer, inNodes := [7], inDataNodes := 1 }]

theorem checked_threeLoads (shared : Bool) : Checked (threeLoads shared) := by
  cases shared
  · exact ⟨by decide, by decide, by decide, by decide, by decide, by decide⟩
  · exact ⟨by decide, by decide, by decide, by decide, by decide, by decide⟩

/-- Two nodes get the id `4`, none gets the id `3`. -/
theorem not_loadOpSeqAdjust_valid_shared :
    ImplGraph (threeLoads true) ∧ ¬ ∃ ids, loadOpSeqAdjust (threeLoads true) = some ids ∧
      ValidOrder (threeLoads true) (movedNodes (threeLoads true)) ids := by
  refine ⟨(checked_threeLoads true).implGraph, ?_⟩
  rintro ⟨ids, hids, hvalid⟩
  have heq : loadOpSeqAdjust (threeLoads true) = some [0, 1, 2, 4, 4, 5, 6, 7, 8] := by decide
  rw [heq] at hids
  cases hids
  exact absurd (hvalid.perm.nodup_iff.mpr nodup_range) (by decide)

theorem loadOpSeqAdjust_valid_iff_unshared :
    (∃ ids, loadOpSeqAdjust (threeLoads false) = some ids ∧
      ValidOrder (threeLoads false) (movedNodes (threeLoads false)) ids) ↔
      ∀ first seq, recordedNodes (threeLoads false) = some (first, seq) →
        SafelyRecorded (threeLoads false) first seq :=
  loadOpSeqAdjust_valid_iff (checked_threeLoads false).implGraph

end GraphAutofusion.Autofuse.LoadSequence
