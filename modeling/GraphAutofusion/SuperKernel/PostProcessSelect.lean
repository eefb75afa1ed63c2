import GraphAutofusion.SuperKernel.PostProcessPlan
import Mathlib.Data.List.Chain
import Mathlib.Data.List.Perm.Subperm
import Mathlib.Data.List.GetD

/-!
# SuperKernel.PostProcessSelect — the selection of main stream, launch node and order

`GetMainAndSubStreamOrder` decides by counting slots. Here a choice of main stream, position
of the launch node on it and order of the other streams *fits* when the custom tasks of
`syncTasks` fit into the nodes of their streams, those of the main stream before the launch
node. The selection fits whenever there is one, and there is one whenever some choice fits.
-/

namespace GraphAutofusion.SuperKernel

open List hiding beq_eq_decide
open Option

variable {g : SuperKernelGraph} {scope : SuperKernelScopeInfo} {l : List SuperKernelBaseNode}
  {infos : List ScopeStreamInfo} {plans : List StreamPostPlan} {order rest : List ℕ}
  {fits : List StreamFit} {i n mainStreamIdx entrySubStreamIdx : ℕ}

/-! ## The number of tasks -/

section Need

variable (plans : List StreamPostPlan)

def hasFront (i : ℕ) : Bool := (plans.getD i {}).needFrontWait

def hasBack (i : ℕ) : Bool := (plans.getD i {}).needBackBlock

/-- The number of custom tasks of a sub stream that is followed by the streams `rest`. -/
def slotNeed (rest : List ℕ) (i : ℕ) : ℕ :=
  (if hasFront plans i then 1 + (if rest.any (hasFront plans) then 1 else 0) else 0)
    + 2 * (if hasBack plans i then 1 else 0)

theorem subOf_front (cell : ℕ → Addr) (n i : ℕ) :
    (subOf cell (plans.getD i {}) n i).front = if hasFront plans i then some (cell n) else none := rfl

theorem subOf_back (cell : ℕ → Addr) (n i : ℕ) :
    (subOf cell (plans.getD i {}) n i).back =
      if hasBack plans i then some (cell (if hasFront plans i then n + 1 else n)) else none := rfl

theorem nextWait_length (cell : ℕ → Addr) (n : ℕ) (order : List ℕ) :
    (nextWait (subsOf cell plans n order)).length = if order.any (hasFront plans) then 1 else 0 := by
  induction order generalizing n with
  | nil => rfl
  | cons i rest ih =>
    rw [subsOf]
    have hfront := subOf_front plans cell n i
    cases hf : hasFront plans i with
    | true =>
      rw [hf, if_pos rfl] at hfront
      rw [nextWait_cons_some hfront]
      simp [hf]
    | false =>
      rw [hf, if_neg Bool.false_ne_true] at hfront
      rw [nextWait_cons_none hfront, ih]
      simp [hf]

theorem subOf_tasks_length (cell : ℕ → Addr) (n m i : ℕ) (rest : List ℕ) :
    ((subOf cell (plans.getD i {}) n i).tasks (subsOf cell plans m rest)).length
      = slotNeed plans rest i := by
  simp only [SubSync.tasks, SubSync.frontTasks, SubSync.backTasks, subOf_front, subOf_back, slotNeed,
    length_append]
  cases hasFront plans i <;> cases hasBack plans i <;> simp [nextWait_length, add_comm]

theorem subTasks_length (cell : ℕ → Addr) {pre rest : List ℕ} (hi : i ∉ pre) (n : ℕ) :
    (subTasks (subsOf cell plans n (pre ++ i :: rest)) i).length = slotNeed plans rest i := by
  induction pre generalizing n with
  | nil =>
    have hii : i = (subOf cell (plans.getD i {}) n i).stream := rfl
    rw [nil_append, subsOf, subTasks, if_pos hii, subOf_tasks_length]
  | cons j pre ih =>
    simp only [mem_cons, not_or] at hi
    have hij : i ≠ (subOf cell (plans.getD j {}) n j).stream := hi.1
    rw [cons_append, subsOf, subTasks, if_neg hij]
    exact ih hi.2 _

end Need

/-! ## Searching the launch node -/

section Search

variable {tail fuel : ℕ}

/-- Along a chain of linked graph nodes that ends at the tail, the walk is the list. -/
structure ChainTo (g : SuperKernelGraph) (tail : NodeId) (l : List SuperKernelBaseNode) : Prop where
  mem : ∀ n ∈ l, n ∈ g.nodes
  chain : l.IsChain fun a b => a.nextNodeId = some b.nodeId
  nodup : (l.map (·.nodeId)).Nodup
  last : l.getLast?.map (·.nodeId) = some tail

theorem ChainTo.of_cons_cons {a b : SuperKernelBaseNode} (h : ChainTo g tail (a :: b :: l)) :
    ChainTo g tail (b :: l) ∧ a.nextNodeId = some b.nodeId ∧ a.nodeId ≠ tail := by
  rcases isChain_cons_cons.mp h.chain with ⟨hnext, hchain⟩
  rcases nodup_cons.mp h.nodup with ⟨hnot, hnodup⟩
  have hlast : (b :: l).getLast?.map (·.nodeId) = some tail := by
    rw [← h.last, getLast?_cons_cons]
  refine ⟨⟨fun n hn => h.mem n (mem_cons_of_mem _ hn), hchain, hnodup, hlast⟩, hnext, ?_⟩
  intro heq
  rcases map_eq_some_iff.mp hlast with ⟨z, hz, hzt⟩
  exact hnot (List.mem_map.mpr ⟨z, mem_of_getLast? hz, hzt.trans heq.symm⟩)

theorem ChainTo.atBoundary_last {a : SuperKernelBaseNode} (h : ChainTo g tail [a]) :
    atBoundary tail a = true := by
  have htail : a.nodeId = tail := by simpa using h.last
  simp [atBoundary, htail]

/-- Inside the chain the next node is reached. -/
theorem ChainTo.step (hg : g.WellFormed) {a b : SuperKernelBaseNode} (h : ChainTo g tail (a :: b :: l)) :
    atBoundary tail a = false ∧ a.nextNodeId.bind g.getNodeById = some b := by
  rcases h.of_cons_cons with ⟨_, hnext, hne⟩
  have hb := hg.getNodeById_of_mem (h.mem b (mem_cons_of_mem _ (mem_cons_self ..)))
  simp [atBoundary, hnext, hne, hb]

theorem advanceNodeWithinScope_eq (hg : g.WellFormed) (h : ChainTo g tail l) (r : ℕ) :
    advanceNodeWithinScope g tail r l.head? = (l.drop r).head? := by
  induction l generalizing r with
  | nil => simpa using h.last
  | cons a rest ih =>
    cases r with
    | zero => rfl
    | succ r =>
      cases rest with
      | nil => simp [advanceNodeWithinScope, h.atBoundary_last]
      | cons b rest =>
        rcases h.step hg with ⟨hbound, hnext⟩
        have hrest := ih h.of_cons_cons.1 r
        simp only [head?_cons] at hrest ⊢
        simp only [advanceNodeWithinScope, hbound, Bool.false_eq_true, if_false, hnext, hrest,
          drop_succ_cons]

theorem findKernelFrom_eq (hg : g.WellFormed) (h : ChainTo g tail l) (hfuel : l.length ≤ fuel) :
    findKernelFrom g tail fuel l.head? = (l.find? (·.nodeType = .nodeKernel)).map (·.nodeId) := by
  induction l generalizing fuel with
  | nil => simpa using h.last
  | cons a rest ih =>
    cases fuel with
    | zero => simp at hfuel
    | succ fuel =>
      by_cases hkernel : a.nodeType = .nodeKernel
      · simp [findKernelFrom, hkernel]
      · cases rest with
        | nil => simp [findKernelFrom, hkernel, h.atBoundary_last]
        | cons b rest =>
          rcases h.step hg with ⟨hbound, hnext⟩
          have hrest := ih h.of_cons_cons.1 (Nat.le_of_succ_le_succ hfuel)
          simp only [head?_cons] at hrest ⊢
          simp [findKernelFrom, hkernel, hbound, hnext, hrest, find?_cons]

theorem ChainTo.drop (h : ChainTo g tail l) {r : ℕ} (hr : r < l.length) : ChainTo g tail (l.drop r) := by
  refine ⟨fun n hn => h.mem n (mem_of_mem_drop hn), h.chain.drop r, ?_, ?_⟩
  · rw [map_drop]
    exact h.nodup.sublist (drop_sublist ..)
  · rw [getLast?_drop, if_neg (not_le.mpr hr)]
    exact h.last

/-- `FindKernelNodeWithFrontReserve` finds the first kernel behind the reserved nodes. -/
theorem findKernelNodeWithFrontReserve_eq (hg : g.WellFormed) (h : ChainTo g tail l)
    (hfuel : l.length ≤ g.nodes.length) (r : ℕ) :
    findKernelNodeWithFrontReserve g tail l.head? r
      = ((l.drop r).find? (·.nodeType = .nodeKernel)).map (·.nodeId) := by
  rw [findKernelNodeWithFrontReserve, advanceNodeWithinScope_eq hg h]
  by_cases hr : r < l.length
  · apply findKernelFrom_eq hg (h.drop hr)
    rw [length_drop]
    omega
  · rw [drop_eq_nil_of_le (not_lt.mp hr)]
    cases g.nodes.length <;> rfl

end Search

/-! ## The streams of a valid scope -/

section Streams

variable {info : ScopeStreamInfo}

section

variable (hok : ScopeOk g scope)
include hok

theorem ScopeOk.chainTo (hnodup : scope.nodeIds.Nodup) (hinfo : info ∈ scope.scopeStreamInfos) :
    ChainTo g info.tailNodeIdx (scope.nodesOn info.streamIdx) :=
  ⟨hok.nodesOn_mem, hok.chain _, ScopeOk.nodesOn_nodup hnodup _, (hok.infosOf.summary info hinfo).tail⟩

theorem ScopeOk.head (hg : g.WellFormed) (hinfo : info ∈ scope.scopeStreamInfos) :
    g.getNodeById info.headNodeIdx = (scope.nodesOn info.streamIdx).head? := by
  have hhead := (hok.infosOf.summary info hinfo).head
  rcases map_eq_some_iff.mp hhead with ⟨n, hn, hid⟩
  have hmem : n ∈ g.nodes := hok.nodesOn_mem n (mem_of_head? hn)
  rw [nodesOn_eq, hn, ← hid]
  exact hg.getNodeById_of_mem hmem

theorem ScopeOk.nodesOn_length (hinfo : info ∈ scope.scopeStreamInfos) :
    (scope.nodesOn info.streamIdx).length = info.nodeSize :=
  (hok.infosOf.summary info hinfo).size

theorem ScopeOk.nodesOn_length_le (hnodup : scope.nodeIds.Nodup) (i : StreamIdx) :
    (scope.nodesOn i).length ≤ g.nodes.length := by
  have hsub := subperm_of_subset (ScopeOk.nodesOn_nodup hnodup i).of_map hok.nodesOn_mem
  exact hsub.length_le

end

end Streams

/-! ## Choices that fit -/

/-- The custom tasks of a choice fit: on the main stream before the launch node, a kernel at
position `kernelPos`, and on every other stream into its nodes. -/
structure SlotFit (scope : SuperKernelScopeInfo) (plans : List StreamPostPlan)
    (mainStreamIdx kernelPos : ℕ) (order : List ℕ) : Prop where
  streams : (mainStreamIdx :: order).Perm (range scope.scopeStreamInfos.length)
  kernel : ∃ info ∈ scope.scopeStreamInfos[mainStreamIdx]?,
    ∃ node ∈ (scope.nodesOn info.streamIdx)[kernelPos]?, node.nodeType = .nodeKernel
  mainTasks : (syncTasks mainStreamIdx (subsOf id plans 0 order) mainStreamIdx).length ≤ kernelPos
  subTasks : ∀ i ∈ order, ∀ info ∈ scope.scopeStreamInfos[i]?,
    (syncTasks mainStreamIdx (subsOf id plans 0 order) i).length ≤ (scope.nodesOn info.streamIdx).length

theorem syncTasks_main_length (cell : ℕ → Addr) (mainStreamIdx : ℕ) (order : List ℕ) :
    (syncTasks mainStreamIdx (subsOf cell plans 0 order) mainStreamIdx).length
      = if order.any (hasFront plans) then 1 else 0 := by
  rw [syncTasks, if_pos rfl, nextWait_length]

variable {pre : List ℕ}

theorem syncTasks_sub_length (cell : ℕ → Addr)
    (hnodup : (mainStreamIdx :: (pre ++ i :: rest)).Nodup) :
    (syncTasks mainStreamIdx (subsOf cell plans 0 (pre ++ i :: rest)) i).length
      = slotNeed plans rest i := by
  rcases nodup_cons.mp hnodup with ⟨hmain, hnodup'⟩
  have hi : i ≠ mainStreamIdx := by
    rintro rfl
    exact hmain (mem_append_right _ (mem_cons_self ..))
  have hpre : i ∉ pre := by
    intro hmem
    exact (nodup_append.mp hnodup').2.2 i hmem i (mem_cons_self ..) rfl
  rw [syncTasks, if_neg hi, subTasks_length plans cell hpre]

/-- The number of tasks does not depend on the cells. -/
theorem syncTasks_length_cell (cell cell' : ℕ → Addr) (hnodup : (mainStreamIdx :: order).Nodup)
    (hi : i ∈ mainStreamIdx :: order) :
    (syncTasks mainStreamIdx (subsOf cell plans 0 order) i).length
      = (syncTasks mainStreamIdx (subsOf cell' plans 0 order) i).length := by
  rcases mem_cons.mp hi with rfl | hi
  · rw [syncTasks_main_length, syncTasks_main_length]
  · rcases append_of_mem hi with ⟨pre, rest, rfl⟩
    rw [syncTasks_sub_length cell hnodup, syncTasks_sub_length cell' hnodup]

theorem slotNeed_le (plans : List StreamPostPlan) (rest : List ℕ) (i : ℕ) :
    slotNeed plans rest i
      ≤ 2 * (if hasFront plans i then 1 else 0) + 2 * (if hasBack plans i then 1 else 0) := by
  unfold slotNeed
  split
  · split <;> omega
  · omega

/-- The last stream of an order with a front wait needs no slot for a wait. -/
theorem slotNeed_last (plans : List StreamPostPlan) (hrest : ∀ j ∈ rest, hasFront plans j = false)
    (i : ℕ) :
    slotNeed plans rest i = 2 * (if hasFront plans i then 1 else 0)
      + 2 * (if hasBack plans i then 1 else 0) - if hasFront plans i then 1 else 0 := by
  have hany : rest.any (hasFront plans) = false := by
    rw [List.any_eq_false]
    intro j hj
    simp [hrest j hj]
  rw [slotNeed, hany]
  cases hasFront plans i <;> simp

/-! ## Candidates -/

theorem collectStreamBoundaryPlans_length (h : collectStreamBoundaryPlans g infos = some plans) :
    plans.length = infos.length := by
  induction infos generalizing plans with
  | nil =>
    cases h
    rfl
  | cons info infos ih =>
    rw [collectStreamBoundaryPlans] at h
    split at h
    · next hrest =>
      cases h
      simp [ih hrest]
    · cases h

variable {p : StreamFit → Bool}

theorem mem_candidateStreams : i ∈ candidateStreams fits p ↔ ∃ fit ∈ fits[i]?, p fit = true := by
  rw [candidateStreams, mem_filter, mem_range]
  constructor
  · rintro ⟨_, hp⟩
    rcases hfit : fits[i]? with _ | fit
    · simp [hfit] at hp
    · exact ⟨fit, rfl, by simpa [hfit] using hp⟩
  · rintro ⟨fit, hfit, hp⟩
    have hlt : i < fits.length := by
      by_contra hge
      simp [getElem?_eq_none (not_lt.mp hge)] at hfit
    have hfit' : fits[i]? = some fit := hfit
    exact ⟨hlt, by simp [hfit', hp]⟩

theorem candidateStreams_nodup (fits : List StreamFit) (p : StreamFit → Bool) : (candidateStreams fits p).Nodup :=
  nodup_range.filter _

theorem candidateStreams_lt (h : i ∈ candidateStreams fits p) : i < fits.length :=
  mem_range.mp (mem_of_mem_filter h)

/-- The sub streams other than main and entry stream. -/
theorem length_filter_ne_ne {sub : List ℕ} (hsub : sub.Nodup) (hne : entrySubStreamIdx ≠ mainStreamIdx) :
    (sub.filter fun i => i ≠ mainStreamIdx && i ≠ entrySubStreamIdx).length + 2
      = sub.length + (if mainStreamIdx ∈ sub then 0 else 1) + if entrySubStreamIdx ∈ sub then 0 else 1 := by
  have herase : (sub.filter fun i => i ≠ mainStreamIdx && i ≠ entrySubStreamIdx)
      = (sub.erase entrySubStreamIdx).erase mainStreamIdx := by
    rw [(hsub.erase _).erase_eq_filter, hsub.erase_eq_filter, List.filter_filter]
    refine filter_congr fun i _ => ?_
    rw [bne, bne, decide_not, decide_not, beq_eq_decide, beq_eq_decide]
  have hmain : mainStreamIdx ∈ sub.erase entrySubStreamIdx ↔ mainStreamIdx ∈ sub :=
    mem_erase_of_ne hne.symm
  rw [herase, length_erase, length_erase]
  by_cases hm : mainStreamIdx ∈ sub <;> by_cases he : entrySubStreamIdx ∈ sub
  · have h1 := length_pos_of_mem (hmain.mpr hm)
    have h2 := length_pos_of_mem hm
    rw [length_erase_of_mem he] at h1
    simp only [hmain, hm, he, if_true]
    omega
  · have h2 := length_pos_of_mem hm
    simp only [hmain, hm, he, if_true, if_false]
    omega
  · have h2 := length_pos_of_mem he
    simp only [hmain, hm, he, if_true, if_false]
    omega
  · simp only [hmain, hm, he, if_false]

theorem buildSubStreamOrder_nodup (hne : entrySubStreamIdx ≠ mainStreamIdx) :
    (mainStreamIdx :: buildSubStreamOrder fits mainStreamIdx entrySubStreamIdx).Nodup := by
  have hfilter := (candidateStreams_nodup fits (·.isSubStream)).filter
    fun i => i ≠ mainStreamIdx && i ≠ entrySubStreamIdx
  refine nodup_cons.mpr ⟨?_, nodup_append.mpr ⟨hfilter, nodup_singleton _, ?_⟩⟩
  · simp [buildSubStreamOrder, hne.symm]
  · intro i hi j hj
    rw [mem_singleton.mp hj]
    simpa using (Bool.and_eq_true_iff.mp (mem_filter.mp hi).2).2

theorem buildSubStreamOrder_lt (hmain : mainStreamIdx < fits.length)
    (hentry : entrySubStreamIdx < fits.length)
    (hi : i ∈ mainStreamIdx :: buildSubStreamOrder fits mainStreamIdx entrySubStreamIdx) :
    i ∈ range fits.length := by
  rw [mem_range]
  rcases mem_cons.mp hi with rfl | hi
  · exact hmain
  · rcases mem_append.mp hi with hi | hi
    · exact candidateStreams_lt (mem_of_mem_filter hi)
    · rw [mem_singleton.mp hi]
      exact hentry

/-- The count test says that main stream and order are all streams. -/
theorem coversAllStreams_iff (hmain : mainStreamIdx < fits.length)
    (hentry : entrySubStreamIdx < fits.length) (hne : entrySubStreamIdx ≠ mainStreamIdx) :
    coversAllStreams fits mainStreamIdx entrySubStreamIdx = true ↔
      (mainStreamIdx :: buildSubStreamOrder fits mainStreamIdx entrySubStreamIdx).Perm
        (range fits.length) := by
  have hlength := length_filter_ne_ne (candidateStreams_nodup fits (·.isSubStream)) hne
  have hcount : (mainStreamIdx :: buildSubStreamOrder fits mainStreamIdx entrySubStreamIdx).length
      = ((candidateStreams fits (·.isSubStream)).filter
          fun i => i ≠ mainStreamIdx && i ≠ entrySubStreamIdx).length + 2 := by
    simp [buildSubStreamOrder]
  rw [coversAllStreams, decide_eq_true_eq, ← hlength, ← hcount]
  constructor
  · intro heq
    have hsub := subperm_of_subset (buildSubStreamOrder_nodup hne)
      fun i hi => buildSubStreamOrder_lt hmain hentry hi
    apply hsub.perm_of_length_le
    rw [heq, length_range]
  · intro hperm
    rw [hperm.length_eq, length_range]

/-- The streams of an order of the builder: the entry stream at its end, or a sub stream. -/
theorem buildSubStreamOrder_split
    (h : buildSubStreamOrder fits mainStreamIdx entrySubStreamIdx = pre ++ i :: rest) :
    (rest = [] ∧ i = entrySubStreamIdx) ∨ i ∈ candidateStreams fits (·.isSubStream) := by
  rcases eq_nil_or_concat rest with rfl | ⟨rest', last, rfl⟩
  · have hlast := append_inj_right' h rfl
    exact .inl ⟨rfl, (singleton_inj.mp hlast).symm⟩
  · rw [concat_eq_append, ← cons_append, ← append_assoc] at h
    have hinit := append_inj_left' h rfl
    have hmem : i ∈ pre ++ i :: rest' := mem_append_right _ (mem_cons_self ..)
    rw [← hinit] at hmem
    exact .inr (mem_of_mem_filter hmem)

theorem selectMainAndEntryStream_eq_some
    (h : selectMainAndEntryStream fits = some (mainStreamIdx, entrySubStreamIdx)) :
    mainStreamIdx ∈ candidateStreams fits (·.candidateNodeId.isSome) ∧
      entrySubStreamIdx ∈ candidateStreams fits (·.isSubStreamEntry) ∧
      entrySubStreamIdx ≠ mainStreamIdx ∧
      coversAllStreams fits mainStreamIdx entrySubStreamIdx = true := by
  rcases exists_of_findSome?_eq_some h with ⟨m, hm, hselect⟩
  rcases exists_of_findSome?_eq_some hselect with ⟨e, he, hselect⟩
  rw [ite_none_right_eq_some] at hselect
  rcases hselect with ⟨⟨hne, hcovers⟩, heq⟩
  rw [some.injEq, Prod.mk.injEq] at heq
  rcases heq with ⟨rfl, rfl⟩
  exact ⟨hm, he, hne, hcovers⟩

theorem selectMainAndEntryStream_isSome
    (hmain : mainStreamIdx ∈ candidateStreams fits (·.candidateNodeId.isSome))
    (hentry : entrySubStreamIdx ∈ candidateStreams fits (·.isSubStreamEntry))
    (hne : entrySubStreamIdx ≠ mainStreamIdx)
    (hcovers : coversAllStreams fits mainStreamIdx entrySubStreamIdx = true) :
    (selectMainAndEntryStream fits).isSome := by
  refine findSome?_isSome_iff.mpr ⟨mainStreamIdx, hmain, ?_⟩
  refine findSome?_isSome_iff.mpr ⟨entrySubStreamIdx, hentry, ?_⟩
  rw [if_pos ⟨hne, hcovers⟩]
  rfl

/-- The candidate entries of the streams. -/
def streamFits (g : SuperKernelGraph) (infos : List ScopeStreamInfo) (plans : List StreamPostPlan) :
    List StreamFit :=
  zipWith (streamFit g (frontWaitCount plans)) infos plans

section

variable (hplans : plans.length = infos.length)
include hplans

theorem streamFits_length : (streamFits g infos plans).length = infos.length := by
  rw [streamFits, length_zipWith, hplans, Nat.min_self]

theorem streamFits_getElem? (i : ℕ) :
    (streamFits g infos plans)[i]?
      = infos[i]?.map fun info => streamFit g (frontWaitCount plans) info (plans.getD i {}) := by
  rw [streamFits, getElem?_zipWith]
  rcases hinfo : infos[i]? with _ | info
  · rfl
  · have hi : i < plans.length := hplans ▸ (List.getElem?_eq_some_iff.mp hinfo).1
    rw [getD_eq_getElem _ _ hi, getElem?_eq_getElem hi]
    rfl

theorem mem_candidateStreams_streamFits :
    i ∈ candidateStreams (streamFits g infos plans) p ↔ ∃ info, infos[i]? = some info ∧
      p (streamFit g (frontWaitCount plans) info (plans.getD i {})) = true := by
  rw [mem_candidateStreams, streamFits_getElem? hplans]
  constructor
  · rintro ⟨fit, hfit, hp⟩
    rcases map_eq_some_iff.mp hfit with ⟨info, hinfo, rfl⟩
    exact ⟨info, hinfo, hp⟩
  · rintro ⟨info, hinfo, hp⟩
    exact ⟨_, map_eq_some_iff.mpr ⟨info, hinfo, rfl⟩, hp⟩

end

theorem streamFit_isSubStream (count : ℕ) (info : ScopeStreamInfo) (i : ℕ) :
    (streamFit g count info (plans.getD i {})).isSubStream = true ↔
      2 * (if hasFront plans i then 1 else 0) + 2 * (if hasBack plans i then 1 else 0)
        ≤ info.nodeSize := by
  rw [streamFit, decide_eq_true_eq]
  rfl

theorem streamFit_isSubStreamEntry (count : ℕ) (info : ScopeStreamInfo) (i : ℕ) :
    (streamFit g count info (plans.getD i {})).isSubStreamEntry = true ↔
      2 * (if hasFront plans i then 1 else 0) + 2 * (if hasBack plans i then 1 else 0)
        - (if hasFront plans i then 1 else 0) ≤ info.nodeSize := by
  rw [streamFit, decide_eq_true_eq]
  rfl

/-! ## Soundness and completeness -/

/-- The front waits of the plans are those of any order of the streams. -/
theorem frontWaitCount_eq (hperm : (mainStreamIdx :: order).Perm (range plans.length)) :
    frontWaitCount plans - (if hasFront plans mainStreamIdx then 1 else 0)
      = order.countP (hasFront plans) := by
  have hmap : plans = (range plans.length).map fun i => plans.getD i {} := by
    apply ext_getElem
    · simp
    · intro i hi _
      simp [hi]
  have hcount : frontWaitCount plans = (range plans.length).countP (hasFront plans) := by
    conv_lhs => rw [frontWaitCount, hmap, countP_map]
    rfl
  rw [hcount, ← hperm.countP_eq, countP_cons]
  omega

/-- One slot is reserved on the main stream if and only if another stream has a front wait. -/
theorem mainFrontReserve_eq (hperm : (mainStreamIdx :: order).Perm (range plans.length)) :
    (if 0 < frontWaitCount plans - (if hasFront plans mainStreamIdx then 1 else 0) then 1 else 0)
      = if order.any (hasFront plans) then 1 else 0 := by
  have hiff : 0 < order.countP (hasFront plans) ↔ order.any (hasFront plans) = true := by
    rw [countP_pos_iff, List.any_eq_true]
  rw [frontWaitCount_eq hperm]
  exact if_congr hiff rfl rfl

variable {k : ℕ}

section Choice

variable (hg : g.WellFormed) (hok : ScopeOk g scope) (hnodup : scope.nodeIds.Nodup)
  (hplans : collectStreamBoundaryPlans g scope.scopeStreamInfos = some plans)
include hg hok hnodup hplans

omit hplans in
/-- The launch node of a candidate is a kernel behind the reserved nodes. -/
theorem streamFit_candidateNodeId {info : ScopeStreamInfo} (hinfo : info ∈ scope.scopeStreamInfos)
    (count : ℕ) (plan : StreamPostPlan) :
    (streamFit g count info plan).candidateNodeId
      = (((scope.nodesOn info.streamIdx).drop
          (if 0 < count - (if plan.needFrontWait then 1 else 0) then 1 else 0)).find?
            (·.nodeType = .nodeKernel)).map (·.nodeId) := by
  rw [streamFit, hok.head hg hinfo]
  exact findKernelNodeWithFrontReserve_eq hg (hok.chainTo hnodup hinfo)
    (hok.nodesOn_length_le hnodup _) _

/-- A main stream with a launch candidate leaves the slots its tasks need before it. -/
theorem exists_kernelPos {nodeId : NodeId} {info : ScopeStreamInfo}
    (hperm : (mainStreamIdx :: order).Perm (range scope.scopeStreamInfos.length))
    (hinfo : scope.scopeStreamInfos[mainStreamIdx]? = some info)
    (hnode : (streamFit g (frontWaitCount plans) info
      (plans.getD mainStreamIdx {})).candidateNodeId = some nodeId) :
    ∃ k node, (scope.nodesOn info.streamIdx)[k]? = some node ∧ node.nodeType = .nodeKernel ∧
      node.nodeId = nodeId ∧ (if order.any (hasFront plans) then 1 else 0) ≤ k := by
  have hlength := collectStreamBoundaryPlans_length hplans
  rw [streamFit_candidateNodeId hg hok hnodup (mem_of_getElem? hinfo)] at hnode
  rcases map_eq_some_iff.mp hnode with ⟨node, hfind, rfl⟩
  rcases getElem?_of_mem (mem_of_find?_eq_some hfind) with ⟨j, hj⟩
  rw [getElem?_drop] at hj
  have hperm' : (mainStreamIdx :: order).Perm (range plans.length) := by
    rw [hlength]
    exact hperm
  have hreserve := mainFrontReserve_eq hperm'
  refine ⟨_, node, hj, by simpa using find?_some hfind, rfl, ?_⟩
  rw [← hreserve]
  exact Nat.le_add_right _ j

/-- A launch node that leaves the slots is found. -/
theorem candidateNodeId_isSome (hfit : SlotFit scope plans mainStreamIdx k order)
    {info : ScopeStreamInfo} (hinfo : scope.scopeStreamInfos[mainStreamIdx]? = some info) :
    (streamFit g (frontWaitCount plans) info (plans.getD mainStreamIdx {})).candidateNodeId.isSome := by
  have hlength := collectStreamBoundaryPlans_length hplans
  rcases hfit.kernel with ⟨info', hinfo', node, hnode, hkernel⟩
  have heq : info = info' := some.inj (hinfo.symm.trans hinfo')
  subst heq
  have hperm : (mainStreamIdx :: order).Perm (range plans.length) := by
    rw [hlength]
    exact hfit.streams
  have hmain := hfit.mainTasks
  rw [syncTasks_main_length] at hmain
  rw [streamFit_candidateNodeId hg hok hnodup (mem_of_getElem? hinfo), isSome_map,
    find?_isSome]
  refine ⟨node, ?_, by simpa using hkernel⟩
  rw [mem_iff_getElem?]
  have hreserve := mainFrontReserve_eq hperm
  rw [← hreserve] at hmain
  have hindex := Nat.add_sub_cancel' hmain
  exact ⟨k - _, by rw [getElem?_drop]; exact hindex ▸ hnode⟩

/-- A choice of launch node and order whose tasks fit stream by stream fits. -/
theorem slotFit_of {nodeId : NodeId} {info : ScopeStreamInfo}
    (hperm : (mainStreamIdx :: order).Perm (range scope.scopeStreamInfos.length))
    (hinfo : scope.scopeStreamInfos[mainStreamIdx]? = some info)
    (hnode : (streamFit g (frontWaitCount plans) info
      (plans.getD mainStreamIdx {})).candidateNodeId = some nodeId)
    (hsub : ∀ pre i rest, order = pre ++ i :: rest → ∀ info ∈ scope.scopeStreamInfos[i]?,
      slotNeed plans rest i ≤ info.nodeSize) :
    ∃ k, SlotFit scope plans mainStreamIdx k order ∧
      ((scope.nodesOn info.streamIdx)[k]?).map (·.nodeId) = some nodeId := by
  rcases exists_kernelPos hg hok hnodup hplans hperm hinfo hnode with ⟨k, node, hk, hkernel, hid, hle⟩
  have hnodup' : (mainStreamIdx :: order).Nodup := hperm.nodup_iff.mpr nodup_range
  refine ⟨k, ⟨hperm, ⟨info, hinfo, node, hk, hkernel⟩, ?_, ?_⟩, by rw [hk, map_some, hid]⟩
  · rw [syncTasks_main_length]
    exact hle
  · intro i hi info hinfo
    rcases append_of_mem hi with ⟨pre, rest, rfl⟩
    rw [syncTasks_sub_length id hnodup', hok.nodesOn_length (mem_of_getElem? hinfo)]
    exact hsub pre i rest rfl info hinfo

omit hg hok hnodup in
/-- The streams of the builder's order have the slots their tasks need. -/
theorem slotNeed_buildSubStreamOrder {info : ScopeStreamInfo}
    (hentry : entrySubStreamIdx ∈
      candidateStreams (streamFits g scope.scopeStreamInfos plans) (·.isSubStreamEntry))
    (horder : buildSubStreamOrder (streamFits g scope.scopeStreamInfos plans) mainStreamIdx
      entrySubStreamIdx = pre ++ i :: rest)
    (hinfo : scope.scopeStreamInfos[i]? = some info) : slotNeed plans rest i ≤ info.nodeSize := by
  have hlength := collectStreamBoundaryPlans_length hplans
  rcases buildSubStreamOrder_split horder with ⟨rfl, rfl⟩ | hi
  · -- the entry stream comes last and needs no slot for a wait
    rcases (mem_candidateStreams_streamFits hlength).mp hentry with ⟨info', hinfo', hfit⟩
    have heq : info' = info := some.inj (hinfo'.symm.trans hinfo)
    rw [slotNeed_last plans (by simp), ← heq]
    exact (streamFit_isSubStreamEntry _ info' i).mp hfit
  · rcases (mem_candidateStreams_streamFits hlength).mp hi with ⟨info', hinfo', hfit⟩
    have heq : info' = info := some.inj (hinfo'.symm.trans hinfo)
    rw [← heq]
    exact (slotNeed_le plans rest i).trans ((streamFit_isSubStream _ info' i).mp hfit)

/-- The selection of `GetMainAndSubStreamOrder` fits. -/
theorem getMainAndSubStreamOrder_fits {sel : MainSelection}
    (h : getMainAndSubStreamOrder g scope.scopeStreamInfos plans = .ok sel) :
    ∃ k, SlotFit scope plans sel.mainStreamIdx k sel.subStreamOrder ∧
      ∃ info ∈ scope.scopeStreamInfos[sel.mainStreamIdx]?,
        ((scope.nodesOn info.streamIdx)[k]?).map (·.nodeId) = some sel.skMainNodeId := by
  have hlength := collectStreamBoundaryPlans_length hplans
  have hget := streamFits_getElem? (g := g) hlength
  unfold getMainAndSubStreamOrder at h
  split at h
  · cases h
  next fits hfits =>
  have hfits' : fits = streamFits g scope.scopeStreamInfos plans :=
    (some.inj (ite_none_right_eq_some.mp hfits).2).symm
  subst hfits'
  split at h
  · next hone =>
    -- a single stream needs no custom task
    split at h
    · cases h
    next nodeId hnode =>
    cases h
    rw [hget 0] at hnode
    rcases bind_eq_some_iff.mp hnode with ⟨fit, hfit, hnode⟩
    rcases map_eq_some_iff.mp hfit with ⟨info, hinfo, rfl⟩
    have hperm : ([0] : List ℕ).Perm (range scope.scopeStreamInfos.length) := by
      rw [hone]
      exact Perm.refl _
    rcases slotFit_of hg hok hnodup hplans hperm hinfo hnode (by simp) with ⟨k, hk, hid⟩
    exact ⟨k, hk, info, hinfo, hid⟩
  · split at h
    · cases h
    next m e hselect =>
    split at h
    · cases h
    next nodeId hnode =>
    cases h
    rcases selectMainAndEntryStream_eq_some hselect with ⟨hm, he, hne, hcovers⟩
    have hperm := (coversAllStreams_iff (candidateStreams_lt hm) (candidateStreams_lt he) hne).mp hcovers
    rw [streamFits_length hlength] at hperm
    rcases (mem_candidateStreams_streamFits hlength).mp hm with ⟨info, hinfo, _⟩
    rw [hget m, hinfo] at hnode
    have hsub : ∀ pre i rest, buildSubStreamOrder (streamFits g scope.scopeStreamInfos plans) m e
        = pre ++ i :: rest → ∀ info ∈ scope.scopeStreamInfos[i]?, slotNeed plans rest i ≤ info.nodeSize := by
      intro pre i rest horder info hinfo
      exact slotNeed_buildSubStreamOrder hplans he horder hinfo
    rcases slotFit_of hg hok hnodup hplans hperm hinfo hnode hsub with ⟨k, hk, hid⟩
    exact ⟨k, hk, info, hinfo, hid⟩

end Choice

theorem SlotFit.nodup (hfit : SlotFit scope plans mainStreamIdx k order) :
    (mainStreamIdx :: order).Nodup :=
  hfit.streams.nodup_iff.mpr nodup_range

theorem SlotFit.slotNeed_le {info : ScopeStreamInfo} (hok : ScopeOk g scope)
    (hfit : SlotFit scope plans mainStreamIdx k order) (horder : order = pre ++ i :: rest)
    (hinfo : scope.scopeStreamInfos[i]? = some info) : slotNeed plans rest i ≤ info.nodeSize := by
  have hi : i ∈ order := horder ▸ mem_append_right _ (mem_cons_self ..)
  have hle := hfit.subTasks i hi info hinfo
  have hnodup := hfit.nodup
  subst horder
  rw [syncTasks_sub_length id hnodup, hok.nodesOn_length (mem_of_getElem? hinfo)] at hle
  exact hle

/-- An order has a last stream with a front wait, or none has one. -/
theorem exists_entry (plans : List StreamPostPlan) (hne : order ≠ []) :
    ∃ pre e rest, order = pre ++ e :: rest ∧ (∀ j ∈ rest, hasFront plans j = false) ∧
      (hasFront plans e = true ∨ ∀ j ∈ pre, hasFront plans j = false) := by
  induction order with
  | nil => exact absurd rfl hne
  | cons i order ih =>
    by_cases hany : ∃ j ∈ order, hasFront plans j = true
    · rcases hany with ⟨j, hj, hfront⟩
      rcases ih (ne_nil_of_mem hj) with ⟨pre, e, rest, rfl, hrest, he⟩
      have hfront' : hasFront plans e = true := by
        rcases he with he | hpre
        · exact he
        · rcases mem_append.mp hj with hj | hj
          · exact absurd hfront (by simp [hpre j hj])
          · rcases mem_cons.mp hj with rfl | hj
            · exact hfront
            · exact absurd hfront (by simp [hrest j hj])
      exact ⟨i :: pre, e, rest, rfl, hrest, .inl hfront'⟩
    · push Not at hany
      refine ⟨[], i, order, rfl, ?_, .inr (by simp)⟩
      intro j hj
      simpa using hany j hj

/-- Apart from the entry stream, a stream of a fitting order can be any sub stream. -/
theorem SlotFit.isSubStream {e : ℕ} {info : ScopeStreamInfo}
    (hok : ScopeOk g scope) (hfit : SlotFit scope plans mainStreamIdx k order)
    (horder : order = pre ++ e :: rest) (hrest : ∀ j ∈ rest, hasFront plans j = false)
    (he : hasFront plans e = true ∨ ∀ j ∈ pre, hasFront plans j = false)
    (hi : i ∈ order) (hie : i ≠ e) (hinfo : scope.scopeStreamInfos[i]? = some info) (count : ℕ) :
    (streamFit g count info (plans.getD i {})).isSubStream = true := by
  rw [streamFit_isSubStream]
  cases hfront : hasFront plans i with
  | false =>
    rcases append_of_mem hi with ⟨pre', rest', horder'⟩
    have hle := hfit.slotNeed_le hok horder' hinfo
    simpa [slotNeed, hfront] using hle
  | true =>
    -- the stream stands before the entry stream, which it waits for
    have hpre : i ∈ pre := by
      rw [horder] at hi
      rcases mem_append.mp hi with hi | hi
      · exact hi
      · rcases mem_cons.mp hi with hi | hi
        · exact absurd hi hie
        · exact absurd hfront (by simp [hrest i hi])
    have hfe : hasFront plans e = true := by
      rcases he with he | hnone
      · exact he
      · exact absurd hfront (by simp [hnone i hpre])
    rcases append_of_mem hpre with ⟨p₁, p₂, rfl⟩
    have horder' : order = p₁ ++ i :: (p₂ ++ e :: rest) := by
      rw [horder, append_assoc, cons_append]
    have hle := hfit.slotNeed_le hok horder' hinfo
    have hany : (p₂ ++ e :: rest).any (hasFront plans) = true := by simp [hfe]
    rw [slotNeed, hfront, hany] at hle
    simpa using hle

/-- A selection is made when every stream is a candidate and a main stream with an entry
stream is found. -/
theorem getMainAndSubStreamOrder_ok (hplans : plans.length = infos.length)
    (hall : ∀ i < infos.length, ∃ p : StreamFit → Bool, (∀ fit, p fit = true → fit.isCandidate = true) ∧
      i ∈ candidateStreams (streamFits g infos plans) p)
    (hone : infos.length = 1 → 0 ∈ candidateStreams (streamFits g infos plans) (·.candidateNodeId.isSome))
    (hselect : infos.length ≠ 1 → (selectMainAndEntryStream (streamFits g infos plans)).isSome) :
    ∃ sel, getMainAndSubStreamOrder g infos plans = .ok sel := by
  have hlength := streamFits_length (g := g) hplans
  have hall' : (streamFits g infos plans).all (·.isCandidate) = true := by
    refine List.all_eq_true.mpr fun fit hfit => ?_
    rcases getElem?_of_mem hfit with ⟨i, hi⟩
    have hlt : i < infos.length := hlength ▸ (List.getElem?_eq_some_iff.mp hi).1
    rcases hall i hlt with ⟨p, hp, hmem⟩
    rcases mem_candidateStreams.mp hmem with ⟨fit', hfit', hpfit⟩
    have heq : fit' = fit := some.inj (hfit'.symm.trans hi)
    exact heq ▸ hp fit' hpfit
  have hcollect : collectStreamCandidates g infos plans = some (streamFits g infos plans) :=
    if_pos hall'
  have hcandidate : ∀ {m}, m ∈ candidateStreams (streamFits g infos plans) (·.candidateNodeId.isSome) →
      ∃ nodeId, (streamFits g infos plans)[m]?.bind (·.candidateNodeId) = some nodeId := by
    intro m hm
    rcases mem_candidateStreams.mp hm with ⟨fit, hfit, hsome⟩
    rcases isSome_iff_exists.mp hsome with ⟨nodeId, hnode⟩
    exact ⟨nodeId, bind_eq_some_iff.mpr ⟨fit, hfit, hnode⟩⟩
  unfold getMainAndSubStreamOrder
  rw [hcollect]
  by_cases hlen : infos.length = 1
  · rcases hcandidate (hone hlen) with ⟨nodeId, hnode⟩
    exact ⟨_, by simp only [hlen, if_true, hnode]; rfl⟩
  · rcases isSome_iff_exists.mp (hselect hlen) with ⟨⟨m, e⟩, hme⟩
    rcases hcandidate (selectMainAndEntryStream_eq_some hme).1 with ⟨nodeId, hnode⟩
    exact ⟨_, by simp only [hlen, if_false, hme, hnode]; rfl⟩

/-- A selection is made whenever some choice fits. -/
theorem getMainAndSubStreamOrder_complete (hg : g.WellFormed) (hok : ScopeOk g scope)
    (hnodup : scope.nodeIds.Nodup)
    (hplans : collectStreamBoundaryPlans g scope.scopeStreamInfos = some plans)
    (hfit : SlotFit scope plans mainStreamIdx k order) :
    ∃ sel, getMainAndSubStreamOrder g scope.scopeStreamInfos plans = .ok sel := by
  have hlength := collectStreamBoundaryPlans_length hplans
  rcases hfit.kernel with ⟨mainInfo, hmainInfo, _⟩
  have hmainInfo' : scope.scopeStreamInfos[mainStreamIdx]? = some mainInfo := hmainInfo
  have hmain : mainStreamIdx ∈ candidateStreams (streamFits g scope.scopeStreamInfos plans)
      (·.candidateNodeId.isSome) := by
    rw [mem_candidateStreams_streamFits hlength]
    exact ⟨mainInfo, hmainInfo', candidateNodeId_isSome hg hok hnodup hplans hfit hmainInfo'⟩
  have hmem : ∀ i < scope.scopeStreamInfos.length, i ∈ mainStreamIdx :: order := by
    intro i hi
    exact hfit.streams.mem_iff.mpr (mem_range.mpr hi)
  have hinfo : ∀ i < scope.scopeStreamInfos.length, ∃ info, scope.scopeStreamInfos[i]? = some info :=
    fun i hi => ⟨_, getElem?_eq_getElem hi⟩
  have hcard := hfit.streams.length_eq
  rw [length_cons, length_range] at hcard
  by_cases horder : order = []
  · -- the main stream is the only one
    subst horder
    have hzero : mainStreamIdx = 0 := by
      have hlt := mem_range.mp (hfit.streams.mem_iff.mp (mem_cons_self ..))
      simp only [length_nil] at hcard
      omega
    refine getMainAndSubStreamOrder_ok hlength ?_ (fun _ => hzero ▸ hmain) (fun hne => ?_)
    · intro i hi
      refine ⟨(·.candidateNodeId.isSome), fun fit hfit => by simp [StreamFit.isCandidate, hfit], ?_⟩
      rw [mem_singleton.mp (hmem i hi)]
      exact hmain
    · exact absurd hcard.symm hne
  rcases exists_entry plans horder with ⟨pre, e, rest, hsplit, hrest, he⟩
  have heorder : e ∈ order := hsplit ▸ mem_append_right _ (mem_cons_self ..)
  have helt := mem_range.mp (hfit.streams.mem_iff.mp (mem_cons_of_mem _ heorder))
  have hentry : e ∈ candidateStreams (streamFits g scope.scopeStreamInfos plans)
      (·.isSubStreamEntry) := by
    rcases hinfo e helt with ⟨info, hinfo⟩
    rw [mem_candidateStreams_streamFits hlength]
    refine ⟨info, hinfo, ?_⟩
    rw [streamFit_isSubStreamEntry, ← slotNeed_last plans hrest]
    exact hfit.slotNeed_le hok hsplit hinfo
  have hsub : ∀ i < scope.scopeStreamInfos.length, i ≠ mainStreamIdx → i ≠ e →
      i ∈ candidateStreams (streamFits g scope.scopeStreamInfos plans) (·.isSubStream) := by
    intro i hi him hie
    rcases hinfo i hi with ⟨info, hinfo⟩
    have hiorder : i ∈ order := (mem_cons.mp (hmem i hi)).resolve_left him
    rw [mem_candidateStreams_streamFits hlength]
    exact ⟨info, hinfo, hfit.isSubStream hok hsplit hrest he hiorder hie hinfo _⟩
  have hne : e ≠ mainStreamIdx := by
    rintro rfl
    exact (nodup_cons.mp hfit.nodup).1 heorder
  refine getMainAndSubStreamOrder_ok hlength ?_ (fun hone => ?_) (fun _ => ?_)
  · intro i hi
    by_cases him : i = mainStreamIdx
    · exact ⟨_, fun fit hfit => by simp [StreamFit.isCandidate, hfit], him ▸ hmain⟩
    · by_cases hie : i = e
      · exact ⟨_, fun fit hfit => by simp [StreamFit.isCandidate, hfit], hie ▸ hentry⟩
      · exact ⟨_, fun fit hfit => by simp [StreamFit.isCandidate, hfit], hsub i hi him hie⟩
  · have hpos := length_pos_iff.mpr horder
    omega
  · apply selectMainAndEntryStream_isSome hmain hentry hne
    rw [coversAllStreams_iff (candidateStreams_lt hmain) (candidateStreams_lt hentry) hne,
      perm_ext_iff_of_nodup (buildSubStreamOrder_nodup hne) nodup_range]
    intro i
    refine ⟨buildSubStreamOrder_lt (candidateStreams_lt hmain) (candidateStreams_lt hentry), ?_⟩
    intro hi
    rw [mem_range, streamFits_length hlength] at hi
    by_cases him : i = mainStreamIdx
    · exact him ▸ mem_cons_self ..
    · by_cases hie : i = e
      · simp [buildSubStreamOrder, hie]
      · simp [buildSubStreamOrder, him, hie, hsub i hi him hie]

end GraphAutofusion.SuperKernel
