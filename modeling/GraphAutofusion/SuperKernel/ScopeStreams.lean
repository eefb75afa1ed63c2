import GraphAutofusion.SuperKernel.ScopeInfo
import Mathlib.Data.List.Induction

/-!
# SuperKernel.ScopeStreams — what the stream infos of a scope say

The stream infos of a valid scope hold one entry for each stream the scope touches,
and the walk from the head to the tail of an entry along the next ids visits exactly
the scope's nodes on that stream. `ValidateScopeStreamNodes` and `Update` walk a
scope in this way.
-/

namespace GraphAutofusion.SuperKernel

open List Option

variable {g : SuperKernelGraph} {scope : SuperKernelScopeInfo} {l : List SuperKernelBaseNode}
  {infos : List ScopeStreamInfo} {n : SuperKernelBaseNode}

/-! ## The infos of a node list -/

/-- The nodes of a list on one stream. -/
def onStream (l : List SuperKernelBaseNode) (i : StreamIdx) : List SuperKernelBaseNode :=
  l.filter (·.streamIdxInGraph = i)

theorem nodesOn_eq (scope : SuperKernelScopeInfo) (i : StreamIdx) :
    scope.nodesOn i = onStream scope.nodes i := rfl

theorem onStream_append (l l' : List SuperKernelBaseNode) (i : StreamIdx) :
    onStream (l ++ l') i = onStream l i ++ onStream l' i :=
  filter_append ..

/-- An entry summarises the nodes of its stream. -/
structure Summarises (l : List SuperKernelBaseNode) (info : ScopeStreamInfo) : Prop where
  head : (onStream l info.streamIdx).head?.map (·.nodeId) = some info.headNodeIdx
  tail : (onStream l info.streamIdx).getLast?.map (·.nodeId) = some info.tailNodeIdx
  size : (onStream l info.streamIdx).length = info.nodeSize

/-- One entry for each stream of the list, and each entry is a summary. -/
structure InfosOf (l : List SuperKernelBaseNode) (infos : List ScopeStreamInfo) : Prop where
  nodup : (infos.map (·.streamIdx)).Nodup
  streams : ∀ i, i ∈ infos.map (·.streamIdx) ↔ ∃ n ∈ l, n.streamIdxInGraph = i
  summary : ∀ info ∈ infos, Summarises l info

/-- `addStreamInfo` extends the first entry of the stream or appends a new one. -/
theorem addStreamInfo_cases (infos : List ScopeStreamInfo) (n : SuperKernelBaseNode) :
    (∃ pre info post, infos = pre ++ info :: post ∧ info.streamIdx = n.streamIdxInGraph ∧
      addStreamInfo infos n = pre ++ { info with
        tailNodeIdx := n.nodeId, nodeSize := info.nodeSize + 1 } :: post) ∨
    (n.streamIdxInGraph ∉ infos.map (·.streamIdx) ∧
      addStreamInfo infos n = infos ++ [⟨n.streamIdxInGraph, n.nodeId, n.nodeId, 1⟩]) := by
  induction infos with
  | nil => exact .inr ⟨not_mem_nil, rfl⟩
  | cons info rest ih =>
    by_cases hstream : info.streamIdx = n.streamIdxInGraph
    · refine .inl ⟨[], info, rest, rfl, hstream, ?_⟩
      simp [addStreamInfo, hstream]
    rcases ih with ⟨pre, entry, post, hrest, hentry, hadd⟩ | ⟨hnot, hadd⟩
    · refine .inl ⟨info :: pre, entry, post, by rw [hrest, cons_append], hentry, ?_⟩
      simp [addStreamInfo, hstream, hadd]
    · refine .inr ⟨?_, ?_⟩
      · intro hmem
        rcases mem_cons.mp hmem with heq | hmem
        · exact hstream heq.symm
        · exact hnot hmem
      · simp [addStreamInfo, hstream, hadd]

/-- A summary of another stream is not changed by a new node. -/
theorem Summarises.append_other {info : ScopeStreamInfo} (hs : Summarises l info)
    (hne : info.streamIdx ≠ n.streamIdxInGraph) : Summarises (l ++ [n]) info := by
  have heq : onStream (l ++ [n]) info.streamIdx = onStream l info.streamIdx := by
    rw [onStream_append]
    simp [onStream, Ne.symm hne]
  constructor
  · rw [heq]
    exact hs.head
  · rw [heq]
    exact hs.tail
  · rw [heq]
    exact hs.size

theorem InfosOf.add (hi : InfosOf l infos) (n : SuperKernelBaseNode) :
    InfosOf (l ++ [n]) (addStreamInfo infos n) := by
  have hlast : onStream (l ++ [n]) n.streamIdxInGraph = onStream l n.streamIdxInGraph ++ [n] := by
    rw [onStream_append]
    simp [onStream]
  rcases addStreamInfo_cases infos n with ⟨pre, info, post, hinfos, hstream, hadd⟩ | ⟨hnot, hadd⟩
  · have hmap : (addStreamInfo infos n).map (·.streamIdx) = infos.map (·.streamIdx) := by
      rw [hadd, hinfos]
      simp
    have hmem : info ∈ infos := hinfos ▸ mem_append_right _ (mem_cons_self ..)
    have hsum := hi.summary info hmem
    refine ⟨hmap ▸ hi.nodup, ?_, ?_⟩
    · intro i
      rw [hmap, hi.streams i]
      constructor
      · rintro ⟨m, hm, hmi⟩
        exact ⟨m, mem_append_left _ hm, hmi⟩
      · rintro ⟨m, hm, hmi⟩
        rcases mem_append.mp hm with hm | hm
        · exact ⟨m, hm, hmi⟩
        · have hmn : m = n := by simpa using hm
          have hi' := (hi.streams i).mp (mem_map.mpr ⟨info, hmem, by rw [hstream, ← hmn, hmi]⟩)
          exact hi'
    · intro entry hentry
      rw [hadd] at hentry
      by_cases heq : entry.streamIdx = n.streamIdxInGraph
      · -- the entry of the node's stream: its head stays, tail and size move on
        have hentry' : entry = { info with tailNodeIdx := n.nodeId, nodeSize := info.nodeSize + 1 } := by
          have hnodup := hi.nodup
          rw [hinfos, map_append, map_cons, nodup_append] at hnodup
          rcases hnodup with ⟨_, hpost, hdisj⟩
          rcases mem_append.mp hentry with hpre | hrest
          · have hcontra := hdisj _ (mem_map.mpr ⟨entry, hpre, rfl⟩) _ (mem_cons_self ..)
            exact absurd (heq.trans hstream.symm) hcontra
          · rcases mem_cons.mp hrest with rfl | hpost'
            · rfl
            · have hcontra := (nodup_cons.mp hpost).1
              exact absurd (mem_map.mpr ⟨entry, hpost', heq.trans hstream.symm⟩) hcontra
        subst hentry'
        have hon : onStream (l ++ [n]) info.streamIdx = onStream l info.streamIdx ++ [n] := by
          rw [hstream]
          exact hlast
        constructor
        · show (onStream (l ++ [n]) info.streamIdx).head?.map (·.nodeId) = some info.headNodeIdx
          rw [hon, head?_append, Option.map_or, hsum.head]
          rfl
        · show (onStream (l ++ [n]) info.streamIdx).getLast?.map (·.nodeId) = some n.nodeId
          rw [hon, getLast?_concat]
          rfl
        · show (onStream (l ++ [n]) info.streamIdx).length = info.nodeSize + 1
          rw [hon, length_append, hsum.size]
          rfl
      · have hold : entry ∈ infos := by
          rw [hinfos]
          rcases mem_append.mp hentry with hpre | hrest
          · exact mem_append_left _ hpre
          · rcases mem_cons.mp hrest with rfl | hpost
            · exact absurd hstream heq
            · exact mem_append_right _ (mem_cons_of_mem _ hpost)
        exact (hi.summary entry hold).append_other heq
  · have hnone : onStream l n.streamIdxInGraph = [] := by
      refine filter_eq_nil_iff.mpr fun m hm => ?_
      intro hmi
      have hmi' : m.streamIdxInGraph = n.streamIdxInGraph := by simpa using hmi
      exact hnot ((hi.streams _).mpr ⟨m, hm, hmi'⟩)
    refine ⟨?_, ?_, ?_⟩
    · rw [hadd, map_append, nodup_append]
      refine ⟨hi.nodup, nodup_singleton _, ?_⟩
      intro a ha b hb heq
      have hb' : b = n.streamIdxInGraph := by simpa using hb
      exact hnot (hb' ▸ heq ▸ ha)
    · intro i
      rw [hadd, map_append, mem_append, hi.streams i]
      simp only [map_cons, map_nil, mem_singleton, mem_append, or_and_right,
        exists_or, exists_eq_left]
      exact or_congr_right eq_comm
    · intro entry hentry
      rw [hadd] at hentry
      rcases mem_append.mp hentry with hold | hnew
      · refine (hi.summary entry hold).append_other ?_
        intro heq
        exact hnot (heq ▸ mem_map.mpr ⟨entry, hold, rfl⟩)
      · have hentry' : entry = ⟨n.streamIdxInGraph, n.nodeId, n.nodeId, 1⟩ := by simpa using hnew
        subst hentry'
        constructor <;> simp [hlast, hnone]

theorem infosOf_foldl (l : List SuperKernelBaseNode) : InfosOf l (l.foldl addStreamInfo []) := by
  induction l using reverseRecOn with
  | nil => exact ⟨nodup_nil, by simp, by simp⟩
  | append_singleton l n ih =>
    rw [foldl_append]
    exact ih.add n

/-! ## Walking a scope -/

/-- The nodes from `curNodeId` along the next ids, up to the tail or the end of the
stream. -/
def walkToTail (g : SuperKernelGraph) (tailNodeId : NodeId) :
    ℕ → Option NodeId → Option (List SuperKernelBaseNode)
  | _, none => some []
  | 0, some _ => none
  | fuel + 1, some curNodeId =>
    match g.getNodeById curNodeId with
    | none => none
    | some node =>
      if curNodeId = tailNodeId then some [node]
      else (walkToTail g tailNodeId fuel node.nextNodeId).map (node :: ·)

/-- The walk over a chain of linked graph nodes ends at its last node. -/
theorem walkToTail_chain (hg : g.WellFormed) {tail fuel : ℕ} (hmem : ∀ n ∈ l, n ∈ g.nodes)
    (hchain : l.IsChain fun a b => a.nextNodeId = some b.nodeId) (hnodup : (l.map (·.nodeId)).Nodup)
    (hlast : l.getLast?.map (·.nodeId) = some tail) (hfuel : l.length ≤ fuel) :
    walkToTail g tail fuel (l.head?.map (·.nodeId)) = some l := by
  induction l generalizing fuel with
  | nil => simp at hlast
  | cons a rest ih =>
    cases fuel with
    | zero => simp at hfuel
    | succ fuel =>
      have ha := hg.getNodeById_of_mem (hmem a (mem_cons_self ..))
      cases rest with
      | nil =>
        have htail : a.nodeId = tail := by simpa using hlast
        subst htail
        simp [walkToTail, ha]
      | cons b rest =>
        rcases isChain_cons_cons.mp hchain with ⟨hnext, hchain'⟩
        rcases nodup_cons.mp hnodup with ⟨hnot, hnodup'⟩
        rw [getLast?_cons_cons] at hlast
        have hwalk := ih (fun n hn => hmem n (mem_cons_of_mem _ hn)) hchain' hnodup' hlast
          (Nat.le_of_succ_le_succ hfuel)
        have hne : a.nodeId ≠ tail := by
          intro heq
          rcases map_eq_some_iff.mp hlast with ⟨z, hz, hzt⟩
          exact hnot (mem_map.mpr ⟨z, mem_of_getLast? hz, hzt.trans heq.symm⟩)
        have hwalk' : walkToTail g tail fuel (some b.nodeId) = some (b :: rest) := hwalk
        simp [walkToTail, ha, hne, hnext, hwalk']

/-- The walk of `ValidateScopeStreamNodes` over one entry. -/
def validateToTail (g : SuperKernelGraph) (tailNodeId : NodeId) : ℕ → Option NodeId → Bool
  | _, none => true
  | 0, some _ => false
  | fuel + 1, some curNodeId =>
    match g.getNodeById curNodeId with
    | none => false
    | some node =>
      node.isFusible && (curNodeId = tailNodeId || validateToTail g tailNodeId fuel node.nextNodeId)

/-- `ValidateScopeStreamNodes`. -/
def validateScopeStreamNodes (g : SuperKernelGraph) (fuel : ℕ) (scope : SuperKernelScopeInfo) :
    Bool :=
  scope.scopeStreamInfos.all fun info =>
    validateToTail g info.tailNodeIdx fuel (some info.headNodeIdx)

theorem validateToTail_of_walk {tail fuel : ℕ} {cur : Option NodeId}
    (hwalk : walkToTail g tail fuel cur = some l) (hfusible : ∀ n ∈ l, n.isFusible = true) :
    validateToTail g tail fuel cur = true := by
  induction fuel generalizing cur l with
  | zero => cases cur <;> simp_all [walkToTail, validateToTail]
  | succ fuel ih =>
    cases cur with
    | none => rfl
    | some cur =>
      unfold walkToTail at hwalk
      unfold validateToTail
      split at hwalk
      · cases hwalk
      · next node hnode =>
        split at hwalk
        · next htail =>
          cases hwalk
          simp [hfusible node (mem_cons_self ..), htail]
        · rcases map_eq_some_iff.mp hwalk with ⟨rest, hrest, rfl⟩
          have hvalid := ih hrest fun n hn => hfusible n (mem_cons_of_mem _ hn)
          simp [hfusible node (mem_cons_self ..), hvalid]

/-! ## Valid scopes -/

namespace ScopeOk

variable (hok : ScopeOk g scope)
include hok

theorem infosOf : InfosOf scope.nodes scope.scopeStreamInfos := by
  rw [hok.infos]
  exact infosOf_foldl scope.nodes

theorem nodesOn_mem {i : StreamIdx} : ∀ n ∈ scope.nodesOn i, n ∈ g.nodes := by
  intro n hn
  exact hok.mem n (mem_of_mem_filter hn)

omit hok in
theorem nodesOn_nodup (hnodup : scope.nodeIds.Nodup) (i : StreamIdx) :
    ((scope.nodesOn i).map (·.nodeId)).Nodup :=
  hnodup.sublist (filter_sublist.map _)

/-- Walking an entry of a valid scope visits the scope's nodes on its stream. -/
theorem walk (hg : g.WellFormed) (hnodup : scope.nodeIds.Nodup) {info : ScopeStreamInfo}
    (hinfo : info ∈ scope.scopeStreamInfos) {fuel : ℕ} (hfuel : info.nodeSize ≤ fuel) :
    walkToTail g info.tailNodeIdx fuel (some info.headNodeIdx)
      = some (scope.nodesOn info.streamIdx) := by
  have hsum := hok.infosOf.summary info hinfo
  have hlength : (scope.nodesOn info.streamIdx).length ≤ fuel := hsum.size.le.trans hfuel
  have hwalk := walkToTail_chain hg hok.nodesOn_mem (hok.chain info.streamIdx)
    (nodesOn_nodup hnodup _) hsum.tail hlength
  rw [nodesOn_eq, hsum.head] at hwalk
  exact hwalk

/-- Each stream of a valid scope has exactly one entry. -/
theorem existsUnique_info {n : SuperKernelBaseNode} (hn : n ∈ scope.nodes) :
    ∃! info, info ∈ scope.scopeStreamInfos ∧ info.streamIdx = n.streamIdxInGraph := by
  have hinfos := hok.infosOf
  rcases mem_map.mp ((hinfos.streams _).mpr ⟨n, hn, rfl⟩) with ⟨info, hinfo, hstream⟩
  refine ⟨info, ⟨hinfo, hstream⟩, ?_⟩
  rintro other ⟨hother, hostream⟩
  exact inj_on_of_nodup_map hinfos.nodup hother hinfo (hostream.trans hstream.symm)

theorem validate (hg : g.WellFormed) (hnodup : scope.nodeIds.Nodup) {fuel : ℕ}
    (hfuel : ∀ info ∈ scope.scopeStreamInfos, info.nodeSize ≤ fuel) :
    validateScopeStreamNodes g fuel scope = true := by
  refine all_eq_true.mpr fun info hinfo => ?_
  refine validateToTail_of_walk (hok.walk hg hnodup hinfo (hfuel info hinfo)) fun n hn => ?_
  exact hok.fusible n (mem_of_mem_filter hn)

end ScopeOk

end GraphAutofusion.SuperKernel
