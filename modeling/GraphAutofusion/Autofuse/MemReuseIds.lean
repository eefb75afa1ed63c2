import GraphAutofusion.Autofuse.MemReuseFlags
import Mathlib.Data.List.Flatten

/-!
# Autofuse.MemReuseIds — every tensor gets the id of its block

Merging by group id puts every tensor in one group, and the allocation every group in one block. So
the last loop writes the attributes of each tensor for one block only.
-/

namespace GraphAutofusion.Autofuse

open Lib List Function

variable {std : StdLib} {s : MemReuseState} {t : MemoryType} {group : TensorGroup}

/-! ## The groups that are placed -/

def placedGroups (s : MemReuseState) : List TensorGroup := s.placements.map (·.group)

/-- The step has placed the group and touched no temporary buffer. -/
def Places (s s' : MemReuseState) (group : TensorGroup) : Prop :=
  ∃ t id, s'.placements = s.placements ++ [⟨group, t, id⟩] ∧ s'.tmpBuffers = s.tmpBuffers

theorem allocQueGroup_places (std : StdLib) (t : MemoryType) (s : MemReuseState × ℤ)
    (group : TensorGroup) : Places s.1 (allocQueGroup std t s group).1 group := by
  rcases allocQueGroup_cases std t s group with heq | ⟨ref, grow, -, -, -, heq⟩
  · rw [heq]
    exact ⟨t, nextId s.1 t, rfl, rfl⟩
  · rw [heq]
    exact ⟨ref.memType, ref.block.id, rfl, rfl⟩

theorem tmpBuffers_findTmp (std : StdLib) (s : MemReuseState) (group : TensorGroup) :
    (findCandidateTmpBuffBlockWithSizeCheck std s group).1.tmpBuffers = s.tmpBuffers := by
  rcases findCandidateTmpBuffBlock_cases std s group with heq | heq
  · rw [heq]
  · rw [heq]
    rfl

theorem allocCalcGroup_places (std : StdLib) (s : MemReuseState) (group : TensorGroup) :
    Places s (allocCalcGroup std s group) group := by
  have hlog : (chooseCalcBlock std s group).1.placements = s.placements := placements_findTmp std s group
  have htmp : (chooseCalcBlock std s group).1.tmpBuffers = s.tmpBuffers := tmpBuffers_findTmp std s group
  unfold Places
  rcases allocCalcGroup_cases std s group with ⟨-, heq⟩ | ⟨-, -, heq⟩ | ⟨-, ref, grow, -, heq⟩
  · rw [heq]
    exact ⟨.calc, nextId s .calc, rfl, rfl⟩
  · rw [heq, ← htmp, ← hlog]
    exact ⟨.calc, nextId (chooseCalcBlock std s group).1 .calc, rfl, rfl⟩
  · rw [heq, ← htmp, ← hlog]
    exact ⟨ref.memType, ref.block.id, rfl, rfl⟩

/-- A temporary buffer has the id of the block it was placed in. -/
theorem allocTmpGroup_places (std : StdLib) (s : MemReuseState) (entry : ℕ × TensorInfo) :
    ∃ t id, (allocTmpGroup std s entry).placements = s.placements ++ [⟨tmpGroup entry, t, id⟩] ∧
      (allocTmpGroup std s entry).tmpBuffers = update s.tmpBuffers entry.1 ⟨.buffer, id⟩ := by
  have hlog := placements_findTmp std s (tmpGroup entry)
  have htmp := tmpBuffers_findTmp std s (tmpGroup entry)
  rcases allocTmpGroup_cases std s entry with ⟨s', t, hs', -, heq, ht⟩ | ⟨ref, -, -, heq⟩
  · have hsame : s'.placements = s.placements ∧ s'.tmpBuffers = s.tmpBuffers := by
      rcases hs' with rfl | rfl
      · exact ⟨rfl, rfl⟩
      · exact ⟨hlog, htmp⟩
    refine ⟨t, s'.bufId, ?_, ?_⟩
    · rw [heq, ← hsame.1]
      show s'.placements ++ [⟨tmpGroup entry, t, if t.isQue then s'.queId else s'.bufId⟩] = _
      rw [ht]
      rfl
    · rw [heq, ← hsame.2]
      rfl
  · refine ⟨ref.memType, ref.block.id, ?_, ?_⟩
    · rw [heq, ← hlog]
      rfl
    · rw [heq, ← htmp]
      rfl

theorem Places.groups {s' : MemReuseState} (h : Places s s' group) :
    placedGroups s' = placedGroups s ++ [group] := by
  obtain ⟨t, id, hlog, -⟩ := h
  rw [placedGroups, hlog]
  exact map_append

theorem placedGroups_que (s : MemReuseState) (groups : List TensorGroup) :
    placedGroups (allocForTQue std t s groups) =
      placedGroups s ++ std.sort startsEarlier groups := by
  have hrun := @foldl_log (MemReuseState × ℤ) TensorGroup (allocQueGroup std t) TensorGroup
    (fun s => placedGroups s.1) id (fun s group => (allocQueGroup_places std t s group).groups) (s, -1)
    (std.sort startsEarlier groups)
  rw [map_id] at hrun
  exact hrun

theorem placedGroups_calc (s : MemReuseState) (groups : List TensorGroup) :
    placedGroups (allocForCalc std s groups) = placedGroups s ++ std.sort startsEarlier groups := by
  have hrun := @foldl_log MemReuseState TensorGroup (allocCalcGroup std) TensorGroup placedGroups id
    (fun s group => (allocCalcGroup_places std s group).groups) s (std.sort startsEarlier groups)
  rw [map_id] at hrun
  exact hrun

theorem placedGroups_tmp (s : MemReuseState) (tmps : InfoMap) :
    placedGroups (allocTmpBuff std s tmps) = placedGroups s ++ tmps.entries.map tmpGroup := by
  refine @foldl_log MemReuseState (ℕ × TensorInfo) (allocTmpGroup std) TensorGroup placedGroups
    tmpGroup (fun s entry => ?_) s tmps.entries
  obtain ⟨t, id, hlog, -⟩ := allocTmpGroup_places std s entry
  rw [placedGroups, hlog]
  exact map_append

/-! ## The ids of the temporary buffers -/

/-- The placed buffers have the ids of their blocks. -/
def TmpIds (s : MemReuseState) : Prop :=
  ∀ p ∈ s.placements, ∀ info ∈ p.group.groupedTensors, ∀ buff, info.1 = .tmpBuffer buff →
    (s.tmpBuffers buff).id = p.blockId

/-- The group holds no temporary buffer. -/
def TensorsOnly (group : TensorGroup) : Prop :=
  ∀ info ∈ group.groupedTensors, ∀ buff, info.1 ≠ .tmpBuffer buff

theorem Places.tmpIds {s' : MemReuseState} (hplaces : Places s s' group) (hgroup : TensorsOnly group)
    (h : TmpIds s) : TmpIds s' := by
  obtain ⟨t, id, hlog, htmp⟩ := hplaces
  intro p hp info hinfo buff hkey
  rw [hlog] at hp
  rw [htmp]
  rcases mem_append.mp hp with hp | hp
  · exact h p hp info hinfo buff hkey
  · rw [mem_singleton.mp hp] at hinfo
    exact absurd hkey (hgroup info hinfo buff)

variable {groups : List TensorGroup}

theorem tmpIds_que (hgroups : ∀ group ∈ groups, TensorsOnly group)
    (h : TmpIds s) : TmpIds (allocForTQue std t s groups) := by
  refine @foldl_inv (MemReuseState × ℤ) TensorGroup (allocQueGroup std t) (fun s => TmpIds s.1) (s, -1) _
    (fun s group hgroup h => ?_) h
  have hmem := (std.sort_perm _ _).mem_iff.mp hgroup
  exact (allocQueGroup_places std t s group).tmpIds (hgroups group hmem) h

theorem tmpIds_calc (hgroups : ∀ group ∈ groups, TensorsOnly group)
    (h : TmpIds s) : TmpIds (allocForCalc std s groups) := by
  refine foldl_inv (fun s group hgroup h => ?_) h
  have hmem := (std.sort_perm _ _).mem_iff.mp hgroup
  exact (allocCalcGroup_places std s group).tmpIds (hgroups group hmem) h

/-- The buffer was not placed. -/
def TmpFresh (s : MemReuseState) (buff : ℕ) : Prop :=
  ∀ p ∈ s.placements, ∀ info ∈ p.group.groupedTensors, info.1 ≠ .tmpBuffer buff

theorem tmpIds_tmp {entries : List (ℕ × TensorInfo)} (hnodup : (entries.map (·.1)).Nodup)
    (hfresh : ∀ entry ∈ entries, TmpFresh s entry.1) (h : TmpIds s) :
    TmpIds (entries.foldl (allocTmpGroup std) s) := by
  induction entries generalizing s with
  | nil => exact h
  | cons entry entries ih =>
    obtain ⟨hnew, hnodup⟩ := nodup_cons.mp hnodup
    obtain ⟨t, id, hlog, htmp⟩ := allocTmpGroup_places std s entry
    refine ih hnodup ?_ ?_
    · intro other hother p hp info hinfo
      rw [hlog] at hp
      rcases mem_append.mp hp with hp | hp
      · exact hfresh other (mem_cons_of_mem _ hother) p hp info hinfo
      rw [mem_singleton.mp hp] at hinfo
      rw [mem_singleton.mp hinfo]
      intro heq
      have hsame : entry.1 = other.1 := InfoKey.tmpBuffer.inj heq
      refine hnew ?_
      show entry.1 ∈ _
      rw [hsame]
      exact mem_map_of_mem hother
    · intro p hp info hinfo buff hkey
      rw [hlog] at hp
      rw [htmp]
      rcases mem_append.mp hp with hp | hp
      · -- the buffers of earlier placements are others
        have hne : buff ≠ entry.1 := by
          intro heq
          rw [heq] at hkey
          exact hfresh entry mem_cons_self p hp info hinfo hkey
        rw [update_of_ne hne]
        exact h p hp info hinfo buff hkey
      · rw [mem_singleton.mp hp] at hinfo ⊢
        rw [mem_singleton.mp hinfo] at hkey
        rw [← InfoKey.tmpBuffer.inj hkey, update_self]

/-! ## Merging by group id -/

def infosOf (groups : List TensorGroup) : List (InfoKey × TensorInfo) :=
  groups.flatMap (·.groupedTensors)

def tensorEntry (entry : ℕ × TensorInfo) : InfoKey × TensorInfo := (.tensor entry.1, entry.2)

/-- The map of the groups after some tensors. -/
structure GroupsInv (groups : List TensorGroup) (entries : List (ℕ × TensorInfo)) : Prop where
  infos : (infosOf groups).Perm (entries.map tensorEntry)
  ids : (groups.map (·.groupId)).Nodup
  nonempty : ∀ group ∈ groups, group.groupedTensors ≠ []

theorem map_refresh_other {entry : ℕ × TensorInfo}
    (h : ∀ group ∈ groups, group.groupId ≠ entry.2.groupId) :
    (groups.map fun group =>
      if group.groupId = entry.2.groupId then group.add (.tensor entry.1) entry.2 else group) = groups :=
  (map_congr_left fun group hgroup => if_neg (h group hgroup)).trans (map_id' groups)

theorem GroupsInv.refresh {entries : List (ℕ × TensorInfo)} (h : GroupsInv groups entries)
    (entry : ℕ × TensorInfo) : GroupsInv (refreshGroup groups entry) (entries ++ [entry]) := by
  unfold refreshGroup
  split
  · next hany =>
    obtain ⟨group, hgroup, hid⟩ := any_eq_true.mp hany
    have hid := of_decide_eq_true hid
    obtain ⟨front, back, rfl⟩ := append_of_mem hgroup
    have hids := h.ids
    rw [map_append, map_cons, nodup_append, nodup_cons] at hids
    rcases hids with ⟨-, ⟨hback, -⟩, hdisj⟩
    -- no other group has this id
    have hfront' : ∀ other ∈ front, other.groupId ≠ entry.2.groupId := by
      intro other hother heq
      exact hdisj _ (mem_map_of_mem hother) _ mem_cons_self (heq.trans hid.symm)
    have hback' : ∀ other ∈ back, other.groupId ≠ entry.2.groupId := by
      intro other hother heq
      refine hback ?_
      rw [hid, ← heq]
      exact mem_map_of_mem hother
    rw [map_append, map_cons, map_refresh_other hfront', map_refresh_other hback', if_pos hid]
    refine ⟨?_, ?_, ?_⟩
    · have hinfos := h.infos
      unfold infosOf at hinfos ⊢
      rw [flatMap_append, flatMap_cons] at hinfos ⊢
      rw [map_append]
      have hadd : (group.add (.tensor entry.1) entry.2).groupedTensors =
          group.groupedTensors ++ [tensorEntry entry] := rfl
      rw [hadd]
      refine Perm.trans ?_ (hinfos.append_right _)
      rw [append_assoc, append_assoc]
      refine Perm.append_left _ ?_
      rw [append_assoc]
      exact Perm.append_left _ perm_append_comm
    · rw [map_append, map_cons]
      have hids := h.ids
      rw [map_append, map_cons] at hids
      exact hids
    · intro other hother
      rcases mem_append.mp hother with hother | hother
      · exact h.nonempty other (mem_append_left _ hother)
      · rcases mem_cons.mp hother with rfl | hother
        · exact append_ne_nil_of_right_ne_nil _ (cons_ne_nil _ _)
        · exact h.nonempty other (mem_append_right _ (mem_cons_of_mem _ hother))
  · next hany =>
    refine ⟨?_, ?_, ?_⟩
    · unfold infosOf
      rw [flatMap_append, map_append]
      exact h.infos.append_right _
    · rw [map_append, nodup_append]
      refine ⟨h.ids, nodup_singleton _, fun id hin id' hin' heq => hany ?_⟩
      obtain ⟨group, hgroup, rfl⟩ := mem_map.mp hin
      rw [mem_singleton.mp hin'] at heq
      exact any_eq_true.mpr ⟨group, hgroup, decide_eq_true heq⟩
    · intro other hother
      rcases mem_append.mp hother with hother | hother
      · exact h.nonempty other hother
      · rw [mem_singleton.mp hother]
        exact cons_ne_nil _ _

theorem GroupsInv.foldl {before entries : List (ℕ × TensorInfo)}
    (h : GroupsInv groups before) : GroupsInv (entries.foldl refreshGroup groups) (before ++ entries) := by
  induction entries generalizing groups before with
  | nil =>
    rw [append_nil]
    exact h
  | cons entry entries ih =>
    have hsplit : before ++ entry :: entries = before ++ [entry] ++ entries := by simp
    rw [hsplit]
    exact ih (h.refresh entry)

theorem tempGroups_inv (tensors : InfoMap) : GroupsInv (tempGroups tensors) tensors.entries :=
  @GroupsInv.foldl [] [] tensors.entries
    ⟨Perm.refl _, nodup_nil, fun _ hgroup => absurd hgroup not_mem_nil⟩

/-! ## All groups -/

/-- The groups of the tensors, and one for each temporary buffer. -/
def allGroups (tensors tmps : InfoMap) : List TensorGroup :=
  tempGroups tensors ++ tmps.entries.map tmpGroup

theorem InfoMap.keys_nodup (infos : InfoMap) : (infos.entries.map (·.1)).Nodup := by
  unfold Nodup
  rw [pairwise_map]
  exact infos.sorted.imp fun hlt => ne_of_lt hlt

theorem infosOf_allGroups (tensors tmps : InfoMap) : (infosOf (allGroups tensors tmps)).Perm
    (tensors.entries.map tensorEntry ++ tmps.entries.map fun entry => (.tmpBuffer entry.1, entry.2)) := by
  unfold infosOf allGroups
  rw [flatMap_append]
  refine (tempGroups_inv tensors).infos.append (Perm.of_eq ?_)
  rw [flatMap_map]
  exact map_eq_flatMap.symm

/-- No info is in two groups, or twice in one. -/
theorem keys_nodup (tensors tmps : InfoMap) : ((infosOf (allGroups tensors tmps)).map (·.1)).Nodup := by
  rw [((infosOf_allGroups tensors tmps).map _).nodup_iff, map_append, map_map, map_map,
    nodup_append]
  have htensors : ((tensors.entries.map (·.1)).map InfoKey.tensor).Nodup :=
    tensors.keys_nodup.map fun _ _ heq => InfoKey.tensor.inj heq
  have htmps : ((tmps.entries.map (·.1)).map InfoKey.tmpBuffer).Nodup :=
    tmps.keys_nodup.map fun _ _ heq => InfoKey.tmpBuffer.inj heq
  rw [map_map] at htensors htmps
  refine ⟨htensors, htmps, fun key hkey key' hkey' heq => ?_⟩
  obtain ⟨entry, -, rfl⟩ := mem_map.mp hkey
  obtain ⟨entry', -, rfl⟩ := mem_map.mp hkey'
  exact InfoKey.noConfusion heq

end GraphAutofusion.Autofuse
