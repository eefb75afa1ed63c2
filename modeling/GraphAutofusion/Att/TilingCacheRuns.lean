import GraphAutofusion.Att.TilingCache

/-!
# Att.TilingCacheRuns — the hash map over its calls

The searches always end, and the map holds what was inserted last. An insertion fails at the load
threshold, whether the key is new or not, and when deleted buckets have used up all empty ones.
-/

namespace GraphAutofusion.Att.TilingCache

open Lib Function Option

set_option linter.unusedSectionVars false

variable {κ ν : Type} [DecidableEq κ] {capacity : ℕ} [NeZero capacity] {hash : κ → ℕ}
  {m m' : FixedSizeHashMap κ ν capacity} {key k : κ} {value v : ν} {i j : Fin capacity} {f : κ → Option ν}
  {b : Bucket κ ν}

/-! ## Searching -/

def home (capacity : ℕ) [NeZero capacity] (hash : κ → ℕ) (key : κ) : Fin capacity :=
  Fin.ofNat capacity (hash key)

namespace FixedSizeHashMap

def emptyAt (m : FixedSizeHashMap κ ν capacity) (i : Fin capacity) : Bool :=
  decide ((m.buckets i).state = .kEmpty)

def keyAt (m : FixedSizeHashMap κ ν capacity) (i : Fin capacity) : Option κ :=
  if (m.buckets i).state = .kOccupied then some (m.buckets i).key else none

end FixedSizeHashMap

theorem keyAt_eq_some :
    m.keyAt i = some key ↔ (m.buckets i).state = .kOccupied ∧ (m.buckets i).key = key := by
  rw [FixedSizeHashMap.keyAt]
  split
  · next hocc => simp [hocc]
  · next hocc => simp [hocc]

theorem present_iff : m.Present key ↔ ∃ i, m.keyAt i = some key := by
  simp only [FixedSizeHashMap.Present, keyAt_eq_some]

/-- The loop of the code is the search round the table, which has found nothing at an empty bucket. -/
theorem findIndexLoop_eq (start : Fin capacity) (fuel : ℕ) (i : Fin capacity) :
    m.findIndexLoop key start fuel i = (walkFrom (stopsAt m.emptyAt m.keyAt key) start fuel i).map
      fun r => r.filter fun j => !m.emptyAt j := by
  induction fuel generalizing i with
  | zero => rfl
  | succ fuel ih =>
    rw [FixedSizeHashMap.findIndexLoop, walkFrom]
    by_cases hempty : (m.buckets i).state = .kEmpty
    · rw [if_pos hempty]
      simp [stopsAt, FixedSizeHashMap.emptyAt, hempty, Option.filter_some]
    rw [if_neg hempty]
    by_cases hmatch : (m.buckets i).state = .kOccupied ∧ (m.buckets i).key = key
    · rw [if_pos hmatch]
      simp [stopsAt, FixedSizeHashMap.emptyAt, hempty, keyAt_eq_some.mpr hmatch, Option.filter_some]
    have hstop : ¬ stopsAt m.emptyAt m.keyAt key i = true := by
      rw [stopsAt, FixedSizeHashMap.emptyAt, decide_eq_false hempty, Bool.false_or, decide_eq_true_iff,
        keyAt_eq_some]
      exact hmatch
    rw [if_neg hmatch, if_neg hstop]
    split
    · rfl
    · exact ih (i + 1)

theorem findIndex_eq : m.findIndex hash key =
    some ((firstFrom (stopsAt m.emptyAt m.keyAt key) (home capacity hash key)).filter
      fun j => !m.emptyAt j) := by
  rw [FixedSizeHashMap.findIndex, findIndexLoop_eq, walkFrom_eq]
  rfl

abbrev FixedSizeHashMap.Searchable (hash : κ → ℕ) (m : FixedSizeHashMap κ ν capacity) : Prop :=
  Probed (home capacity hash) m.emptyAt m.keyAt

theorem findIndex_present (h : m.Searchable hash) (hi : m.keyAt i = some key) :
    m.findIndex hash key = some (some i) := by
  rw [findIndex_eq, h.lookup_eq_some hi, Option.filter_some, h.full i key hi]
  rfl

theorem findIndex_absent (hk : ∀ i, m.keyAt i ≠ some key) : m.findIndex hash key = some none := by
  rw [findIndex_eq]
  cases hfind : firstFrom (stopsAt m.emptyAt m.keyAt key) (home capacity hash key) with
  | none => rfl
  | some j => rw [Option.filter_some, lookup_eq_empty hk hfind]; rfl

theorem find_present (h : m.Searchable hash) (hi : m.keyAt i = some key) :
    m.find hash key = some (some (m.buckets i).value) := by
  rw [FixedSizeHashMap.find, findIndex_present h hi]
  exact if_pos (keyAt_eq_some.mp hi).1

theorem find_absent (hk : ∀ i, m.keyAt i ≠ some key) : m.find hash key = some none := by
  rw [FixedSizeHashMap.find, findIndex_absent hk]

/-! ## What the map holds -/

/-- The map holds exactly the given values, and counts them. -/
structure Coherent (hash : κ → ℕ) (m : FixedSizeHashMap κ ν capacity) (f : κ → Option ν) : Prop where
  searchable : m.Searchable hash
  size : m.size = m.occupied
  values : ∀ k v, f k = some v ↔ ∃ i, m.keyAt i = some k ∧ (m.buckets i).value = v

theorem Coherent.find (h : Coherent hash m f) (key : κ) : m.find hash key = some (f key) := by
  cases hf : f key with
  | none =>
    refine find_absent fun i hi => ?_
    have hv := (h.values key _).mpr ⟨i, hi, rfl⟩
    rw [hf] at hv
    cases hv
  | some v =>
    rcases (h.values key v).mp hf with ⟨i, hi, rfl⟩
    exact find_present h.searchable hi

section

variable (hbuckets : m'.buckets = Function.update m.buckets i b)
include hbuckets

theorem keyAt_setBucket :
    m'.keyAt j = if j = i then (if b.state = .kOccupied then some b.key else none) else m.keyAt j := by
  rw [FixedSizeHashMap.keyAt, hbuckets, update_apply]
  split <;> rfl

theorem emptyAt_setBucket :
    m'.emptyAt j = if j = i then decide (b.state = .kEmpty) else m.emptyAt j := by
  rw [FixedSizeHashMap.emptyAt, hbuckets, update_apply]
  split <;> rfl

theorem value_setBucket :
    (m'.buckets j).value = if j = i then b.value else (m.buckets j).value := by
  rw [hbuckets, update_apply]
  split <;> rfl

/-- One bucket more, or one less, is occupied. -/
theorem occupied_setBucket :
    m'.occupied + (if (m.buckets i).state = .kOccupied then 1 else 0) =
      m.occupied + if b.state = .kOccupied then 1 else 0 := by
  have hsplit : ∀ p : Fin capacity → Prop, ∀ [DecidablePred p],
      (Finset.univ.filter p).card = ((Finset.univ.erase i).filter p).card + if p i then 1 else 0 := by
    intro p _
    rw [← Finset.insert_erase (Finset.mem_univ i), Finset.filter_insert]
    split
    · rw [Finset.card_insert_of_notMem (by simp)]
      simp
    · simp
  have hrest : (Finset.univ.erase i).filter (fun j => (m'.buckets j).state = .kOccupied) =
      (Finset.univ.erase i).filter fun j => (m.buckets j).state = .kOccupied := by
    apply Finset.filter_congr
    intro j hj
    rw [hbuckets, update_of_ne (Finset.ne_of_mem_erase hj)]
  rw [FixedSizeHashMap.occupied, FixedSizeHashMap.occupied, hsplit, hrest,
    hsplit fun j => (m.buckets j).state = .kOccupied, hbuckets, update_self]
  omega

end

/-- An occupied bucket gets another value. -/
theorem Coherent.update (h : Coherent hash m f) (hi : m.keyAt i = some key)
    (hb : m'.buckets = update m.buckets i ⟨key, value, .kOccupied⟩) (hs : m'.size = m.size) :
    Coherent hash m' fun k => if key = k then some value else f k := by
  have hocc := (keyAt_eq_some.mp hi).1
  have hkeyAt : ∀ j, m'.keyAt j = m.keyAt j := by
    intro j
    rw [keyAt_setBucket hb, if_pos rfl]
    split
    · next heq => rw [heq, hi]
    · rfl
  refine ⟨h.searchable.mono (fun j => ?_) (fun j k hj => (hkeyAt j).symm.trans hj), ?_, fun k v => ?_⟩
  · rw [emptyAt_setBucket hb]
    split
    · next heq =>
      rw [heq, FixedSizeHashMap.emptyAt, hocc]
    · rfl
  · have hcount := occupied_setBucket hb
    rw [if_pos hocc] at hcount
    rw [hs, h.size]
    exact (add_right_cancel hcount).symm
  · simp only [hkeyAt, value_setBucket hb]
    split
    · next heq =>
      subst heq
      constructor
      · intro hv
        exact ⟨i, hi, (if_pos rfl).trans (some.inj hv)⟩
      · rintro ⟨j, hj, hv⟩
        rw [if_pos (h.searchable.unique j i key hj hi)] at hv
        rw [hv]
    · next hne =>
      rw [h.values]
      refine exists_congr fun j => and_congr_right fun hj => ?_
      have hji : j ≠ i := by
        rintro rfl
        exact hne (some.inj (hi.symm.trans hj))
      rw [if_neg hji]

/-- A new key goes into the first empty bucket. -/
theorem Coherent.insert (h : Coherent hash m f) (hk : ∀ i, m.keyAt i ≠ some key)
    (hi : firstFrom m.emptyAt (home capacity hash key) = some i)
    (hb : m'.buckets = Function.update m.buckets i ⟨key, value, .kOccupied⟩) (hs : m'.size = m.size + 1) :
    Coherent hash m' fun k => if key = k then some value else f k := by
  have hstate : (m.buckets i).state = .kEmpty := of_decide_eq_true (firstFrom_eq_some hi).1
  have hkeyi : m.keyAt i = none := by
    rw [FixedSizeHashMap.keyAt, hstate]
    rfl
  have hkeyAt : ∀ j, m'.keyAt j = if j = i then some key else m.keyAt j := by
    intro j
    rw [keyAt_setBucket hb, if_pos rfl]
  refine ⟨h.searchable.insert hk hi (fun j => emptyAt_setBucket hb) hkeyAt, ?_, fun k v => ?_⟩
  · have hcount := occupied_setBucket hb
    rw [hstate] at hcount
    rw [hs, h.size]
    exact hcount.symm
  · simp only [hkeyAt, value_setBucket hb]
    split
    · next heq =>
      subst heq
      constructor
      · intro hv
        exact ⟨i, if_pos rfl, (if_pos rfl).trans (Option.some.inj hv)⟩
      · rintro ⟨j, hj, hv⟩
        by_cases hji : j = i
        · rw [if_pos hji] at hv
          rw [hv]
        · rw [if_neg hji] at hj
          exact absurd hj (hk j)
    · next hne =>
      rw [h.values]
      refine exists_congr fun j => ?_
      by_cases hji : j = i
      · rw [if_pos hji, hji, hkeyi]
        exact iff_of_false (fun hn => by cases hn.1) fun hn => hne (Option.some.inj hn.1)
      · rw [if_neg hji, if_neg hji]

/-- A bucket is marked as deleted. -/
theorem Coherent.erase (h : Coherent hash m f) (hi : m.keyAt i = some key)
    (hb : m'.buckets = Function.update m.buckets i ⟨key, value, .kDeleted⟩) (hs : m'.size = m.size - 1) :
    Coherent hash m' fun k => if key = k then none else f k := by
  have hocc := (keyAt_eq_some.mp hi).1
  have hkeyAt : ∀ j, m'.keyAt j = if j = i then none else m.keyAt j := fun j => keyAt_setBucket hb
  refine ⟨h.searchable.mono (fun j => ?_) (fun j k hj => ?_), ?_, fun k v => ?_⟩
  · rw [emptyAt_setBucket hb]
    split
    · next heq =>
      rw [heq, FixedSizeHashMap.emptyAt, hocc]
      rfl
    · rfl
  · rw [hkeyAt] at hj
    split at hj
    · cases hj
    · exact hj
  · have hcount := occupied_setBucket hb
    rw [if_pos hocc, ← h.size] at hcount
    rw [hs]
    exact Nat.sub_eq_of_eq_add hcount.symm
  · simp only [hkeyAt, value_setBucket hb]
    split
    · next heq =>
      subst heq
      refine iff_of_false (fun hv => by cases hv) ?_
      rintro ⟨j, hj, -⟩
      split at hj
      · cases hj
      · next hji => exact hji (h.searchable.unique j i key hj hi)
    · next hne =>
      rw [h.values]
      refine exists_congr fun j => ?_
      by_cases hji : j = i
      · rw [if_pos hji, hji, hi]
        exact iff_of_false (fun hn => hne (Option.some.inj hn.1)) fun hn => by cases hn.1
      · rw [if_neg hji, if_neg hji]

/-- A map all of whose buckets are empty. -/
theorem coherent_of_empty (hempty : ∀ i, (m.buckets i).state = .kEmpty) (hsize : m.size = 0) :
    Coherent hash m fun _ => none := by
  have hkeyAt : ∀ i, m.keyAt i = none := by
    intro i
    rw [FixedSizeHashMap.keyAt, hempty]
    rfl
  refine ⟨probed_of_no_keys hkeyAt, ?_, fun k v => ?_⟩
  · rw [hsize, FixedSizeHashMap.occupied, eq_comm, Finset.card_eq_zero, Finset.filter_eq_empty_iff]
    intro i _
    rw [hempty i]
    exact fun hn => by cases hn
  · refine iff_of_false (fun hn => by cases hn) ?_
    rintro ⟨i, hi, -⟩
    rw [hkeyAt] at hi
    cases hi

theorem Coherent.clear : Coherent hash m.clear fun _ => none := coherent_of_empty (fun _ => rfl) rfl

/-! ## The calls -/

/-- Everything an insertion can do. -/
theorem insert_spec (h : Coherent hash m f) (key : κ) (value : ν) :
    ∃ ok m', m.insert hash key value = some (ok, m') ∧
      Coherent hash m' (if ok then fun k => if key = k then some value else f k else f) ∧
      (∀ j, (m'.buckets j).state = .kDeleted → (m.buckets j).state = .kDeleted) ∧
      (ok = true ↔ ¬ LoadReached capacity m.size ∧
        (m.Present key ∨ ∃ j, (m.buckets j).state = .kEmpty)) ∧ (ok = false → m' = m) := by
  rw [FixedSizeHashMap.insert, present_iff]
  by_cases hload : LoadReached capacity m.size
  · rw [if_pos hload]
    exact ⟨false, m, rfl, h, fun j hj => hj, iff_of_false Bool.false_ne_true fun hn => hn.1 hload,
      fun _ => rfl⟩
  rw [if_neg hload]
  by_cases hk : ∃ i, m.keyAt i = some key
  · -- the key is present
    rcases hk with ⟨i, hi⟩
    rcases keyAt_eq_some.mp hi with ⟨hocc, hkey⟩
    have hb : (m.setBucket i { m.buckets i with value := value }).buckets =
        update m.buckets i ⟨key, value, .kOccupied⟩ := by
      rw [← hkey, ← hocc]
      rfl
    rw [findIndex_present h.searchable hi]
    refine ⟨true, _, rfl, h.update hi hb rfl, fun j => ?_,
      iff_of_true rfl ⟨hload, .inl ⟨i, hi⟩⟩, fun hn => by cases hn⟩
    rw [hb, update_apply]
    split
    · exact fun hn => by cases hn
    · exact id
  · have hk' : ∀ i, m.keyAt i ≠ some key := fun i hi => hk ⟨i, hi⟩
    rw [findIndex_absent hk']
    cases hfirst : firstFrom m.emptyAt (home capacity hash key) with
    | none =>
      -- all buckets are occupied or deleted
      have hno := firstFrom_eq_none.mp hfirst
      refine ⟨false, m, ?_, h, fun j hj => hj, iff_of_false Bool.false_ne_true ?_, fun _ => rfl⟩
      · have hcode : firstFrom (fun index => decide ((m.buckets index).state = .kEmpty))
            (Fin.ofNat capacity (hash key)) = none := hfirst
        dsimp only
        rw [hcode]
      · rintro ⟨-, hpresent | ⟨j, hj⟩⟩
        · exact hk hpresent
        · have hj' := hno j
          rw [FixedSizeHashMap.emptyAt, decide_eq_true hj] at hj'
          cases hj'
    | some i =>
      have hcode : firstFrom (fun index => decide ((m.buckets index).state = .kEmpty))
          (Fin.ofNat capacity (hash key)) = some i := hfirst
      have hstate : (m.buckets i).state = .kEmpty := of_decide_eq_true (firstFrom_eq_some hfirst).1
      dsimp only
      rw [hcode]
      refine ⟨true, _, rfl, h.insert hk' hfirst rfl rfl, fun j => ?_,
        iff_of_true rfl ⟨hload, .inr ⟨i, hstate⟩⟩, fun hn => by cases hn⟩
      dsimp only [FixedSizeHashMap.setBucket]
      rw [update_apply]
      split
      · exact fun hn => by cases hn
      · exact id

theorem erase_spec (h : Coherent hash m f) (key : κ) :
    ∃ ok m', m.erase hash key = some (ok, m') ∧
      Coherent hash m' (if ok then fun k => if key = k then none else f k else f) := by
  rw [FixedSizeHashMap.erase]
  by_cases hk : ∃ i, m.keyAt i = some key
  · rcases hk with ⟨i, hi⟩
    rcases keyAt_eq_some.mp hi with ⟨hocc, hkey⟩
    rw [findIndex_present h.searchable hi]
    dsimp only
    rw [if_pos hocc]
    refine ⟨true, _, rfl, ?_⟩
    have hb : (m.setBucket i { m.buckets i with state := .kDeleted }).buckets =
        update m.buckets i ⟨key, (m.buckets i).value, .kDeleted⟩ := by
      rw [← hkey]
      rfl
    exact h.erase hi hb rfl
  · rw [findIndex_absent fun i hi => hk ⟨i, hi⟩]
    exact ⟨false, m, rfl, h⟩

/-! ## Runs -/

variable {history : List (Event κ ν)}

section

variable (h : Coherent hash m fun k => lastInserted k history)
include h

/-- A call ends, and the map holds what the history says with it. -/
theorem Op.run_spec
    (op : Op κ ν) : ∃ event m', op.run hash m = some (event, m') ∧
      Coherent hash m' fun k => lastInserted k (event :: history) := by
  cases op with
  | find key => exact ⟨.found key (lastInserted key history), m, by rw [Op.run, h.find]; rfl, h⟩
  | insert key value =>
    rcases insert_spec h key value with ⟨ok, m', hrun, hcoh, -⟩
    refine ⟨.inserted key value ok, m', by rw [Op.run, hrun]; rfl, ?_⟩
    cases ok <;> exact hcoh
  | erase key =>
    rcases erase_spec h key with ⟨ok, m', hrun, hcoh⟩
    refine ⟨.erased key ok, m', by rw [Op.run, hrun]; rfl, ?_⟩
    cases ok <;> exact hcoh
  | clear => exact ⟨.cleared, m.clear, rfl, Coherent.clear⟩

theorem runOps_spec
    (ops : List (Op κ ν)) : ∃ history' m', runOps hash m history ops = some (history', m') ∧
      Coherent hash m' fun k => lastInserted k history' := by
  induction ops generalizing m history with
  | nil => exact ⟨history, m, rfl, h⟩
  | cons op ops ih =>
    rcases Op.run_spec h op with ⟨event, m₁, hrun, h₁⟩
    rcases ih h₁ with ⟨history', m', hrest, h'⟩
    exact ⟨history', m', by rw [runOps, hrun]; exact hrest, h'⟩

omit h in
theorem FixedSizeHashMap.Initial.coherent (h : m.Initial) :
    Coherent hash m fun k => lastInserted k [] := coherent_of_empty h.empty h.size

omit h in
/-- An insertion does what it is to do exactly when there is room for it. -/
theorem insertServes_iff (h : Coherent hash m f) : InsertServes hash m key value ↔ m.InsertRoom key := by
  rcases insert_spec h key value with ⟨ok, m', hrun, hcoh, -, hok, -⟩
  rw [InsertServes, FixedSizeHashMap.InsertRoom, hrun]
  constructor
  · rintro ⟨hpresent, hnew⟩
    constructor
    · intro hp
      rcases hpresent hp with ⟨_, heq, -⟩
      cases heq
      exact (hok.mp rfl).1
    · intro hp
      by_cases hload : LoadReached capacity m.size
      · exact .inl hload
      · cases ok with
        | false => exact .inl (hnew hp ⟨m', rfl⟩)
        | true => exact .inr ((hok.mp rfl).2.resolve_left hp)
  · rintro ⟨hpresent, hnew⟩
    constructor
    · intro hp
      obtain rfl := hok.mpr ⟨hpresent hp, .inl hp⟩
      exact ⟨m', rfl, by rw [hcoh.find]; exact congrArg some (if_pos rfl)⟩
    · rintro hp ⟨_, heq⟩
      cases heq
      by_contra hload
      exact Bool.false_ne_true (hok.mpr ⟨hload, .inr ((hnew hp).resolve_left hload)⟩)

theorem atInserts_iff (ops : List (Op κ ν)) :
    AtInserts hash (InsertServes hash) m ops ↔ AtInserts hash (fun m key _ => m.InsertRoom key) m ops := by
  induction ops generalizing m history with
  | nil => exact Iff.rfl
  | cons op ops ih =>
    rcases Op.run_spec h op with ⟨event, m₁, hrun, h₁⟩
    rw [AtInserts, AtInserts]
    refine and_congr ?_ ?_
    · exact forall₂_congr fun key value => imp_congr_right fun _ => insertServes_iff h
    · refine forall₂_congr fun event' m' => imp_congr_right fun hrun' => ?_
      cases hrun.symm.trans hrun'
      exact ih h₁

end

end GraphAutofusion.Att.TilingCache
