import GraphAutofusion.Att.TilingCacheRuns

/-!
# Att.OperatorCache — the cache of an operator over its calls

Nothing is erased from this cache, so that an insertion below the load threshold always succeeds, and one
at the threshold does after everything was cleared. A present key at the threshold is no exception.
-/

namespace GraphAutofusion.Att.TilingCache

open Lib

variable {ν : Type} {kInputShapeSize : ℕ} {c c' : TilingCacheContext kInputShapeSize ν}
  {key k : Vector UInt32 kInputShapeSize} {data v : ν} {f : Vector UInt32 kInputShapeSize → Option ν}
  {cache : OperatorLevelCache kInputShapeSize ν}

/-- The map in the cache has the given values and no deleted bucket. -/
structure Keeps (cache : OperatorLevelCache kInputShapeSize ν)
    (f : Vector UInt32 kInputShapeSize → Option ν) : Prop where
  coherent : Coherent hashSlot cache f
  clean : ∀ j, (cache.buckets j).state ≠ .kDeleted

def TilingCacheContext.Holds (c : TilingCacheContext kInputShapeSize ν)
    (f : Vector UInt32 kInputShapeSize → Option ν) : Prop :=
  ∃ cache, c.getOperatorCache.operatorCache = some cache ∧ Keeps cache f

theorem getOperatorCache_initialized : c.getOperatorCache.initialized = true := by
  rw [TilingCacheContext.getOperatorCache]
  split
  · next h => exact h
  · rfl

theorem getOperatorCache_of_initialized (h : c.initialized = true) : c.getOperatorCache = c := if_pos h

/-- A map without deleted buckets has an empty one below the threshold. -/
theorem Keeps.exists_empty (h : Keeps cache f) (hload : ¬ LoadReached kOperatorCacheCapacity cache.size) :
    ∃ j, (cache.buckets j).state = .kEmpty := by
  by_contra hno
  have hall : ∀ j, (cache.buckets j).state = .kOccupied := by
    intro j
    cases hj : (cache.buckets j).state with
    | kEmpty => exact absurd ⟨j, hj⟩ hno
    | kOccupied => rfl
    | kDeleted => exact absurd hj (h.clean j)
  -- all buckets are occupied
  have hcount : cache.size = kOperatorCacheCapacity := by
    rw [h.coherent.size, FixedSizeHashMap.occupied, Finset.filter_true_of_mem fun j _ => hall j,
      Finset.card_univ, Fintype.card_fin]
  rw [hcount] at hload
  exact hload (by decide)

/-- An insertion succeeds below the threshold. -/
theorem Keeps.insert (h : Keeps cache f) (hload : ¬ LoadReached kOperatorCacheCapacity cache.size)
    (key : Vector UInt32 kInputShapeSize) (data : ν) :
    ∃ cache', cache.insert hashSlot key data = some (true, cache') ∧
      Keeps cache' fun k => if key = k then some data else f k := by
  rcases insert_spec h.coherent key data with ⟨ok, cache', hrun, hcoh, hclean, hok, -⟩
  obtain rfl := hok.mpr ⟨hload, .inr (h.exists_empty hload)⟩
  exact ⟨cache', hrun, hcoh, fun j hj => h.clean j (hclean j hj)⟩

theorem keeps_clear (cache : OperatorLevelCache kInputShapeSize ν) : Keeps cache.clear fun _ => none where
  coherent := Coherent.clear
  clean _ hj := by cases hj

theorem not_loadReached_clear : ¬ LoadReached kOperatorCacheCapacity cache.clear.size := by
  have hzero : cache.clear.size = 0 := rfl
  rw [hzero]
  decide

/-! ## The calls -/

theorem find_spec (h : c.Holds f) (key : Vector UInt32 kInputShapeSize) :
    ∃ c', c.findOperatorCache key = some (f key, c') ∧ c'.Holds f := by
  rcases h with ⟨cache, hcache, hkeeps⟩
  have hinit := getOperatorCache_initialized (c := c)
  rw [TilingCacheContext.findOperatorCache]
  dsimp only
  rw [hcache]
  dsimp only
  rw [hkeeps.coherent.find]
  cases f key with
  | none =>
    exact ⟨_, rfl, cache, by rw [getOperatorCache_of_initialized hinit]; exact hcache, hkeeps⟩
  | some v => exact ⟨_, rfl, cache, (congrArg _ (if_pos hinit)).trans rfl, hkeeps⟩

theorem lookup_eq (h : c.Holds f) (key : Vector UInt32 kInputShapeSize) : c.lookup key = f key := by
  rcases find_spec h key with ⟨c', hrun, -⟩
  rw [TilingCacheContext.lookup, hrun]
  rfl

/-- A save always succeeds. It keeps the other entries below the threshold, and drops them at it. -/
theorem save_spec (h : c.Holds f) (key : Vector UInt32 kInputShapeSize) (data : ν) :
    ∃ result c', c.saveOperatorCache key data = some (result, c') ∧ result ≠ .kFailed ∧
      c'.Holds fun k => if key = k then some data
        else if LoadReached kOperatorCacheCapacity c.entries then none else f k := by
  rcases h with ⟨cache, hcache, hkeeps⟩
  have hinit := getOperatorCache_initialized (c := c)
  have hentries : c.entries = cache.size := by
    rw [TilingCacheContext.entries, hcache]
  rw [TilingCacheContext.saveOperatorCache, hentries]
  dsimp only
  rw [hcache]
  dsimp only
  by_cases hload : LoadReached kOperatorCacheCapacity cache.size
  · -- the insertion is refused, whether the key is present or not
    have hrefused : cache.insert hashSlot key data = some (false, cache) := if_pos hload
    rcases (keeps_clear cache).insert not_loadReached_clear key data with ⟨cache', hrun, hkeeps'⟩
    rw [hrefused]
    dsimp only
    rw [if_pos hload, hrun]
    refine ⟨_, _, rfl, by decide, cache', (congrArg _ (if_pos hinit)).trans rfl, ?_⟩
    simp only [if_pos hload]
    exact hkeeps'
  · rcases hkeeps.insert hload key data with ⟨cache', hrun, hkeeps'⟩
    rw [hrun]
    refine ⟨_, _, rfl, by decide, cache', (congrArg _ (if_pos hinit)).trans rfl, ?_⟩
    simp only [if_neg hload]
    exact hkeeps'

/-! ## Runs -/

/-- What is held under a key was saved under it last. -/
def FromHistory (f : Vector UInt32 kInputShapeSize → Option ν)
    (history : List (CacheEvent kInputShapeSize ν)) : Prop :=
  ∀ k v, f k = some v → lastSaved k history = some v

variable {history : List (CacheEvent kInputShapeSize ν)}

section

variable (h : c.Holds f)
include h

theorem CacheOp.run_spec (hf : FromHistory f history) (op : CacheOp kInputShapeSize ν) :
    ∃ event c' f', op.run c = some (event, c') ∧ c'.Holds f' ∧ FromHistory f' (event :: history) := by
  cases op with
  | find key =>
    rcases find_spec h key with ⟨c', hrun, hc'⟩
    exact ⟨.found key (f key), c', f, by rw [CacheOp.run, hrun]; rfl, hc', hf⟩
  | save key data =>
    rcases save_spec h key data with ⟨result, c', hrun, -, hc'⟩
    refine ⟨.saved key data result, c', _, by rw [CacheOp.run, hrun]; rfl, hc', fun k v hk => ?_⟩
    rw [lastSaved]
    split at hk
    · next heq => rw [if_pos heq, hk]
    · next hne =>
      rw [if_neg hne]
      split at hk
      · cases hk
      · exact hf k v hk

theorem runCacheOps_spec (hf : FromHistory f history) (ops : List (CacheOp kInputShapeSize ν)) :
    ∃ history' c' f', runCacheOps c history ops = some (history', c') ∧ c'.Holds f' ∧
      FromHistory f' history' := by
  induction ops generalizing c f history with
  | nil => exact ⟨history, c, f, rfl, h, hf⟩
  | cons op ops ih =>
    rcases CacheOp.run_spec h hf op with ⟨event, c₁, f₁, hrun, h₁, hf₁⟩
    rcases ih h₁ hf₁ with ⟨history', c', f', hrest, h', hf'⟩
    exact ⟨history', c', f', by rw [runCacheOps, hrun]; exact hrest, h', hf'⟩

theorem saveSucceeds : SaveSucceeds c key data := by
  rcases save_spec h key data with ⟨result, c', hrun, hresult, hc'⟩
  exact ⟨result, c', hrun, hresult, (lookup_eq hc' key).trans (if_pos rfl)⟩

/-- At the threshold another entry is lost with every save. -/
theorem saveUpdates_iff : SaveUpdates c key data ↔ SaveRoom c key := by
  rcases save_spec h key data with ⟨result, c', hrun, -, hc'⟩
  refine imp_congr_right fun hpresent => ?_
  constructor
  · rintro ⟨result', c'', hrun', -, hkeep⟩ hload
    cases hrun.symm.trans hrun'
    rcases h with ⟨cache, hcache, hkeeps⟩
    -- two occupied buckets have different keys, and one of them is not the saved one
    have hentries : c.entries = cache.occupied := by
      rw [TilingCacheContext.entries, hcache]
      exact hkeeps.coherent.size
    have hmany : 1 < cache.occupied := by
      rw [LoadReached, hentries] at hload
      have hcapacity : kOperatorCacheCapacity = 24 := rfl
      omega
    rcases Finset.one_lt_card.mp hmany with ⟨i, hi, j, hj, hij⟩
    have hother : ∃ l, (cache.buckets l).state = .kOccupied ∧ (cache.buckets l).key ≠ key := by
      by_contra hno
      have hkeys : ∀ l, (cache.buckets l).state = .kOccupied → cache.keyAt l = some key := by
        intro l hl
        refine keyAt_eq_some.mpr ⟨hl, ?_⟩
        by_contra hne
        exact hno ⟨l, hl, hne⟩
      exact hij (hkeeps.coherent.searchable.unique i j key (hkeys i (Finset.mem_filter.mp hi).2)
        (hkeys j (Finset.mem_filter.mp hj).2))
    rcases hother with ⟨l, hl, hne⟩
    have hlost := hkeep _ hne
    rw [lookup_eq hc', if_neg (Ne.symm hne), if_pos hload, lookup_eq ⟨cache, hcache, hkeeps⟩,
      (hkeeps.coherent.values _ _).mpr ⟨l, keyAt_eq_some.mpr ⟨hl, rfl⟩, rfl⟩] at hlost
    cases hlost
  · intro hload
    refine ⟨result, c', hrun, (lookup_eq hc' key).trans (if_pos rfl), fun k hk => ?_⟩
    rw [lookup_eq hc', lookup_eq h, if_neg (Ne.symm hk), if_neg hload]

theorem atSaves_of_holds (hf : FromHistory f history) (ops : List (CacheOp kInputShapeSize ν)) :
    AtSaves SaveSucceeds c ops ∧ (AtSaves SaveUpdates c ops ↔ AtSaves (fun c key _ => SaveRoom c key) c ops) := by
  induction ops generalizing c f history with
  | nil => exact ⟨trivial, Iff.rfl⟩
  | cons op ops ih =>
    rcases CacheOp.run_spec h hf op with ⟨event, c₁, f₁, hrun, h₁, hf₁⟩
    rcases ih h₁ hf₁ with ⟨hsucceeds, hupdates⟩
    refine ⟨⟨fun key data _ => saveSucceeds h, fun event' c' hrun' => ?_⟩, and_congr ?_ ?_⟩
    · cases hrun.symm.trans hrun'
      exact hsucceeds
    · exact forall₂_congr fun key data => imp_congr_right fun _ => saveUpdates_iff h
    · refine forall₂_congr fun event' c' => imp_congr_right fun hrun' => ?_
      cases hrun.symm.trans hrun'
      exact hupdates

end

theorem holds_of_new (h : c.initialized = false) : c.Holds fun _ => none := by
  have hnew : c.getOperatorCache.operatorCache = some c.fresh.clear := by
    rw [TilingCacheContext.getOperatorCache, h]
    rfl
  exact ⟨_, hnew, keeps_clear _⟩

/-- Over any calls the map is searched in bounded time, counts its entries, has no key twice and finds what
was inserted last, and the cache of an operator saves and finds everything; insertions and updates do
what they are to do exactly where there is room for them. -/
theorem tilingCache_serves {κ ν : Type} [DecidableEq κ] {capacity : ℕ} [NeZero capacity] {hash : κ → ℕ}
    {m : FixedSizeHashMap κ ν capacity} {ops : List (Op κ ν)} {kInputShapeSize : ℕ}
    {c : TilingCacheContext kInputShapeSize ν} {calls : List (CacheOp kInputShapeSize ν)}
    (hm : m.Initial) (hc : c.initialized = false) :
    (∃ history m', runOps hash m [] ops = some (history, m') ∧ m'.size = m'.occupied ∧
        (∀ i j, (m'.buckets i).state = .kOccupied → (m'.buckets j).state = .kOccupied →
          (m'.buckets i).key = (m'.buckets j).key → i = j) ∧
        ∀ key, m'.find hash key = some (lastInserted key history)) ∧
      (AtInserts hash (InsertServes hash) m ops ↔ AtInserts hash (fun m key _ => m.InsertRoom key) m ops) ∧
      (∃ history c', runCacheOps c [] calls = some (history, c') ∧
        ∀ key data, c'.lookup key = some data → lastSaved key history = some data) ∧
      AtSaves SaveSucceeds c calls ∧
      (AtSaves SaveUpdates c calls ↔ AtSaves (fun c key _ => SaveRoom c key) c calls) := by
  have hholds := holds_of_new hc
  have hempty : FromHistory (fun _ => none) ([] : List (CacheEvent kInputShapeSize ν)) := by
    intro k v hk
    cases hk
  have hcoherent : Coherent hash m fun k => lastInserted k [] := hm.coherent
  rcases runOps_spec hcoherent ops with ⟨history, m', hrun, hcoh⟩
  rcases runCacheOps_spec hholds hempty calls with ⟨events, c', f', hcalls, hc', hf'⟩
  refine ⟨⟨history, m', hrun, hcoh.size, fun i j hi hj hkey => ?_, hcoh.find⟩, atInserts_iff hm.coherent ops,
    ⟨events, c', hcalls, fun key data hfound => ?_⟩, atSaves_of_holds hholds hempty calls⟩
  · exact hcoh.searchable.unique i j _ (keyAt_eq_some.mpr ⟨hi, rfl⟩) (keyAt_eq_some.mpr ⟨hj, hkey.symm⟩)
  · rw [lookup_eq hc'] at hfound
    exact hf' key data hfound

theorem tilingCache_serves_oneBucket :
    ∃ history m', runOps (fun _ : ℕ => 0) (⟨fun _ => ⟨0, 0, .kEmpty⟩, 0⟩ : FixedSizeHashMap ℕ ℕ 1) []
        [.insert 0 1, .erase 0] = some (history, m') ∧ m'.size = m'.occupied ∧
      (∀ i j, (m'.buckets i).state = .kOccupied → (m'.buckets j).state = .kOccupied →
        (m'.buckets i).key = (m'.buckets j).key → i = j) ∧
      ∀ key, m'.find (fun _ => 0) key = some (lastInserted key history) :=
  (@tilingCache_serves ℕ ℕ _ 1 _ (fun _ => 0) ⟨fun _ => ⟨0, 0, .kEmpty⟩, 0⟩ [.insert 0 1, .erase 0] 0
    ⟨none, false, fun _ => 0, 0, ⟨fun _ => ⟨#v[], 0, .kEmpty⟩, 0⟩⟩ [] ⟨fun _ => rfl, rfl⟩ rfl).1

/-- A map of one bucket refuses to update its key, and a key that is new after the first was erased. -/
theorem not_tilingCache_serves :
    ∃ m : FixedSizeHashMap ℕ ℕ 1, m.Initial ∧
      ¬ AtInserts (fun _ => 0) (InsertServes fun _ => 0) m [.insert 0 1, .insert 0 2] ∧
      ¬ AtInserts (fun _ => 0) (InsertServes fun _ => 0) m [.insert 0 1, .erase 0, .insert 1 1] := by
  refine ⟨⟨fun _ => ⟨0, 0, .kEmpty⟩, 0⟩, ⟨fun _ => rfl, rfl⟩, fun h => ?_, fun h => ?_⟩
  · have hsecond := ((h.2 _ _ rfl).1 0 2 rfl).1 ⟨0, rfl, rfl⟩
    rcases hsecond with ⟨_, hrun, -⟩
    cases hrun
  · have hthird := (((h.2 _ _ rfl).2 _ _ rfl).1 1 1 rfl).2
    have hload : LoadReached 1 0 := hthird (by
      rintro ⟨i, hi, -⟩
      revert i
      decide) ⟨_, rfl⟩
    exact absurd hload (by decide)

end GraphAutofusion.Att.TilingCache
