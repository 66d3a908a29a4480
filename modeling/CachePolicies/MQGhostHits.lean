import CachePolicies.MQPlacements

/-!
# Hits of the MQ manager in `qOut`

A key in `qOut` keeps the count of its visits for the visit that brings it back. The room for it
is made first, though, and where the head of `qOut` has to make way for an evicted key, the key
visited may be that head itself.
-/

namespace CachePolicies.MQCacheManager

open MultipleQueueCacheManager MQQueue

variable {α L : Type} [DecidableEq α]

/-! ## What room costs in metadata -/

section Freeing

variable {config : MQConfiguration} {onEvict : α → L → L} {k : α} {m m' : MQCacheManager α} {l l' : L}

/-- Only the head of a full `qOut` loses its metadata. -/
theorem FreedUp.own_cases (h : FreedUp config (fun _ m => m) onEvict m l m' l') :
    m'.own = m.own ∨ ∃ y, (m.queues qOut).peek = some y ∧ cacheSize config m ≥ config.maxNodes.val ∧
      (m.queues qOut).length ≥ qOutMax config ∧ m'.own = afterRemove y m.own := by
  cases h with
  | room => exact .inl rfl
  | pushed hfull hfirst hx htrimmed =>
    cases htrimmed with
    | kept => exact .inl rfl
    | @dropped y ys hsize hy =>
      refine .inr ⟨y, ?_, hfull, hsize, rfl⟩
      rw [LinkedHashSet.peek, hy]
      rfl

theorem FreedUp.currentTime (h : FreedUp config (fun _ m => m) onEvict m l m' l') :
    m'.own.currentTime = m.own.currentTime := by
  rcases h.own_cases with hown | ⟨y, -, -, -, hown⟩
  · rw [hown]
  · rw [hown]
    rfl

/-- `freeUpSpace` has to drop `k` from `qOut`. -/
def Displaced (config : MQConfiguration) (k : α) (m : MQCacheManager α) : Prop :=
  (m.queues qOut).peek = some k ∧ cacheSize config m = config.maxNodes.val ∧
    (m.queues qOut).length = qOutMax config

instance (config : MQConfiguration) (k : α) (m : MQCacheManager α) :
    Decidable (Displaced config k m) :=
  inferInstanceAs (Decidable (_ ∧ _))

theorem FreedUp.lookup_metadata (hm : Sound config m) (hk : ¬Displaced config k m)
    (h : FreedUp config (fun _ m => m) onEvict m l m' l') :
    m'.own.metadata.lookup k = m.own.metadata.lookup k := by
  rcases h.own_cases with hown | ⟨y, hy, hfull, hsize, hown⟩
  · rw [hown]
  · have hne : k ≠ y := by
      rintro rfl
      have hheld := hm.held_le
      have hghosts := hm.ghosts_le
      have hcache := hm.cacheSize_eq
      exact hk ⟨hy, by omega, by omega⟩
    rw [hown]
    show (Finmap.erase y m.own.metadata).lookup k = _
    rw [HashMap.lookup_erase_eq, if_neg hne]

theorem FreedUp.lookup_displaced (hk : Displaced config k m)
    (h : FreedUp config (fun _ m => m) onEvict m l m' l') : m'.own.metadata.lookup k = none := by
  obtain ⟨hhead, hfull, hsize⟩ := hk
  cases h with
  | room hroom => omega
  | pushed _ _ _ htrimmed =>
    cases htrimmed with
    | kept hlt => omega
    | @dropped y ys _ hy =>
      rw [LinkedHashSet.peek, hy] at hhead
      cases hhead
      rw [own_relocate, lookup_dropHead, if_pos rfl]

end Freeing

/-! ## Values of type `int` -/

/-- The times and counts are values of type `int`. -/
structure Ints (m : MQCacheManager α) : Prop where
  time : IsInt m.own.currentTime
  metadata : ∀ k data, m.own.metadata.lookup k = some data →
    IsInt data.numberOfNodeVisits ∧ IsInt data.expiryTime

section Ints

variable {config : MQConfiguration} {k x : α} {data : MQMetadata} {m m' : MQCacheManager α}
  {onEvict onLoad : α → L → L} {l l' : L}

theorem Ints.congr (h : Ints m) (hown : m'.own = m.own) : Ints m' := ⟨hown ▸ h.time, hown ▸ h.metadata⟩

theorem isInt_fresh : IsInt (⟨0, 0⟩ : MQMetadata).numberOfNodeVisits ∧
    IsInt (⟨0, 0⟩ : MQMetadata).expiryTime := by decide

theorem Ints.getMetadata (h : Ints m) (k : α) :
    IsInt (getMetadata k m).1.numberOfNodeVisits ∧ IsInt (getMetadata k m).1.expiryTime := by
  rw [MQCacheManager.getMetadata]
  split
  · next data hk => exact h.metadata k data hk
  · exact isInt_fresh

theorem Ints.putMetadata (h : Ints m)
    (hdata : IsInt data.numberOfNodeVisits ∧ IsInt data.expiryTime) :
    Ints (putMetadata k data m) := by
  refine ⟨h.time, fun x data' hx => ?_⟩
  rw [lookup_putMetadata] at hx
  split at hx
  · cases hx
    exact hdata
  · exact h.metadata x data' hx

theorem Ints.setMetadata (h : Ints m)
    (hdata : IsInt data.numberOfNodeVisits ∧ IsInt data.expiryTime) :
    Ints (setMetadata k data m) := by
  rw [MQCacheManager.setMetadata]
  split
  · exact h.putMetadata hdata
  · exact h

theorem Ints.made (h : Ints m) (k : α) : Ints (MQCacheManager.getMetadata k m).2 := by
  rw [MQCacheManager.getMetadata]
  split
  · exact h
  · exact h.putMetadata isInt_fresh

theorem Ints.logged (h : Ints m) (k : α) : Ints (logged k m) :=
  (h.made k).setMetadata ⟨isInt_int32 _, (h.getMetadata k).2⟩

theorem Ints.afterRemove (h : Ints m) (hown : m'.own = afterRemove x m.own) : Ints m' := by
  refine ⟨?_, fun y data hy => ?_⟩
  · rw [hown]
    exact h.time
  · have hlookup : m'.own.metadata.lookup y = if y = x then none else m.own.metadata.lookup y := by
      rw [hown]
      exact HashMap.lookup_erase_eq m.own.metadata x y
    rw [hlookup] at hy
    split at hy
    · cases hy
    · exact h.metadata y data hy

theorem Ints.freedUp (h : Ints m) (hf : FreedUp config (fun _ m => m) onEvict m l m' l') :
    Ints m' := by
  rcases hf.own_cases with hown | ⟨y, -, -, -, hown⟩
  · exact h.congr hown
  · exact h.afterRemove hown

theorem Ints.entered (h : Ints m)
    (he : Entered int32 config (fun _ m => m) onEvict onLoad k m l m' l') : Ints m' := by
  have hcount := isInt_int32 ((MQCacheManager.getMetadata k m).1.numberOfNodeVisits + 1)
  have hmoved {m : MQCacheManager α} {s d : MQQueue} (hm : Ints m) : Ints (m.relocate k s d) :=
    hm.congr rfl
  cases he with
  | hit => exact (hmoved (h.logged k)).setMetadata ⟨hcount, isInt_int32 _⟩
  | ghostHit _ hfreed =>
    exact (hmoved ((h.logged k).freedUp hfreed)).setMetadata ⟨hcount, isInt_int32 _⟩
  | missed _ hfreed =>
    have hone : IsInt 1 := by decide
    have hm₁ := (h.freedUp hfreed).made k
    refine Ints.congr (hm₁.setMetadata ?_) (own_enqueue ..)
    exact ⟨hone, isInt_int32 _⟩

theorem Ints.demotions (h : Ints m) : Ints (demotions int32 config m) := by
  refine demotions_rounds (P := fun _ => Ints) ⟨isInt_int32 _, h.metadata⟩
    fun i m m' _ hm hd => ?_
  cases hd with
  | kept => exact hm
  | made => exact hm.putMetadata isInt_fresh
  | moved =>
    apply Ints.putMetadata (hm.congr (own_relocate ..))
    exact ⟨(hm.getMetadata _).1, isInt_int32 _⟩

theorem Ints.remove (h : Ints m) (k : α) :
    Ints (MultipleQueueCacheManager.remove subclass k m) := by
  rw [MultipleQueueCacheManager.remove]
  split
  · exact h
  · exact h.afterRemove rfl

theorem ints_initial : Ints (initial (α := α)) := by
  have hzero : IsInt 0 := by decide
  refine ⟨hzero, fun k data hk => ?_⟩
  cases hk

end Ints

/-! ## Reachable states -/

section Runs

variable {config : MQConfiguration} {k : α} {data : MQMetadata} {j : ℕ} {m m' : MQCacheManager α}
  {history : List (Record (MQCacheManager α) (Call α) (List (Event α)))} {events : List (Event α)}
  {onEvict onLoad : α → L → L} {l l' : L}

/-- A visit that returns enters its key and demotes heads. -/
theorem Sound.entered_of_visit (hc : 2 ≤ config.maxNodes.val) (hn : 1 ≤ queuesSize config)
    (h : Sound config m) (hok : (manager config).perform m (.visit k) = .ok (m', events)) :
    ∃ m₁, Entered int32 config (fun _ m => m) recordEviction recordLoad k m [] m₁ events ∧
      m' = demotions int32 config m₁ := by
  have hfits : Fits config m (.visit k) := h.fits (by omega) hn hok
  obtain ⟨m₁, l₁, hentered⟩ :
      ∃ m₁ l₁, Entered int32 config (fun _ m => m) recordEviction recordLoad k m [] m₁ l₁ :=
    h.exists_entered int32 (by omega) hn hfits []
  cases (hentered.visit_eq recorder_responds hn).symm.trans hok
  exact ⟨m₁, hentered, rfl⟩

theorem ints_of_reaches (hc : 2 ≤ config.maxNodes.val) (hn : 1 ≤ queuesSize config)
    (hrun : (manager config).Reaches history m) : Ints m := by
  induction hrun with
  | start => exact ints_initial
  | @call history m m' call events run hok ih =>
    cases call with
    | visit k =>
      have hsound := sound_of_reaches (by omega) hn run
      obtain ⟨m₁, hentered, rfl⟩ := hsound.entered_of_visit hc hn hok
      exact (ih.entered hentered).demotions
    | remove k =>
      cases hok
      exact ih.remove k
    | clear =>
      cases hok
      exact ints_initial

/-! ## One hit -/

/-- A key whose time has not expired is left alone by the demotions. -/
theorem demotions_unexpired (clock : ℤ → ℤ) (config : MQConfiguration)
    (hk : m.own.metadata.lookup k = some data)
    (hmem : k ∈ m.queues (level j)) (hdue : clock (m.own.currentTime + 1) ≤ data.expiryTime) :
    (demotions clock config m).own.metadata.lookup k = some data ∧
      k ∈ (demotions clock config m).queues (level j) := by
  have hrounds : (demotions clock config m).own.metadata.lookup k = some data ∧
      k ∈ (demotions clock config m).queues (level j) ∧
        (demotions clock config m).own.currentTime ≤ data.expiryTime := by
    refine demotions_rounds (P := fun _ m => m.own.metadata.lookup k = some data ∧
      k ∈ m.queues (level j) ∧ m.own.currentTime ≤ data.expiryTime) ⟨hk, hmem, hdue⟩ ?_
    rintro i m m' hi ⟨hk, hmem, hdue⟩ hd
    cases hd with
    | kept => exact ⟨hk, hmem, hdue⟩
    | @made x hx hnone =>
      have hne : k ≠ x := by
        rintro rfl
        cases hk.symm.trans hnone
      exact ⟨by rw [lookup_putMetadata, if_neg hne, hk], hmem, hdue⟩
    | @moved x xs hx hexpired =>
      have hne : k ≠ x := by
        rintro rfl
        rw [getMetadata_of_some hk, MQMetadata.isExpired, decide_eq_true_iff] at hexpired
        exact absurd hexpired (not_lt.mpr hdue)
      exact ⟨by rw [lookup_place, if_neg hne, hk],
        mem_relocate.mpr (.inl ⟨hmem, fun _ => hne⟩), hdue⟩
  exact ⟨hrounds.1, hrounds.2.1⟩

theorem demotions_placed (clock : ℤ → ℤ) (config : MQConfiguration) (k : α) (s : MQQueue) (j : ℕ)
    (data : MQMetadata) (m : MQCacheManager α)
    (hdue : clock (m.own.currentTime + 1) ≤ data.expiryTime) :
    (demotions clock config (place k s j data m)).own.metadata.lookup k = some data ∧
      k ∈ (demotions clock config (place k s j data m)).queues (level j) := by
  refine demotions_unexpired clock config ?_ (mem_relocate.mpr (.inr ⟨rfl, rfl⟩)) hdue
  rw [lookup_place, if_pos rfl]

/-- Metadata that has been lost comes back without a visit counted. -/
theorem demotions_lost (clock : ℤ → ℤ) (config : MQConfiguration)
    (hk : m.own.metadata.lookup k = none) :
    ∀ data, (demotions clock config m).own.metadata.lookup k = some data →
      data.numberOfNodeVisits = 0 := by
  refine demotions_rounds (P := fun _ m => ∀ data, m.own.metadata.lookup k = some data →
    data.numberOfNodeVisits = 0) ?_ ?_
  · intro data hdata
    cases hk.symm.trans hdata
  · intro i m m' hi hm hd data hdata
    cases hd with
    | kept => exact hm data hdata
    | made =>
      rw [lookup_putMetadata] at hdata
      split at hdata
      · cases hdata
        rfl
      · exact hm data hdata
    | @moved x =>
      rw [lookup_place] at hdata
      split at hdata
      · next he =>
        subst he
        cases hdata
        show (getMetadata k m).1.numberOfNodeVisits = 0
        rw [getMetadata]
        split
        · next data hsome => exact hm data hsome
        · rfl
      · exact hm data hdata

/-- What the hit of a key with `n` recorded visits leaves, the queue being the logarithm of
`n + 1`, as far as there are queues. -/
structure Recounted (config : MQConfiguration) (k : α) (n currentTime : ℤ) (m : MQCacheManager α) :
    Prop where
  metadata : m.own.metadata.lookup k = some ⟨n + 1, currentTime + config.lifetime.val⟩
  placed : ∃ j : ℕ, (2 : ℤ) ^ j ≤ n + 1 ∧ n + 1 < 2 ^ (j + 1) ∧
    k ∈ m.queues (level (min j (queuesSize config - 1)))

/-- What the hit of a key with `n` recorded visits needs. -/
structure KeepsCount (config : MQConfiguration) (k : α) (n : ℤ) (m : MQCacheManager α) : Prop where
  stays : ¬Displaced config k m
  counted : 0 ≤ n ∧ n < 2147483647
  dated : IsInt (m.own.currentTime + config.lifetime.val)

theorem log_bounds {n : ℤ} (hn : 0 < n) :
    (2 : ℤ) ^ Nat.log 2 n.toNat ≤ n ∧ n < 2 ^ (Nat.log 2 n.toNat + 1) := by
  have hle : ((2 ^ Nat.log 2 n.toNat : ℕ) : ℤ) ≤ n.toNat :=
    Int.ofNat_le.mpr (Nat.pow_log_le_self 2 (by omega))
  have hlt : (n.toNat : ℤ) < ((2 ^ (Nat.log 2 n.toNat + 1) : ℕ) : ℤ) :=
    Int.ofNat_lt.mpr (Nat.lt_pow_succ_log_self (by omega) n.toNat)
  push_cast at hle hlt
  omega

theorem getDesiredQueue_of_pos (hn : 1 ≤ queuesSize config) (hpos : 0 < data.numberOfNodeVisits) :
    getDesiredQueue config data =
      .ok (level (min (Nat.log 2 data.numberOfNodeVisits.toNat) (queuesSize config - 1))) := by
  have hnumber : getQueueNumber config data =
      (min (Nat.log 2 data.numberOfNodeVisits.toNat) (queuesSize config - 1) : ℕ) := by
    rw [getQueueNumber_eq data hn, logToBase2, if_pos hpos]
    omega
  rw [getDesiredQueue, hnumber, if_pos (by omega), Int.toNat_natCast]

theorem loggedData_of_some (hk : m.own.metadata.lookup k = some data) :
    loggedData k m = data.logVisit ∧ logged k m = putMetadata k data.logVisit m := by
  rw [loggedData, logged, getMetadata_of_some hk, setMetadata_of_some hk]
  exact ⟨rfl, rfl⟩

omit [DecidableEq α] in
theorem Displaced.congr (h : Displaced config k m) (hqueues : m'.queues = m.queues) :
    Displaced config k m' := by
  obtain ⟨hhead, hfull, hsize⟩ := h
  refine ⟨?_, ?_, ?_⟩
  · rw [hqueues, hhead]
  · rw [cacheSize_congr hqueues, hfull]
  · rw [hqueues, hsize]

theorem logged_eq (k : α) (m : MQCacheManager α) :
    logged k m = putMetadata k (loggedData k m) m := by
  rw [loggedData, logged, getMetadata]
  split
  · next data hk => exact setMetadata_of_some hk
  · exact setMetadata_putMetadata _

theorem lookup_logged (k : α) (m : MQCacheManager α) :
    (logged k m).own.metadata.lookup k = some (loggedData k m) := by
  rw [logged_eq, lookup_putMetadata, if_pos rfl]

/-- A visit that is counted before room is made stays counted, but for a displaced key. -/
theorem FreedUp.lookup_logged (hsound : Sound config m) (hk : ¬Displaced config k m)
    (h : FreedUp config (fun _ m => m) onEvict (logged k m) l m' l') :
    m'.own.metadata.lookup k = some (loggedData k m) := by
  have hstays : ¬Displaced config k (logged k m) :=
    fun hdisplaced => hk (hdisplaced.congr queues_logged.symm)
  rw [h.lookup_metadata (hsound.logged k) hstays]
  exact MQCacheManager.lookup_logged k m

omit [DecidableEq α] in
theorem KeepsCount.logVisit (h : KeepsCount config k data.numberOfNodeVisits m) :
    data.logVisit.numberOfNodeVisits = data.numberOfNodeVisits + 1 := by
  obtain ⟨hpos, hlt⟩ := h.counted
  exact int32_of_isInt ⟨by omega, by omega⟩

omit [DecidableEq α] in
theorem KeepsCount.markAsModified (h : KeepsCount config k data.numberOfNodeVisits m) :
    MQMetadata.markAsModified int32 config m.own.currentTime data.logVisit =
      ⟨data.numberOfNodeVisits + 1, m.own.currentTime + config.lifetime.val⟩ := by
  show MQMetadata.mk data.logVisit.numberOfNodeVisits
    (int32 (m.own.currentTime + config.lifetime.val)) = _
  rw [h.logVisit, int32_of_isInt h.dated]

/-- A key that keeps its metadata joins its level with them, and stays there. -/
theorem KeepsCount.recounted (hc : 2 ≤ config.maxNodes.val) (hn : 1 ≤ queuesSize config)
    (hl : 2 ≤ config.lifetime.val) (hsound : Sound config m) (hints : Ints m)
    (hk : k ∈ m.queues qOut) (hdata : m.own.metadata.lookup k = some data)
    (h : KeepsCount config k data.numberOfNodeVisits m) :
    ∃ m' events, (manager config).perform m (.visit k) = .ok (m', events) ∧
      Recounted config k data.numberOfNodeVisits m.own.currentTime m' := by
  obtain ⟨hlogged, hlog⟩ := loggedData_of_some hdata
  obtain ⟨hpos, hlt⟩ := h.counted
  have hcount := h.logVisit
  have hlocation := hsound.tidy.filed hk
  have hcounts : Counts k m := by
    rw [Counts, hlogged, hcount]
    omega
  obtain ⟨m₁, events, hentered⟩ :
      ∃ m₁ l₁, Entered int32 config (fun _ m => m) recordEviction recordLoad k m [] m₁ l₁ :=
    hsound.exists_entered int32 (by omega) hn (fits_of_counts hc fun _ => hcounts) []
  refine ⟨_, events, hentered.visit_eq recorder_responds hn, ?_⟩
  cases hentered with
  | hit hi => cases hlocation.symm.trans hi
  | missed hi => cases hlocation.symm.trans hi
  | @ghostHit j m₂ l₂ hi hfreed hj =>
    have hkept := hfreed.lookup_logged hsound h.stays
    have htime := hfreed.currentTime
    rw [hlogged] at hkept
    rw [hlog] at htime
    have hcounted : 0 < data.logVisit.numberOfNodeVisits := by omega
    have hlevel := getDesiredQueue_of_pos hn hcounted
    obtain ⟨hle, hgt⟩ := log_bounds hcounted
    rw [hlogged] at hj ⊢
    cases hlevel.symm.trans hj
    have hmarked : MQMetadata.markAsModified int32 config m₂.own.currentTime data.logVisit =
        ⟨data.numberOfNodeVisits + 1, m.own.currentTime + config.lifetime.val⟩ := by
      rw [htime]
      exact h.markAsModified
    rw [modified, own_relocate, hmarked, setMetadata_of_some (m := m₂.relocate k qOut _) hkept]
    have hdue : int32 (m₂.own.currentTime + 1) ≤ m.own.currentTime + config.lifetime.val := by
      have hint := hints.time
      have hdated := h.dated
      unfold IsInt at hint hdated
      rw [htime]
      show int32 (m.own.currentTime + 1) ≤ _
      rw [int32_of_isInt ⟨by omega, by omega⟩]
      omega
    obtain ⟨hmetadata, hmem⟩ := demotions_placed int32 config k qOut
      (min (Nat.log 2 data.logVisit.numberOfNodeVisits.toNat) (queuesSize config - 1))
      ⟨data.numberOfNodeVisits + 1, m.own.currentTime + config.lifetime.val⟩ m₂ hdue
    refine ⟨hmetadata, _, ?_, ?_, hmem⟩
    · rw [← hcount]
      exact hle
    · rw [← hcount]
      exact hgt

/-- A hit that keeps the count has lost no metadata and computed no value beyond `int`. -/
theorem Recounted.keepsCount (hc : 2 ≤ config.maxNodes.val) (hn : 1 ≤ queuesSize config)
    (hsound : Sound config m) (hints : Ints m') (hk : k ∈ m.queues qOut)
    (hok : (manager config).perform m (.visit k) = .ok (m', events)) {n : ℤ}
    (h : Recounted config k n m.own.currentTime m') : KeepsCount config k n m := by
  obtain ⟨hcount, hdated⟩ := hints.metadata k _ h.metadata
  obtain ⟨i, hle, -, -⟩ := h.placed
  have hpos : (0 : ℤ) < 2 ^ i := Int.pow_pos (by decide)
  refine ⟨fun hdisplaced => ?_, ?_, hdated⟩
  · obtain ⟨m₁, hentered, rfl⟩ := hsound.entered_of_visit hc hn hok
    have hlocation := hsound.tidy.filed hk
    cases hentered with
    | hit hi => cases hlocation.symm.trans hi
    | missed hi => cases hlocation.symm.trans hi
    | @ghostHit j m₂ l₂ hi hfreed hj =>
      have hlost := hfreed.lookup_displaced (hdisplaced.congr queues_logged)
      have hgone : (modified int32 config k (loggedData k m)
          (m₂.relocate k qOut (level j))).own.metadata.lookup k = none := by
        rw [modified, setMetadata, own_relocate, hlost]
        exact hlost
      have hzero : n + 1 = 0 := demotions_lost int32 config hgone _ h.metadata
      omega
  · unfold IsInt at hcount
    show 0 ≤ n ∧ n < 2147483647
    constructor
    · omega
    · have hmax : n + 1 ≤ 2147483647 := hcount.2
      omega

/-- A hit in `qOut` counts on exactly when `freeUpSpace` does not drop the key itself and
neither the count nor the expiry time overflows. -/
theorem recounted_iff_keepsCount (config : MQConfiguration) (hc : 2 ≤ config.maxNodes.val)
    (hn : 2 ≤ config.queueCount.val) (hl : 2 ≤ config.lifetime.val)
    {history : List (Record (MQCacheManager α) (Call α) (List (Event α)))} {m : MQCacheManager α}
    (hrun : (manager config).Reaches history m) {k : α} (hk : k ∈ m.queues qOut) {data : MQMetadata}
    (hdata : m.own.metadata.lookup k = some data) :
    (∃ m' events, (manager config).perform m (.visit k) = .ok (m', events) ∧
      Recounted config k data.numberOfNodeVisits m.own.currentTime m') ↔
    KeepsCount config k data.numberOfNodeVisits m := by
  have hsize : 1 ≤ queuesSize config := one_le_queuesSize (by omega)
  have hsound := sound_of_reaches (by omega) hsize hrun
  constructor
  · rintro ⟨m', events, hok, hrecounted⟩
    exact hrecounted.keepsCount hc hsize hsound (ints_of_reaches hc hsize (hrun.call hok)) hk hok
  · intro h
    exact h.recounted hc hsize hl hsound (ints_of_reaches hc hsize hrun) hk hdata

/-- In a cache of four keys the first key to leave comes back at its second visit. -/
theorem recounted_iff_keepsCount_fourNodes :
    ∃ history m, (manager (α := ℕ) ⟨4, 2, 2⟩).Reaches history m ∧
      ∃ m' events, (manager ⟨4, 2, 2⟩).perform m (.visit 1) = .ok (m', events) ∧
        Recounted ⟨4, 2, 2⟩ 1 1 m.own.currentTime m' := by
  have hrun : (manager (α := ℕ) ⟨4, 2, 2⟩).Reaches _ _ :=
    run_of_replay [.visit 1, .visit 2, .visit 3, .visit 4, .visit 5] rfl
  refine ⟨_, _, hrun, ?_⟩
  exact (recounted_iff_keepsCount ⟨4, 2, 2⟩ (by decide) (by decide) (by decide) hrun
    (k := 1) (by decide) (show _ = some ⟨1, 2⟩ by decide)).mpr
      ⟨by decide, by decide, by decide⟩

/-- The key visited is the head of a full `qOut` and loses its metadata to the key evicted
for it. -/
theorem not_recounted_twoNodes :
    ∃ history m, replay (manager (α := ℕ) twoNodes).perform initial
        [.visit 1, .visit 2, .visit 3] = .ok (history, m) ∧
      1 ∈ m.queues qOut ∧ m.own.metadata.lookup 1 = some ⟨1, 2⟩ ∧
      ¬∃ m' events, (manager twoNodes).perform m (.visit 1) = .ok (m', events) ∧
        Recounted twoNodes 1 1 m.own.currentTime m' := by
  refine ⟨_, _, rfl, by decide, by decide, ?_⟩
  rintro ⟨m', events, hok, hrecounted⟩
  cases hok
  exact absurd hrecounted.metadata (by decide)

end Runs

end CachePolicies.MQCacheManager
