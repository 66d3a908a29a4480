import CachePolicies.MQInvariants

/-!
# Runs of the MQ manager

The first result says exactly which sequences of calls never throw. The second says
what the maps hold as long as no head of `qOut` has to be dropped for another key.
-/

namespace CachePolicies.MQCacheManager

open MultipleQueueCacheManager MQQueue

variable {α : Type} [DecidableEq α] {clock : ℤ → ℤ} {config : MQConfiguration} {k x : α} {i : ℕ}
  {m m' : MQCacheManager α} {history : List (Record (MQCacheManager α) (Call α) (List (Event α)))}
  {events : List (Event α)}

/-! ## Sizes, and calls that return -/

/-- The sizes which the manager keeps to. -/
structure Bounded (config : MQConfiguration) (m : MQCacheManager α) : Prop where
  held_le : cacheSize config m ≤ config.maxNodes.val
  ghosts_le : (m.queues qOut).length ≤ config.maxNodes.val / 2

theorem Sound.perform (hc : 1 ≤ config.maxNodes.val) (hn : 1 ≤ queuesSize config)
    (h : Sound config m) {call : Call α} (hfits : Fits config m call) :
    ∃ m' events, (manager config).perform m call = .ok (m', events) ∧ Sound config m' := by
  cases call with
  | visit k =>
    obtain ⟨m', events, hok, hsound, -⟩ :=
      h.visit recorder_responds (.inl rfl) hc hn hfits []
    exact ⟨m', events, hok, hsound⟩
  | remove k => exact ⟨_, _, rfl, h.remove k⟩
  | clear => exact ⟨_, _, rfl, sound_initial hc⟩

/-- A call that returns has met its condition. -/
theorem Sound.fits (hc : 1 ≤ config.maxNodes.val) (hn : 1 ≤ queuesSize config) (h : Sound config m)
    {call : Call α} (hok : (manager config).perform m call = .ok (m', events)) :
    Fits config m call := by
  cases call with
  | visit k =>
    by_contra hfits
    obtain ⟨e, herror⟩ : ∃ e, (manager config).perform m (.visit k) = .error e :=
      h.visit_error hc hn hfits []
    cases herror.symm.trans hok
  | remove k => trivial
  | clear => trivial

theorem sound_of_reaches (hc : 1 ≤ config.maxNodes.val) (hn : 1 ≤ queuesSize config)
    (hrun : (manager config).Reaches history m) : Sound config m := by
  induction hrun with
  | start => exact sound_initial hc
  | call run hok ih =>
    obtain ⟨m₁, events₁, hok₁, hm₁⟩ := ih.perform hc hn (ih.fits hc hn hok)
    cases hok₁.symm.trans hok
    exact hm₁

/-- A sequence of calls never throws and keeps the sizes exactly when no visit finds a full
cache of one key, and no visit count wraps round to zero. -/
theorem safe_throughout_iff_fits (config : MQConfiguration) (hc : 1 ≤ config.maxNodes.val)
    (hn : 1 ≤ config.queueCount.val) (calls : List (Call α)) :
    Throughout (manager config).perform (Bounded config) (manager config).initial calls ↔
      Admitted (manager config).perform (Fits config) (manager config).initial calls := by
  have hsize := one_le_queuesSize hn
  refine throughout_iff_admitted (fun m (h : Sound config m) => ?_) ?_ ?_ (sound_initial hc)
  · refine ⟨?_, ?_⟩
    · rw [h.cacheSize_eq]
      exact h.held_le
    · rw [← qOutMax_eq hc]
      exact h.ghosts_le
  · intro m call h hfits
    exact h.perform hc hsize hfits
  · intro m call m' events h hok _
    exact h.fits hc hsize hok

/-- The configuration of the small runs on fixed keys. -/
def twoNodes : MQConfiguration := ⟨2, 2, 2⟩

theorem safe_throughout_pair :
    Throughout (manager twoNodes).perform (Bounded twoNodes) initial
      [.visit 1, .visit 1, .visit 2, .visit 3, .visit 2, .visit 4, .remove 4, .clear, .visit 5] :=
  (safe_throughout_iff_fits twoNodes (by decide) (by decide) _).mpr (by decide)

/-- With `maxNodes = 1`, a second key makes `freeUpSpace` ask the empty `qOut` for a head. -/
theorem not_safe_throughout :
    ¬Throughout (manager ⟨1, 2, 2⟩).perform
      (Bounded ⟨1, 2, 2⟩) initial [.visit 1, .visit 2] := by
  intro h
  obtain ⟨r, hr⟩ := h.replayFrom []
  have herror : replay (manager ⟨1, 2, 2⟩).perform initial
      [.visit 1, .visit 2] = .error .noSuchElement := rfl
  cases herror.symm.trans hr

/-! ## What the maps hold -/

/-- The keys with metadata are the located ones. -/
def Covered (m : MQCacheManager α) : Prop :=
  ∀ k, (m.own.metadata.lookup k).isSome = (m.currentLocations.lookup k).isSome

theorem lookup_getMetadata : ((getMetadata k m).2.own.metadata.lookup x).isSome =
    (decide (x = k) || (m.own.metadata.lookup x).isSome) := by
  rw [getMetadata]
  split
  · next data hk =>
    by_cases hx : x = k
    · subst hx
      simp [hk]
    · simp [hx]
  · by_cases hx : x = k <;> simp [putMetadata, hx]

theorem lookup_setMetadata (data : MQMetadata) :
    ((setMetadata k data m).own.metadata.lookup x).isSome = (m.own.metadata.lookup x).isSome := by
  rw [setMetadata]
  split
  · next hk =>
    by_cases hx : x = k
    · subst hx
      simp [putMetadata, hk]
    · simp [putMetadata, hx]
  · rfl

/-- The maps agree with each other and with the queues. -/
structure Exact (m : MQCacheManager α) : Prop where
  located : m.Located
  covered : Covered m

theorem Exact.congr (h : Exact m) (hqueues : m'.queues = m.queues)
    (hlocations : m'.currentLocations = m.currentLocations)
    (hmetadata : ∀ x, (m'.own.metadata.lookup x).isSome = (m.own.metadata.lookup x).isSome) :
    Exact m' := by
  refine ⟨?_, ?_⟩
  · intro k q
    rw [hqueues, hlocations]
    exact h.located k q
  · intro x
    rw [hmetadata, hlocations]
    exact h.covered x

/-- A located key has its metadata already. -/
theorem Exact.getMetadata (h : Exact m) {q : MQQueue} (hk : m.currentLocations.lookup k = some q) :
    Exact (getMetadata k m).2 := by
  refine h.congr queues_getMetadata currentLocations_getMetadata fun x => ?_
  rw [lookup_getMetadata, h.covered x]
  by_cases hx : x = k
  · subst hx
    simp [hk]
  · simp [hx]

theorem Exact.setMetadata (h : Exact m) (k : α) (data : MQMetadata) : Exact (setMetadata k data m) :=
  h.congr queues_setMetadata currentLocations_setMetadata fun _ => lookup_setMetadata data

theorem Exact.relocate (h : Exact m) {s : MQQueue} (hk : m.currentLocations.lookup k = some s)
    (d : MQQueue) : Exact (m.relocate k s d) := by
  refine ⟨h.located.relocate (h.located.only hk), ?_⟩
  intro x
  rw [own_relocate, lookup_relocate, h.covered x]
  by_cases hx : x = k
  · subst hx
    simp [hk]
  · simp [hx]

theorem Exact.demotions (h : Exact m) : Exact (demotions clock config m) := by
  refine demotions_induction (h.congr rfl rfl fun _ => rfl) ?_
  intro i m hi hn hm
  rw [demote]
  split
  · exact hm
  · next x hpeek =>
    have hx := hm.located.filed (List.mem_of_head? hpeek : x ∈ m.queues (level i))
    split
    · refine (Exact.relocate (hm.getMetadata hx) ?_ _).setMetadata x _
      rw [currentLocations_getMetadata, hx]
    · exact hm.getMetadata hx

theorem Exact.enqueue (h : Exact m) (hk : m.currentLocations.lookup k = none) (d : MQQueue) :
    Exact ((noted clock config k m).enqueue k d) := by
  have hqueues : (noted clock config k m).queues = m.queues := by simp [noted]
  have hlocations : (noted clock config k m).currentLocations = m.currentLocations := by simp [noted]
  have hlocated : (noted clock config k m).Located := by
    intro x q
    rw [hqueues, hlocations]
    exact h.located x q
  refine ⟨hlocated.enqueue (by rw [hlocations, hk]), ?_⟩
  intro x
  rw [own_enqueue, lookup_enqueue, hlocations, noted, lookup_setMetadata, lookup_getMetadata,
    h.covered x]
  by_cases hx : x = k <;> simp [hx]

theorem Exact.forget (h : Exact m) {s : MQQueue} (hk : m.currentLocations.lookup k = some s) :
    Exact (forget subclass k s m) := by
  refine ⟨h.located.forget (h.located.only hk), ?_⟩
  intro x
  rw [own_forget, lookup_forget]
  show ((Finmap.erase k m.own.metadata).lookup x).isSome = _
  rw [HashMap.lookup_erase_eq]
  by_cases hx : x = k
  · simp [hx]
  · simp [hx, h.covered x]

/-- No head of `qOut` has to be dropped: the visited key is resident, or the cache has
room for it, or `qOut` has room for the key that makes way. -/
def KeepsGhosts (config : MQConfiguration) (m : MQCacheManager α) : Call α → Prop
  | .visit k => k ∈ resident config m ∨ cacheSize config m < config.maxNodes.val ∨
      (m.queues qOut).length < qOutMax config
  | _ => True

instance (config : MQConfiguration) (m : MQCacheManager α) :
    (call : Call α) → Decidable (KeepsGhosts config m call)
  | .visit _ => inferInstanceAs (Decidable (_ ∨ _ ∨ _))
  | .remove _ => .isTrue trivial
  | .clear => .isTrue trivial

section Visits

variable {L : Type} {settle : α → MQCacheManager α → MQCacheManager α} {onEvict onLoad : α → L → L}
  {l l' : L}

theorem FreedUp.exact (hs : Settles subclass settle)
    (hf : FreedUp config settle onEvict m l m' l')
    (hkeeps : cacheSize config m < config.maxNodes.val ∨ (m.queues qOut).length < qOutMax config)
    (h : Exact m) : Exact m' := by
  cases hf with
  | room => exact h
  | @pushed i x xs m₁ hfull hfirst hx htrimmed =>
    have hmem : x ∈ m.queues (level i) := LinkedHashSet.mem_of_toList_cons hx
    cases htrimmed with
    | kept =>
      have hmoved : (m.relocate x (level i) qOut).currentLocations.lookup x = some qOut := by simp
      have hexact := h.relocate (h.located.filed hmem) qOut
      rcases hs.eq_or hmoved with he | he
      · rw [he]
        exact hexact
      · rw [he]
        exact hexact.forget hmoved
    | dropped hsize =>
      rcases hkeeps with hkeeps | hkeeps
      · exact absurd hkeeps (not_lt.mpr hfull)
      · exact absurd hkeeps (not_lt.mpr hsize)

theorem Visited.exact (hs : Settles subclass settle) (hsound : Sound config m)
    (hv : Visited clock config settle onEvict onLoad k m l m' l')
    (hkeeps : KeepsGhosts config m (.visit k)) (h : Exact m) : Exact m' := by
  have hlogged {q : MQQueue} (hk : m.currentLocations.lookup k = some q) : Exact (logged k m) :=
    (h.getMetadata hk).setMetadata k _
  have hghost (hnot : k ∉ resident config m) :
      cacheSize config m < config.maxNodes.val ∨ (m.queues qOut).length < qOutMax config := by
    rcases hkeeps with hres | hkeeps
    · exact absurd hres hnot
    · exact hkeeps
  have hnot (hk : ∀ i, m.currentLocations.lookup k ≠ some (level i)) : k ∉ resident config m := by
    rw [hsound.tidy.mem_resident_iff]
    rintro ⟨i, hi⟩
    exact hk i hi
  obtain ⟨hentered⟩ := hv
  apply Exact.demotions
  cases hentered with
  | @hit i j hk hj =>
    refine Exact.setMetadata (Exact.relocate (hlogged hk) ?_ _) k _
    rw [currentLocations_logged, hk]
  | @ghostHit j m₁ l₁ hk hfreed hj =>
    have hnotres := hnot (by simp [hk])
    have hafter := hfreed.after hs (hsound.logged k)
    have hexact := hfreed.exact hs (by
      rw [cacheSize_congr queues_logged, queues_logged]
      exact hghost hnotres) (hlogged hk)
    refine Exact.setMetadata (hexact.relocate ?_ _) k _
    rw [hafter.lookup k (by rwa [resident_congr queues_logged]), currentLocations_logged, hk]
  | @missed m₁ l₁ hk hfreed =>
    have hnotres := hnot (by simp [hk])
    have hafter := hfreed.after hs hsound
    have hexact := hfreed.exact hs (hghost hnotres) h
    exact hexact.enqueue (by rw [hafter.lookup k hnotres, hk]) _

end Visits

/-- The queues are disjoint, and both maps hold their keys and no others. -/
structure Tracked (config : MQConfiguration) (m : MQCacheManager α) : Prop where
  disjoint : ∀ q s, q ≠ s → List.Disjoint (m.queues q).toList (m.queues s).toList
  located : ∀ k q, m.currentLocations.lookup k = some q ↔ k ∈ m.queues q
  locations : m.currentLocations.keys = resident config m ∪ (m.queues qOut).toFinset
  metadata : m.own.metadata.keys = resident config m ∪ (m.queues qOut).toFinset
  locations_le : (m.currentLocations.keys.card : ℤ) ≤ config.maxNodes.val + config.maxNodes.val / 2
  metadata_le : (m.own.metadata.keys.card : ℤ) ≤ config.maxNodes.val + config.maxNodes.val / 2

theorem Exact.tracked (hc : 1 ≤ config.maxNodes.val) (hsound : Sound config m) (h : Exact m) :
    Tracked config m := by
  have hlocations : m.currentLocations.keys = resident config m ∪ (m.queues qOut).toFinset := by
    ext k
    rw [Finmap.mem_keys, ← Finmap.lookup_isSome, Option.isSome_iff_exists, Finset.mem_union,
      hsound.tidy.mem_resident, LinkedHashSet.mem_toFinset]
    constructor
    · rintro ⟨q, hq⟩
      have hmem := (h.located k q).mp hq
      cases q with
      | level i => exact .inl ⟨i, hmem⟩
      | qOut => exact .inr hmem
    · rintro (⟨i, hmem⟩ | hmem)
      · exact ⟨_, (h.located k _).mpr hmem⟩
      · exact ⟨_, (h.located k _).mpr hmem⟩
  have hmetadata : m.own.metadata.keys = m.currentLocations.keys := by
    ext k
    rw [Finmap.mem_keys, Finmap.mem_keys, ← Finmap.lookup_isSome, ← Finmap.lookup_isSome,
      h.covered k]
  have hcard := Finset.card_union_le (resident config m) (m.queues qOut).toFinset
  have hout := LinkedHashSet.card_toFinset (m.queues qOut)
  have hheld := hsound.held_le
  have hghosts := hsound.ghosts_le
  have hmax := qOutMax_eq hc
  rw [← hlocations] at hcard
  refine ⟨?_, h.located, hlocations, hmetadata.trans hlocations, by omega, ?_⟩
  · intro q s hne k hq hs
    exact hne (h.located.filed.eq_of_mem hq hs)
  · rw [hmetadata]
    omega

/-- A run in which no ghost is dropped for another key leaves both maps exact. -/
theorem tracked_of_reaches (config : MQConfiguration) (hc : 2 ≤ config.maxNodes.val)
    (hn : 2 ≤ config.queueCount.val)
    {history : List (Record (MQCacheManager α) (Call α) (List (Event α)))} {m : MQCacheManager α}
    (hrun : (manager config).Reaches history m) (hkeeps : Meets (KeepsGhosts config) history) :
    Tracked config m := by
  have hc' : 1 ≤ config.maxNodes.val := by omega
  have hsize : 1 ≤ queuesSize config := one_le_queuesSize (by omega)
  have hinitial : Exact (initial (α := α)) := ⟨located_empty, fun k => by simp [initial]⟩
  have hexact : Exact m := by
    induction hrun with
    | start => exact hinitial
    | @call history m m' call events run hok ih =>
      obtain ⟨hkeep, hrest⟩ := meets_cons.mp hkeeps
      have hsound := sound_of_reaches hc' hsize run
      have hexact := ih hrest
      cases call with
      | visit k =>
        obtain ⟨m₂, l₂, hv⟩ : ∃ m₂ l₂,
            Visited int32 config (fun _ m => m) recordEviction recordLoad k m [] m₂ l₂ :=
          hsound.exists_visited hc' hsize (hsound.fits hc' hsize hok) []
        cases (hv.visit_eq recorder_responds hsize).symm.trans hok
        exact hv.exact (.inl rfl) hsound hkeep hexact
      | remove k =>
        cases hok
        rw [MultipleQueueCacheManager.remove]
        split
        · exact hexact
        · next q hk => exact hexact.forget hk
      | clear =>
        cases hok
        exact hinitial
  exact hexact.tracked hc' (sound_of_reaches hc' hsize hrun)

theorem tracked_of_reaches_ghostHit :
    ∃ history m, (manager (α := ℕ) twoNodes).Reaches history m ∧ history.length = 6 ∧
      Tracked twoNodes m := by
  have hrun : (manager (α := ℕ) twoNodes).Reaches _ _ :=
    run_of_replay [.visit 1, .visit 2, .visit 3, .remove 3, .visit 1, .visit 4] rfl
  exact ⟨_, _, hrun, rfl, tracked_of_reaches twoNodes (by decide) (by decide) hrun (by decide)⟩

/-- The fourth key drops the first one from `qOut`, which stays located there. -/
theorem not_tracked_of_reaches :
    ¬∀ history (m : MQCacheManager ℕ), (manager twoNodes).Reaches history m → Tracked twoNodes m := by
  intro h
  have hrun : (manager (α := ℕ) twoNodes).Reaches _ _ :=
    run_of_replay [.visit 1, .visit 2, .visit 3, .visit 4] rfl
  have hlocated := (h _ _ hrun).located 1 qOut
  exact absurd (hlocated.mp (by decide)) (by decide)

end CachePolicies.MQCacheManager
