import CachePolicies.MQVisits
import CachePolicies.QueueGroups

/-!
# The invariant of the MQ manager

A key dropped from `qOut` stays in `currentLocations`, so the locations are not exact:
`Tidy` lets a located key be missing, but from `qOut` only. Under it the size of the
cache is the number of resident keys, and no visit fails unless its count wraps to
zero or a full cache has no `qOut` to evict into.
-/

namespace CachePolicies.MQCacheManager

open MultipleQueueCacheManager MQQueue

variable {α L : Type} [DecidableEq α]

/-- Queued keys are located in their queue, and located keys queued, unless they stray
from `qOut`. -/
structure Tidy (config : MQConfiguration) (m : MQCacheManager α) : Prop where
  filed : m.Filed
  placed : ∀ k i, m.currentLocations.lookup k = some (level i) → k ∈ m.queues (level i)
  levels : ∀ i, queuesSize config ≤ i → m.queues (level i) = ∅

section Tidy

variable {config : MQConfiguration} {settle : α → MQCacheManager α → MQCacheManager α} {k x : α}
  {i j : ℕ} {s d : MQQueue} {m m' : MQCacheManager α}

theorem Tidy.congr (h : Tidy config m) (hqueues : m'.queues = m.queues)
    (hlocations : m'.currentLocations = m.currentLocations) : Tidy config m' := by
  obtain ⟨hfiled, hplaced, hlevels⟩ := h
  refine ⟨?_, ?_, ?_⟩
  · intro k q
    rw [hqueues, hlocations]
    exact @hfiled k q
  · rw [hqueues, hlocations]
    exact hplaced
  · rw [hqueues]
    exact hlevels

theorem resident_congr (hqueues : m'.queues = m.queues) : resident config m' = resident config m := by
  rw [resident, resident, hqueues]

theorem Tidy.mem_resident (h : Tidy config m) :
    k ∈ resident config m ↔ ∃ i, k ∈ m.queues (level i) := by
  rw [MQCacheManager.mem_resident]
  constructor
  · rintro ⟨i, -, hmem⟩
    exact ⟨i, hmem⟩
  · rintro ⟨i, hmem⟩
    refine ⟨i, ?_, hmem⟩
    by_contra hi
    rw [h.levels i (not_lt.mp hi)] at hmem
    exact LinkedHashSet.notMem_empty k hmem

/-- The resident keys are those located in a level. -/
theorem Tidy.mem_resident_iff (h : Tidy config m) :
    k ∈ resident config m ↔ ∃ i, m.currentLocations.lookup k = some (level i) := by
  rw [h.mem_resident]
  constructor
  · rintro ⟨i, hmem⟩
    exact ⟨i, h.filed hmem⟩
  · rintro ⟨i, hk⟩
    exact ⟨i, h.placed k i hk⟩

theorem Tidy.level_lt (h : Tidy config m) (hmem : k ∈ m.queues (level i)) : i < queuesSize config := by
  by_contra hi
  rw [h.levels i (not_lt.mp hi)] at hmem
  exact LinkedHashSet.notMem_empty k hmem

theorem Tidy.enqueue (h : Tidy config m) (hk : m.currentLocations.lookup k = none)
    (hj : j < queuesSize config) : Tidy config (m.enqueue k (level j)) := by
  refine ⟨h.filed.enqueue fun q hq => absurd hq (h.filed.notMem_of_none hk q), ?_, ?_⟩
  · intro y i hy
    rw [lookup_enqueue] at hy
    rw [mem_enqueue]
    split at hy
    · next he =>
      cases hy
      exact .inr ⟨rfl, he⟩
    · exact .inl (h.placed y i hy)
  · intro i hi
    have hne : level i ≠ level j := by
      intro he
      cases he
      omega
    rw [queues_enqueue_of_ne hne, h.levels i hi]

theorem Tidy.relocate (h : Tidy config m) (hk : m.currentLocations.lookup k = some s)
    (hd : d = qOut ∨ ∃ j < queuesSize config, d = level j) : Tidy config (m.relocate k s d) := by
  refine ⟨h.filed.relocate (h.filed.only hk), ?_, ?_⟩
  · intro y i hy
    rw [lookup_relocate] at hy
    rw [mem_relocate]
    split at hy
    · next he =>
      cases hy
      exact .inr ⟨rfl, he⟩
    · next hne => exact .inl ⟨h.placed y i hy, fun _ => hne⟩
  · intro i hi
    have hne : level i ≠ d := by
      rintro rfl
      rcases hd with hd | ⟨j, hj, hd⟩
      · cases hd
      · cases hd
        omega
    by_cases hs : level i = s
    · rw [hs, queues_relocate_source (hs ▸ hne), ← hs, h.levels i hi]
      rfl
    · rw [queues_relocate_of_ne hs hne, h.levels i hi]

theorem Tidy.forget (h : Tidy config m) (hk : m.currentLocations.lookup k = some s) :
    Tidy config (forget subclass k s m) := by
  refine ⟨h.filed.forget (h.filed.only hk), ?_, ?_⟩
  · intro y i hy
    rw [lookup_forget] at hy
    rw [mem_forget]
    split at hy
    · cases hy
    · next hne => exact ⟨h.placed y i hy, fun _ => hne⟩
  · intro i hi
    by_cases hs : level i = s
    · rw [hs, queues_forget_self, ← hs, h.levels i hi]
      rfl
    · rw [queues_forget_of_ne hs, h.levels i hi]

theorem Tidy.remove (h : Tidy config m) (k : α) :
    Tidy config (MultipleQueueCacheManager.remove subclass k m) := by
  rw [MultipleQueueCacheManager.remove]
  split
  · exact h
  · next q hk => exact h.forget hk

/-- The head of `qOut` leaves its location behind. -/
theorem Tidy.dropHead (h : Tidy config m) (y : α) : Tidy config (dropHead y m) := by
  refine ⟨?_, ?_, ?_⟩
  · intro k q hk
    by_cases hq : q = qOut
    · subst hq
      have hmem : k ∈ (m.queues qOut).remove y := by
        simpa [MQCacheManager.dropHead, setQueue] using hk
      exact h.filed (LinkedHashSet.mem_remove.mp hmem).2
    · have hmem : k ∈ m.queues q := by
        simpa [MQCacheManager.dropHead, setQueue, hq] using hk
      exact h.filed hmem
  · intro k i hk
    rw [queues_dropHead]
    exact h.placed k i hk
  · intro i hi
    rw [queues_dropHead, h.levels i hi]

theorem Tidy.settled (hs : Settles subclass settle) (h : Tidy config m) (x : α) :
    Tidy config (settle x m) := by
  rcases hs with rfl | rfl
  · exact h
  · exact h.remove x

/-! ## Resident keys -/

theorem resident_eq_keysIn :
    resident config m = keysIn ((Finset.range (queuesSize config)).image level) m := by
  rw [keysIn, Finset.image_biUnion, resident]

theorem resident_enqueue (hj : j < queuesSize config) :
    resident config (m.enqueue k (level j)) = insert k (resident config m) := by
  rw [resident_eq_keysIn, keysIn_enqueue (by simpa using hj), ← resident_eq_keysIn]

theorem resident_promote (hj : j < queuesSize config) :
    resident config (m.relocate k s (level j)) = insert k (resident config m) := by
  rw [resident_eq_keysIn, keysIn_promote (by simpa using hj), ← resident_eq_keysIn]

theorem resident_demote (h : m.Filed) (hk : m.currentLocations.lookup k = some (level i)) :
    resident config (m.relocate k (level i) qOut) = (resident config m).erase k := by
  rw [resident_eq_keysIn, keysIn_demote (h.only hk) (by simp), ← resident_eq_keysIn]

theorem resident_remove (h : m.Filed) :
    resident config (MultipleQueueCacheManager.remove subclass k m) =
      (resident config m).erase k := by
  rw [resident_eq_keysIn, h.keysIn_remove, ← resident_eq_keysIn]

theorem card_resident (h : m.Filed) : ((resident config m).card : ℤ) =
    ∑ i ∈ Finset.range (queuesSize config), (m.queues (level i)).length := by
  rw [resident_eq_keysIn, h.card_keysIn, Finset.sum_image (by simp)]

omit [DecidableEq α] in
theorem cacheSize_eq_sum (m : MQCacheManager α) : cacheSize config m =
    int32 (∑ i ∈ Finset.range (queuesSize config), (m.queues (level i)).size) := by
  rw [cacheSize]
  generalize queuesSize config = n
  induction n with
  | zero => rfl
  | succ n ih =>
    rw [List.range_succ, List.foldl_append, ih, Finset.sum_range_succ]
    exact int32_int32_add _ _

/-- No queue is longer than all of them together. -/
theorem length_le_card_resident {i : ℕ} (hi : i < queuesSize config) :
    (m.queues (level i)).length ≤ (resident config m).card := by
  rw [← LinkedHashSet.card_toFinset]
  refine Int.ofNat_le.mpr (Finset.card_le_card ?_)
  intro k hk
  exact mem_resident.mpr ⟨i, hi, LinkedHashSet.mem_toFinset.mp hk⟩

end Tidy

/-! ## Demotions -/

section Demotions

variable {clock : ℤ → ℤ} {config : MQConfiguration} {m : MQCacheManager α}

/-- What demotions leave as it is. -/
structure Demoted (config : MQConfiguration) (m m' : MQCacheManager α) : Prop where
  tidy : Tidy config m'
  resident : resident config m' = resident config m
  qOut : m'.queues qOut = m.queues qOut

theorem demote_cases (clock : ℤ → ℤ) (config : MQConfiguration) (i : ℕ) (m : MQCacheManager α) :
    (demote clock config i m).queues = m.queues ∧
        (demote clock config i m).currentLocations = m.currentLocations ∨
      ∃ x ∈ m.queues (level i),
        (demote clock config i m).queues = (m.relocate x (level i) (level (i - 1))).queues ∧
        (demote clock config i m).currentLocations =
          (m.relocate x (level i) (level (i - 1))).currentLocations := by
  rw [demote]
  split
  · exact .inl ⟨rfl, rfl⟩
  · next x hpeek =>
    have hmem : x ∈ m.queues (level i) := List.mem_of_head? hpeek
    split
    · refine .inr ⟨x, hmem, ?_, ?_⟩
      · simp [relocate, MultipleQueueCacheManager.enqueue, setQueue]
      · simp [relocate, MultipleQueueCacheManager.enqueue, setQueue]
    · exact .inl ⟨queues_getMetadata, currentLocations_getMetadata⟩

theorem demotions_demoted (h : Tidy config m) : Demoted config m (demotions clock config m) := by
  refine demotions_induction ⟨h.congr rfl rfl, resident_congr rfl, rfl⟩ ?_
  intro i m₁ hi hn hm₁
  rcases demote_cases clock config i m₁ with ⟨hqueues, hlocations⟩ | ⟨x, hmem, hqueues, hlocations⟩
  · exact ⟨hm₁.tidy.congr hqueues hlocations, (resident_congr hqueues).trans hm₁.resident,
      (congrFun hqueues qOut).trans hm₁.qOut⟩
  · have hx := hm₁.tidy.filed hmem
    have hj : i - 1 < queuesSize config := by omega
    have hres := hm₁.tidy.mem_resident.mpr ⟨i, hmem⟩
    refine ⟨(hm₁.tidy.relocate hx (.inr ⟨_, hj, rfl⟩)).congr hqueues hlocations, ?_, ?_⟩
    · rw [resident_congr hqueues, resident_promote hj, Finset.insert_eq_of_mem hres, hm₁.resident]
    · rw [hqueues, queues_relocate_of_ne (by simp) (by simp), hm₁.qOut]

end Demotions

/-! ## One visit -/

/-- A full cache of a single key has no `qOut` to evict into. -/
def HasRoom (config : MQConfiguration) (m : MQCacheManager α) : Prop :=
  cacheSize config m < config.maxNodes.val ∨ 2 ≤ config.maxNodes.val

/-- The count of the visits to a tracked key does not wrap round to zero. -/
def Counts (k : α) (m : MQCacheManager α) : Prop := (loggedData k m).numberOfNodeVisits ≠ 0

/-- What a visit to a key with the given location needs in order to return. -/
def FitsAt (config : MQConfiguration) (k : α) (m : MQCacheManager α) : Option MQQueue → Prop
  | none => HasRoom config m
  | some (level _) => Counts k m
  | some qOut => HasRoom config m ∧ Counts k m

def Fits (config : MQConfiguration) (m : MQCacheManager α) : Call α → Prop
  | .visit k => FitsAt config k m (m.currentLocations.lookup k)
  | _ => True

instance (config : MQConfiguration) (m : MQCacheManager α) : Decidable (HasRoom config m) :=
  inferInstanceAs (Decidable (_ ∨ _))

instance (k : α) (m : MQCacheManager α) : Decidable (Counts k m) :=
  inferInstanceAs (Decidable (_ ≠ _))

instance (config : MQConfiguration) (k : α) (m : MQCacheManager α) :
    (location : Option MQQueue) → Decidable (FitsAt config k m location)
  | none => inferInstanceAs (Decidable (HasRoom config m))
  | some (level _) => inferInstanceAs (Decidable (Counts k m))
  | some qOut => inferInstanceAs (Decidable (_ ∧ _))

instance (config : MQConfiguration) (m : MQCacheManager α) :
    (call : Call α) → Decidable (Fits config m call)
  | .visit k => inferInstanceAs (Decidable (FitsAt config k m (m.currentLocations.lookup k)))
  | .remove _ => .isTrue trivial
  | .clear => .isTrue trivial

structure Sound (config : MQConfiguration) (m : MQCacheManager α) : Prop where
  tidy : Tidy config m
  held_le : ((resident config m).card : ℤ) ≤ config.maxNodes.val
  ghosts_le : (m.queues qOut).length ≤ qOutMax config

/-- What is true of the manager once `freeUpSpace` has run. -/
structure AfterFreeUp (config : MQConfiguration) (onEvict : α → L → L) (m : MQCacheManager α) (l : L)
    (m' : MQCacheManager α) (l' : L) : Prop where
  tidy : Tidy config m'
  held_lt : ((resident config m').card : ℤ) < config.maxNodes.val
  ghosts_le : (m'.queues qOut).length ≤ qOutMax config
  room : RoomMade (resident config m) onEvict l (resident config m') l'
  lookup : ∀ k ∉ resident config m, m'.currentLocations.lookup k = m.currentLocations.lookup k

section Visits

variable {clock : ℤ → ℤ} {config : MQConfiguration}
  {listeners : List (CacheManagerListener α (MQCacheManager α) L)}
  {settle : α → MQCacheManager α → MQCacheManager α} {onEvict onLoad : α → L → L} {k x : α}
  {m m' : MQCacheManager α} {l l' : L}

/-- No addition in `cacheSize` overflows. -/
theorem Sound.cacheSize_eq (h : Sound config m) : cacheSize config m = (resident config m).card := by
  have hheld := h.held_le
  have hc := config.maxNodes.property
  unfold IsInt at hc
  have hsum : ∑ i ∈ Finset.range (queuesSize config), (m.queues (level i)).size =
      ∑ i ∈ Finset.range (queuesSize config), (m.queues (level i)).length := by
    apply Finset.sum_congr rfl
    intro i hi
    have hle := length_le_card_resident (m := m) (Finset.mem_range.mp hi)
    exact LinkedHashSet.size_of_le ((hle.trans h.held_le).trans config.maxNodes.property.2)
  rw [cacheSize_eq_sum, hsum, ← card_resident h.tidy.filed, int32_of_isInt]
  unfold IsInt
  omega

theorem Trimmed.trimmed (h : Sound config m) (ht : Trimmed config m m') :
    Tidy config m' ∧ resident config m' = resident config m ∧
      m'.currentLocations = m.currentLocations ∧ (m'.queues qOut).length + 1 ≤ qOutMax config := by
  have hghosts := h.ghosts_le
  cases ht with
  | kept hsize => exact ⟨h.tidy, rfl, rfl, by omega⟩
  | @dropped y ys hsize hy =>
    have hmem : y ∈ m.queues qOut := LinkedHashSet.mem_of_toList_cons hy
    have hgone := LinkedHashSet.length_remove hmem
    refine ⟨h.tidy.dropHead y, ?_, rfl, ?_⟩
    · ext k
      simp only [MQCacheManager.mem_resident, queues_dropHead]
    · have hout : (dropHead y m).queues qOut = (m.queues qOut).remove y := by
        simp [dropHead, setQueue]
      rw [hout]
      omega

/-- An evicted key waits in `qOut`, unless the listeners have removed it. -/
theorem FreedUp.after (hs : Settles subclass settle) (h : Sound config m)
    (hf : FreedUp config settle onEvict m l m' l') : AfterFreeUp config onEvict m l m' l' := by
  cases hf with
  | room hroom =>
    rw [h.cacheSize_eq] at hroom
    exact ⟨h.tidy, hroom, h.ghosts_le, .kept, fun _ _ => rfl⟩
  | @pushed i x xs m₁ hfull hfirst hx htrimmed =>
    obtain ⟨htidy, hresident, hlocations, hsize⟩ := htrimmed.trimmed h
    have hmem : x ∈ m.queues (level i) := LinkedHashSet.mem_of_toList_cons hx
    have hmem₁ : x ∈ m₁.queues (level i) := by rw [htrimmed.queues_level]; exact hmem
    have hxres : x ∈ resident config m := h.tidy.mem_resident.mpr ⟨i, hmem⟩
    have hxloc := htidy.filed hmem₁
    have htidy₂ := htidy.relocate hxloc (d := qOut) (.inl rfl)
    have hmoved : (m₁.relocate x (level i) qOut).currentLocations.lookup x = some qOut := by simp
    have hsettled : resident config (settle x (m₁.relocate x (level i) qOut)) =
        (resident config m).erase x := by
      rw [← hresident, ← resident_demote htidy.filed hxloc, resident_eq_keysIn,
        hs.keysIn hmoved (by simp), ← resident_eq_keysIn]
    have hgrown := length_relocate (q := qOut) (d := qOut) htidy.filed hmem₁
    have hle := hs.length_le (m := m₁.relocate x (level i) qOut) x qOut
    simp at hgrown
    have hheld := h.held_le
    refine ⟨htidy₂.settled hs x, ?_, by omega, ?_, ?_⟩
    · rw [hsettled]
      have hcard := Finset.card_erase_add_one hxres
      omega
    · rw [hsettled]
      exact .evicted hxres
    · intro k hk
      have hkx : k ≠ x := fun he => hk (he ▸ hxres)
      rw [hs.lookup_of_ne hmoved hkx, lookup_relocate, if_neg hkx, hlocations]

theorem qOutMax_eq (hc : 1 ≤ config.maxNodes.val) : qOutMax config = config.maxNodes.val / 2 :=
  Int.tdiv_eq_ediv_of_nonneg (by omega)

@[simp] theorem queues_logged : (logged k m).queues = m.queues := by simp [logged]

@[simp] theorem currentLocations_logged : (logged k m).currentLocations = m.currentLocations := by
  simp [logged]

omit [DecidableEq α] in
theorem cacheSize_congr (hqueues : m'.queues = m.queues) :
    cacheSize config m' = cacheSize config m := by
  rw [cacheSize, cacheSize, hqueues]

theorem Sound.congr (h : Sound config m) (hqueues : m'.queues = m.queues)
    (hlocations : m'.currentLocations = m.currentLocations) : Sound config m' := by
  refine ⟨h.tidy.congr hqueues hlocations, ?_, ?_⟩
  · rw [resident_congr hqueues]
    exact h.held_le
  · rw [hqueues]
    exact h.ghosts_le

theorem Sound.logged (h : Sound config m) (k : α) : Sound config (logged k m) :=
  h.congr queues_logged currentLocations_logged

theorem Sound.exists_freedUp (hc : 1 ≤ config.maxNodes.val) (h : Sound config m)
    (hroom : HasRoom config m) (l : L) : ∃ m' l', FreedUp config settle onEvict m l m' l' := by
  have hmax := qOutMax_eq hc
  refine MQCacheManager.exists_freedUp ?_ ?_ l
  · rcases hroom with hroom | hroom
    · exact .inl hroom
    · exact .inr (by omega)
  · intro hfull hempty
    rw [h.cacheSize_eq, hempty, Finset.card_empty] at hfull
    omega

theorem Sound.exists_entered (clock : ℤ → ℤ) (hc : 1 ≤ config.maxNodes.val) (hn : 1 ≤ queuesSize config)
    (h : Sound config m) (hfits : Fits config m (.visit k)) (l : L) :
    ∃ m' l', Entered clock config settle onEvict onLoad k m l m' l' := by
  change FitsAt config k m (m.currentLocations.lookup k) at hfits
  unfold FitsAt at hfits
  split at hfits
  · next hk =>
    obtain ⟨m', l', hf⟩ := h.exists_freedUp hc hfits l
    exact ⟨_, _, .missed hk hf⟩
  · next i hk =>
    obtain ⟨j, -, hj⟩ := getDesiredQueue_ok hn hfits
    exact ⟨_, _, .hit hk hj⟩
  · next hk =>
    have hroom : HasRoom config (MQCacheManager.logged k m) := by
      rw [HasRoom, cacheSize_congr queues_logged]
      exact hfits.1
    obtain ⟨j, -, hj⟩ := getDesiredQueue_ok hn hfits.2
    obtain ⟨m', l', hf⟩ := (h.logged k).exists_freedUp hc hroom l
    exact ⟨_, _, .ghostHit hk hf hj⟩

theorem Sound.exists_visited (hc : 1 ≤ config.maxNodes.val) (hn : 1 ≤ queuesSize config)
    (h : Sound config m) (hfits : Fits config m (.visit k)) (l : L) :
    ∃ m' l', Visited clock config settle onEvict onLoad k m l m' l' := by
  obtain ⟨m', l', hentered⟩ : ∃ m' l', Entered clock config settle onEvict onLoad k m l m' l' :=
    h.exists_entered clock hc hn hfits l
  exact ⟨_, l', .entered hentered⟩

theorem Sound.freeUpSpace_error (hc : 1 ≤ config.maxNodes.val) (h : Sound config m)
    (hroom : ¬HasRoom config m) (l : L) :
    freeUpSpace config listeners (m, l) = .error .noSuchElement := by
  obtain ⟨hfull, hsmall⟩ := not_or.mp hroom
  have hmax := qOutMax_eq hc
  have hghosts := h.ghosts_le
  exact MQCacheManager.freeUpSpace_error (not_lt.mp hfull) (by omega)
    (LinkedHashSet.eq_empty_of_length (by omega)) l

/-- A call that does not fit throws. -/
theorem Sound.visit_error (hc : 1 ≤ config.maxNodes.val) (hn : 1 ≤ queuesSize config)
    (h : Sound config m) (hfits : ¬Fits config m (.visit k)) (l : L) :
    ∃ e, (Clocked.manager clock config).visit listeners k (m, l) = .error e := by
  have hindex (hcounts : ¬Counts k m) :
      getDesiredQueue config (getMetadata k m).1.logVisit = .error .indexOutOfBounds :=
    getDesiredQueue_error hn (not_not.mp hcounts)
  change ¬FitsAt config k m (m.currentLocations.lookup k) at hfits
  unfold FitsAt at hfits
  split at hfits
  · next hk =>
    refine ⟨.noSuchElement, ?_⟩
    simp only [Clocked.manager, MultipleQueueCacheManager.visit, hk, onMiss,
      h.freeUpSpace_error hc hfits l, Java.error_bind]
  · next i hk =>
    refine ⟨.indexOutOfBounds, ?_⟩
    simp only [Clocked.manager, MultipleQueueCacheManager.visit, hk, onHit,
      if_neg (show ¬level i = qOut by simp), Java.ok_bind, hindex hfits, Java.error_bind]
  · next hk =>
    simp only [Clocked.manager, MultipleQueueCacheManager.visit, hk, onHit, if_true]
    cases hfree : freeUpSpace config listeners (MQCacheManager.logged k m, l) with
    | error e =>
      rw [MQCacheManager.logged] at hfree
      exact ⟨e, by rw [hfree, Java.error_bind]⟩
    | ok w =>
      have hcounts : ¬Counts k m := by
        intro hcounts
        apply hfits
        refine ⟨?_, hcounts⟩
        by_contra hroom
        have herror : freeUpSpace config listeners (MQCacheManager.logged k m, l) = .error _ :=
          (h.logged k).freeUpSpace_error hc (by
            rw [HasRoom, cacheSize_congr queues_logged]
            exact hroom) l
        cases hfree.symm.trans herror
      rw [MQCacheManager.logged] at hfree
      exact ⟨.indexOutOfBounds, by rw [hfree, Java.ok_bind, hindex hcounts, Java.error_bind]⟩

theorem getDesiredQueue_lt (hn : 1 ≤ queuesSize config) {data : MQMetadata} {j : ℕ}
    (hj : getDesiredQueue config data = .ok (level j)) : j < queuesSize config := by
  have hnumber := getQueueNumber_eq data hn
  rw [getDesiredQueue] at hj
  split at hj
  · cases hj
    omega
  · cases hj

/-- A hit within the cache moves the key to a level. -/
theorem Sound.hit (h : Sound config m) {i j : ℕ} (hk : m.currentLocations.lookup k = some (level i))
    (hj : j < queuesSize config) : Sound config (m.relocate k (level i) (level j)) ∧
      k ∈ resident config m ∧
      resident config (m.relocate k (level i) (level j)) = resident config m := by
  have hres : k ∈ resident config m := h.tidy.mem_resident_iff.mpr ⟨i, hk⟩
  have hsame : resident config (m.relocate k (level i) (level j)) = resident config m := by
    rw [resident_promote hj, Finset.insert_eq_of_mem hres]
  refine ⟨⟨h.tidy.relocate hk (.inr ⟨j, hj, rfl⟩), ?_, ?_⟩, hres, hsame⟩
  · rw [hsame]
    exact h.held_le
  · rw [queues_relocate_of_ne (by simp) (by simp)]
    exact h.ghosts_le

/-- A key located in `qOut` joins a level once there is room for it. -/
theorem AfterFreeUp.ghostHit (h : AfterFreeUp config onEvict m l m' l') {j : ℕ}
    (hk : m'.currentLocations.lookup k = some qOut) (hj : j < queuesSize config) :
    Sound config (m'.relocate k qOut (level j)) := by
  have hnot : k ∉ resident config m' := by
    rw [h.tidy.mem_resident_iff, hk]
    simp
  have hheld := h.held_lt
  refine ⟨h.tidy.relocate hk (.inr ⟨j, hj, rfl⟩), ?_, ?_⟩
  · rw [resident_promote hj, Finset.card_insert_of_notMem hnot]
    omega
  · rw [queues_relocate_source (by simp)]
    exact (LinkedHashSet.length_remove_le _ _).trans h.ghosts_le

/-- A missed key joins the lowest level once there is room for it. -/
theorem AfterFreeUp.missed {m₁ : MQCacheManager α} (h : AfterFreeUp config onEvict m l m' l')
    (hn : 1 ≤ queuesSize config) (hk : m'.currentLocations.lookup k = none)
    (hqueues : m₁.queues = m'.queues) (hlocations : m₁.currentLocations = m'.currentLocations) :
    Sound config (m₁.enqueue k (level 0)) ∧
      resident config (m₁.enqueue k (level 0)) = insert k (resident config m') := by
  have hnot : k ∉ resident config m' := by
    rw [h.tidy.mem_resident_iff, hk]
    simp
  have hentered : resident config (m₁.enqueue k (level 0)) = insert k (resident config m') := by
    rw [resident_enqueue hn, resident_congr hqueues]
  have hheld := h.held_lt
  refine ⟨⟨(h.tidy.congr hqueues hlocations).enqueue (by rw [hlocations, hk]) hn, ?_, ?_⟩, hentered⟩
  · rw [hentered, Finset.card_insert_of_notMem hnot]
    omega
  · rw [queues_enqueue_of_ne (by simp), hqueues]
    exact h.ghosts_le

/-- Every branch of `visit` keeps the invariant and the load and evict protocol. -/
theorem Entered.sound (hs : Settles subclass settle) (hn : 1 ≤ queuesSize config)
    (h : Sound config m) (he : Entered clock config settle onEvict onLoad k m l m' l') :
    Sound config m' ∧
      VisitEffect (resident config m) k onEvict onLoad l (resident config m') l' := by
  cases he with
  | @hit i j hk hj =>
    have hk' : (MQCacheManager.logged k m).currentLocations.lookup k = some (level i) := by
      rw [currentLocations_logged, hk]
    obtain ⟨hsound, hres, hsame⟩ := (h.logged k).hit hk' (getDesiredQueue_lt hn hj)
    rw [resident_congr queues_logged] at hres hsame
    refine ⟨hsound.congr queues_setMetadata currentLocations_setMetadata, ?_⟩
    rw [modified, resident_congr queues_setMetadata, hsame]
    exact .hit hres
  | @ghostHit j m₁ l₁ hk hfreed hj =>
    have hafter := hfreed.after hs (h.logged k)
    have hroom := hafter.room
    rw [resident_congr queues_logged] at hroom
    have hnot : k ∉ resident config m := by
      rw [h.tidy.mem_resident_iff, hk]
      simp
    have hk₁ : m₁.currentLocations.lookup k = some qOut := by
      rw [hafter.lookup k (by rwa [resident_congr queues_logged]), currentLocations_logged, hk]
    have hlt := getDesiredQueue_lt hn hj
    refine ⟨(hafter.ghostHit hk₁ hlt).congr queues_setMetadata currentLocations_setMetadata, ?_⟩
    rw [modified, resident_congr queues_setMetadata, resident_promote hlt]
    exact .miss hnot hroom
  | @missed m₁ l₁ hk hfreed =>
    have hafter := hfreed.after hs h
    have hnot : k ∉ resident config m := by
      rw [h.tidy.mem_resident_iff, hk]
      simp
    have hk₁ : m₁.currentLocations.lookup k = none := by rw [hafter.lookup k hnot, hk]
    have hqueues : (noted clock config k m₁).queues = m₁.queues := by simp [noted]
    have hlocations : (noted clock config k m₁).currentLocations = m₁.currentLocations := by
      simp [noted]
    obtain ⟨hsound, hentered⟩ := hafter.missed hn hk₁ hqueues hlocations
    refine ⟨hsound, ?_⟩
    rw [hentered]
    exact .miss hnot hafter.room

/-- Demotions touch neither the invariant nor the resident keys. -/
theorem Visited.sound (hs : Settles subclass settle) (hn : 1 ≤ queuesSize config)
    (h : Sound config m) (hv : Visited clock config settle onEvict onLoad k m l m' l') :
    Sound config m' ∧
      VisitEffect (resident config m) k onEvict onLoad l (resident config m') l' := by
  obtain ⟨hentered⟩ := hv
  obtain ⟨hsound, heffect⟩ := hentered.sound hs hn h
  obtain ⟨htidy, hresident, hout⟩ := demotions_demoted hsound.tidy
  exact ⟨⟨htidy, hresident ▸ hsound.held_le, hout ▸ hsound.ghosts_le⟩, hresident ▸ heffect⟩

theorem sound_initial (hc : 1 ≤ config.maxNodes.val) : Sound config (initial (α := α)) := by
  have hempty : resident config (initial (α := α)) = ∅ := by
    ext k
    simp [MQCacheManager.mem_resident, initial]
  refine ⟨⟨located_empty.filed, ?_, fun _ _ => rfl⟩, ?_, ?_⟩
  · intro k i hk
    simp [initial] at hk
  · rw [hempty, Finset.card_empty]
    omega
  · rw [qOutMax_eq hc]
    show 0 ≤ _
    omega

theorem Sound.remove (h : Sound config m) (k : α) :
    Sound config (MultipleQueueCacheManager.remove subclass k m) := by
  have hheld := h.held_le
  have hcard : ((resident config m).erase k).card ≤ (resident config m).card :=
    Finset.card_erase_le
  refine ⟨h.tidy.remove k, ?_, (length_remove_le subclass k m qOut).trans h.ghosts_le⟩
  rw [resident_remove h.tidy.filed]
  omega

theorem Sound.visit (hr : Responds listeners settle onEvict onLoad) (hs : Settles subclass settle)
    (hc : 1 ≤ config.maxNodes.val) (hn : 1 ≤ queuesSize config) (h : Sound config m)
    (hfits : Fits config m (.visit k)) (l : L) :
    ∃ m' l', (manager config).visit listeners k (m, l) = .ok (m', l') ∧ Sound config m' ∧
      VisitEffect (resident config m) k onEvict onLoad l (resident config m') l' := by
  obtain ⟨m', l', hv⟩ : ∃ m' l', Visited int32 config settle onEvict onLoad k m l m' l' :=
    h.exists_visited hc hn hfits l
  exact ⟨m', l', hv.visit_eq hr hn, hv.sound hs hn h⟩

end Visits

end CachePolicies.MQCacheManager
