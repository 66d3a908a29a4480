import CachePolicies.ReplacementManagers
import CachePolicies.VisitProtocols

/-!
# Visits of the fixed manager

The constructor of the configuration puts the size of `t1` strictly between zero and
`maxNodes`, so whichever queue a full cache evicts from holds a key.
-/

namespace CachePolicies.FixedReplacementCacheManager

open MultipleQueueCacheManager ReplacementCacheManager ReplacementQueue

variable {α L : Type} [DecidableEq α]

structure Sound (config : FixedReplacementConfiguration) (m : FixedReplacementCacheManager α) :
    Prop where
  located : m.Located
  held_le : (m.queues t1).length + (m.queues t2).length ≤ config.maxNodes.val

section Visits

variable {config : FixedReplacementConfiguration}
  {listeners : List (CacheManagerListener α (FixedReplacementCacheManager α) L)}
  {settle : α → FixedReplacementCacheManager α → FixedReplacementCacheManager α}
  {onEvict onLoad : α → L → L} {k x : α} {s : ReplacementQueue Empty}
  {m : FixedReplacementCacheManager α} {l : L} {xs : List α}

/-- What the constructor of the configuration checks. -/
theorem accepted_bounds {maxNodes t1Size : JavaInt}
    (h : FixedReplacementConfiguration.new maxNodes t1Size = .ok config) :
    0 < config.t1Size.val ∧ config.t1Size.val < config.maxNodes.val := by
  rw [FixedReplacementConfiguration.new] at h
  split at h
  · cases h
  · next hbounds =>
    rw [not_or, not_le, not_le] at hbounds
    cases h
    exact hbounds

/-- The only queues of the manager are the resident ones. -/
theorem resident_or (s : ReplacementQueue Empty) : s = t1 ∨ s = t2 := by
  rcases s with _ | _ | q
  · exact .inl rfl
  · exact .inr rfl
  · cases q

theorem Sound.size_eq (h : Sound config m) (s : ReplacementQueue Empty) :
    (m.queues s).size = (m.queues s).length := by
  have ht1 := (m.queues t1).length_nonneg
  have ht2 := (m.queues t2).length_nonneg
  have hheld := h.held_le
  have hc := config.maxNodes.property.2
  apply LinkedHashSet.size_of_le
  rcases resident_or s with rfl | rfl <;> omega

theorem Sound.cacheSize_eq (h : Sound config m) :
    cacheSize m = (m.queues t1).length + (m.queues t2).length := by
  have ht1 := (m.queues t1).length_nonneg
  have ht2 := (m.queues t2).length_nonneg
  have hheld := h.held_le
  have hc := config.maxNodes.property
  rw [cacheSize, h.size_eq, h.size_eq, int32_of_isInt]
  unfold IsInt at hc ⊢
  omega

/-- A key that is found again stays resident and joins `t2`. -/
theorem Sound.promote (h : Sound config m) (hk : m.currentLocations.lookup k = some s) :
    k ∈ resident m ∧ Sound config (m.relocate k s t2) ∧
      resident (m.relocate k s t2) = resident m := by
  have hmem := (h.located k s).mp hk
  have hheld := h.held_le
  have hsizes (q) := length_relocate (q := q) (d := t2) h.located.filed hmem
  have h1 := hsizes t1
  have h2 := hsizes t2
  have hres : k ∈ resident m := by
    rw [mem_resident]
    rcases resident_or s with rfl | rfl
    · exact .inl hmem
    · exact .inr hmem
  refine ⟨hres, ⟨h.located.relocate (h.located.only hk), ?_⟩, ?_⟩
  · rcases resident_or s with rfl | rfl <;> simp at h1 h2 <;> omega
  · rw [resident_promote (.inr rfl), Finset.insert_eq_of_mem hres]

theorem Sound.hit (hr : Responds listeners settle onEvict onLoad) (h : Sound config m)
    (hk : m.currentLocations.lookup k = some s) (l : L) :
    ∃ m' l', onHit listeners k s (m, l) = .ok (m', l') ∧ Sound config m' ∧
      VisitEffect (resident m) k onEvict onLoad l (resident m') l' := by
  obtain ⟨hres, hsound, hresident⟩ := h.promote hk
  have hload : (subclass (α := α)).afterInsert (some s) t2 = false := by
    rcases resident_or s with rfl | rfl <;> rfl
  refine ⟨m.relocate k s t2, l, ?_, hsound, ?_⟩
  · rw [onHit, moveNode_ok hr, hload]
    rfl
  · rw [hresident]
    exact .hit hres

/-- A missed key joins `t1` once there is room for it. -/
theorem Sound.accept (hm : m.Located) (hk : m.currentLocations.lookup k = none)
    (hheld : (m.queues t1).length + (m.queues t2).length + 1 ≤ config.maxNodes.val) :
    Sound config (m.enqueue k t1) ∧ resident (m.enqueue k t1) = insert k (resident m) := by
  have hsizes (q) := length_enqueue (q := q) (hm.filed.notMem_of_none hk t1)
  have h1 := hsizes t1
  have h2 := hsizes t2
  simp at h1 h2
  exact ⟨⟨hm.enqueue hk, by omega⟩, resident_enqueue (.inl rfl)⟩

/-- A missed key takes the place of the head of a resident queue. -/
theorem Sound.replace (onLoad : α → L → L) (h : Sound config m)
    (hk : m.currentLocations.lookup k = none) (hx : (m.queues s).toList = x :: xs) :
    Sound config ((forget subclass x s m).enqueue k t1) ∧
      VisitEffect (resident m) k onEvict onLoad l
        (resident ((forget subclass x s m).enqueue k t1)) (onLoad k (onEvict x l)) := by
  have hmem : x ∈ m.queues s := LinkedHashSet.mem_of_toList_cons hx
  have hxloc := h.located.filed hmem
  have hheld := h.held_le
  have hsizes (q) := length_forget subclass (q := q) hmem
  have h1 := hsizes t1
  have h2 := hsizes t2
  have hlt : ((forget subclass x s m).queues t1).length +
      ((forget subclass x s m).queues t2).length + 1 ≤ config.maxNodes.val := by
    rcases resident_or s with rfl | rfl <;> simp at h1 h2 <;> omega
  have hnot := notMem_resident_of_none h.located.filed hk
  have hxres : x ∈ resident m := by
    rw [mem_resident]
    rcases resident_or s with rfl | rfl
    · exact .inl hmem
    · exact .inr hmem
  obtain ⟨hsound, hresident⟩ := Sound.accept (h.located.forget (h.located.only hxloc))
    (by rw [lookup_forget, hk, ite_self]) hlt
  refine ⟨hsound, ?_⟩
  rw [hresident, resident_forget subclass (h.located.only hxloc)]
  exact .miss hnot (.evicted hxres)

theorem Sound.miss (hr : Responds listeners settle onEvict onLoad) (hs : Settles subclass settle)
    (hlow : 0 < config.t1Size.val) (hhigh : config.t1Size.val < config.maxNodes.val)
    (h : Sound config m) (hk : m.currentLocations.lookup k = none) (l : L) :
    ∃ m' l', onMiss config listeners k (m, l) = .ok (m', l') ∧ Sound config m' ∧
      VisitEffect (resident m) k onEvict onLoad l (resident m') l' := by
  have hsize := h.cacheSize_eq
  have hinsert (m' : FixedReplacementCacheManager α) (l' : L) :
      insertNode subclass listeners k t1 (m', l') = .ok (m'.enqueue k t1, onLoad k l') := by
    rw [insertNode_ok hr]
    rfl
  have hevict {s : ReplacementQueue Empty} {x : α} {xs : List α}
      (hx : (m.queues s).toList = x :: xs) :
      evictNode subclass listeners s (m, l) = .ok (forget subclass x s m, onEvict x l) :=
    evictNode_cons hr hs (fun _ _ => rfl) h.located.filed hx
  by_cases hroom : cacheSize m < config.maxNodes.val
  · have hnot := notMem_resident_of_none h.located.filed hk
    have hlt : (m.queues t1).length + (m.queues t2).length + 1 ≤ config.maxNodes.val := by omega
    obtain ⟨hsound, hresident⟩ := Sound.accept h.located hk hlt
    refine ⟨m.enqueue k t1, onLoad k l, ?_, hsound, ?_⟩
    · simp only [onMiss, if_pos hroom, Java.ok_bind, hinsert]
    · rw [hresident]
      exact .miss hnot .kept
  · have hsize1 := h.size_eq t1
    by_cases ht1 : (m.queues t1).size ≥ config.t1Size.val
    · obtain ⟨x, xs, hx⟩ := LinkedHashSet.exists_cons_of_length_pos (q := m.queues t1) (by omega)
      obtain ⟨hsound, heffect⟩ := h.replace (l := l) onLoad hk hx
      refine ⟨_, _, ?_, hsound, heffect⟩
      simp only [onMiss, if_neg hroom, if_pos ht1, hevict hx, Java.ok_bind, hinsert]
    · obtain ⟨x, xs, hx⟩ := LinkedHashSet.exists_cons_of_length_pos (q := m.queues t2) (by omega)
      obtain ⟨hsound, heffect⟩ := h.replace (l := l) onLoad hk hx
      refine ⟨_, _, ?_, hsound, heffect⟩
      simp only [onMiss, if_neg hroom, if_neg ht1, hevict hx, Java.ok_bind, hinsert]

theorem sound_initial (hc : 0 ≤ config.maxNodes.val) : Sound config (initial (α := α)) := by
  refine ⟨located_empty, ?_⟩
  simpa [initial] using hc

theorem Sound.visit (hr : Responds listeners settle onEvict onLoad) (hs : Settles subclass settle)
    (hlow : 0 < config.t1Size.val) (hhigh : config.t1Size.val < config.maxNodes.val)
    (h : Sound config m) (k : α) (l : L) :
    ∃ m' l', (manager config).visit listeners k (m, l) = .ok (m', l') ∧ Sound config m' ∧
      VisitEffect (resident m) k onEvict onLoad l (resident m') l' := by
  cases hk : m.currentLocations.lookup k with
  | none =>
    simp only [manager, MultipleQueueCacheManager.visit, hk]
    exact h.miss hr hs hlow hhigh hk l
  | some s =>
    simp only [manager, MultipleQueueCacheManager.visit, hk]
    exact h.hit hr hk l

theorem Sound.remove (h : Sound config m) (k : α) :
    Sound config (MultipleQueueCacheManager.remove subclass k m) := by
  have h1 := length_remove_le subclass k m t1
  have h2 := length_remove_le subclass k m t2
  have hheld := h.held_le
  exact ⟨h.located.remove k, by omega⟩

theorem protocol (config : FixedReplacementConfiguration) (hlow : 0 < config.t1Size.val)
    (hhigh : config.t1Size.val < config.maxNodes.val) :
    Protocol (manager config (α := α)) config.maxNodes.val (Sound config) (fun _ _ => True)
      (Settles subclass) where
  initial := sound_initial (by omega)
  visit hr hs _ _ l h _ := h.visit hr hs hlow hhigh _ l
  remove h _ := ⟨_, rfl, h.remove _, resident_remove h.located.filed subclass _⟩
  clear _ := ⟨sound_initial (by omega), rfl⟩
  size h := by
    have hcard := card_resident h.located.filed
    have hsize := h.cacheSize_eq
    have hheld := h.held_le
    exact ⟨hsize.trans hcard.symm, hsize.trans_le hheld⟩

end Visits

/-! ## The cases of a recorded visit -/

/-- The queue from which a full cache evicts. -/
def victimQueue (config : FixedReplacementConfiguration) (m : FixedReplacementCacheManager α) :
    ReplacementQueue Empty :=
  if (m.queues t1).size ≥ config.t1Size.val then t1 else t2

/-- What a visit to `k` does to the manager, and the events it fires. -/
inductive Visited (config : FixedReplacementConfiguration) (k : α)
    (m : FixedReplacementCacheManager α) :
    FixedReplacementCacheManager α → List (Event α) → Prop
  | hit {s : ReplacementQueue Empty} (hk : m.currentLocations.lookup k = some s) :
      Visited config k m (m.relocate k s t2) []
  | room (hk : m.currentLocations.lookup k = none) (hroom : cacheSize m < config.maxNodes.val) :
      Visited config k m (m.enqueue k t1) [.objectLoaded k]
  | replaced {x : α} {xs : List α} (hk : m.currentLocations.lookup k = none)
      (hfull : config.maxNodes.val ≤ cacheSize m)
      (hx : (m.queues (victimQueue config m)).toList = x :: xs) :
      Visited config k m ((forget subclass x (victimQueue config m) m).enqueue k t1)
        [.objectReadyForEviction x, .objectLoaded k]

section Cases

variable {config : FixedReplacementConfiguration} {m m' : FixedReplacementCacheManager α} {k : α}
  {events : List (Event α)}

theorem Visited.effect (h : Sound config m) (hv : Visited config k m m' events) :
    Sound config m' ∧
      VisitEffect (resident m) k recordEviction recordLoad [] (resident m') events := by
  cases hv with
  | hit hk =>
    obtain ⟨hres, hsound, hresident⟩ := h.promote hk
    refine ⟨hsound, ?_⟩
    rw [hresident]
    exact .hit hres
  | room hk hroom =>
    have hsize := h.cacheSize_eq
    have hlt : (m.queues t1).length + (m.queues t2).length + 1 ≤ config.maxNodes.val := by omega
    obtain ⟨hsound, hresident⟩ := Sound.accept h.located hk hlt
    refine ⟨hsound, ?_⟩
    rw [hresident]
    exact .miss (notMem_resident_of_none h.located.filed hk) .kept
  | replaced hk hfull hx => exact h.replace recordLoad hk hx

/-- What the listeners are told of a visit. -/
theorem Visited.reported (h : Sound config m) (hv : Visited config k m m' events) :
    Reported (manager config) config.maxNodes.val m k m' events := by
  obtain ⟨hsound, heffect⟩ := hv.effect h
  have hsize := hsound.cacheSize_eq
  refine Protocol.reported_of_effect ?_ ?_ heffect
  · exact hsize.trans (card_resident hsound.located.filed).symm
  · exact hsize.trans_le hsound.held_le

/-- A miss in a full cache evicts from the chosen queue. -/
theorem onMiss_of_full
    (listeners : List (CacheManagerListener α (FixedReplacementCacheManager α) L)) (k : α) (l : L)
    (hfull : config.maxNodes.val ≤ cacheSize m) :
    onMiss config listeners k (m, l) = (do
      let w ← evictNode subclass listeners (victimQueue config m) (m, l)
      insertNode subclass listeners k t1 w) := by
  rw [onMiss, if_neg (not_lt.mpr hfull), victimQueue]
  split <;> rfl

/-- A visit fails only where it has to evict from an empty queue. -/
theorem visit_cases (config : FixedReplacementConfiguration) (hm : m.Located) (k : α) :
    (∃ m' events, (manager config).perform m (.visit k) = .ok (m', events) ∧
      Visited config k m m' events) ∨
    (m.currentLocations.lookup k = none ∧ config.maxNodes.val ≤ cacheSize m ∧
      m.queues (victimQueue config m) = ∅ ∧
      (manager config).perform m (.visit k) = .error .noSuchElement) := by
  have hinsert (m' : FixedReplacementCacheManager α) (events : List (Event α)) :
      insertNode subclass [recorder] k t1 (m', events) =
        .ok (m'.enqueue k t1, recordLoad k events) :=
    insertNode_ok recorder_responds
  simp only [CacheManager.perform, manager, MultipleQueueCacheManager.visit]
  cases hk : m.currentLocations.lookup k with
  | some s =>
    have hmove : onHit [recorder] k s (m, ([] : List (Event α))) = .ok (m.relocate k s t2, []) := by
      rw [onHit, moveNode_ok recorder_responds]
      rcases resident_or s with rfl | rfl <;> rfl
    exact .inl ⟨_, _, hmove, .hit hk⟩
  | none =>
    by_cases hroom : cacheSize m < config.maxNodes.val
    · refine .inl ⟨_, _, ?_, .room hk hroom⟩
      simp only [onMiss, if_pos hroom, Java.ok_bind, hinsert]
      rfl
    · have hfull := not_lt.mp hroom
      simp only [onMiss_of_full _ _ _ hfull]
      cases hx : (m.queues (victimQueue config m)).toList with
      | cons x xs =>
        refine .inl ⟨_, _, ?_, .replaced hk hfull hx⟩
        rw [evictNode_cons recorder_responds (.inl rfl) (fun _ _ => rfl) hm.filed hx]
        simp only [Java.ok_bind, hinsert]
        rfl
      | nil =>
        have hempty : m.queues (victimQueue config m) = ∅ := LinkedHashSet.ext hx
        refine .inr ⟨trivial, hfull, hempty, ?_⟩
        rw [evictNode_empty hempty, Java.error_bind]

end Cases

end CachePolicies.FixedReplacementCacheManager
