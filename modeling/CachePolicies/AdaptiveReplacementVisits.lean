import CachePolicies.ReplacementManagers

/-!
# What a visit of the adaptive manager does

`Visited` lists the effects which `visit` can have, once for listeners that only
record and for listeners that remove what is evicted. `visit_cases` shows that a
visit has one of them unless it takes the head of an empty queue.
-/

namespace CachePolicies.AdaptiveReplacementCacheManager

open MultipleQueueCacheManager ReplacementCacheManager ReplacementQueue

variable {α L : Type} [DecidableEq α]

/-- The effect of `freeRoom`. -/
inductive Freed
    (settle : α → AdaptiveReplacementCacheManager α → AdaptiveReplacementCacheManager α)
    (onEvict : α → L → L) (hitList : Option AdaptiveReplacementQueue)
    (m : AdaptiveReplacementCacheManager α) (l : L) : AdaptiveReplacementCacheManager α → L → Prop
  | fromT1 {x : α} {xs : List α} (htake : TakesT1 hitList m) (hx : (m.queues t1).toList = x :: xs) :
      Freed settle onEvict hitList m l (settle x (m.relocate x t1 b1)) (onEvict x l)
  | fromT2 {x : α} {xs : List α} (htake : ¬TakesT1 hitList m)
      (hx : (m.queues t2).toList = x :: xs) :
      Freed settle onEvict hitList m l (settle x (m.relocate x t2 b2)) (onEvict x l)
  | nothing (htake : ¬TakesT1 hitList m) (hempty : m.queues t2 = ∅) :
      Freed settle onEvict hitList m l m l

/-- The effect of `visit(k)`, by the branch of `onHit` or `onMiss` taken. -/
inductive Visited (config : AdaptiveReplacementConfiguration)
    (settle : α → AdaptiveReplacementCacheManager α → AdaptiveReplacementCacheManager α)
    (onEvict onLoad : α → L → L) (k : α) (m : AdaptiveReplacementCacheManager α) (l : L) :
    AdaptiveReplacementCacheManager α → L → Prop
  | hit {s : AdaptiveReplacementQueue} (hs : s = t1 ∨ s = t2)
      (hk : m.currentLocations.lookup k = some s) :
      Visited config settle onEvict onLoad k m l (m.relocate k s t2) l
  | ghostHit {s : AdaptiveReplacementQueue} {target : ℤ} {m' : AdaptiveReplacementCacheManager α}
      {l' : L} (hs : s = b1 ∨ s = b2) (hk : m.currentLocations.lookup k = some s)
      (htarget : adaptedTarget config s m = .ok target)
      (hfreed : Freed settle onEvict (some s) { m with own := ⟨target⟩ } l m' l') :
      Visited config settle onEvict onLoad k m l (m'.relocate k s t2) (onLoad k l')
  | sideFull {x : α} {xs : List α} {m' : AdaptiveReplacementCacheManager α} {l' : L}
      (hk : m.currentLocations.lookup k = none) (hside : leftSideSize m ≥ config.maxNodes.val)
      (ht1 : (m.queues t1).length < config.maxNodes.val) (hx : (m.queues b1).toList = x :: xs)
      (hfreed : Freed settle onEvict none (forget subclass x b1 m) l m' l') :
      Visited config settle onEvict onLoad k m l (m'.enqueue k t1) (onLoad k l')
  | t1Full {x : α} {xs : List α} (hk : m.currentLocations.lookup k = none)
      (hside : leftSideSize m ≥ config.maxNodes.val)
      (ht1 : (m.queues t1).length ≥ config.maxNodes.val) (hx : (m.queues t1).toList = x :: xs) :
      Visited config settle onEvict onLoad k m l ((forget subclass x t1 m).enqueue k t1)
        (onLoad k (onEvict x l))
  | directoryFull {x : α} {xs : List α} {m' : AdaptiveReplacementCacheManager α} {l' : L}
      (hk : m.currentLocations.lookup k = none) (hside : leftSideSize m < config.maxNodes.val)
      (hcache : directorySize m ≥ config.maxNodes.val)
      (hdirectory : directorySize m ≥ directoryCapacity config)
      (hx : (m.queues b2).toList = x :: xs)
      (hfreed : Freed settle onEvict none (forget subclass x b2 m) l m' l') :
      Visited config settle onEvict onLoad k m l (m'.enqueue k t1) (onLoad k l')
  | cacheFull {m' : AdaptiveReplacementCacheManager α} {l' : L}
      (hk : m.currentLocations.lookup k = none) (hside : leftSideSize m < config.maxNodes.val)
      (hcache : directorySize m ≥ config.maxNodes.val)
      (hdirectory : directorySize m < directoryCapacity config)
      (hfreed : Freed settle onEvict none m l m' l') :
      Visited config settle onEvict onLoad k m l (m'.enqueue k t1) (onLoad k l')
  | room (hk : m.currentLocations.lookup k = none) (hside : leftSideSize m < config.maxNodes.val)
      (hcache : directorySize m < config.maxNodes.val) :
      Visited config settle onEvict onLoad k m l (m.enqueue k t1) (onLoad k l)

/-- A visit finds the queue empty from which it must take a head. -/
inductive Starved (config : AdaptiveReplacementConfiguration) (k : α)
    (m : AdaptiveReplacementCacheManager α) : Prop
  | b1 (hk : m.currentLocations.lookup k = none) (hside : leftSideSize m ≥ config.maxNodes.val)
      (ht1 : (m.queues t1).length < config.maxNodes.val) (hempty : m.queues b1 = ∅)
  | t1 (hk : m.currentLocations.lookup k = none) (hside : leftSideSize m ≥ config.maxNodes.val)
      (ht1 : (m.queues t1).length ≥ config.maxNodes.val) (hempty : m.queues t1 = ∅)
  | b2 (hk : m.currentLocations.lookup k = none) (hside : leftSideSize m < config.maxNodes.val)
      (hcache : directorySize m ≥ config.maxNodes.val)
      (hdirectory : directorySize m ≥ directoryCapacity config) (hempty : m.queues b2 = ∅)

section Visits

variable {config : AdaptiveReplacementConfiguration}
  {listeners : List (CacheManagerListener α (AdaptiveReplacementCacheManager α) L)}
  {settle : α → AdaptiveReplacementCacheManager α → AdaptiveReplacementCacheManager α}
  {onEvict onLoad : α → L → L} {k : α} {m : AdaptiveReplacementCacheManager α} {l : L}

theorem Freed.freeRoom_eq (h : Responds listeners settle onEvict onLoad)
    {hitList : Option AdaptiveReplacementQueue} {m' : AdaptiveReplacementCacheManager α} {l' : L}
    (hf : Freed settle onEvict hitList m l m' l') :
    freeRoom listeners hitList (m, l) = .ok (m', l') := by
  cases hf with
  | fromT1 htake hx => simp only [freeRoom, if_pos htake, moveHead_cons hx, Java.ok_bind, h.evict]
  | fromT2 htake hx =>
    have hne : ¬(m.queues t2).isEmpty = true := by simp [LinkedHashSet.isEmpty, hx]
    simp only [freeRoom, if_neg htake, if_neg hne, moveHead_cons hx, Java.ok_bind, h.evict]
  | nothing htake hempty =>
    simp only [freeRoom, if_neg htake, if_pos (LinkedHashSet.isEmpty_iff.mpr hempty)]

/-- `freeRoom` takes heads only from queues that have one. -/
theorem exists_freed
    (settle : α → AdaptiveReplacementCacheManager α → AdaptiveReplacementCacheManager α)
    (onEvict : α → L → L) (hitList : Option AdaptiveReplacementQueue)
    (m : AdaptiveReplacementCacheManager α) (l : L) :
    ∃ m' l', Freed settle onEvict hitList m l m' l' := by
  by_cases htake : TakesT1 hitList m
  · cases hx : (m.queues t1).toList with
    | nil => simp [TakesT1, LinkedHashSet.isEmpty, hx] at htake
    | cons x xs => exact ⟨_, _, .fromT1 htake hx⟩
  · cases hx : (m.queues t2).toList with
    | nil => exact ⟨m, l, .nothing htake (LinkedHashSet.ext hx)⟩
    | cons x xs => exact ⟨_, _, .fromT2 htake hx⟩

omit [DecidableEq α] in
theorem adaptedTarget_b1 (h : 0 < (m.queues b1).length) :
    adaptedTarget config b1 m = .ok (min (int32 (m.own.targetT1Size +
      max ((m.queues b2).size.tdiv (m.queues b1).size) 1)) config.maxNodes.val) := by
  rw [adaptedTarget, if_pos rfl, divide_of_pos (LinkedHashSet.size_pos h)]
  rfl

omit [DecidableEq α] in
theorem adaptedTarget_b2 (h : 0 < (m.queues b2).length) :
    adaptedTarget config b2 m = .ok (max (int32 (m.own.targetT1Size -
      max ((m.queues b1).size.tdiv (m.queues b2).size) 1)) 0) := by
  rw [adaptedTarget, if_neg (by decide), divide_of_pos (LinkedHashSet.size_pos h)]
  rfl

omit [DecidableEq α] in
/-- A hit on a ghost queue divides by the size of the queue that holds the key. -/
theorem adaptedTarget_ok (config : AdaptiveReplacementConfiguration)
    {s : AdaptiveReplacementQueue} (hs : s = b1 ∨ s = b2)
    (hk : k ∈ m.queues s) : ∃ target, adaptedTarget config s m = .ok target := by
  have hpos := LinkedHashSet.length_pos_of_mem hk
  rcases hs with rfl | rfl
  · exact ⟨_, adaptedTarget_b1 hpos⟩
  · exact ⟨_, adaptedTarget_b2 hpos⟩

theorem exists_visited
    (settle : α → AdaptiveReplacementCacheManager α → AdaptiveReplacementCacheManager α)
    (onEvict onLoad : α → L → L) (config : AdaptiveReplacementConfiguration) (hm : m.Located) (k : α)
    (l : L) :
    (∃ m' l', Visited config settle onEvict onLoad k m l m' l') ∨ Starved config k m := by
  have hfreed := exists_freed settle onEvict
  cases hk : m.currentLocations.lookup k with
  | some s =>
    left
    by_cases hs : s = t1 ∨ s = t2
    · exact ⟨_, _, .hit hs hk⟩
    · have hghost : s = b1 ∨ s = b2 := by
        rcases s with _ | _ | _ | _ <;> simp at hs ⊢
      obtain ⟨target, htarget⟩ := adaptedTarget_ok config hghost ((hm k s).mp hk)
      obtain ⟨m', l', hf⟩ := hfreed (some s) { m with own := ⟨target⟩ } l
      exact ⟨_, _, .ghostHit hghost hk htarget hf⟩
  | none =>
    by_cases hside : leftSideSize m ≥ config.maxNodes.val
    · by_cases ht1 : (m.queues t1).length < config.maxNodes.val
      · cases hx : (m.queues b1).toList with
        | nil => exact .inr (.b1 hk hside ht1 (LinkedHashSet.ext hx))
        | cons x xs =>
          obtain ⟨m', l', hf⟩ := hfreed none (forget subclass x b1 m) l
          exact .inl ⟨_, _, .sideFull hk hside ht1 hx hf⟩
      · cases hx : (m.queues t1).toList with
        | nil => exact .inr (.t1 hk hside (not_lt.mp ht1) (LinkedHashSet.ext hx))
        | cons x xs => exact .inl ⟨_, _, .t1Full hk hside (not_lt.mp ht1) hx⟩
    · by_cases hcache : directorySize m ≥ config.maxNodes.val
      · by_cases hdirectory : directorySize m ≥ directoryCapacity config
        · cases hx : (m.queues b2).toList with
          | nil => exact .inr (.b2 hk (not_le.mp hside) hcache hdirectory (LinkedHashSet.ext hx))
          | cons x xs =>
            obtain ⟨m', l', hf⟩ := hfreed none (forget subclass x b2 m) l
            exact .inl ⟨_, _, .directoryFull hk (not_le.mp hside) hcache hdirectory hx hf⟩
        · obtain ⟨m', l', hf⟩ := hfreed none m l
          exact .inl ⟨_, _, .cacheFull hk (not_le.mp hside) hcache (not_le.mp hdirectory) hf⟩
      · exact .inl ⟨_, _, .room hk (not_le.mp hside) (not_le.mp hcache)⟩

theorem Visited.visit_eq (h : Responds listeners settle onEvict onLoad) (hs : Settles subclass settle)
    (hm : m.Filed) {m' : AdaptiveReplacementCacheManager α} {l' : L}
    (hv : Visited config settle onEvict onLoad k m l m' l') :
    (manager config).visit listeners k (m, l) = .ok (m', l') := by
  have hinsert (m' : AdaptiveReplacementCacheManager α) (l' : L) :
      insertNode subclass listeners k t1 (m', l') = .ok (m'.enqueue k t1, onLoad k l') := by
    rw [insertNode_ok h]
    rfl
  cases hv with
  | hit hq hk =>
    simp only [manager, MultipleQueueCacheManager.visit, hk, onHit, if_pos hq, moveNode_ok h]
    rcases hq with rfl | rfl <;> rfl
  | @ghostHit s _ _ _ hq hk htarget hf =>
    have hnot : ¬(s = t1 ∨ s = t2) := by rcases hq with rfl | rfl <;> decide
    simp only [manager, MultipleQueueCacheManager.visit, hk, onHit, if_neg hnot, htarget,
      Java.ok_bind, hf.freeRoom_eq h, moveNode_ok h]
    rcases hq with rfl | rfl <;> rfl
  | sideFull hk hside ht1 hx hf =>
    simp only [manager, MultipleQueueCacheManager.visit, hk, onMiss, if_pos hside,
      if_pos (LinkedHashSet.size_lt_val.mpr ht1), removeNode_cons hx, Java.ok_bind, hf.freeRoom_eq h, hinsert]
  | t1Full hk hside ht1 hx =>
    have hevict := evictNode_cons (l := l) h hs (fun _ _ => rfl) hm hx
    simp only [manager, MultipleQueueCacheManager.visit, hk, onMiss, if_pos hside,
      if_neg (mt LinkedHashSet.size_lt_val.mp (not_lt.mpr ht1)), hevict, Java.ok_bind, hinsert]
  | directoryFull hk hside hcache hdirectory hx hf =>
    simp only [manager, MultipleQueueCacheManager.visit, hk, onMiss, if_neg (not_le.mpr hside),
      if_pos hcache, if_pos hdirectory, removeNode_cons hx, Java.ok_bind, hf.freeRoom_eq h, hinsert]
  | cacheFull hk hside hcache hdirectory hf =>
    simp only [manager, MultipleQueueCacheManager.visit, hk, onMiss, if_neg (not_le.mpr hside),
      if_pos hcache, if_neg (not_le.mpr hdirectory), Java.ok_bind, hf.freeRoom_eq h, hinsert]
  | room hk hside hcache =>
    simp only [manager, MultipleQueueCacheManager.visit, hk, onMiss, if_neg (not_le.mpr hside),
      if_neg (not_le.mpr hcache), Java.ok_bind, hinsert]

theorem Starved.visit_error (h : Starved config k m) (l : L) :
    (manager config).visit listeners k (m, l) = .error .noSuchElement := by
  cases h with
  | b1 hk hside ht1 hempty =>
    simp only [manager, MultipleQueueCacheManager.visit, hk, onMiss, if_pos hside,
      if_pos (LinkedHashSet.size_lt_val.mpr ht1), removeNode_empty hempty, Java.error_bind]
  | t1 hk hside ht1 hempty =>
    simp only [manager, MultipleQueueCacheManager.visit, hk, onMiss, if_pos hside,
      if_neg (mt LinkedHashSet.size_lt_val.mp (not_lt.mpr ht1)), evictNode_empty hempty,
      Java.error_bind]
  | b2 hk hside hcache hdirectory hempty =>
    simp only [manager, MultipleQueueCacheManager.visit, hk, onMiss, if_neg (not_le.mpr hside),
      if_pos hcache, if_pos hdirectory, removeNode_empty hempty, Java.error_bind]

/-- A visit has one of the effects listed by `Visited`, or takes a head where there is none. -/
theorem visit_cases (config : AdaptiveReplacementConfiguration)
    (h : Responds listeners settle onEvict onLoad) (hs : Settles subclass settle)
    (hm : m.Located) (k : α) (l : L) :
    (∃ m' l', (manager config).visit listeners k (m, l) = .ok (m', l') ∧
      Visited config settle onEvict onLoad k m l m' l') ∨
    ((manager config).visit listeners k (m, l) = .error .noSuchElement ∧ Starved config k m) := by
  rcases exists_visited settle onEvict onLoad config hm k l with ⟨m', l', hv⟩ | hstarved
  · exact .inl ⟨m', l', hv.visit_eq h hs hm.filed, hv⟩
  · exact .inr ⟨hstarved.visit_error l, hstarved⟩

end Visits

end CachePolicies.AdaptiveReplacementCacheManager
