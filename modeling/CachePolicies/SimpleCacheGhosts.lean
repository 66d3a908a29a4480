import CachePolicies.SimpleCacheAgreement

/-!
# Ghost lists under a store

The listener of a store removes an evicted key from the policy, and with it the ghost that
the policy has just made of the key. A store and a policy that is only visited go in
step until the first visit that makes a ghost, and then no more.
-/

namespace CachePolicies

open MultipleQueueCacheManager

variable {α V : Type} [DecidableEq α]

/-! ## Visits and additions in step -/

namespace SimpleCache

/-- The values are added to a store over one fresh manager, and the keys visited in another:
no call throws, and in the end the two managers are alike. -/
def Undisturbed (policy : CacheManager α) (Same : policy.State → policy.State → Prop)
    (additions : List (α × V)) : Prop :=
  ∃ r r', replay policy.perform policy.initial (additions.map fun a => .visit a.1) = .ok r ∧
    replay (perform policy) (initial policy) (additions.map fun a => .add a.1 a.2) = .ok r' ∧
    Same r.2 r'.2.1

/-- From states of the invariant, a visit has the same effect with and without the store
where `Keeps` holds, and nowhere else. -/
structure LockStep (policy : CacheManager α) (V : Type) (Inv : policy.State → Prop)
    (Same : policy.State → policy.State → Prop) (Keeps : policy.State → α → Prop) : Prop where
  initial : Inv policy.initial
  refl : ∀ m, Same m m
  add : ∀ k m, policy.add k m = m
  keep : ∀ m k, Inv m → Keeps m k → ∃ m' events, Inv m' ∧
    policy.perform m (.visit k) = .ok (m', events) ∧
    ∀ l : StoreMemory α V, ∃ l', policy.visit (listeners policy) k (m, l) = .ok (m', l')
  part : ∀ m k m₁ events m₂ (l l' : StoreMemory α V), Inv m →
    policy.perform m (.visit k) = .ok (m₁, events) →
    policy.visit (listeners policy) k (m, l) = .ok (m₂, l') → Same m₁ m₂ → Keeps m k

/-- The condition under which the visits of a list of calls go in step. -/
def KeepsVisit {policy : CacheManager α} (Keeps : policy.State → α → Prop) (m : policy.State) :
    Call α → Prop
  | .visit k => Keeps m k
  | _ => True

instance {policy : CacheManager α} (Keeps : policy.State → α → Prop) [∀ m k, Decidable (Keeps m k)]
    (m : policy.State) : (call : Call α) → Decidable (KeepsVisit Keeps m call)
  | .visit k => inferInstanceAs (Decidable (Keeps m k))
  | .remove _ => .isTrue trivial
  | .clear => .isTrue trivial

theorem LockStep.undisturbed_iff {policy : CacheManager α} {Inv : policy.State → Prop}
    {Same : policy.State → policy.State → Prop} {Keeps : policy.State → α → Prop}
    (h : LockStep policy V Inv Same Keeps) (additions : List (α × V)) :
    (∀ start, start <+: additions → Undisturbed policy Same start) ↔
      Admitted policy.perform (KeepsVisit Keeps) policy.initial
        (additions.map fun a => .visit a.1) := by
  refine agree_iff_admitted (fun m (s : policy.State × HashMap α V) => s.1 = m ∧ Inv m)
    (fun m s => Same m s.1) ?_ ?_ ?_ [] [] ⟨rfl, h.initial⟩
  · rintro m s ⟨rfl, -⟩
    exact h.refl _
  · rintro m s a ⟨rfl, hm⟩ hkeeps
    obtain ⟨m', events, hm', hok, hstore⟩ := h.keep _ _ hm hkeeps
    obtain ⟨⟨cache', events'⟩, hvisit⟩ := hstore (Finmap.insert a.1 a.2 s.2, [])
    refine ⟨m', events, (m', cache'), (none, events'), hok, ?_, rfl, hm'⟩
    rw [perform_add h.add, hvisit, Java.ok_bind]
  · rintro m s a m₁ events ⟨m₂, cache₂⟩ o ⟨rfl, hm⟩ hok hadd hsame
    rw [perform_add h.add] at hadd
    obtain ⟨⟨m₃, cache₃, events₃⟩, hvisit, hrest⟩ := Java.bind_eq_ok.mp hadd
    cases hrest
    exact h.part _ _ _ _ _ _ _ hm hok hvisit hsame

end SimpleCache

/-! ## Adaptive replacement -/

namespace AdaptiveReplacementCacheManager

open ReplacementCacheManager ReplacementQueue

/-- The invariant of the adaptive manager as long as it has made no ghost. -/
structure Ghostless (config : AdaptiveReplacementConfiguration)
    (m : AdaptiveReplacementCacheManager α) : Prop where
  sound : Sound config m
  b1_empty : m.queues b1 = ∅
  b2_empty : m.queues b2 = ∅

/-- A missed key finds the cache full, but not with keys of `t1` alone. -/
def Pushes (config : AdaptiveReplacementConfiguration) (m : AdaptiveReplacementCacheManager α)
    (k : α) : Prop :=
  m.currentLocations.lookup k = none ∧ (m.queues t1).length < config.maxNodes.val ∧
    (m.queues t1).length + (m.queues t2).length ≥ config.maxNodes.val

instance (config : AdaptiveReplacementConfiguration) (m : AdaptiveReplacementCacheManager α) (k : α) :
    Decidable (Pushes config m k) :=
  inferInstanceAs (Decidable (_ ∧ _ ∧ _))

section Visits

variable {L M : Type} {config : AdaptiveReplacementConfiguration}
  {settle : α → AdaptiveReplacementCacheManager α → AdaptiveReplacementCacheManager α}
  {onEvict onLoad : α → L → L} {k : α} {m m' : AdaptiveReplacementCacheManager α} {l l' : L}

theorem Ghostless.not_located (h : Ghostless config m) {s : AdaptiveReplacementQueue}
    (hs : s = b1 ∨ s = b2) : m.currentLocations.lookup k ≠ some s := by
  intro hk
  have hmem := (h.sound.located k s).mp hk
  rcases hs with rfl | rfl
  · rw [h.b1_empty] at hmem
    exact LinkedHashSet.notMem_empty k hmem
  · rw [h.b2_empty] at hmem
    exact LinkedHashSet.notMem_empty k hmem

theorem Ghostless.pushes (h : Ghostless config m) (hk : m.currentLocations.lookup k = none)
    (hside : leftSideSize m < config.maxNodes.val)
    (hcache : directorySize m ≥ config.maxNodes.val) : Pushes config m k := by
  rw [h.sound.leftSideSize_eq, h.b1_empty, LinkedHashSet.length_empty] at hside
  rw [h.sound.directorySize_eq, h.b1_empty, h.b2_empty, LinkedHashSet.length_empty] at hcache
  exact ⟨hk, by omega, by omega⟩

/-- Where no ghost is made, the manager does not depend on who listens. -/
theorem Visited.transfer (h : Ghostless config m) (hpushes : ¬Pushes config m k)
    (hv : Visited config settle onEvict onLoad k m l m' l')
    (settle' : α → AdaptiveReplacementCacheManager α → AdaptiveReplacementCacheManager α)
    (onEvict' onLoad' : α → M → M) (n : M) :
    ∃ n', Visited config settle' onEvict' onLoad' k m n m' n' := by
  cases hv with
  | hit hs hk => exact ⟨n, .hit hs hk⟩
  | ghostHit hs hk => exact absurd hk (h.not_located hs)
  | sideFull _ _ _ hx =>
    rw [h.b1_empty] at hx
    cases hx
  | t1Full hk hside ht1 hx => exact ⟨_, .t1Full hk hside ht1 hx⟩
  | directoryFull _ _ _ _ hx =>
    rw [h.b2_empty] at hx
    cases hx
  | cacheFull hk hside hcache => exact absurd (h.pushes hk hside hcache) hpushes
  | room hk hside hcache => exact ⟨_, .room hk hside hcache⟩

/-- A ghost that is removed at once leaves no trace. -/
theorem Visited.ghostless (hc : 1 ≤ config.maxNodes.val) (h : Ghostless config m)
    (hfits : Fits config m (.visit k))
    (hv : Visited config (MultipleQueueCacheManager.remove subclass) onEvict onLoad k m l m' l') :
    Ghostless config m' := by
  have hempty (g : GhostQueue) : m'.queues (ghost g) = ∅ := by
    have hg : m.queues (ghost g) = ∅ := by
      cases g with
      | b1 => exact h.b1_empty
      | b2 => exact h.b2_empty
    cases hv with
    | hit hs hk =>
      rw [queues_relocate_of_ne _ (by simp), hg]
      rcases hs with rfl | rfl <;> simp
    | ghostHit hs hk => exact absurd hk (h.not_located hs)
    | sideFull _ _ _ hx =>
      rw [h.b1_empty] at hx
      cases hx
    | t1Full =>
      rw [queues_enqueue_of_ne (by simp), queues_forget_of_ne (by simp), hg]
    | directoryFull _ _ _ _ hx =>
      rw [h.b2_empty] at hx
      cases hx
    | cacheFull _ _ _ _ hf =>
      rw [queues_enqueue_of_ne (by simp)]
      cases hf with
      | fromT1 => rw [queues_remove_relocate h.b1_empty (by simp) (by simp), hg]
      | fromT2 => rw [queues_remove_relocate h.b2_empty (by simp) (by simp), hg]
      | nothing => exact hg
    | room => rw [queues_enqueue_of_ne (by simp), hg]
  exact ⟨hv.sound hc (.inr rfl) h.sound hfits, hempty .b1, hempty .b2⟩

/-- A ghost that nobody removes stays. -/
theorem Visited.haunted (h : Ghostless config m) (hpushes : Pushes config m k)
    (hv : Visited config (fun _ m => m) onEvict onLoad k m l m' l') :
    ∃ g x, x ∈ m'.queues (ghost g) := by
  obtain ⟨hk, ht1, hfull⟩ := hpushes
  cases hv with
  | hit _ hk' => cases hk.symm.trans hk'
  | ghostHit _ hk' => cases hk.symm.trans hk'
  | sideFull _ _ _ hx =>
    rw [h.b1_empty] at hx
    cases hx
  | t1Full _ _ ht1' => exact absurd ht1 (not_lt.mpr ht1')
  | directoryFull _ _ _ _ hx =>
    rw [h.b2_empty] at hx
    cases hx
  | cacheFull _ _ _ _ hf =>
    cases hf with
    | @fromT1 x => exact ⟨.b1, x, mem_enqueue.mpr (.inl (mem_relocate.mpr (.inr ⟨rfl, rfl⟩)))⟩
    | @fromT2 x => exact ⟨.b2, x, mem_enqueue.mpr (.inl (mem_relocate.mpr (.inr ⟨rfl, rfl⟩)))⟩
    | nothing _ hempty =>
      rw [hempty, LinkedHashSet.length_empty] at hfull
      omega
  | room _ _ hcache =>
    rw [h.sound.directorySize_eq, h.b1_empty, h.b2_empty, LinkedHashSet.length_empty] at hcache
    omega

/-- Before there are ghosts, only a visit that makes one can overflow. -/
theorem Ghostless.fits (h : Ghostless config m) (hpushes : ¬Pushes config m k) :
    Fits config m (.visit k) :=
  ⟨fun hk hside hcache => absurd (h.pushes hk hside hcache) hpushes,
    fun hk => absurd hk (h.not_located (.inl rfl))⟩

theorem lockStep (config : AdaptiveReplacementConfiguration) (hc : 1 ≤ config.maxNodes.val) :
    SimpleCache.LockStep (manager config (α := α)) V (Ghostless config)
      (fun m m' => m.queues = m'.queues ∧ m.own.targetT1Size = m'.own.targetT1Size)
      (fun m k => ¬Pushes config m k) where
  initial := ⟨sound_initial hc, rfl, rfl⟩
  refl _ := ⟨rfl, rfl⟩
  add _ _ := rfl
  keep m k h hpushes := by
    have hfiled := h.sound.located.filed
    rcases exists_visited (MultipleQueueCacheManager.remove subclass) recordEviction recordLoad config
      h.sound.located k [] with ⟨m', l', hv⟩ | hstarved
    · obtain ⟨events, hrecorded⟩ := hv.transfer h hpushes (fun _ m => m) recordEviction recordLoad []
      refine ⟨m', events, hv.ghostless hc h (h.fits hpushes),
        hrecorded.visit_eq recorder_responds (.inl rfl) hfiled, fun l => ?_⟩
      obtain ⟨l', hstored⟩ := hv.transfer h hpushes (MultipleQueueCacheManager.remove subclass) _ _ l
      exact ⟨l', hstored.visit_eq (SimpleCache.listeners_responds fun _ _ => rfl) (.inr rfl) hfiled⟩
    · exact absurd hstarved (h.sound.not_starved hc (h.fits hpushes))
  part m k m₁ events m₂ l l' h hok hok' hsame := by
    intro hpushes
    have hfits : Fits config m (.visit k) :=
      ⟨h.sound.capacity_fits hok, fun hk => absurd hk (h.not_located (.inl rfl))⟩
    obtain ⟨m₃, events₃, hok₃, hrecorded⟩ := (visit_cases config recorder_responds (.inl rfl)
      h.sound.located k []).resolve_right fun hstarved => h.sound.not_starved hc hfits hstarved.2
    have hresponds : Responds (SimpleCache.listeners (V := V) (manager config (α := α)))
        (MultipleQueueCacheManager.remove subclass) _ _ :=
      SimpleCache.listeners_responds fun _ _ => rfl
    obtain ⟨m₄, l₄, hok₄, hstored⟩ := (visit_cases config hresponds (.inr rfl)
      h.sound.located k l).resolve_right fun hstarved => h.sound.not_starved hc hfits hstarved.2
    cases hok₃.symm.trans hok
    cases hok₄.symm.trans hok'
    obtain ⟨g, x, hx⟩ := hrecorded.haunted h hpushes
    have hempty := hstored.ghostless hc h hfits
    rw [hsame.1] at hx
    cases g with
    | b1 =>
      rw [hempty.b1_empty] at hx
      exact LinkedHashSet.notMem_empty x hx
    | b2 =>
      rw [hempty.b2_empty] at hx
      exact LinkedHashSet.notMem_empty x hx

end Visits

end AdaptiveReplacementCacheManager

/-! ## 2Q -/

namespace TwoQCacheManager

open TwoQQueue

structure Ghostless (config : TwoQConfiguration) (m : TwoQCacheManager α) : Prop where
  sound : Sound config m
  a1Out_empty : m.queues a1Out = ∅

/-- A missed key finds the cache full and `a1In` above its threshold. -/
def Pushes (config : TwoQConfiguration) (m : TwoQCacheManager α) (k : α) : Prop :=
  m.currentLocations.lookup k = none ∧ cacheSize m ≥ config.maxNodes.val ∧
    (m.queues a1In).size > config.kIn.val

instance (config : TwoQConfiguration) (m : TwoQCacheManager α) (k : α) :
    Decidable (Pushes config m k) :=
  inferInstanceAs (Decidable (_ ∧ _ ∧ _))

section Visits

variable {L M : Type} {config : TwoQConfiguration}
  {settle : α → TwoQCacheManager α → TwoQCacheManager α} {onEvict onLoad : α → L → L} {k : α}
  {m m' : TwoQCacheManager α} {l l' : L}

theorem Ghostless.not_located (h : Ghostless config m) :
    m.currentLocations.lookup k ≠ some a1Out := by
  intro hk
  have hmem := (h.sound.located k a1Out).mp hk
  rw [h.a1Out_empty] at hmem
  exact LinkedHashSet.notMem_empty k hmem

theorem Visited.transfer (h : Ghostless config m) (hpushes : ¬Pushes config m k)
    (hv : Visited config settle onEvict onLoad k m l m' l')
    (settle' : α → TwoQCacheManager α → TwoQCacheManager α) (onEvict' onLoad' : α → M → M) (n : M) :
    ∃ n', Visited config settle' onEvict' onLoad' k m n m' n' := by
  cases hv with
  | hitAm hk => exact ⟨n, .hitAm hk⟩
  | hitA1In hk => exact ⟨n, .hitA1In hk⟩
  | ghostHit hk => exact absurd hk h.not_located
  | missed hk hreclaimed =>
    cases hreclaimed with
    | room hroom => exact ⟨_, .missed hk (.room hroom)⟩
    | demoted hfull hin => exact absurd ⟨hk, hfull, hin⟩ hpushes
    | evicted hfull hin hx => exact ⟨_, .missed hk (.evicted hfull hin hx)⟩

theorem Visited.ghostless (h : Ghostless config m)
    (hv : Visited config (MultipleQueueCacheManager.remove subclass) onEvict onLoad k m l m' l') :
    Ghostless config m' := by
  refine ⟨(hv.sound (.inr rfl) h.sound).1, ?_⟩
  cases hv with
  | hitAm hk => rw [queues_relocate_of_ne (by decide) (by decide), h.a1Out_empty]
  | hitA1In hk => exact h.a1Out_empty
  | ghostHit hk => exact absurd hk h.not_located
  | missed hk hreclaimed =>
    rw [queues_enqueue_of_ne (by decide)]
    cases hreclaimed with
    | room => exact h.a1Out_empty
    | @demoted x xs m₁ hfull hin hx htrimmed =>
      have hempty : (MultipleQueueCacheManager.remove subclass x
          (m.relocate x a1In a1Out)).queues a1Out = ∅ := by
        rw [queues_remove_relocate h.a1Out_empty (by decide) (by decide), h.a1Out_empty]
      cases htrimmed with
      | kept => exact hempty
      | dropped _ hy =>
        rw [hempty] at hy
        cases hy
    | evicted => rw [queues_forget_of_ne (by decide), h.a1Out_empty]

theorem Visited.haunted (hc : 1 ≤ config.kOut.val) (h : Ghostless config m)
    (hpushes : Pushes config m k)
    (hv : Visited config (fun _ m => m) onEvict onLoad k m l m' l') : ∃ x, x ∈ m'.queues a1Out := by
  obtain ⟨hk, hfull, hin⟩ := hpushes
  cases hv with
  | hitAm hk' => cases hk.symm.trans hk'
  | hitA1In hk' => cases hk.symm.trans hk'
  | ghostHit hk' => cases hk.symm.trans hk'
  | missed _ hreclaimed =>
    cases hreclaimed with
    | room hroom => exact absurd hroom (not_lt.mpr hfull)
    | @demoted x xs m₁ _ _ hx htrimmed =>
      have hmem : x ∈ m.queues a1In := LinkedHashSet.mem_of_toList_cons hx
      have hgrown := length_relocate (q := a1Out) (d := a1Out) h.sound.located.filed hmem
      rw [h.a1Out_empty, LinkedHashSet.length_empty] at hgrown
      simp at hgrown
      cases htrimmed with
      | kept =>
        exact ⟨x, mem_enqueue.mpr (.inl (mem_relocate.mpr (.inr ⟨rfl, rfl⟩)))⟩
      | dropped hsize =>
        have hle := ((m.relocate x a1In a1Out).queues a1Out).size_le_length
        omega
    | evicted _ hin' => exact absurd hin (not_lt.mpr hin')

theorem lockStep (config : TwoQConfiguration) (hc : Admissible config) (hout : 1 ≤ config.kOut.val) :
    SimpleCache.LockStep (manager config (α := α)) V (Ghostless config)
      (fun m m' => m.queues = m'.queues) (fun m k => ¬Pushes config m k) where
  initial := ⟨sound_empty hc, rfl⟩
  refl _ := rfl
  add _ _ := rfl
  keep m k h hpushes := by
    have hfiled := h.sound.located.filed
    obtain ⟨m', events, hok, hv⟩ := visit_cases recorder_responds (.inl rfl) hc h.sound k []
    have hstored {L : Type} (onEvict onLoad : α → L → L) (l : L) :=
      hv.transfer h hpushes (MultipleQueueCacheManager.remove subclass) onEvict onLoad l
    obtain ⟨l', hv'⟩ := hstored recordEviction recordLoad []
    refine ⟨m', events, hv'.ghostless h, hok, fun l => ?_⟩
    obtain ⟨l', hv'⟩ := hstored _ _ l
    exact ⟨l', hv'.visit_eq (SimpleCache.listeners_responds fun _ _ => rfl) (.inr rfl) hfiled⟩
  part m k m₁ events m₂ l l' h hok hok' hsame := by
    intro hpushes
    obtain ⟨m₃, events₃, hok₃, hrecorded⟩ :=
      visit_cases recorder_responds (.inl rfl) hc h.sound k []
    have hresponds : Responds (SimpleCache.listeners (V := V) (manager config (α := α)))
        (MultipleQueueCacheManager.remove subclass) _ _ :=
      SimpleCache.listeners_responds fun _ _ => rfl
    obtain ⟨m₄, l₄, hok₄, hstored⟩ := visit_cases hresponds (.inr rfl) hc h.sound k l
    cases hok₃.symm.trans hok
    cases hok₄.symm.trans hok'
    obtain ⟨x, hx⟩ := hrecorded.haunted hout h hpushes
    rw [hsame, (hstored.ghostless h).a1Out_empty] at hx
    exact LinkedHashSet.notMem_empty x hx

end Visits

end TwoQCacheManager

/-! ## MQ -/

namespace MQCacheManager

open MQQueue

/-- A missed key finds the cache full. -/
def Pushes (config : MQConfiguration) (m : MQCacheManager α) (k : α) : Prop :=
  m.currentLocations.lookup k = none ∧ cacheSize config m ≥ config.maxNodes.val

instance (config : MQConfiguration) (m : MQCacheManager α) (k : α) : Decidable (Pushes config m k) :=
  inferInstanceAs (Decidable (_ ∧ _))

section Visits

variable {L M : Type} {clock : ℤ → ℤ} {config : MQConfiguration}
  {settle : α → MQCacheManager α → MQCacheManager α} {onEvict onLoad : α → L → L} {k : α}
  {m m' : MQCacheManager α} {l l' : L}

theorem Ghostless.not_located (h : Ghostless config m) : m.currentLocations.lookup k ≠ some qOut := by
  intro hk
  have hmem := (h.exact.located k qOut).mp hk
  rw [h.qOut_empty] at hmem
  exact LinkedHashSet.notMem_empty k hmem

theorem Visited.transfer (h : Ghostless config m) (hpushes : ¬Pushes config m k)
    (hv : Visited clock config settle onEvict onLoad k m l m' l')
    (settle' : α → MQCacheManager α → MQCacheManager α) (onEvict' onLoad' : α → M → M) (n : M) :
    ∃ n', Visited clock config settle' onEvict' onLoad' k m n m' n' := by
  obtain ⟨hentered⟩ := hv
  cases hentered with
  | hit hk hj => exact ⟨n, .entered (.hit hk hj)⟩
  | ghostHit hk => exact absurd hk h.not_located
  | missed hk hfreed =>
    cases hfreed with
    | room hroom => exact ⟨_, .entered (.missed hk (.room hroom))⟩
    | pushed hfull => exact absurd ⟨hk, hfull⟩ hpushes

theorem Visited.haunted (hpushes : Pushes config m k)
    (hv : Visited clock config (fun _ m => m) onEvict onLoad k m l m' l') :
    ∃ x, x ∈ m'.queues qOut := by
  obtain ⟨hk, hfull⟩ := hpushes
  obtain ⟨hentered⟩ := hv
  cases hentered with
  | hit hk' => cases hk.symm.trans hk'
  | ghostHit hk' => cases hk.symm.trans hk'
  | missed _ hfreed =>
    rw [qOut_demotions, queues_enqueue_of_ne (by simp)]
    simp only [noted, queues_setMetadata, queues_getMetadata]
    cases hfreed with
    | room hroom => exact absurd hroom (not_lt.mpr hfull)
    | @pushed i x => exact ⟨x, mem_relocate.mpr (.inr ⟨rfl, rfl⟩)⟩

/-- Without a queue the first visit throws. -/
theorem Ghostless.visit_error {listeners : List (CacheManagerListener α (MQCacheManager α) L)}
    (hc : 1 ≤ config.maxNodes.val) (h : Ghostless config m) (hn : ¬1 ≤ queuesSize config) (k : α)
    (l : L) : (manager config).visit listeners k (m, l) = .error .indexOutOfBounds := by
  have hzero : queuesSize config = 0 := by omega
  cases hk : m.currentLocations.lookup k with
  | some s =>
    cases s with
    | level i =>
      have hlt := h.sound.tidy.level_lt (h.sound.tidy.placed k i hk)
      omega
    | qOut => exact absurd hk h.not_located
  | none =>
    have hroom : cacheSize config m < config.maxNodes.val := by
      rw [h.sound.cacheSize_eq]
      simp [resident, hzero]
      omega
    have hnumber (data : MQMetadata) : getDesiredQueue config data = .error .indexOutOfBounds := by
      rw [getDesiredQueue, getQueueNumber, hzero, if_neg]
      have hneg : int32 (((0 : ℕ) : ℤ) - 1) = -1 := by decide
      omega
    simp only [MultipleQueueCacheManager.visit, hk, onMiss, freeUpSpace, if_pos hroom,
      Java.ok_bind, hnumber, Java.error_bind]

theorem lockStep (config : MQConfiguration) (hc : 2 ≤ config.maxNodes.val) :
    SimpleCache.LockStep (manager config (α := α)) V (Ghostless config)
      (fun m m' => m.queues = m'.queues)
      (fun m k => 1 ≤ config.queueCount.val ∧ Fits config m (.visit k) ∧ ¬Pushes config m k) where
  initial := ghostless_initial (by omega)
  refl _ := rfl
  add _ _ := rfl
  keep m k h hkeeps := by
    obtain ⟨hqueues, hfits, hpushes⟩ := hkeeps
    have hn := one_le_queuesSize hqueues
    obtain ⟨m', events, hv⟩ : ∃ m' events,
        Visited int32 config (fun _ m => m) recordEviction recordLoad k m [] m' events :=
      h.sound.exists_visited (by omega) hn hfits []
    have hstored {L : Type} (onEvict onLoad : α → L → L) (l : L) :=
      hv.transfer h hpushes (MultipleQueueCacheManager.remove subclass) onEvict onLoad l
    obtain ⟨l', hv'⟩ := hstored recordEviction recordLoad []
    refine ⟨m', events, hv'.ghostless hn hc h, hv.visit_eq recorder_responds hn, fun l => ?_⟩
    obtain ⟨l', hv'⟩ := hstored _ _ l
    exact ⟨l', hv'.visit_eq (SimpleCache.listeners_responds fun _ _ => rfl) hn⟩
  part m k m₁ events m₂ l l' h hok hok' hsame := by
    have hn : 1 ≤ queuesSize config := by
      by_contra hn
      cases hok.symm.trans (h.visit_error (by omega) hn k [])
    have hfits := h.sound.fits (by omega) hn hok
    refine ⟨by unfold queuesSize at hn; omega, hfits, fun hpushes => ?_⟩
    obtain ⟨m₃, events₃, hrecorded⟩ : ∃ m₃ events₃,
        Visited int32 config (fun _ m => m) recordEviction recordLoad k m [] m₃ events₃ :=
      h.sound.exists_visited (by omega) hn hfits []
    have hresponds : Responds (SimpleCache.listeners (V := V) (manager config (α := α)))
        (MultipleQueueCacheManager.remove subclass) _ _ :=
      SimpleCache.listeners_responds fun _ _ => rfl
    obtain ⟨m₄, l₄, hstored⟩ : ∃ m₄ l₄, Visited int32 config
        (MultipleQueueCacheManager.remove subclass)
        (fun x memory => (memory.1.erase x, recordEviction x memory.2))
        (fun x memory => (memory.1, recordLoad x memory.2)) k m l m₄ l₄ :=
      h.sound.exists_visited (by omega) hn hfits l
    cases (hrecorded.visit_eq recorder_responds hn).symm.trans hok
    cases (hstored.visit_eq hresponds hn).symm.trans hok'
    obtain ⟨x, hx⟩ := hrecorded.haunted hpushes
    rw [hsame, (hstored.ghostless hn hc h).qOut_empty] at hx
    exact LinkedHashSet.notMem_empty x hx

end Visits

end MQCacheManager

/-! ## The policies with ghost lists -/

inductive GhostPolicy
  | adaptiveReplacement (config : AdaptiveReplacementConfiguration)
  | twoQ (config : TwoQConfiguration)
  | mq (config : MQConfiguration)

namespace GhostPolicy

open SimpleCache

def manager (α : Type) [DecidableEq α] : GhostPolicy → CacheManager α
  | adaptiveReplacement config => AdaptiveReplacementCacheManager.manager config
  | twoQ config => TwoQCacheManager.manager config
  | mq config => MQCacheManager.manager config

def Admissible : GhostPolicy → Prop
  | adaptiveReplacement config => 1 ≤ config.maxNodes.val
  | twoQ config => 0 ≤ config.kIn.val ∧ config.kIn.val < config.maxNodes.val ∧ 1 ≤ config.kOut.val
  | mq config => 2 ≤ config.maxNodes.val

/-- All queues are the same, and the target of the adaptive manager is. -/
def Same : (p : GhostPolicy) → (p.manager α).State → (p.manager α).State → Prop
  | adaptiveReplacement _ => fun m m' : AdaptiveReplacementCacheManager α =>
    m.queues = m'.queues ∧ m.own.targetT1Size = m'.own.targetT1Size
  | twoQ _ => fun m m' : TwoQCacheManager α => m.queues = m'.queues
  | mq _ => fun m m' : MQCacheManager α => m.queues = m'.queues

/-- The visit returns without making a ghost. -/
def Keeps : (p : GhostPolicy) → (p.manager α).State → α → Prop
  | adaptiveReplacement config => fun (m : AdaptiveReplacementCacheManager α) k =>
    ¬AdaptiveReplacementCacheManager.Pushes config m k
  | twoQ config => fun (m : TwoQCacheManager α) k => ¬TwoQCacheManager.Pushes config m k
  | mq config => fun (m : MQCacheManager α) k => 1 ≤ config.queueCount.val ∧
    MQCacheManager.Fits config m (.visit k) ∧ ¬MQCacheManager.Pushes config m k

instance (p : GhostPolicy) (m : (p.manager α).State) (k : α) : Decidable (p.Keeps m k) :=
  match p, m with
  | adaptiveReplacement config, (m : AdaptiveReplacementCacheManager α) =>
    inferInstanceAs (Decidable ¬AdaptiveReplacementCacheManager.Pushes config m k)
  | twoQ config, (m : TwoQCacheManager α) =>
    inferInstanceAs (Decidable ¬TwoQCacheManager.Pushes config m k)
  | mq config, (m : MQCacheManager α) => inferInstanceAs (Decidable (_ ∧
    MQCacheManager.Fits config m (.visit k) ∧ ¬MQCacheManager.Pushes config m k))

theorem exists_lockStep {p : GhostPolicy} (hp : p.Admissible) :
    ∃ Inv, LockStep (p.manager α) V Inv p.Same p.Keeps := by
  cases p with
  | adaptiveReplacement config => exact ⟨_, AdaptiveReplacementCacheManager.lockStep config hp⟩
  | twoQ config =>
    obtain ⟨hkIn, hlt, hkOut⟩ := hp
    exact ⟨_, TwoQCacheManager.lockStep config ⟨by omega, hkIn, hlt, by omega⟩ hkOut⟩
  | mq config => exact ⟨_, MQCacheManager.lockStep config hp⟩

/-- Additions to a store leave its policy as visits to the same keys would, at every stage,
exactly when no visit makes a ghost (or throws). -/
theorem undisturbed_iff_keeps (p : GhostPolicy) (hp : p.Admissible) (additions : List (α × V)) :
    (∀ start, start <+: additions → Undisturbed (p.manager α) p.Same start) ↔
      Admitted (p.manager α).perform (KeepsVisit p.Keeps) (p.manager α).initial
        (additions.map fun a => .visit a.1) := by
  obtain ⟨Inv, h⟩ := exists_lockStep (α := α) (V := V) hp
  exact h.undisturbed_iff additions

/-- Keys that are added once each only pass through `t1`. -/
theorem undisturbed_once :
    Undisturbed ((adaptiveReplacement AdaptiveReplacementCacheManager.twoNodes).manager ℕ)
      (Same _) [(1, 10), (2, 20), (3, 30), (4, 40)] :=
  (undisturbed_iff_keeps (adaptiveReplacement AdaptiveReplacementCacheManager.twoNodes)
    (by decide : (1 : ℤ) ≤ 2) _).mpr (by decide) _ List.prefix_rfl

/-- The key `2` becomes a ghost in `b1`, but not under a store. -/
theorem not_undisturbed :
    ¬∀ additions : List (ℕ × ℕ),
      Undisturbed ((adaptiveReplacement AdaptiveReplacementCacheManager.twoNodes).manager ℕ)
        (Same _) additions := by
  intro h
  obtain ⟨r, r', hr, hr', hsame⟩ := h [(1, 10), (1, 11), (2, 20), (3, 30)]
  have hvisited : Except.map (fun r => ((r.2 : AdaptiveReplacementCacheManager ℕ).queues b1).toList)
      (.ok r : Java _) = .ok [2] := by
    rw [← hr]
    rfl
  have hadded : Except.map (fun r => ((r.2.1 : AdaptiveReplacementCacheManager ℕ).queues b1).toList)
      (.ok r' : Java _) = .ok [] := by
    rw [← hr']
    rfl
  have hlists := congrArg LinkedHashSet.toList (congrFun hsame.1 b1)
  cases (Except.ok.inj hvisited).symm.trans (hlists.trans (Except.ok.inj hadded))

end GhostPolicy

end CachePolicies
