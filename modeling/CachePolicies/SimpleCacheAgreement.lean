import CachePolicies.Policies
import CachePolicies.SimpleCaches

/-!
# The agreement of store and policy

Every policy with exact locations keeps them under a listener that removes what is
evicted. The MQ manager, whose locations can be stale elsewhere, has no ghosts there and
so drops none from `qOut`.
-/

namespace CachePolicies

open MultipleQueueCacheManager

variable {α : Type} [DecidableEq α]

/-! ## The MQ manager without ghosts -/

namespace MQCacheManager

open MQQueue

/-- The invariant of the MQ manager under a listener that removes what is evicted. -/
structure Ghostless (config : MQConfiguration) (m : MQCacheManager α) : Prop where
  sound : Sound config m
  exact : Exact m
  qOut_empty : m.queues qOut = ∅

section Visits

variable {L : Type} {clock : ℤ → ℤ} {config : MQConfiguration}
  {listeners : List (CacheManagerListener α (MQCacheManager α) L)} {onEvict onLoad : α → L → L}
  {k : α} {m m' : MQCacheManager α} {l l' : L}

theorem qOut_demotions (m : MQCacheManager α) :
    (demotions clock config m).queues qOut = m.queues qOut := by
  refine demotions_induction (P := fun m' => m'.queues qOut = m.queues qOut) rfl ?_
  intro i m₁ hi hn hm₁
  rcases demote_cases clock config i m₁ with ⟨hqueues, -⟩ | ⟨x, -, hqueues, -⟩
  · rw [hqueues, hm₁]
  · rw [hqueues, queues_relocate_of_ne (by simp) (by simp), hm₁]

/-- The evicted key does not stay in `qOut`. -/
theorem FreedUp.qOut_empty
    (hf : FreedUp config (MultipleQueueCacheManager.remove subclass) onEvict m l m' l')
    (h : m.queues qOut = ∅) : m'.queues qOut = ∅ := by
  cases hf with
  | room => exact h
  | @pushed i x xs m₁ hfull hfirst hx htrimmed =>
    have hempty : m₁.queues MQQueue.qOut = ∅ := by
      cases htrimmed with
      | kept => exact h
      | dropped _ hy =>
        rw [h] at hy
        cases hy
    rw [queues_remove_relocate hempty (by simp) (by simp), hempty]

theorem Visited.ghostless (hn : 1 ≤ queuesSize config) (hc : 2 ≤ config.maxNodes.val)
    (h : Ghostless config m)
    (hv : Visited clock config (MultipleQueueCacheManager.remove subclass) onEvict onLoad k m l
      m' l') :
    Ghostless config m' := by
  have hmax : qOutMax config = config.maxNodes.val / 2 := qOutMax_eq (by omega)
  have hsize : (m.queues MQQueue.qOut).length < qOutMax config := by
    rw [h.qOut_empty, LinkedHashSet.length_empty]
    omega
  refine ⟨(hv.sound (.inr rfl) hn h.sound).1,
    hv.exact (.inr rfl) h.sound (.inr (.inr hsize)) h.exact, ?_⟩
  obtain ⟨hentered⟩ := hv
  cases hentered with
  | hit hk hj =>
    rw [qOut_demotions, modified, queues_setMetadata, queues_relocate_of_ne (by simp) (by simp),
      queues_logged, h.qOut_empty]
  | ghostHit hk =>
    have hmem := (h.exact.located k MQQueue.qOut).mp hk
    rw [h.qOut_empty] at hmem
    exact absurd hmem (LinkedHashSet.notMem_empty k)
  | missed hk hfreed =>
    rw [qOut_demotions, queues_enqueue_of_ne (by simp)]
    simp only [noted, queues_setMetadata, queues_getMetadata]
    exact hfreed.qOut_empty h.qOut_empty

theorem ghostless_initial (hc : 1 ≤ config.maxNodes.val) : Ghostless config (initial (α := α)) :=
  ⟨sound_initial hc, ⟨located_empty, fun k => by simp [initial]⟩, rfl⟩

theorem Ghostless.remove (h : Ghostless config m) (k : α) :
    Ghostless config (MultipleQueueCacheManager.remove subclass k m) := by
  refine ⟨h.sound.remove k, ?_, ?_⟩
  · rw [MultipleQueueCacheManager.remove]
    split
    · exact h.exact
    · next q hk => exact h.exact.forget hk
  · have hle := length_remove_le subclass k m MQQueue.qOut
    rw [h.qOut_empty, LinkedHashSet.length_empty] at hle
    exact LinkedHashSet.eq_empty_of_length hle

theorem storeProtocol (config : MQConfiguration) (hc : 2 ≤ config.maxNodes.val)
    (hn : 1 ≤ queuesSize config) :
    Protocol (manager config (α := α)) config.maxNodes.val (Ghostless config) (Fits config)
      fun settle => settle = MultipleQueueCacheManager.remove subclass where
  initial := ghostless_initial (by omega)
  visit hr hs _ k l h hfits := by
    subst hs
    obtain ⟨m', l', hv⟩ := h.sound.exists_visited (by omega) hn hfits l
    exact ⟨m', l', hv.visit_eq hr hn, hv.ghostless hn hc h, (hv.sound (.inr rfl) hn h.sound).2⟩
  remove h _ := ⟨_, rfl, h.remove _, resident_remove h.sound.tidy.filed⟩
  clear h := ⟨ghostless_initial (by omega),
    ((protocol config (by omega) hn).clear h.sound).2⟩
  size h := (protocol config (by omega) hn).size h.sound

end Visits

end MQCacheManager

/-! ## All policies -/

namespace Policy

/-- The policies over which a store can be built: direct mapping and LFU are left out. -/
def Stores : Policy α → Prop
  | directMapped _ | lfu _ => False
  | lru _ | fifo _ | fixedReplacement _ | adaptiveReplacement _ | twoQ _ | mq _ => True

/-- The queues agree with `currentLocations`, and with the metadata of the MQ manager. -/
def Consistent : (p : Policy α) → p.manager.State → Prop
  | fixedReplacement _ => fun m : FixedReplacementCacheManager α => m.Located
  | adaptiveReplacement _ => fun m : AdaptiveReplacementCacheManager α => m.Located
  | twoQ _ => fun m : TwoQCacheManager α => m.Located
  | mq _ => fun m : MQCacheManager α => m.Located ∧ MQCacheManager.Covered m
  | lru _ | fifo _ | directMapped _ | lfu _ => fun _ => True

theorem exists_backs {p : Policy α} (hstores : p.Stores) (hp : p.Admissible) :
    ∃ Inv settle, SimpleCache.Backs p.manager p.maxNodes Inv p.Permits settle ∧
      ∀ m, Inv m → p.Consistent m := by
  cases p with
  | lru config =>
    exact ⟨_, _, ⟨((LruCacheManager.protocol config hp).of_fits fun _ _ h => h.2.2).of_settles
      (.inr rfl), fun _ _ => rfl, fun _ _ => rfl, rfl, fun _ _ => ⟨trivial, trivial, trivial⟩⟩,
      fun _ _ => trivial⟩
  | fifo config =>
    exact ⟨_, _, ⟨((FifoCacheManager.protocol config hp).of_fits fun _ _ h => h.2.2).of_settles
      (.inr rfl), fun _ _ => rfl, fun _ _ => rfl, rfl, fun _ _ => ⟨trivial, trivial, trivial⟩⟩,
      fun _ _ => trivial⟩
  | fixedReplacement config =>
    obtain ⟨maxNodes, t1Size, haccepted⟩ := hp
    obtain ⟨hlow, hhigh⟩ := FixedReplacementCacheManager.accepted_bounds haccepted
    exact ⟨_, _, ⟨((FixedReplacementCacheManager.protocol config hlow hhigh).of_fits
      fun _ _ _ => trivial).of_settles (.inr rfl), fun _ _ => rfl, fun _ _ => rfl, rfl,
      fun _ _ => ⟨trivial, trivial, trivial⟩⟩, fun _ h => h.located⟩
  | adaptiveReplacement config =>
    exact ⟨_, _, ⟨((AdaptiveReplacementCacheManager.protocol config hp).of_fits
      fun _ _ h => h.2.1).of_settles (.inr rfl), fun _ _ => rfl, fun _ _ => rfl, rfl,
      fun _ _ => ⟨trivial, trivial, trivial⟩⟩, fun _ h => h.located⟩
  | twoQ config =>
    exact ⟨_, _, ⟨((TwoQCacheManager.protocol config hp).of_fits fun _ _ _ => trivial).of_settles
      (.inr rfl), fun _ _ => rfl, fun _ _ => rfl, rfl, fun _ _ => ⟨trivial, trivial, trivial⟩⟩,
      fun _ h => h.located⟩
  | mq config =>
    have hn := MQCacheManager.one_le_queuesSize hp.2
    refine ⟨_, _, ⟨(MQCacheManager.storeProtocol config hp.1 hn).of_fits fun _ _ h => h.2.1,
      fun _ _ => rfl, fun _ _ => rfl, ?_, fun _ _ => ⟨trivial, trivial, trivial⟩⟩,
      fun _ h => ⟨h.exact.located, h.exact.covered⟩⟩
    have hc := hp.1
    exact ((MQCacheManager.protocol config (by omega) hn).clear
      (MQCacheManager.sound_initial (α := α) (by omega))).2
  | directMapped config => exact hstores.elim
  | lfu config => exact hstores.elim

open SimpleCache

/-- As long as its visits are permitted, no call of a client throws, and after every call the
store holds the resident keys with the values last added under them. -/
theorem agrees_of_reaches {V : Type} (p : Policy α) (hstores : p.Stores) (hp : p.Admissible)
    {history : List (Record (p.manager.State × HashMap α V) (StoreCall α V)
      (Option V × List (Event α)))} {s : p.manager.State × HashMap α V}
    (hrun : Reaches p.manager history s) (hpermits : Meets (SimpleCache.Fits p.Permits) history) :
    Agrees p.manager p.maxNodes history s ∧ p.Consistent s.1 ∧
      ∀ call, SimpleCache.Fits p.Permits s call → ∃ s' o, perform p.manager s call = .ok (s', o) ∧
        ∀ k, call = .get k → o.1 = lastValue k history := by
  obtain ⟨Inv, settle, hbacks, hconsistent⟩ := exists_backs hstores hp
  have hstored := stored_of_reaches hbacks hrun hpermits
  refine ⟨hstored.agrees hbacks, hconsistent _ hstored.inv, fun call hfit => ?_⟩
  obtain ⟨s', o, hok, -, hresult⟩ := hstored.perform hbacks hfit
  exact ⟨s', o, hok, hresult⟩

/-- A removal has made room before two more keys are added to a store of two. -/
theorem agrees_of_reaches_adaptive : ∃ history s,
    Reaches (α := ℕ) (V := ℕ) (adaptiveReplacement AdaptiveReplacementCacheManager.twoNodes).manager
      history s ∧ history.length = 6 ∧
    Agrees (adaptiveReplacement AdaptiveReplacementCacheManager.twoNodes).manager 2 history s := by
  have hrun : Reaches (α := ℕ) (V := ℕ)
      (adaptiveReplacement AdaptiveReplacementCacheManager.twoNodes).manager _ _ :=
    run_of_replay [.add 1 10, .add 2 20, .get 1, .add 3 30, .remove 1, .add 2 21] rfl
  have hp : (adaptiveReplacement (α := ℕ) AdaptiveReplacementCacheManager.twoNodes).Admissible :=
    (by decide : (1 : ℤ) ≤ 2)
  exact ⟨_, _, hrun, rfl, (agrees_of_reaches (adaptiveReplacement _) trivial hp hrun (by decide)).1⟩

end Policy

/-! ## A visit count beyond the range of `int` -/

namespace MQCacheManager

open MQQueue

/-- With a single level no key is ever demoted. -/
def oneQueue : MQConfiguration := ⟨2, 1, 2⟩

/-- The key `0` has been visited `n` times. -/
structure Counted (n : ℕ) (m : MQCacheManager ℕ) : Prop where
  sound : Sound oneQueue m
  location : ∃ i, m.currentLocations.lookup 0 = some (level i)
  count : ∃ data, m.own.metadata.lookup 0 = some data ∧ data.numberOfNodeVisits = int32 n

section Counting

variable {L : Type} {listeners : List (CacheManagerListener ℕ (MQCacheManager ℕ) L)}
  {settle : ℕ → MQCacheManager ℕ → MQCacheManager ℕ} {onEvict onLoad : ℕ → L → L} {n : ℕ}
  {m : MQCacheManager ℕ}

theorem Counted.loggedData (h : Counted n m) :
    (loggedData 0 m).numberOfNodeVisits = int32 ((n + 1 : ℕ) : ℤ) := by
  obtain ⟨data, hdata, hcount⟩ := h.count
  rw [MQCacheManager.loggedData, getMetadata, hdata]
  show int32 (data.numberOfNodeVisits + 1) = _
  rw [hcount, int32_int32_add]
  rfl

theorem Counted.fits_iff (h : Counted n m) :
    Fits oneQueue m (.visit 0) ↔ int32 ((n + 1 : ℕ) : ℤ) ≠ 0 := by
  obtain ⟨i, hi⟩ := h.location
  show FitsAt oneQueue 0 m (m.currentLocations.lookup 0) ↔ _
  rw [hi, ← h.loggedData]
  rfl

/-- The first visit loads the key with the count one. -/
theorem exists_counted (hr : Responds listeners settle onEvict onLoad) (hs : Settles subclass settle)
    (l : L) :
    ∃ m' l', (manager oneQueue).visit listeners 0 (initial, l) = .ok (m', l') ∧ Counted 1 m' := by
  have hsound : Sound oneQueue (initial (α := ℕ)) := sound_initial (by decide)
  obtain ⟨m', l', hv⟩ : ∃ m' l', Visited int32 oneQueue settle onEvict onLoad 0 initial l m' l' :=
    hsound.exists_visited (by decide) (by decide) (by decide) l
  have hok := hv.visit_eq hr (by decide)
  have hsound' := (hv.sound hs (by decide) hsound).1
  obtain ⟨hentered⟩ := hv
  cases hentered with
  | hit hk => cases hk
  | ghostHit hk => cases hk
  | missed hk hfreed =>
    cases hfreed with
    | room => exact ⟨_, _, hok, hsound', ⟨0, rfl⟩, ⟨_, rfl, rfl⟩⟩
    | pushed hfull => exact absurd hfull (by decide)

theorem Counted.visit (hr : Responds listeners settle onEvict onLoad) (hs : Settles subclass settle)
    (h : Counted n m) (hn : int32 ((n + 1 : ℕ) : ℤ) ≠ 0) (l : L) :
    ∃ m', (manager oneQueue).visit listeners 0 (m, l) = .ok (m', l) ∧ Counted (n + 1) m' := by
  obtain ⟨i, hi⟩ := h.location
  obtain ⟨data, hdata, -⟩ := h.count
  obtain ⟨m', l', hv⟩ : ∃ m' l', Visited int32 oneQueue settle onEvict onLoad 0 m l m' l' :=
    h.sound.exists_visited (by decide) (by decide) (h.fits_iff.mpr hn) l
  have hok := hv.visit_eq hr (by decide)
  have hsound := (hv.sound hs (by decide) h.sound).1
  obtain ⟨hentered⟩ := hv
  cases hentered with
  | @hit i j hk hj =>
    refine ⟨_, hok, hsound, ⟨j, ?_⟩, ?_⟩
    · show (modified int32 oneQueue 0 _ _).currentLocations.lookup 0 = _
      rw [modified, currentLocations_setMetadata, lookup_relocate, if_pos rfl]
    · have hlogged : ((MQCacheManager.logged 0 m).own.metadata.lookup 0).isSome := by
        rw [MQCacheManager.logged, lookup_setMetadata, lookup_getMetadata]
        simp
      refine ⟨(MQCacheManager.loggedData 0 m).markAsModified int32 oneQueue
        (MQCacheManager.logged 0 m).own.currentTime, ?_, h.loggedData⟩
      show (modified int32 oneQueue 0 _ _).own.metadata.lookup 0 = _
      rw [modified, setMetadata, own_relocate, if_pos hlogged]
      simp [putMetadata]
  | ghostHit hk => cases hi.symm.trans hk
  | missed hk => cases hi.symm.trans hk

/-- The count wraps round to zero, whose logarithm is no index of a queue. -/
theorem Counted.visit_error (h : Counted n m) (hn : int32 ((n + 1 : ℕ) : ℤ) = 0) (l : L) :
    ∃ e, (manager oneQueue).visit listeners 0 (m, l) = .error e :=
  h.sound.visit_error (by decide) (by decide) (fun hfits => h.fits_iff.mp hfits hn) l

end Counting

theorem storeListeners_responds :
    Responds (SimpleCache.listeners (V := ℕ) (manager (α := ℕ) oneQueue))
      (MultipleQueueCacheManager.remove subclass) (fun x w => (w.1.erase x, recordEviction x w.2))
      fun x w => (w.1, recordLoad x w.2) :=
  SimpleCache.listeners_responds fun _ _ => rfl

/-- Adding the key `0` again and again only counts its visits. -/
theorem exists_reaches_counted {n : ℕ} (hn : n + 1 < 4294967296) : ∃ history s,
    SimpleCache.Reaches (V := ℕ) (manager (α := ℕ) oneQueue) history s ∧ Counted (n + 1) s.1 := by
  induction n with
  | zero =>
    obtain ⟨m', l', hok, hcounted⟩ :=
      exists_counted storeListeners_responds (.inr rfl) (Finmap.insert 0 0 ∅, [])
    have hstep : SimpleCache.perform (manager oneQueue) (initial, ∅) (.add 0 0) =
        .ok ((m', l'.1), none, l'.2) := by
      rw [SimpleCache.perform_add fun _ _ => rfl, hok, Java.ok_bind]
    exact ⟨_, _, Run.start.call hstep, hcounted⟩
  | succ n ih =>
    obtain ⟨history, s, hrun, hcounted⟩ := ih (by omega)
    obtain ⟨m', hok, hcounted'⟩ := hcounted.visit storeListeners_responds (.inr rfl)
      (by unfold int32; omega) (Finmap.insert 0 0 s.2, [])
    have hstep : SimpleCache.perform (manager oneQueue) s (.add 0 0) =
        .ok ((m', Finmap.insert 0 0 s.2), none, []) := by
      rw [SimpleCache.perform_add fun _ _ => rfl, hok, Java.ok_bind]
    exact ⟨_, _, hrun.call hstep, hcounted'⟩

end MQCacheManager

open MQCacheManager in
/-- The last of `2^32` additions under one key throws. -/
theorem Policy.not_agrees_of_reaches :
    ¬∀ history s, SimpleCache.Reaches (V := ℕ) (mq (α := ℕ) oneQueue).manager history s →
      ∀ call, ∃ s' o, SimpleCache.perform (mq oneQueue).manager s call = .ok (s', o) := by
  intro h
  obtain ⟨history, s, hrun, hcounted⟩ := exists_reaches_counted (n := 4294967294) (by decide)
  obtain ⟨s', o, hok⟩ : ∃ s' o,
      SimpleCache.perform (MQCacheManager.manager oneQueue) s (.add 0 0) = .ok (s', o) :=
    h history s hrun (.add 0 0)
  obtain ⟨e, herror⟩ : ∃ e, (MQCacheManager.manager oneQueue).visit (SimpleCache.listeners _) 0
      (s.1, Finmap.insert 0 0 s.2, []) = .error e :=
    hcounted.visit_error (by decide) _
  rw [SimpleCache.perform_add fun _ _ => rfl] at hok
  cases hok.symm.trans (by rw [herror, Java.error_bind])

end CachePolicies
