import CachePolicies.CompetitivePolicies

/-!
# Configurations with which policies coincide

With one queue the MQ manager is the LRU manager, and without ghosts the 2Q manager is the FIFO
manager, whatever calls are made: they load and evict the same keys at the same calls. With one
place all policies are the same.
-/

namespace CachePolicies

variable {α : Type} [DecidableEq α]

/-- The states of two managers that are related stay so, whatever the two are asked to do,
and hold the same keys. -/
structure Shadows (P P' : CacheManager α) (Fits : P.State → Call α → Prop)
    (Fits' : P'.State → Call α → Prop) (Related : P.State → P'.State → Prop) : Prop where
  initial : Related P.initial P'.initial
  resident : ∀ {m n}, Related m n → P.resident m = P'.resident n
  visit : ∀ {L : Type} {listeners : List (CacheManagerListener α P.State L)}
    {listeners' : List (CacheManagerListener α P'.State L)} {onEvict onLoad : α → L → L},
    Responds listeners (fun _ m => m) onEvict onLoad →
    Responds listeners' (fun _ n => n) onEvict onLoad →
    ∀ {m : P.State} {n : P'.State} {k : α} {l : L} {w : P.State × L} {w' : P'.State × L},
      Related m n → Fits m (.visit k) → Fits' n (.visit k) →
      P.visit listeners k (m, l) = .ok w → P'.visit listeners' k (n, l) = .ok w' →
      Related w.1 w'.1
  remove : ∀ {m n k m' n'}, Related m n → Fits m (.remove k) → Fits' n (.remove k) →
    P.remove k m = .ok m' → P'.remove k n = .ok n' → Related m' n'
  clear : ∀ {m n}, Related m n → Related (P.clear m) (P'.clear n)

/-- A call loads and evicts the same keys and leaves the same ones. -/
structure SameCall (P P' : CacheManager α) (r : Record P.State (Call α) (List (Event α)))
    (r' : Record P'.State (Call α) (List (Event α))) : Prop where
  call : r.call = r'.call
  loads : loads r.output = loads r'.output
  evictions : evictions r.output = evictions r'.output
  resident : P.resident r.after = P'.resident r'.after

section Shadows

variable {P P' : CacheManager α} {maxNodes maxNodes' : ℤ} {Inv : P.State → Prop}
  {Inv' : P'.State → Prop} {Fits : P.State → Call α → Prop} {Fits' : P'.State → Call α → Prop}
  {settles : (α → P.State → P.State) → Prop} {settles' : (α → P'.State → P'.State) → Prop}
  {Related : P.State → P'.State → Prop} {m m' : P.State} {n n' : P'.State} {k : α}
  {events events' : List (Event α)}

/-- What is evicted is read off the residents before and after. -/
theorem Reported.toFinset_evictions (h : Reported P maxNodes m k m' events) :
    (evictions events).toFinset = insert k (P.resident m) \ P.resident m' := by
  ext x
  rw [h.resident]
  simp only [List.mem_toFinset, Finset.mem_sdiff, Finset.mem_insert, not_and, not_not]
  constructor
  · intro hx
    exact ⟨.inr (h.evicts_resident x hx).1, fun _ => hx⟩
  · rintro ⟨hx, hevicted⟩
    exact hevicted hx

theorem sameCall_of_reported (h : Reported P maxNodes m k m' events)
    (h' : Reported P' maxNodes' n k n' events') (hbefore : P.resident m = P'.resident n)
    (hafter : P.resident m' = P'.resident n') :
    SameCall P P' ⟨m, .visit k, events, m'⟩ ⟨n, .visit k, events', n'⟩ := by
  have hsets : (evictions events).toFinset = (evictions events').toFinset := by
    rw [h.toFinset_evictions, h'.toFinset_evictions, hbefore, hafter]
  have honce := h.evicts_once
  have honce' := h'.evicts_once
  refine ⟨rfl, ?_, ?_, hafter⟩
  · show loads events = loads events'
    rw [h.loads, h'.loads, hbefore]
  · show evictions events = evictions events'
    generalize evictions events = xs at hsets honce
    generalize evictions events' = ys at hsets honce'
    match xs, ys with
    | [], [] => rfl
    | [], [y] => exact absurd hsets (by simp)
    | [x], [] => exact absurd hsets (by simp)
    | [x], [y] => simpa using hsets

omit [DecidableEq α] in
theorem Shadows.of_fits {Stronger : P.State → Call α → Prop} {Stronger' : P'.State → Call α → Prop}
    (h : Shadows P P' Fits Fits' Related) (hfits : ∀ m call, Stronger m call → Fits m call)
    (hfits' : ∀ n call, Stronger' n call → Fits' n call) :
    Shadows P P' Stronger Stronger' Related where
  initial := h.initial
  resident := h.resident
  visit hr hr' _ _ _ _ _ _ hrelated hm hn := h.visit hr hr' hrelated (hfits _ _ hm) (hfits' _ _ hn)
  remove hrelated hm hn := h.remove hrelated (hfits _ _ hm) (hfits' _ _ hn)
  clear := h.clear

/-- Runs of the two managers load and evict the same keys call by call. -/
theorem Shadows.replay (hshadows : Shadows P P' Fits Fits' Related)
    (h : Protocol P maxNodes Inv Fits settles) (hs : settles fun _ m => m)
    (h' : Protocol P' maxNodes' Inv' Fits' settles') (hs' : settles' fun _ n => n)
    {calls : List (Call α)} (hcalls : Admitted P.perform Fits P.initial calls)
    (hcalls' : Admitted P'.perform Fits' P'.initial calls) :
    ∃ history m history' n, replay P.perform P.initial calls = .ok (history, m) ∧
      replay P'.perform P'.initial calls = .ok (history', n) ∧
      List.Forall₂ (SameCall P P') history history' := by
  have hstep (m : P.State) (n : P'.State) (call : Call α)
      (hrelated : Inv m ∧ Inv' n ∧ Related m n) (hfits : Fits m call) (hfits' : Fits' n call) :
      ∃ m' events n' events', P.perform m call = .ok (m', events) ∧
        P'.perform n call = .ok (n', events') ∧ (Inv m' ∧ Inv' n' ∧ Related m' n') ∧
        SameCall P P' ⟨m, call, events, m'⟩ ⟨n, call, events', n'⟩ := by
    obtain ⟨hm, hn, hrelated⟩ := hrelated
    cases call with
    | visit k =>
      obtain ⟨m', events, hok, hm', hreported⟩ := h.visit_reported hs hm hfits
      obtain ⟨n', events', hok', hn', hreported'⟩ := h'.visit_reported hs' hn hfits'
      have hrelated' : Related m' n' := hshadows.visit recorder_responds recorder_responds hrelated
        hfits hfits' hok hok'
      exact ⟨m', events, n', events', hok, hok', ⟨hm', hn', hrelated'⟩,
        sameCall_of_reported hreported hreported' (hshadows.resident hrelated)
          (hshadows.resident hrelated')⟩
    | remove k =>
      obtain ⟨m', hok, hm', -⟩ := h.remove hm hfits
      obtain ⟨n', hok', hn', -⟩ := h'.remove hn hfits'
      have hrelated' := hshadows.remove hrelated hfits hfits' hok hok'
      refine ⟨m', [], n', [], ?_, ?_, ⟨hm', hn', hrelated'⟩, rfl, rfl, rfl,
        hshadows.resident hrelated'⟩
      · rw [CacheManager.perform, hok, Java.ok_bind]
      · rw [CacheManager.perform, hok', Java.ok_bind]
    | clear =>
      have hrelated' := hshadows.clear hrelated
      exact ⟨_, _, _, _, rfl, rfl, ⟨(h.clear hm).1, (h'.clear hn).1, hrelated'⟩, rfl, rfl, rfl,
        hshadows.resident hrelated'⟩
  obtain ⟨history, m, history', n, hreplay, hreplay', -, hsame⟩ :=
    replayFrom_forall₂ hstep ⟨h.initial, h'.initial, hshadows.initial⟩ .nil hcalls hcalls'
  exact ⟨history, m, history', n, hreplay, hreplay', hsame⟩

end Shadows

namespace CacheHitSimulator

variable {config config' : SimulatorConfiguration α} {maxNodes maxNodes' : ℤ}
  {Inv : config.policy.State → Prop} {Inv' : config'.policy.State → Prop}
  {Fits : config.policy.State → Call α → Prop} {Fits' : config'.policy.State → Call α → Prop}
  {settles : (α → config.policy.State → config.policy.State) → Prop}
  {settles' : (α → config'.policy.State → config'.policy.State) → Prop}
  {Related : config.policy.State → config'.policy.State → Prop}

end CacheHitSimulator

/-! ## One queue -/

namespace MQCacheManager

open MultipleQueueCacheManager MQQueue

variable {L : Type} {config : MQConfiguration}

theorem resident_eq_level (hone : queuesSize config = 1) (m : MQCacheManager α) :
    resident config m = (m.queues (level 0)).toFinset := by
  rw [resident, hone, Finset.range_one, Finset.singleton_biUnion]

theorem FreedUp.level {onEvict : α → L → L} {m m' : MQCacheManager α} {l l' : L}
    (hone : queuesSize config = 1) (h : Sound config m)
    (hf : FreedUp config (fun _ m => m) onEvict m l m' l') :
    (m.queues (level 0)).length < config.maxNodes.val ∧
        m'.queues (level 0) = m.queues (level 0) ∨
      ∃ x xs, (m.queues (level 0)).length ≥ config.maxNodes.val ∧
        (m.queues (level 0)).toList = x :: xs ∧
        m'.queues (level 0) = (m.queues (level 0)).remove x := by
  have hsize := h.cacheSize_eq
  rw [resident_eq_level hone, LinkedHashSet.card_toFinset] at hsize
  cases hf with
  | room hroom => exact .inl ⟨hsize ▸ hroom, rfl⟩
  | @pushed i x xs m₁ hfull hfirst hx htrimmed =>
    obtain ⟨j, _, _, hj, hlt, -⟩ := getFirstNonEmptyQueue_some hfirst
    cases hj
    obtain rfl : i = 0 := by omega
    refine .inr ⟨x, xs, hsize ▸ hfull, hx, ?_⟩
    rw [queues_relocate_source (by simp), htrimmed.queues_level]

end MQCacheManager

/-! ## No ghosts -/

namespace TwoQCacheManager

open MultipleQueueCacheManager TwoQQueue

variable {L : Type} {config : TwoQConfiguration}

/-- No key has been promoted to `am`. -/
structure Unpromoted (config : TwoQConfiguration) (m : TwoQCacheManager α) : Prop where
  bounded : Bounded config m
  am_empty : m.queues am = ∅

/-- Making room takes the head of `a1In`. -/
theorem Unpromoted.reclaimed {onEvict : α → L → L}
    {m m' : TwoQCacheManager α} {l l' : L} (h : Unpromoted config m)
    (hreclaimed : Reclaimed config (fun _ m => m) onEvict m l m' l') :
    m'.queues am = ∅ ∧
      ((m.queues a1In).length < config.maxNodes.val ∧ m'.queues a1In = m.queues a1In ∨
        ∃ x xs, (m.queues a1In).length ≥ config.maxNodes.val ∧ (m.queues a1In).toList = x :: xs ∧
          m'.queues a1In = (m.queues a1In).remove x) := by
  have hsize := h.bounded.cacheSize_eq
  rw [h.am_empty, LinkedHashSet.length_empty, zero_add] at hsize
  cases hreclaimed with
  | room hroom => exact ⟨h.am_empty, .inl ⟨hsize ▸ hroom, rfl⟩⟩
  | @demoted x xs m₁ hfull hin hx htrimmed =>
    have hqueues (q : TwoQQueue) (hq : q ≠ a1Out) :
        m'.queues q = (m.relocate x a1In a1Out).queues q := by
      cases htrimmed with
      | kept => rfl
      | dropped => exact queues_forget_of_ne hq
    refine ⟨?_, .inr ⟨x, xs, hsize ▸ hfull, hx, ?_⟩⟩
    · rw [hqueues am (by decide), queues_relocate_of_ne (by decide) (by decide), h.am_empty]
    · rw [hqueues a1In (by decide), queues_relocate_source (by decide)]
  | evicted hfull hin hx =>
    rw [h.am_empty] at hx
    cases hx

/-- A visit does to `a1In` what the FIFO manager does to its queue. -/
theorem Unpromoted.visit (hp : Admissible config) (hnone : config.kOut.val = 0)
    (hlt : config.maxNodes.val < 2147483647)
    {listeners : List (CacheManagerListener α (TwoQCacheManager α) L)}
    {listeners' : List (CacheManagerListener α (LinkedHashSet α) L)} {onEvict onLoad : α → L → L}
    (hr : Responds listeners (fun _ m => m) onEvict onLoad)
    (hr' : Responds listeners' (fun _ m => m) onEvict onLoad) {m : TwoQCacheManager α} {k : α} {l : L}
    {w : TwoQCacheManager α × L} {w' : LinkedHashSet α × L} (h : Unpromoted config m)
    (hok : (manager config).visit listeners k (m, l) = .ok w)
    (hok' : FifoCacheManager.visit ⟨config.maxNodes⟩ listeners' k (m.queues a1In, l) = .ok w') :
    Unpromoted config w.1 ∧ w.1.queues a1In = w'.1 := by
  obtain ⟨m', l', hvisit, hv⟩ := visit_cases hr (.inl rfl) hp h.bounded.toSound k l
  cases hok.symm.trans hvisit
  have hbounded := hv.bounded h.bounded (fits_of_lt (by omega) m _)
  have hghosts := h.bounded.ghosts_le
  cases hv with
  | hitAm hk =>
    have hmem := (h.bounded.located k am).mp hk
    rw [h.am_empty] at hmem
    exact absurd hmem (LinkedHashSet.notMem_empty k)
  | hitA1In hk =>
    have hmem : k ∈ m.queues a1In := (h.bounded.located k a1In).mp hk
    rw [FifoCacheManager.visit, if_pos hmem] at hok'
    cases hok'
    exact ⟨h, rfl⟩
  | ghostHit hk =>
    have hmem := LinkedHashSet.length_pos_of_mem ((h.bounded.located k a1Out).mp hk)
    omega
  | @missed m₁ l₁ hk hreclaimed =>
    have hnot : k ∉ m.queues a1In := h.bounded.located.filed.notMem_of_none hk _
    obtain ⟨ham, hin⟩ := h.reclaimed hreclaimed
    refine ⟨⟨hbounded, ?_⟩, ?_⟩
    · rw [queues_enqueue_of_ne (by decide), ham]
    · rw [queues_enqueue_self]
      rw [FifoCacheManager.visit, if_neg hnot] at hok'
      rcases hin with ⟨hroom, hin⟩ | ⟨x, xs, hfull, hx, hin⟩
      · rw [loadAndTrim_room hr' (size_add_le hnot hroom)] at hok'
        cases hok'
        rw [hin]
      · rw [loadAndTrim_full hr' (.inl rfl) hnot (lt_size_add hnot hlt hfull) hx] at hok'
        cases hok'
        rw [hin]

end TwoQCacheManager

/-! ## One place -/

section OnePlace

variable {P P' : CacheManager α} {Inv : P.State → Prop} {Inv' : P'.State → Prop}
  {Fits : P.State → Call α → Prop} {Fits' : P'.State → Call α → Prop}
  {settles : (α → P.State → P.State) → Prop} {settles' : (α → P'.State → P'.State) → Prop}

end OnePlace

namespace Policy

open CacheHitSimulator

end Policy

end CachePolicies
