import CachePolicies.CacheHitSimulators
import CachePolicies.DirectMappedManagers
import CachePolicies.LfuManagers
import CachePolicies.MQRuns
import CachePolicies.MultipleQueueProtocols
import CachePolicies.SimpleManagers

/-!
# All the policies under one protocol

`Policy` enumerates the managers with their configurations. All of them keep to the load
and evict protocol, as long as no `int` of the adaptive and MQ managers overflows and the queue
of the LRU and FIFO managers grows no longer than an `int` can tell.
-/

namespace CachePolicies

variable {α : Type} [DecidableEq α]

inductive Policy (α : Type)
  | lru (config : LruConfiguration)
  | fifo (config : FifoConfiguration)
  | fixedReplacement (config : FixedReplacementConfiguration)
  | adaptiveReplacement (config : AdaptiveReplacementConfiguration)
  | twoQ (config : TwoQConfiguration)
  | mq (config : MQConfiguration)
  | directMapped (config : DirectMappedConfiguration α)
  | lfu (config : LfuConfiguration)

namespace Policy

def manager : Policy α → CacheManager α
  | lru config => LruCacheManager.manager config
  | fifo config => FifoCacheManager.manager config
  | fixedReplacement config => FixedReplacementCacheManager.manager config
  | adaptiveReplacement config => AdaptiveReplacementCacheManager.manager config
  | twoQ config => TwoQCacheManager.manager config
  | mq config => MQCacheManager.manager config
  | directMapped config => DirectMappedCacheManager.manager config
  | lfu config => LfuCacheManager.manager config

omit [DecidableEq α] in
def maxNodes : Policy α → ℤ
  | lru config => config.maxNodes.val
  | fifo config => config.maxNodes.val
  | fixedReplacement config => config.maxNodes.val
  | adaptiveReplacement config => config.maxNodes.val
  | twoQ config => config.maxNodes.val
  | mq config => config.maxNodes.val
  | directMapped config => config.maxNodes.val
  | lfu config => config.maxNodes.val

/-- The configurations with which a policy can be used. -/
def Admissible : Policy α → Prop
  | lru config => 1 ≤ config.maxNodes.val
  | fifo config => 1 ≤ config.maxNodes.val
  | fixedReplacement config =>
    ∃ maxNodes t1Size, FixedReplacementConfiguration.new maxNodes t1Size = .ok config
  | adaptiveReplacement config => 1 ≤ config.maxNodes.val
  | twoQ config => TwoQCacheManager.Admissible config
  | mq config => 2 ≤ config.maxNodes.val ∧ 1 ≤ config.queueCount.val
  | directMapped config => DirectMappedCacheManager.Admissible config
  | lfu config => 1 ≤ config.maxNodes.val

/-- The calls which a policy is prepared for: LFU has no working `remove`. -/
def Allows : Policy α → Call α → Prop
  | lfu _, .remove _ => False
  | _, _ => True

/-- No `int` overflows in the visit. -/
def Fits : (p : Policy α) → p.manager.State → Call α → Prop
  | adaptiveReplacement config => AdaptiveReplacementCacheManager.Fits config
  | mq config => MQCacheManager.Fits config
  | lru _ | fifo _ | fixedReplacement _ | twoQ _ | directMapped _ | lfu _ => fun _ _ => True

/-- `size()` tells how long the queue is after the visit. -/
def Counts : (p : Policy α) → p.manager.State → Call α → Prop
  | lru config => LruCacheManager.Fits config
  | fifo config => FifoCacheManager.Fits config
  | fixedReplacement _ | adaptiveReplacement _ | twoQ _ | mq _ | directMapped _ | lfu _ =>
    fun _ _ => True

/-- The calls made in a run. -/
def Permits (p : Policy α) (m : p.manager.State) (call : Call α) : Prop :=
  p.Allows call ∧ p.Fits m call ∧ p.Counts m call

instance (p : Policy α) (call : Call α) : Decidable (p.Allows call) :=
  match p, call with
  | lfu _, .remove _ => .isFalse id
  | lfu _, .visit _ | lfu _, .clear => .isTrue trivial
  | lru _, _ | fifo _, _ | fixedReplacement _, _ | adaptiveReplacement _, _ | twoQ _, _ | mq _, _
  | directMapped _, _ => .isTrue trivial

instance (p : Policy α) (m : p.manager.State) (call : Call α) : Decidable (p.Fits m call) :=
  match p, m with
  | adaptiveReplacement config, (m : AdaptiveReplacementCacheManager α) =>
    inferInstanceAs (Decidable (AdaptiveReplacementCacheManager.Fits config m call))
  | mq config, (m : MQCacheManager α) =>
    inferInstanceAs (Decidable (MQCacheManager.Fits config m call))
  | lru _, _ | fifo _, _ | fixedReplacement _, _ | twoQ _, _ | directMapped _, _ | lfu _, _ =>
    .isTrue trivial

instance (p : Policy α) (m : p.manager.State) (call : Call α) : Decidable (p.Counts m call) :=
  match p, m with
  | lru config, (queue : LinkedHashSet α) =>
    inferInstanceAs (Decidable (LruCacheManager.Fits config queue call))
  | fifo config, (queue : LinkedHashSet α) =>
    inferInstanceAs (Decidable (FifoCacheManager.Fits config queue call))
  | fixedReplacement _, _ | adaptiveReplacement _, _ | twoQ _, _ | mq _, _ | directMapped _, _
  | lfu _, _ => .isTrue trivial

instance (p : Policy α) (m : p.manager.State) (call : Call α) : Decidable (p.Permits m call) :=
  inferInstanceAs (Decidable (_ ∧ _ ∧ _))

/-- Every policy keeps to the protocol, with an invariant of its own. -/
theorem exists_protocol {p : Policy α} (hp : p.Admissible) :
    ∃ Inv settles, Protocol p.manager p.maxNodes Inv p.Permits settles ∧ settles fun _ m => m := by
  cases p with
  | lru config =>
    exact ⟨_, _, (LruCacheManager.protocol config hp).of_fits fun _ _ h => h.2.2, .inl rfl⟩
  | fifo config =>
    exact ⟨_, _, (FifoCacheManager.protocol config hp).of_fits fun _ _ h => h.2.2, .inl rfl⟩
  | fixedReplacement config =>
    obtain ⟨maxNodes, t1Size, haccepted⟩ := hp
    obtain ⟨hlow, hhigh⟩ := FixedReplacementCacheManager.accepted_bounds haccepted
    exact ⟨_, _, (FixedReplacementCacheManager.protocol config hlow hhigh).of_fits
      fun _ _ _ => trivial, .inl rfl⟩
  | adaptiveReplacement config =>
    exact ⟨_, _, (AdaptiveReplacementCacheManager.protocol config hp).of_fits fun _ _ h => h.2.1,
      .inl rfl⟩
  | twoQ config =>
    exact ⟨_, _, (TwoQCacheManager.protocol config hp).of_fits fun _ _ _ => trivial, .inl rfl⟩
  | mq config =>
    have hc : 1 ≤ config.maxNodes.val := by
      have hmax := hp.1
      omega
    exact ⟨_, _, (MQCacheManager.protocol config hc (MQCacheManager.one_le_queuesSize hp.2)).of_fits
      fun _ _ h => h.2.1, .inl rfl⟩
  | directMapped config =>
    exact ⟨_, _, (DirectMappedCacheManager.protocol config hp).of_fits fun _ _ _ => trivial, rfl⟩
  | lfu config =>
    refine ⟨_, _, (LfuCacheManager.protocol config hp).of_fits fun m call h => ?_, rfl⟩
    cases call with
    | visit k => trivial
    | remove k => exact h.1
    | clear => trivial

omit [DecidableEq α] in
theorem allows_visit (p : Policy α) (k : α) : p.Allows (.visit k) := by
  cases p <;> trivial

/-- The simulator over a fresh manager. -/
def simulator (p : Policy α) (fqnSource : List α) (showProgressEvery : JavaInt) :
    SimulatorConfiguration α :=
  ⟨p.manager, fqnSource, showProgressEvery⟩

open CacheHitSimulator

theorem resident_initial (p : Policy α) : p.manager.resident p.manager.initial = ∅ := by
  cases p with
  | lru => rfl
  | fifo => rfl
  | fixedReplacement => rfl
  | adaptiveReplacement => rfl
  | twoQ => rfl
  | mq config =>
    ext x
    simp [manager, MQCacheManager.mem_resident, MQCacheManager.initial]
  | directMapped config => exact DirectMappedCacheManager.resident_new config
  | lfu => rfl

/-- Fewer residents than the largest `int` are counted exactly. -/
theorem permits_of_card {p : Policy α} {m : p.manager.State} {k : α}
    (hcard : (p.manager.resident m).card < 2147483647) (hfits : p.Fits m (.visit k)) :
    p.Permits m (.visit k) := by
  refine ⟨p.allows_visit k, hfits, ?_⟩
  have hlength (queue : LinkedHashSet α) (hqueue : queue.toFinset.card < 2147483647) :
      queue.length < 2147483647 := by
    rw [← LinkedHashSet.card_toFinset]
    omega
  cases p with
  | lru config => exact .inr (.inr (hlength m hcard))
  | fifo config => exact .inr (.inr (hlength m hcard))
  | fixedReplacement config => trivial
  | adaptiveReplacement config => trivial
  | twoQ config => trivial
  | mq config => trivial
  | directMapped config => trivial
  | lfu config => trivial

/-- In a simulation only the sums of the adaptive and MQ managers can leave the range. -/
theorem admitted_permits {p : Policy α} (hp : p.Admissible) {fqnSource trace : List α}
    {showProgressEvery : JavaInt} (hlength : trace.length ≤ 2147483647)
    (hadmitted : Admitted (iterate (p.simulator fqnSource showProgressEvery))
      (fun s fqn => p.Fits s.1.1 (.visit fqn)) (start _) trace) :
    Admitted (iterate (p.simulator fqnSource showProgressEvery))
      (fun s fqn => p.Permits s.1.1 (.visit fqn)) (start _) trace := by
  obtain ⟨Inv, settles, h, hs⟩ := exists_protocol hp
  have hprotocol : Protocol (p.simulator fqnSource showProgressEvery).policy p.maxNodes Inv p.Permits
      settles := h
  refine admitted_of_card hprotocol hs (fun m k => permits_of_card) h.initial ?_ hadmitted
  show (p.manager.resident p.manager.initial).card + trace.length ≤ 2147483647
  rw [p.resident_initial, Finset.card_empty, Nat.zero_add]
  exact hlength

/-- Visits keep to the load and evict protocol in every run of the calls that are permitted,
so what `objectLoaded` does not count are the visits to resident keys. -/
theorem reported_of_reaches (p : Policy α) (hp : p.Admissible) :
    (∀ history m, p.manager.Reaches history m → Meets p.Permits history →
      ∀ k, p.Permits m (.visit k) → ∃ m' events,
        p.manager.perform m (.visit k) = .ok (m', events) ∧
        Reported p.manager p.maxNodes m k m' events) ∧
    (∀ history m, p.manager.Reaches history m → Meets p.Permits history →
      (∀ r ∈ history, ∃ k, r.call = .visit k) →
      (history.length : ℤ) - loadCount history = residentVisits p.manager history) ∧
    ∀ fqnSource showProgressEvery, showProgressEvery.val ≠ 0 → fqnSource.length ≤ 2147483647 →
      Admitted (iterate (p.simulator fqnSource showProgressEvery))
        (fun s fqn => p.Fits s.1.1 (.visit fqn)) (start _) fqnSource →
      ∃ history s report,
        replay (iterate (p.simulator fqnSource showProgressEvery)) (start _) fqnSource =
          .ok (history, s) ∧
        testPerformance (p.simulator fqnSource showProgressEvery) = .ok report ∧
        report.iterations = fqnSource.length ∧ report.hits = report.iterations - report.misses ∧
        report.hits = residentRounds p.manager history := by
  obtain ⟨Inv, settles, h, hs⟩ := exists_protocol hp
  refine ⟨?_, ?_, ?_⟩
  · intro history m hrun hmeets k hpermits
    obtain ⟨m', events, hok, -, hreported⟩ :=
      h.visit_reported hs (h.invariant hs hrun hmeets) hpermits
    exact ⟨m', events, hok, hreported⟩
  · intro history m hrun hmeets hvisits
    have hsum := h.loads_add_residentVisits hs hrun hmeets hvisits
    omega
  · intro fqnSource showProgressEvery hprogress hlength hadmitted
    exact testPerformance_hits (p.simulator fqnSource showProgressEvery) h hs hprogress
      (admitted_permits hp hlength hadmitted) hlength

theorem permits_mq {config : MQConfiguration} {m : MQCacheManager α} {call : Call α} :
    (mq config).Permits m call ↔ MQCacheManager.Fits config m call := by
  simp [Permits, Allows, Fits, Counts]

/-- A ghost of the MQ manager is visited again after a removal has made room. -/
theorem reported_of_reaches_mq : ∃ history m m' events,
    (mq (α := ℕ) MQCacheManager.twoNodes).manager.Reaches history m ∧ history.length = 4 ∧
    (mq MQCacheManager.twoNodes).manager.perform m (.visit 1) = .ok (m', events) ∧
    Reported (mq MQCacheManager.twoNodes).manager 2 m 1 m' events := by
  have hrun : (mq (α := ℕ) MQCacheManager.twoNodes).manager.Reaches _ _ :=
    run_of_replay [.visit 1, .visit 2, .visit 3, .remove 3] rfl
  obtain ⟨hvisit, -, -⟩ := reported_of_reaches (mq (α := ℕ) MQCacheManager.twoNodes)
    ⟨by decide, by decide⟩
  obtain ⟨m', events, hok, hreported⟩ := hvisit _ _ hrun (by decide) 1 (permits_mq.mpr (by decide))
  exact ⟨_, _, m', events, hrun, rfl, hok, hreported⟩

/-- A capacity whose double is beyond the range of `int`. -/
def halfRange : AdaptiveReplacementConfiguration := ⟨1073741824⟩

/-- With `maxNodes = 2^30`, a reachable state of the adaptive manager cannot be visited. -/
theorem not_reported_of_reaches :
    ¬∀ history m, (adaptiveReplacement (α := ℕ) halfRange).manager.Reaches history m → ∀ k,
      ∃ m' events, (adaptiveReplacement halfRange).manager.perform m (.visit k) = .ok (m', events) ∧
        Reported (adaptiveReplacement halfRange).manager 1073741824 m k m' events := by
  intro h
  have hstep (history) (m : AdaptiveReplacementCacheManager ℕ) (call : Call ℕ)
      (hrun : (AdaptiveReplacementCacheManager.manager halfRange).Reaches history m) :
      ∃ m' events, (AdaptiveReplacementCacheManager.manager halfRange).perform m call =
        .ok (m', events) ∧ (AdaptiveReplacementCacheManager.manager halfRange).Reaches
          (⟨m, call, events, m'⟩ :: history) m' := by
    cases call with
    | visit k =>
      obtain ⟨m', events, hok, -⟩ := h history m hrun k
      exact ⟨m', events, hok, hrun.call hok⟩
    | remove k => exact ⟨_, _, rfl, hrun.call rfl⟩
    | clear => exact ⟨_, _, rfl, hrun.call rfl⟩
  obtain ⟨history, m, hreplay, -⟩ :=
    exists_replayFrom hstep Run.start (AdaptiveReplacementCacheManager.overflowCalls 1073741823)
  have hbig : 2147483647 < 2 * halfRange.maxNodes.val := by decide
  have herror := AdaptiveReplacementCacheManager.replay_overflow hbig (n := 1073741823) (by decide)
  cases herror.symm.trans hreplay

end Policy

end CachePolicies
