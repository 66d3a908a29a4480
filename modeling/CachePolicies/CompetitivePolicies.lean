import CachePolicies.BoundedStores
import CachePolicies.Policies

/-!
# Policies against a store that knows the future

The LRU and FIFO managers are queues that evict their head, so what the simulator counts
for them is bounded by what any bounded store has to load for the same trace. Every policy is
such a store. None does better than LRU and FIFO against the stores of its own size: for
each there is a trace on which it misses every time.
-/

namespace CachePolicies

variable {α : Type} [DecidableEq α]

namespace CacheHitSimulator

/-- The rounds of a history, marked where the key was not resident. -/
def marks (P : CacheManager α) (history : List (Record (Progress P) α Unit)) : List (α × Bool) :=
  history.map fun r => (r.call, decide (r.call ∉ P.resident r.before.1.1))

theorem requests_marks (P : CacheManager α) (history : List (Record (Progress P) α Unit)) :
    requests (marks P history) = history.map Record.call := by
  rw [requests, marks, List.map_map]
  rfl

theorem misses_marks (P : CacheManager α) (history : List (Record (Progress P) α Unit)) :
    misses (marks P history) + residentRounds P history = history.length := by
  induction history with
  | nil => rfl
  | cons r history ih =>
    rw [marks, misses] at ih ⊢
    rw [residentRounds, List.map_cons, List.countP_cons, List.length_cons, ← ih]
    by_cases hk : r.call ∈ P.resident r.before.1.1
    · simp [hk]
      omega
    · simp [hk]
      omega

theorem misses_marks_cons (P : CacheManager α) (r : Record (Progress P) α Unit)
    (history : List (Record (Progress P) α Unit)) :
    misses (marks P (r :: history)) =
      misses (marks P history) + if r.call ∈ P.resident r.before.1.1 then 0 else 1 := by
  rw [marks, misses, List.map_cons, List.countP_cons]
  by_cases hk : r.call ∈ P.resident r.before.1.1
  · simp [hk, marks, misses]
  · simp [hk, marks, misses]

variable {config : SimulatorConfiguration α} {maxNodes : ℤ} {Inv : config.policy.State → Prop}
  {Fits : config.policy.State → Call α → Prop}
  {settles : (α → config.policy.State → config.policy.State) → Prop}
  {history : List (Record (Progress config.policy) α Unit)} {s s' : Progress config.policy}
  {fqn : α}

omit [DecidableEq α] in
theorem iterate_of_visit {w : config.policy.State × ℤ} (hprogress : config.showProgressEvery.val ≠ 0)
    (hvisit : config.policy.visit [countingListener] fqn s.1 = .ok w) :
    iterate config s fqn = .ok ((w, int32 (s.2 + 1)), ()) := by
  simp only [iterate, hvisit, Java.ok_bind, remainder, if_neg hprogress]

/-- A policy serves its trace, and loads what it misses. -/
theorem serves (h : Protocol config.policy maxNodes Inv Fits settles) (hs : settles fun _ m => m)
    (hempty : config.policy.resident config.policy.initial = ∅)
    (hrun : Run (iterate config) (start config) history s)
    (hfits : Meets (fun s fqn => Fits s.1.1 (.visit fqn)) history) :
    Inv s.1.1 ∧ Serves maxNodes.toNat ∅ (requests (marks config.policy history)).reverse
      (misses (marks config.policy history)) (config.policy.resident s.1.1) := by
  induction hrun with
  | start =>
    refine ⟨h.initial, ?_⟩
    show Serves _ ∅ [] 0 (config.policy.resident config.policy.initial)
    rw [hempty]
    exact .done ∅
  | @call history s s' fqn o hrun hok ih =>
    obtain ⟨hfit, hrest⟩ := meets_cons.mp hfits
    obtain ⟨hinv, hserves⟩ := ih hrest
    obtain ⟨hinv', hmem, hsub, hcard⟩ := round_effect h hs hinv hfit hok
    refine ⟨hinv', ?_⟩
    have hcard' : (config.policy.resident s'.1.1).card ≤ maxNodes.toNat := by omega
    have hnext := hserves.snoc hmem hcard' hsub
    rw [requests_marks] at hnext ⊢
    rw [List.map_cons, List.reverse_cons]
    rw [misses_marks_cons]
    exact hnext

/-- Where every round is a step of a queue that evicts its head, so is the history. -/
theorem queueRun {n : ℕ} (toList : config.policy.State → List α)
    (hempty : toList config.policy.initial = [])
    (hmem : ∀ m k, k ∈ config.policy.resident m ↔ k ∈ toList m)
    (hstep : ∀ m k l m' l', (toList m).length ≤ n → Fits m (.visit k) →
      config.policy.visit [countingListener] k (m, l) = .ok (m', l') →
      QueueStep n k (toList m) (toList m') ∧ (toList m').length ≤ n)
    (hrun : Run (iterate config) (start config) history s)
    (hfits : Meets (fun s fqn => Fits s.1.1 (.visit fqn)) history) :
    (toList s.1.1).length ≤ n ∧ QueueRun n (marks config.policy history) (toList s.1.1) := by
  induction hrun with
  | start =>
    show (toList config.policy.initial).length ≤ n ∧ QueueRun n [] (toList config.policy.initial)
    rw [hempty]
    exact ⟨Nat.zero_le n, .start⟩
  | @call history s s' fqn o hrun hok ih =>
    obtain ⟨hfit, hrest⟩ := meets_cons.mp hfits
    obtain ⟨hle, hqueue⟩ := ih hrest
    obtain ⟨hnext, hle'⟩ := hstep _ _ _ _ _ hle hfit (visit_of_iterate hok)
    refine ⟨hle', ?_⟩
    have hmark : decide (fqn ∉ config.policy.resident s.1.1) = decide (fqn ∉ toList s.1.1) :=
      decide_eq_decide.mpr (not_congr (hmem _ _))
    rw [marks, List.map_cons]
    show QueueRun n ((fqn, decide (fqn ∉ config.policy.resident s.1.1)) :: _) _
    rw [hmark]
    exact hqueue.request hnext

/-- What the simulator reports is the run of a store that serves the trace. -/
theorem testPerformance_serves (config : SimulatorConfiguration α)
    {Inv : config.policy.State → Prop} {Fits : config.policy.State → Call α → Prop}
    {settles : (α → config.policy.State → config.policy.State) → Prop}
    (h : Protocol config.policy maxNodes Inv Fits settles) (hs : settles fun _ m => m)
    (hempty : config.policy.resident config.policy.initial = ∅)
    (hprogress : config.showProgressEvery.val ≠ 0)
    (hfits : Admitted (iterate config) (fun s fqn => Fits s.1.1 (.visit fqn)) (start config)
      config.fqnSource)
    (hlength : config.fqnSource.length ≤ 2147483647) :
    ∃ history s report, Run (iterate config) (start config) history s ∧
      Meets (fun s fqn => Fits s.1.1 (.visit fqn)) history ∧
      testPerformance config = .ok report ∧ report.misses = misses (marks config.policy history) ∧
      (requests (marks config.policy history)).reverse = config.fqnSource ∧
      Serves maxNodes.toNat ∅ config.fqnSource (misses (marks config.policy history))
        (config.policy.resident s.1.1) := by
  obtain ⟨history, s, report, hreplay, hreport, hiterations, hhits, hrounds⟩ :=
    testPerformance_hits config h hs hprogress hfits hlength
  have hcalls := calls_of_replayFrom hreplay
  rw [List.map_nil, List.reverse_nil, List.nil_append] at hcalls
  have hsum := misses_marks config.policy history
  have hlen : history.length = config.fqnSource.length := by
    rw [← hcalls, List.length_reverse, List.length_map]
  have hmeets := hfits.meets hreplay meets_nil
  have hserves := (serves h hs hempty (Run.start.replayFrom hreplay) hmeets).2
  rw [requests_marks, hcalls] at hserves
  refine ⟨history, s, report, Run.start.replayFrom hreplay, hmeets, hreport, by omega, ?_, hserves⟩
  rw [requests_marks, hcalls]

end CacheHitSimulator

/-! ## The LRU and FIFO managers -/

section Queues

variable {L : Type} {listeners : List (CacheManagerListener α (LinkedHashSet α) L)}
  {onEvict onLoad : α → L → L} {k : α} {queue queue' : LinkedHashSet α} {l l' : L}

theorem loadAndTrim_queueStep (hr : Responds listeners (fun _ m => m) onEvict onLoad)
    {maxNodes : ℤ} (hc : 1 ≤ maxNodes) (hk : k ∉ queue)
    (hle : queue.toList.length ≤ maxNodes.toNat) (hfits : QueueFits maxNodes queue (.visit k))
    (hok : loadAndTrim maxNodes listeners k (queue.add k, l) = .ok (queue', l')) :
    QueueStep maxNodes.toNat k queue.toList queue'.toList ∧
      queue'.toList.length ≤ maxNodes.toNat := by
  have hadd := LinkedHashSet.toList_add hk
  have hsize : (queue.add k).length = queue.toList.length + 1 := by
    rw [LinkedHashSet.length_add hk, LinkedHashSet.length]
  simp only [loadAndTrim, hr.load, Java.ok_bind] at hok
  by_cases hfull : (queue.add k).size > maxNodes
  · have hlt := (LinkedHashSet.lt_size_iff.mp hfull).1
    obtain ⟨x, xs, hx⟩ := List.exists_cons_of_length_pos (l := queue.toList) (by omega)
    have hhead : (queue.add k).toList = x :: (xs ++ [k]) := by rw [hadd, hx, List.cons_append]
    rw [if_pos hfull, LinkedHashSet.take_cons hhead] at hok
    simp only [Java.ok_bind, hr.evict, Except.ok.injEq, Prod.mk.injEq] at hok
    obtain ⟨rfl, rfl⟩ := hok
    rw [LinkedHashSet.toList_remove, hhead, List.erase_cons_head, hx]
    have hnew : k ∉ x :: xs := fun hmem => hk (LinkedHashSet.mem_def.mpr (hx ▸ hmem))
    rw [hx, List.length_cons] at hle hsize
    refine ⟨.evicts hnew ?_, ?_⟩
    · rw [List.length_cons]
      omega
    · rw [List.length_append, List.length_singleton]
      exact hle
  · rw [if_neg hfull, Except.ok.injEq, Prod.mk.injEq] at hok
    obtain ⟨rfl, rfl⟩ := hok
    have hroom := hfits.length_lt hk (not_lt.mp hfull)
    rw [hadd, List.length_append, List.length_singleton]
    rw [LinkedHashSet.length] at hroom
    exact ⟨.grows hk, by omega⟩

theorem LruCacheManager.visit_queueStep (hr : Responds listeners (fun _ m => m) onEvict onLoad)
    (config : LruConfiguration) (hc : 1 ≤ config.maxNodes.val)
    (hle : queue.toList.length ≤ config.maxNodes.val.toNat)
    (hfits : Fits config queue (.visit k))
    (hok : visit config listeners k (queue, l) = .ok (queue', l')) :
    QueueStep config.maxNodes.val.toNat k queue.toList queue'.toList ∧
      queue'.toList.length ≤ config.maxNodes.val.toNat := by
  rw [visit] at hok
  split at hok
  · next hk =>
    cases hok
    have hlist : ((queue.remove k).add k).toList = queue.toList.erase k ++ [k] :=
      LinkedHashSet.toList_add (by simp)
    rw [hlist, List.length_append, List.length_singleton, List.length_erase_add_one hk]
    exact ⟨.moves hk, hle⟩
  · next hk =>
    rw [LinkedHashSet.remove_of_notMem hk] at hok
    exact loadAndTrim_queueStep hr hc hk hle hfits hok

theorem FifoCacheManager.visit_queueStep (hr : Responds listeners (fun _ m => m) onEvict onLoad)
    (config : FifoConfiguration) (hc : 1 ≤ config.maxNodes.val)
    (hle : queue.toList.length ≤ config.maxNodes.val.toNat)
    (hfits : Fits config queue (.visit k))
    (hok : visit config listeners k (queue, l) = .ok (queue', l')) :
    QueueStep config.maxNodes.val.toNat k queue.toList queue'.toList ∧
      queue'.toList.length ≤ config.maxNodes.val.toNat := by
  rw [visit] at hok
  split at hok
  · next hk =>
    cases hok
    exact ⟨.stays hk, hle⟩
  · next hk => exact loadAndTrim_queueStep hr hc hk hle hfits hok

end Queues

namespace Policy

open CacheHitSimulator

/-- The policies whose residents are one queue that evicts its head. -/
def EvictsHead : Policy α → Prop
  | lru _ | fifo _ => True
  | fixedReplacement _ | adaptiveReplacement _ | twoQ _ | mq _ | directMapped _ | lfu _ => False

omit [DecidableEq α] in
theorem one_le_maxNodes {p : Policy α} (hp : p.Admissible) : 1 ≤ p.maxNodes := by
  cases p with
  | lru => exact hp
  | fifo => exact hp
  | fixedReplacement config =>
    obtain ⟨maxNodes, t1Size, haccepted⟩ := hp
    have hbounds := FixedReplacementCacheManager.accepted_bounds haccepted
    show 1 ≤ config.maxNodes.val
    omega
  | adaptiveReplacement => exact hp
  | twoQ => exact hp.1
  | mq config =>
    have hmax := hp.1
    show 1 ≤ config.maxNodes.val
    omega
  | directMapped => exact hp.1
  | lfu => exact hp

variable {p p' : Policy α} {fqnSource : List α} {showProgressEvery : JavaInt}

/-- What the simulator reports of a policy. -/
theorem exists_report (hp : p.Admissible) (hprogress : showProgressEvery.val ≠ 0)
    (hlength : fqnSource.length ≤ 2147483647)
    (hfits : Admitted (iterate (p.simulator fqnSource showProgressEvery))
      (fun s fqn => p.Fits s.1.1 (.visit fqn)) (start _) fqnSource) :
    ∃ history s report,
      Run (iterate (p.simulator fqnSource showProgressEvery)) (start _) history s ∧
      Meets (fun s fqn => p.Permits s.1.1 (.visit fqn)) history ∧
      testPerformance (p.simulator fqnSource showProgressEvery) = .ok report ∧
      report.misses = misses (marks (p.simulator fqnSource showProgressEvery).policy history) ∧
      (requests (marks (p.simulator fqnSource showProgressEvery).policy history)).reverse =
        fqnSource ∧
      Serves p.maxNodes.toNat ∅ fqnSource
        (misses (marks (p.simulator fqnSource showProgressEvery).policy history))
        (p.manager.resident s.1.1) := by
  obtain ⟨Inv, settles, h, hs⟩ := exists_protocol hp
  exact testPerformance_serves (p.simulator fqnSource showProgressEvery) h hs p.resident_initial
    hprogress (admitted_permits hp hlength hfits) hlength

/-- The rounds of LRU and FIFO are those of a queue that evicts its head. -/
theorem exists_queueRun (hp : p.EvictsHead) (hc : 1 ≤ p.maxNodes)
    {history : List (Record (Progress (p.simulator fqnSource showProgressEvery).policy) α Unit)}
    {s : Progress (p.simulator fqnSource showProgressEvery).policy}
    (hrun : Run (iterate (p.simulator fqnSource showProgressEvery)) (start _) history s)
    (hmeets : Meets (fun s fqn => p.Permits s.1.1 (.visit fqn)) history) :
    ∃ l, QueueRun p.maxNodes.toNat
      (marks (p.simulator fqnSource showProgressEvery).policy history) l := by
  cases p with
  | lru config =>
    have hqueue := queueRun LinkedHashSet.toList rfl (fun m k => LinkedHashSet.mem_toFinset)
      (fun m k l m' l' hle hfits hok => LruCacheManager.visit_queueStep countingListener_responds
        config hc hle hfits.2.2 hok) hrun hmeets
    exact ⟨_, hqueue.2⟩
  | fifo config =>
    have hqueue := queueRun LinkedHashSet.toList rfl (fun m k => LinkedHashSet.mem_toFinset)
      (fun m k l m' l' hle hfits hok => FifoCacheManager.visit_queueStep countingListener_responds
        config hc hle hfits.2.2 hok) hrun hmeets
    exact ⟨_, hqueue.2⟩
  | fixedReplacement | adaptiveReplacement | twoQ | mq | directMapped | lfu => exact hp.elim

omit [DecidableEq α] in
theorem admissible_of_evictsHead (hp : p.EvictsHead) (hc : 1 ≤ p.maxNodes) : p.Admissible := by
  cases p with
  | lru => exact hc
  | fifo => exact hc
  | fixedReplacement | adaptiveReplacement | twoQ | mq | directMapped | lfu => exact hp.elim

/-- LRU and FIFO compute no `int` that could overflow. -/
theorem fits_of_evictsHead (hp : p.EvictsHead) (m : p.manager.State) (call : Call α) :
    p.Fits m call := by
  cases p with
  | lru => trivial
  | fifo => trivial
  | fixedReplacement | adaptiveReplacement | twoQ | mq | directMapped | lfu => exact hp.elim

/-- The misses of a run of LRU or FIFO against the loads of a store of `h` keys. -/
theorem misses_le_of_run (hp : p.EvictsHead) (hc : 1 ≤ p.maxNodes)
    {history : List (Record (Progress (p.simulator fqnSource showProgressEvery).policy) α Unit)}
    {s : Progress (p.simulator fqnSource showProgressEvery).policy}
    (hrun : Run (iterate (p.simulator fqnSource showProgressEvery)) (start _) history s)
    (hmeets : Meets (fun s fqn => p.Permits s.1.1 (.visit fqn)) history)
    {h loads : ℕ} {final : Finset α} (hh : 1 ≤ h) (hle : h ≤ p.maxNodes)
    (hserves : Serves h ∅
      (requests (marks (p.simulator fqnSource showProgressEvery).policy history)).reverse
      loads final) :
    (p.maxNodes - h + 1) *
        misses (marks (p.simulator fqnSource showProgressEvery).policy history) ≤
      p.maxNodes * loads + (h - 1) * (p.maxNodes - h) := by
  obtain ⟨l, hqueue⟩ := exists_queueRun hp hc hrun hmeets
  have hbound := hqueue.misses_le hh (by omega) hserves
  obtain ⟨e, he⟩ := Nat.exists_eq_add_of_le (show h ≤ p.maxNodes.toNat by omega)
  obtain ⟨g, rfl⟩ := Nat.exists_eq_add_of_le' hh
  have hmax : p.maxNodes = ((g + 1 + e : ℕ) : ℤ) := by omega
  rw [he, Nat.add_sub_cancel_left, Nat.add_sub_cancel] at hbound
  rw [hmax]
  zify at hbound
  push_cast
  linarith

/-- The rounds that the simulator runs for LRU or FIFO, with what it reports of them. -/
theorem exists_report_of_evictsHead (hp : p.EvictsHead) (hc : 1 ≤ p.maxNodes)
    (hprogress : showProgressEvery.val ≠ 0) (hlength : fqnSource.length ≤ 2147483647) :
    ∃ history s report,
      Run (iterate (p.simulator fqnSource showProgressEvery)) (start _) history s ∧
      Meets (fun s fqn => p.Permits s.1.1 (.visit fqn)) history ∧
      testPerformance (p.simulator fqnSource showProgressEvery) = .ok report ∧
      report.misses = misses (marks (p.simulator fqnSource showProgressEvery).policy history) ∧
      (requests (marks (p.simulator fqnSource showProgressEvery).policy history)).reverse =
        fqnSource := by
  obtain ⟨history, s, report, hrun, hmeets, hreport, hmisses, hrequests, -⟩ :=
    exists_report (admissible_of_evictsHead hp hc) hprogress hlength
      ((admitted_true _ _).mono fun s fqn _ => fits_of_evictsHead hp s.1.1 _)
  exact ⟨history, s, report, hrun, hmeets, hreport, hmisses, hrequests⟩

/-- LRU and FIFO miss at most `maxNodes / (maxNodes - h + 1)` times what a store of `h` keys
that knows the trace has to load, up to a constant that is zero for `h = maxNodes`. -/
theorem misses_le_of_serves (p : Policy α) (hp : p.EvictsHead) (hc : 1 ≤ p.maxNodes)
    (fqnSource : List α) (hlength : fqnSource.length ≤ 2147483647) (showProgressEvery : JavaInt)
    (hprogress : showProgressEvery.val ≠ 0) :
    ∃ report, testPerformance (p.simulator fqnSource showProgressEvery) = .ok report ∧
      ∀ (h loads : ℕ) (final : Finset α), 1 ≤ h → h ≤ p.maxNodes →
        Serves h ∅ fqnSource loads final →
        (p.maxNodes - h + 1) * report.misses ≤ p.maxNodes * loads + (h - 1) * (p.maxNodes - h) := by
  obtain ⟨history, s, report, hrun, hmeets, hreport, hmisses, hrequests⟩ :=
    exists_report_of_evictsHead hp hc hprogress hlength
  refine ⟨report, hreport, ?_⟩
  intro h loads final hh hle hserves
  rw [← hrequests] at hserves
  rw [hmisses]
  exact misses_le_of_run hp hc hrun hmeets hh hle hserves

theorem misses_le_of_serves_pair : ∃ report,
    testPerformance ((lru (α := ℕ) ⟨2⟩).simulator [1, 2, 1, 3] 100) = .ok report ∧
      ∀ (h loads : ℕ) (final : Finset ℕ), 1 ≤ h → (h : ℤ) ≤ 2 →
        Serves h ∅ [1, 2, 1, 3] loads final →
        (2 - h + 1) * report.misses ≤ 2 * loads + ((h : ℤ) - 1) * (2 - h) :=
  misses_le_of_serves (lru ⟨2⟩) trivial (by decide) [1, 2, 1, 3] (by decide) 100 (by decide)

/-- No policy of the same size or smaller misses much less often than LRU and FIFO do. -/
theorem misses_le_of_policy (p p' : Policy α) (hp : p.EvictsHead) (hp' : p'.Admissible)
    (hle : p'.maxNodes ≤ p.maxNodes) (fqnSource : List α)
    (hlength : fqnSource.length ≤ 2147483647) (showProgressEvery : JavaInt)
    (hprogress : showProgressEvery.val ≠ 0)
    (hfits : Admitted (iterate (p'.simulator fqnSource showProgressEvery))
      (fun s fqn => p'.Fits s.1.1 (.visit fqn)) (start _) fqnSource) :
    ∃ report report', testPerformance (p.simulator fqnSource showProgressEvery) = .ok report ∧
      testPerformance (p'.simulator fqnSource showProgressEvery) = .ok report' ∧
      (p.maxNodes - p'.maxNodes + 1) * report.misses ≤
        p.maxNodes * report'.misses + (p'.maxNodes - 1) * (p.maxNodes - p'.maxNodes) := by
  have hone := one_le_maxNodes hp'
  obtain ⟨history, s, report, hrun, hmeets, hreport, hmisses, hrequests⟩ :=
    exists_report_of_evictsHead hp (hone.trans hle) hprogress hlength
  obtain ⟨history', s', report', -, -, hreport', hmisses', -, hserves⟩ :=
    exists_report hp' hprogress hlength hfits
  have hcast : ((p'.maxNodes.toNat : ℕ) : ℤ) = p'.maxNodes := Int.toNat_of_nonneg (by omega)
  rw [← hrequests] at hserves
  have hbound := misses_le_of_run hp (hone.trans hle) hrun hmeets (by omega) (by omega) hserves
  rw [hcast, ← hmisses, hrequests, ← hmisses'] at hbound
  exact ⟨report, report', hreport, hreport', hbound⟩

theorem misses_le_of_policy_twoQ : ∃ report report',
    testPerformance ((fifo (α := ℕ) ⟨3⟩).simulator [1, 2, 1, 3, 2] 100) = .ok report ∧
      testPerformance ((twoQ ⟨2, 1, 1⟩).simulator [1, 2, 1, 3, 2] 100) = .ok report' ∧
      (3 - 2 + 1) * report.misses ≤ 3 * report'.misses + (2 - 1) * (3 - 2) :=
  misses_le_of_policy (fifo ⟨3⟩) (twoQ ⟨2, 1, 1⟩) trivial ⟨by decide, by decide, by decide, by decide⟩
    (by decide) [1, 2, 1, 3, 2] (by decide) 100 (by decide)
    ((admitted_true _ _).mono fun _ _ _ => trivial)

/-! ## A trace that is always missed -/

/-- While every round has missed, and there are more keys than places, the next one can be made
to miss as well. -/
theorem exists_missed (hp : p.Admissible) (hprogress : showProgressEvery.val ≠ 0)
    {elements : Finset α} (hcard : elements.card = p.maxNodes.toNat + 1) {n : ℕ}
    (hn : n ≤ 2147483647)
    (hfits : ∀ trace : List α, trace.length = n → (∀ k ∈ trace, k ∈ elements) →
      Admitted (iterate (p.simulator fqnSource showProgressEvery))
        (fun s fqn => p.Fits s.1.1 (.visit fqn)) (start _) trace) (j : ℕ) (hj : j ≤ n) :
    ∃ trace history s, trace.length = j ∧ (∀ k ∈ trace, k ∈ elements) ∧
      replay (iterate (p.simulator fqnSource showProgressEvery)) (start _) trace =
        .ok (history, s) ∧
      residentRounds (p.simulator fqnSource showProgressEvery).policy history = 0 := by
  obtain ⟨Inv, settles, h, hs⟩ := exists_protocol hp
  have hsteps : ∃ trace history s, trace.length = j ∧ (∀ k ∈ trace, k ∈ elements) ∧
      replay (iterate (p.simulator fqnSource showProgressEvery)) (start _) trace =
        .ok (history, s) ∧
      residentRounds (p.simulator fqnSource showProgressEvery).policy history = 0 ∧
      @Counted α _ (p.simulator fqnSource showProgressEvery) Inv history s := by
    induction j with
    | zero => exact ⟨[], [], _, rfl, by simp, rfl, rfl, h.initial, rfl, rfl⟩
    | succ j ih =>
      obtain ⟨trace, history, s, hlength, hmem, hreplay, hrounds, hcounted⟩ := ih (by omega)
      have hcalls := congrArg List.length (calls_of_replayFrom hreplay)
      rw [List.length_reverse, List.length_map, List.length_append, List.map_nil,
        List.reverse_nil, List.length_nil, Nat.zero_add, hlength] at hcalls
      -- one of the keys has no place
      obtain ⟨k, hk, hnot⟩ : ∃ k ∈ elements, k ∉ p.manager.resident s.1.1 := by
        apply Finset.exists_mem_notMem_of_card_lt_card
        obtain ⟨hsize, hle⟩ := h.size hcounted.inv
        have hsize' : p.manager.cacheSize s.1.1 = (p.manager.resident s.1.1).card := hsize
        have hle' : p.manager.cacheSize s.1.1 ≤ p.maxNodes := hle
        omega
      have hlast : (trace ++ List.replicate (n - j) k).length = n := by
        rw [List.length_append, List.length_replicate, hlength]
        omega
      have hlong := admitted_permits hp (hlast.trans_le hn)
        (hfits (trace ++ List.replicate (n - j) k) hlast fun x hx =>
          (List.mem_append.mp hx).elim (hmem x) fun hx => List.eq_of_mem_replicate hx ▸ hk)
      have hpermits : p.Permits s.1.1 (.visit k) := by
        have hrest := hlong.of_append hreplay
        rw [show n - j = (n - j - 1) + 1 by omega, List.replicate_succ] at hrest
        exact hrest.1
      obtain ⟨s', hok, hcounted'⟩ := hcounted.iterate h hs hprogress hpermits (by omega)
      refine ⟨trace ++ [k], _, s', by rw [List.length_append, hlength, List.length_singleton], ?_,
        replay_concat hreplay hok, ?_, hcounted'⟩
      · intro x hx
        rcases List.mem_append.mp hx with hx | hx
        · exact hmem x hx
        · exact List.mem_singleton.mp hx ▸ hk
      · have hmiss : k ∉ (p.simulator fqnSource showProgressEvery).policy.resident s.1.1 := hnot
        rw [residentRounds, hrounds, if_neg hmiss]
  obtain ⟨trace, history, s, hlength, hmem, hreplay, hrounds, -⟩ := hsteps
  exact ⟨trace, history, s, hlength, hmem, hreplay, hrounds⟩

/-- For every policy there is a trace, of any length and over one key more than it has places,
on which the simulator reports a miss every time, while a store of the same size that knows
the trace loads one key in `maxNodes` rounds, after the first ones. -/
theorem exists_misses (p : Policy α) (hp : p.Admissible) (showProgressEvery : JavaInt)
    (hprogress : showProgressEvery.val ≠ 0) (elements : Finset α)
    (hcard : elements.card = p.maxNodes.toNat + 1) (n : ℕ) (hn : n ≤ 2147483647)
    (hfits : ∀ trace : List α, trace.length = n → (∀ k ∈ trace, k ∈ elements) →
      Admitted (iterate (p.simulator trace showProgressEvery))
        (fun s fqn => p.Fits s.1.1 (.visit fqn)) (start _) trace) :
    ∃ trace report, trace.length = n ∧ (∀ k ∈ trace, k ∈ elements) ∧
      testPerformance (p.simulator trace showProgressEvery) = .ok report ∧ report.misses = n ∧
      ∃ loads final, Serves p.maxNodes.toNat ∅ trace loads final ∧
        p.maxNodes * loads ≤ p.maxNodes * (p.maxNodes + 1) + n := by
  have hone := one_le_maxNodes hp
  obtain ⟨trace, history, s, hlength, hmem, hreplay, hrounds⟩ :=
    @exists_missed α _ p [] _ hp hprogress _ hcard n hn hfits n le_rfl
  obtain ⟨Inv, settles, h, hs⟩ := exists_protocol hp
  obtain ⟨history', s', report, hreplay', hreport, hiterations, hhits, hrounds'⟩ :=
    testPerformance_hits (p.simulator trace showProgressEvery) h hs hprogress
      (admitted_permits hp (hlength.trans_le hn) (hfits trace hlength hmem))
      (hlength.trans_le hn)
  have hsame : history' = history := (Prod.mk.inj (Except.ok.inj (hreplay'.symm.trans hreplay))).1
  obtain ⟨loads, final, hserves, hloads⟩ : ∃ loads final,
      Serves p.maxNodes.toNat ∅ trace loads final ∧
        p.maxNodes.toNat * loads ≤ p.maxNodes.toNat * (elements \ ∅).card + trace.length :=
    Serves.exists_of_card (by omega) hcard hmem
  refine ⟨trace, report, hlength, hmem, hreport, ?_, loads, final, hserves, ?_⟩
  · have htotal : report.iterations = trace.length := hiterations
    have hnone : report.hits = 0 := by
      rw [hrounds', hsame]
      exact congrArg Nat.cast hrounds
    omega
  · rw [Finset.sdiff_empty, hcard, hlength] at hloads
    have hcast : ((p.maxNodes.toNat : ℕ) : ℤ) = p.maxNodes := Int.toNat_of_nonneg (by omega)
    zify at hloads
    rwa [hcast] at hloads

theorem exists_misses_lfu : ∃ trace report, trace.length = 7 ∧ (∀ k ∈ trace, k ∈ Finset.range 3) ∧
    testPerformance ((lfu (α := ℕ) ⟨2⟩).simulator trace 100) = .ok report ∧ report.misses = 7 ∧
    ∃ loads final, Serves 2 ∅ trace loads final ∧ (2 : ℤ) * loads ≤ 2 * (2 + 1) + 7 :=
  exists_misses (lfu ⟨2⟩) (show (1 : ℤ) ≤ 2 by decide) 100 (by decide) (Finset.range 3) rfl 7
    (by decide) fun _ _ _ => (admitted_true _ _).mono fun _ _ _ => trivial

end Policy

end CachePolicies
