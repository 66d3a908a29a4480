import CachePolicies.ArrivalQueues
import CachePolicies.CompetitivePolicies

/-!
# Larger FIFO caches

The FIFO manager is a queue that evicts in the order of arrival. What holds for LRU, that a
larger cache loses no hit, fails for it: there are traces on which one place more costs as many
misses as one likes.
-/

namespace CachePolicies

variable {α : Type} [DecidableEq α]

/-- Where every round passes its key through a queue, the rounds of a trace pass it through an
empty one. -/
theorem CacheHitSimulator.passes_of_run {config : SimulatorConfiguration α} {n : ℕ}
    {Fits : config.policy.State → Call α → Prop} (toList : config.policy.State → List α)
    (hempty : toList config.policy.initial = [])
    (hstep : ∀ m k l m' l', (toList m).length ≤ n → Fits m (.visit k) →
      config.policy.visit [countingListener] k (m, l) = .ok (m', l') →
      Passes n (toList m) [k] (if k ∈ config.policy.resident m then 0 else 1) (toList m'))
    {history : List (Record (Progress config.policy) α Unit)} {s : Progress config.policy}
    (hrun : Run (iterate config) (start config) history s)
    (hfits : Meets (fun s fqn => Fits s.1.1 (.visit fqn)) history) :
    Passes n [] (requests (marks config.policy history)).reverse
      (misses (marks config.policy history)) (toList s.1.1) := by
  induction hrun with
  | start =>
    show Passes n [] [] 0 (toList config.policy.initial)
    rw [hempty]
    exact .done []
  | call hrun hok ih =>
    obtain ⟨hfit, hrest⟩ := meets_cons.mp hfits
    have hpasses := ih hrest
    have hround := hstep _ _ _ _ _ (hpasses.length_le (Nat.zero_le n)) hfit (visit_of_iterate hok)
    replace hpasses := hpasses.append hround
    rw [requests_marks] at hpasses ⊢
    rw [misses_marks_cons, List.map_cons, List.reverse_cons]
    exact hpasses

namespace FifoCacheManager

open CacheHitSimulator

variable {config : FifoConfiguration}

theorem visit_passes {L : Type} {listeners : List (CacheManagerListener α (LinkedHashSet α) L)}
    {onEvict onLoad : α → L → L} (hr : Responds listeners (fun _ m => m) onEvict onLoad)
    (hc : 1 ≤ config.maxNodes.val) {k : α} {queue queue' : LinkedHashSet α} {l l' : L}
    (hle : queue.toList.length ≤ config.maxNodes.val.toNat)
    (hfits : Fits config queue (.visit k))
    (hok : visit config listeners k (queue, l) = .ok (queue', l')) :
    Passes config.maxNodes.val.toNat queue.toList [k] (if k ∈ queue.toFinset then 0 else 1)
      queue'.toList := by
  obtain ⟨hstep, hle'⟩ := visit_queueStep hr config hc hle hfits hok
  simp only [LinkedHashSet.mem_toFinset]
  by_cases hk : k ∈ queue
  · rw [visit, if_pos hk, Except.ok.injEq, Prod.mk.injEq] at hok
    rw [if_pos hk, ← hok.1]
    exact .hit hk (.done _)
  · rw [if_neg hk]
    have hnot : k ∉ queue.toList := hk
    generalize queue.toList = before, queue'.toList = after at hstep hle hle' hnot
    cases hstep with
    | stays hk' => exact absurd hk' hnot
    | moves hk' => exact absurd hk' hnot
    | grows hk' =>
      rw [List.length_append, List.length_singleton] at hle'
      exact .grow hk' (by omega) (.done _)
    | evicts hk' hfull => exact .replace hk' (Nat.le_antisymm hle hfull) (.done _)

/-- What the simulator reports is what an empty queue misses. -/
theorem exists_report_passes (config : FifoConfiguration) (hc : 1 ≤ config.maxNodes.val)
    (fqnSource : List α) (hlength : fqnSource.length ≤ 2147483647) (showProgressEvery : JavaInt)
    (hprogress : showProgressEvery.val ≠ 0) :
    ∃ (report : Performance) (misses : ℕ) (final : List α),
      testPerformance ((Policy.fifo config).simulator fqnSource showProgressEvery) = .ok report ∧
      report.misses = misses ∧ Passes config.maxNodes.val.toNat [] fqnSource misses final := by
  obtain ⟨history, s, report, hrun, hmeets, hreport, hmisses, hrequests⟩ :=
    Policy.exists_report_of_evictsHead (p := Policy.fifo config) trivial hc hprogress hlength
  have hpasses := passes_of_run LinkedHashSet.toList rfl
    (fun m k l m' l' hle hfits hok => visit_passes countingListener_responds hc hle hfits.2.2 hok)
    hrun hmeets
  rw [hrequests] at hpasses
  exact ⟨report, _, _, hreport, hmisses, hpasses⟩

/-- For every size from three on, and every `n`, there is a trace on which a FIFO cache with one
place more misses `n` times more often. -/
theorem exists_larger_misses (config config' : FifoConfiguration) (hthree : 3 ≤ config.maxNodes.val)
    (hlarger : config'.maxNodes.val = config.maxNodes.val + 1) (showProgressEvery : JavaInt)
    (hprogress : showProgressEvery.val ≠ 0) (elements : Finset α)
    (hcard : (elements.card : ℤ) = 2 * (config.maxNodes.val + 2)) (n : ℕ)
    (hn : n * (3 * config.maxNodes.val + 3) ≤ 2147483647) :
    ∃ trace report report', (∀ k ∈ trace, k ∈ elements) ∧
      testPerformance ((Policy.fifo config).simulator trace showProgressEvery) = .ok report ∧
      testPerformance ((Policy.fifo config').simulator trace showProgressEvery) = .ok report' ∧
      report'.misses = report.misses + n := by
  obtain ⟨c, hc⟩ := Int.eq_ofNat_of_zero_le (show 0 ≤ config.maxNodes.val by omega)
  rw [hc] at hcard hn hlarger hthree
  obtain ⟨trace, final, final', hlength, helements, hsmall, hlarge⟩ :
      ∃ trace final final', trace.length = n * (3 * c + 3) ∧ (∀ k ∈ trace, k ∈ elements) ∧
        Passes c [] trace (n * (2 * c + 3)) final ∧
        Passes (c + 1) [] trace (n * (2 * c + 4)) final' :=
    exists_anomaly (by omega) (by omega) n
  have hbound : trace.length ≤ 2147483647 := by
    rw [hlength]
    exact_mod_cast hn
  obtain ⟨report, misses, last, hreport, hmisses, hpasses⟩ :=
    exists_report_passes config (by omega) trace hbound showProgressEvery hprogress
  obtain ⟨report', misses', last', hreport', hmisses', hpasses'⟩ :=
    exists_report_passes config' (by omega) trace hbound showProgressEvery hprogress
  rw [hc, Int.toNat_natCast] at hpasses
  have hplace : config'.maxNodes.val.toNat = c + 1 := by omega
  rw [hplace] at hpasses'
  refine ⟨trace, report, report', helements, hreport, hreport', ?_⟩
  rw [hmisses, hmisses', (hpasses.unique hsmall).1, (hpasses'.unique hlarge).1]
  push_cast
  ring

theorem exists_larger_misses_three : ∃ trace report report', (∀ k ∈ trace, k ∈ Finset.range 10) ∧
    testPerformance ((Policy.fifo (α := ℕ) ⟨3⟩).simulator trace 100) = .ok report ∧
    testPerformance ((Policy.fifo (α := ℕ) ⟨4⟩).simulator trace 100) = .ok report' ∧
    report'.misses = report.misses + 5 :=
  exists_larger_misses ⟨3⟩ ⟨4⟩ (by decide) (by decide) 100 (by decide) (Finset.range 10) (by decide) 5
    (by decide)

end FifoCacheManager

end CachePolicies
