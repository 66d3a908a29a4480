import CachePolicies.CompetitivePolicies
import CachePolicies.LruCaches

/-!
# Larger LRU caches

What an LRU queue holds is a prefix of the recency stack, so a visit hits exactly when its
key lies less deep in the stack than the queue is long. All sizes can thus be judged by one pass over a
trace, and a larger cache keeps every hit of a smaller one. The sets of the LRU cache behave alike:
more places for each set, or more sets that refine the old ones, lose no hit.
-/

namespace CachePolicies

section Stacks

variable {α : Type*} [DecidableEq α] {n n' : ℕ} {k : α} {l l' visited : List α}

/-- The number of visits, the latest of which comes first, to keys that are among the first `n`
of the recency stack. -/
def stackHits (n : ℕ) : List α → ℕ
  | [] => 0
  | k :: earlier => stackHits n earlier + if k ∈ earlier ∧ (since k earlier).card < n then 1 else 0

theorem stackHits_mono (hle : n ≤ n') (visited : List α) :
    stackHits n visited ≤ stackHits n' visited := by
  induction visited with
  | nil => exact le_rfl
  | cons k earlier ih =>
    rw [stackHits, stackHits]
    by_cases hhit : k ∈ earlier ∧ (since k earlier).card < n
    · rw [if_pos hhit, if_pos ⟨hhit.1, hhit.2.trans_le hle⟩]
      exact Nat.add_le_add_right ih 1
    · rw [if_neg hhit]
      exact ih.trans (Nat.le_add_right _ _)

/-- A queue that moves what it hits to its tail is a prefix of the recency stack, read backwards. -/
theorem QueueStep.recency (h : QueueStep n k l l') (hlength : l'.length ≤ n)
    (hmoves : k ∈ l → l' = l.erase k ++ [k]) (hl : l = ((recency visited).take n).reverse) :
    l' = ((CachePolicies.recency (k :: visited)).take n).reverse := by
  have hnodup : ((CachePolicies.recency visited).take n).Nodup :=
    (nodup_recency visited).sublist (List.take_sublist _ _)
  rw [← touch_recency, touch]
  by_cases hk : k ∈ l
  · have hmem : k ∈ (CachePolicies.recency visited).take n := by rwa [hl, List.mem_reverse] at hk
    rw [if_pos hmem, hmoves hk, hl, List.reverse_cons, hnodup.erase_eq_filter,
      ← List.filter_reverse, (List.nodup_reverse.mpr hnodup).erase_eq_filter]
  · have hmem : k ∉ (CachePolicies.recency visited).take n := by rwa [hl, List.mem_reverse] at hk
    rw [if_neg hmem]
    have hcons : l ++ [k] = (k :: (CachePolicies.recency visited).take n).reverse := by
      rw [List.reverse_cons, hl]
    cases h with
    | stays hk' => exact absurd hk' hk
    | moves hk' => exact absurd hk' hk
    | grows =>
      have hroom : (k :: (CachePolicies.recency visited).take n).length ≤ n := by
        rwa [← List.length_reverse, ← hcons]
      rw [hcons, List.take_of_length_le hroom]
    | @evicts x rest _ hfull =>
      have hfits : (k :: (CachePolicies.recency visited).take n).length = n + 1 := by
        have hle := List.length_take_le n (CachePolicies.recency visited)
        have hsame := congrArg List.length hl
        rw [List.length_reverse] at hsame
        rw [List.length_cons]
        omega
      have hdrop : (k :: (CachePolicies.recency visited).take n).take n =
          (k :: (CachePolicies.recency visited).take n).dropLast := by
        rw [List.dropLast_eq_take, hfits, Nat.add_sub_cancel]
      rw [hdrop, ← List.tail_reverse, ← hcons]
      rfl

end Stacks

/-! ## The LRU manager -/

namespace LruCacheManager

open CacheHitSimulator

variable {α : Type} [DecidableEq α] {config : LruConfiguration} {fqnSource : List α}
  {showProgressEvery : JavaInt}

theorem visit_of_mem {L : Type} {listeners : List (CacheManagerListener α (LinkedHashSet α) L)}
    {queue queue' : LinkedHashSet α} {l l' : L} {k : α} (hk : k ∈ queue)
    (hok : visit config listeners k (queue, l) = .ok (queue', l')) :
    queue'.toList = queue.toList.erase k ++ [k] := by
  rw [visit, if_pos hk, Except.ok.injEq, Prod.mk.injEq] at hok
  rw [← hok.1, LinkedHashSet.toList_add (by simp), LinkedHashSet.toList_remove]

/-- The queue of the manager is a prefix of the recency stack of the trace so far. -/
theorem stack_of_run (hc : 1 ≤ config.maxNodes.val)
    {history : List (Record (Progress ((Policy.lru config).simulator fqnSource
      showProgressEvery).policy) α Unit)}
    {s : Progress ((Policy.lru config).simulator fqnSource showProgressEvery).policy}
    (hrun : Run (iterate ((Policy.lru config).simulator fqnSource showProgressEvery)) (start _)
      history s)
    (hmeets : Meets (fun s fqn => (Policy.lru config).Permits s.1.1 (.visit fqn)) history) :
    LinkedHashSet.toList s.1.1 =
      ((recency (history.map Record.call)).take config.maxNodes.val.toNat).reverse := by
  induction hrun with
  | start =>
    rw [List.map_nil, recency, List.take_nil, List.reverse_nil]
    rfl
  | @call history s s' fqn o hrun hok ih =>
    obtain ⟨hpermits, hrest⟩ := meets_cons.mp hmeets
    replace ih := ih hrest
    have hvisit := visit_of_iterate hok
    have hle : (LinkedHashSet.toList s.1.1).length ≤ config.maxNodes.val.toNat := by
      rw [ih, List.length_reverse]
      exact List.length_take_le _ _
    obtain ⟨hstep, hle'⟩ :=
      visit_queueStep countingListener_responds config hc hle hpermits.2.2 hvisit
    exact hstep.recency hle' (fun hk => visit_of_mem hk hvisit) ih

theorem residentRounds_eq (hc : 1 ≤ config.maxNodes.val)
    {history : List (Record (Progress ((Policy.lru config).simulator fqnSource
      showProgressEvery).policy) α Unit)}
    {s : Progress ((Policy.lru config).simulator fqnSource showProgressEvery).policy}
    (hrun : Run (iterate ((Policy.lru config).simulator fqnSource showProgressEvery)) (start _)
      history s)
    (hmeets : Meets (fun s fqn => (Policy.lru config).Permits s.1.1 (.visit fqn)) history) :
    residentRounds ((Policy.lru config).simulator fqnSource showProgressEvery).policy history =
      stackHits config.maxNodes.val.toNat (history.map Record.call) := by
  induction hrun with
  | start => rfl
  | @call history s s' fqn o hrun hok ih =>
    have hrest := (meets_cons.mp hmeets).2
    rw [residentRounds, ih hrest, List.map_cons, stackHits]
    have hmem : fqn ∈ ((Policy.lru config).simulator fqnSource showProgressEvery).policy.resident
        s.1.1 ↔ fqn ∈ history.map Record.call ∧
          (since fqn (history.map Record.call)).card < config.maxNodes.val.toNat := by
      rw [← mem_take_recency, ← List.mem_reverse, ← stack_of_run hc hrun hrest]
      exact LinkedHashSet.mem_toFinset
    simp only [hmem]

theorem exists_report_stackHits (config : LruConfiguration) (hc : 1 ≤ config.maxNodes.val)
    (fqnSource : List α) (hlength : fqnSource.length ≤ 2147483647) (showProgressEvery : JavaInt)
    (hprogress : showProgressEvery.val ≠ 0) : ∃ report,
      testPerformance ((Policy.lru config).simulator fqnSource showProgressEvery) = .ok report ∧
        report.hits = stackHits config.maxNodes.val.toNat fqnSource.reverse ∧
        report.misses = fqnSource.length - report.hits := by
  obtain ⟨Inv, settles, h, hs⟩ := Policy.exists_protocol (p := Policy.lru (α := α) config) hc
  have hpermits : Admitted (iterate ((Policy.lru config).simulator fqnSource showProgressEvery))
      (fun s fqn => (Policy.lru config).Permits s.1.1 (.visit fqn)) (start _) fqnSource :=
    Policy.admitted_permits (p := Policy.lru config) hc hlength
      ((admitted_true _ _).mono fun _ _ _ => trivial)
  obtain ⟨history, s, report, hreplay, hreport, hiterations, hhits, hrounds⟩ :=
    testPerformance_hits ((Policy.lru config).simulator fqnSource showProgressEvery) h hs hprogress
      hpermits hlength
  have hcalls := calls_of_replayFrom hreplay
  rw [List.map_nil, List.reverse_nil, List.nil_append] at hcalls
  have hsource : history.map Record.call = fqnSource.reverse := by
    rw [← List.reverse_reverse (history.map Record.call), hcalls]
    rfl
  refine ⟨report, hreport, ?_, ?_⟩
  · rw [hrounds, residentRounds_eq hc (Run.start.replayFrom hreplay)
      (hpermits.meets hreplay meets_nil), hsource]
  · have htotal : report.iterations = fqnSource.length := hiterations
    omega

/-- The simulator reports the hits of an LRU manager by the recency stack of the trace alone,
so a larger manager never reports fewer. -/
theorem hits_eq_stackHits (config config' : LruConfiguration) (hc : 1 ≤ config.maxNodes.val)
    (hle : config.maxNodes.val ≤ config'.maxNodes.val) (fqnSource : List α)
    (hlength : fqnSource.length ≤ 2147483647) (showProgressEvery : JavaInt)
    (hprogress : showProgressEvery.val ≠ 0) :
    ∃ report report',
      testPerformance ((Policy.lru config).simulator fqnSource showProgressEvery) = .ok report ∧
      testPerformance ((Policy.lru config').simulator fqnSource showProgressEvery) = .ok report' ∧
      report.hits = stackHits config.maxNodes.val.toNat fqnSource.reverse ∧
      report'.hits = stackHits config'.maxNodes.val.toNat fqnSource.reverse ∧
      report.hits ≤ report'.hits ∧ report'.misses ≤ report.misses := by
  obtain ⟨report, hok, hhits, hmisses⟩ :=
    exists_report_stackHits config hc fqnSource hlength showProgressEvery hprogress
  obtain ⟨report', hok', hhits', hmisses'⟩ :=
    exists_report_stackHits config' (hc.trans hle) fqnSource hlength showProgressEvery hprogress
  have hmono := stackHits_mono (Int.toNat_le_toNat hle) fqnSource.reverse
  refine ⟨report, report', hok, hok', hhits, hhits', ?_, ?_⟩ <;> omega

theorem hits_eq_stackHits_pair : ∃ report report',
    testPerformance ((Policy.lru (α := ℕ) ⟨1⟩).simulator [5, 6, 5, 5] 100) = .ok report ∧
      testPerformance ((Policy.lru (α := ℕ) ⟨2⟩).simulator [5, 6, 5, 5] 100) = .ok report' ∧
      report.hits = 1 ∧ report'.hits = 2 ∧
      report.hits ≤ report'.hits ∧ report'.misses ≤ report.misses :=
  hits_eq_stackHits ⟨1⟩ ⟨2⟩ (by decide) (by decide) [5, 6, 5, 5] (by decide) 100 (by decide)

end LruCacheManager

/-! ## The LRU cache -/

namespace LruCache

variable {digit : Char → ℕ → Option ℕ} {sets sets' setAssoc setAssoc' : ℤ}
  {earlier trace : List (TraceLine digit)} {block : ℤ}

/-- A hit is kept by more places for each set, and by sets which refine the old ones. -/
theorem IsHit.mono (hsets : sets ∣ sets') (hassoc : setAssoc ≤ setAssoc')
    (h : IsHit sets setAssoc earlier block) : IsHit sets' setAssoc' earlier block := by
  refine ⟨h.1, lt_of_le_of_lt ?_ (h.2.trans_le hassoc)⟩
  refine Int.ofNat_le.mpr (Finset.card_le_card ?_)
  intro b hb
  obtain ⟨hsince, hsame⟩ := Finset.mem_filter.mp hb
  refine Finset.mem_filter.mpr ⟨hsince, ?_⟩
  rw [← Int.emod_emod_of_dvd b hsets, hsame, Int.emod_emod_of_dvd block hsets]

theorem readHits_mono (hsets : sets ∣ sets') (hassoc : setAssoc ≤ setAssoc')
    (trace : List (TraceLine digit)) :
    readHits sets setAssoc trace ≤ readHits sets' setAssoc' trace := by
  induction trace with
  | nil => exact le_rfl
  | cons l earlier ih =>
    rw [readHits, readHits]
    by_cases hhit : l.isRead ∧ IsHit sets setAssoc earlier l.block
    · rw [if_pos hhit, if_pos ⟨hhit.1, hhit.2.mono hsets hassoc⟩]
      exact Nat.add_le_add_right ih 1
    · rw [if_neg hhit]
      exact ih.trans (Nat.le_add_right _ _)

/-- What is counted of a trace by a new cache. -/
theorem exists_fillFromFile_counts (digit : Char → ℕ → Option ℕ)
    {passedNumSets passedSetAssoc : JavaInt} (hassoc : 1 ≤ passedSetAssoc.val)
    (hsets : passedSetAssoc.val ≤ passedNumSets.val) (trace : List (TraceLine digit))
    (hlength : trace.length < 2147483648) :
    ∃ cache c, new passedNumSets passedSetAssoc = .ok cache ∧
      fillFromFile digit (trace.map TraceLine.text) cache = .ok c ∧
      Counts (passedNumSets.val / passedSetAssoc.val) passedSetAssoc.val trace.reverse c := by
  obtain ⟨cache, hnew, hsimulates⟩ : ∃ c, new passedNumSets passedSetAssoc = .ok c ∧
      Simulates (passedNumSets.val / passedSetAssoc.val) passedSetAssoc
        ([] : List (TraceLine digit)) c := new_simulates hassoc hsets
  obtain ⟨hlow, hhigh⟩ := quotient_bounds hassoc hsets
  have hint : IsInt (passedNumSets.val / passedSetAssoc.val) := by
    have hmax := passedNumSets.property
    unfold IsInt at hmax ⊢
    omega
  obtain ⟨c, hfill, h⟩ := hsimulates.fillFromFile ⟨hlow, hint⟩ hassoc (by simpa using hlength)
  rw [List.append_nil] at h
  exact ⟨cache, c, hnew, hfill, h.counts⟩

/-- A cache whose sets are no shorter, and as many or a multiple of as many, counts no fewer hits
and no more misses for the same trace. -/
theorem hitCount_mono (digit : Char → ℕ → Option ℕ)
    (passedNumSets passedSetAssoc passedNumSets' passedSetAssoc' : JavaInt)
    (hpos : 1 ≤ passedSetAssoc.val) (hassoc : passedSetAssoc.val ≤ passedSetAssoc'.val)
    (hsize : passedSetAssoc.val ≤ passedNumSets.val)
    (hsize' : passedSetAssoc'.val ≤ passedNumSets'.val)
    (hsets : passedNumSets.val / passedSetAssoc.val ∣ passedNumSets'.val / passedSetAssoc'.val)
    (trace : List (TraceLine digit)) (hlength : trace.length < 2147483648) :
    ∃ cache cache' c c', new passedNumSets passedSetAssoc = .ok cache ∧
      new passedNumSets' passedSetAssoc' = .ok cache' ∧
      fillFromFile digit (trace.map TraceLine.text) cache = .ok c ∧
      fillFromFile digit (trace.map TraceLine.text) cache' = .ok c' ∧
      c.hitCount ≤ c'.hitCount ∧ c'.missCount ≤ c.missCount := by
  obtain ⟨cache, c, hnew, hfill, hcounts⟩ :=
    exists_fillFromFile_counts digit hpos hsize trace hlength
  obtain ⟨cache', c', hnew', hfill', hcounts'⟩ :=
    exists_fillFromFile_counts digit (hpos.trans hassoc) hsize' trace hlength
  have hmono := readHits_mono hsets hassoc trace.reverse
  have hsum := readHits_add_readMisses (passedNumSets.val / passedSetAssoc.val) passedSetAssoc.val
    trace.reverse
  have hsum' := readHits_add_readMisses (passedNumSets'.val / passedSetAssoc'.val)
    passedSetAssoc'.val trace.reverse
  refine ⟨cache, cache', c, c', hnew, hnew', hfill, hfill', ?_, ?_⟩
  · rw [hcounts.hitCount, hcounts'.hitCount]
    omega
  · rw [hcounts.missCount, hcounts'.missCount]
    omega

/-- Two sets of one block against two sets of two. -/
theorem hitCount_mono_smallTrace : ∃ cache cache' c c', new 2 1 = .ok cache ∧ new 4 2 = .ok cache' ∧
    fillFromFile asciiDigit (smallTrace.map TraceLine.text) cache = .ok c ∧
    fillFromFile asciiDigit (smallTrace.map TraceLine.text) cache' = .ok c' ∧
    c.hitCount ≤ c'.hitCount ∧ c'.missCount ≤ c.missCount :=
  hitCount_mono asciiDigit 2 1 4 2 (by decide) (by decide) (by decide) (by decide) (by decide)
    smallTrace (by decide)

end LruCache

end CachePolicies
