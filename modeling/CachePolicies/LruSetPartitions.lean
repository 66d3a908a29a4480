import CachePolicies.LruInclusions
import Mathlib.Algebra.BigOperators.Group.Finset.Piecewise

/-!
# The LRU cache as one LRU manager for each set

A set of the cache sees only the blocks that it is for. The hits of the cache are thus those that
the simulator reports of LRU managers as large as a set, each on the blocks of one set.
-/

namespace CachePolicies

open CacheHitSimulator

namespace LruCache

variable {digit : Char → ℕ → Option ℕ} {sets setAssoc : ℤ} {block : ℤ}
  {earlier trace : List (TraceLine digit)}

/-- The blocks of a trace that are for one set. -/
def blocksOf (sets : ℤ) (trace : List (TraceLine digit)) (i : ℕ) : List ℤ :=
  (trace.map TraceLine.block).filter fun b => b % sets = i

theorem blocksOf_cons (l : TraceLine digit) (i : ℕ) :
    blocksOf sets (l :: earlier) i =
      if l.block % sets = i then l.block :: blocksOf sets earlier i else blocksOf sets earlier i := by
  rw [blocksOf, List.map_cons, List.filter_cons]
  simp only [decide_eq_true_eq]
  rfl

theorem blocksOf_reverse (i : ℕ) : blocksOf sets trace.reverse i = (blocksOf sets trace i).reverse := by
  rw [blocksOf, List.map_reverse, List.filter_reverse, blocksOf]

/-- A block hits the cache as it hits the recency stack of its set. -/
theorem isHit_iff_stack {i : ℕ} (hset : block % sets = i) (hassoc : 0 ≤ setAssoc) :
    IsHit sets setAssoc earlier block ↔
      block ∈ blocksOf sets earlier i ∧
        (since block (blocksOf sets earlier i)).card < setAssoc.toNat := by
  have hsince : since block (blocksOf sets earlier i) =
      (since block (earlier.map TraceLine.block)).filter fun b => b % sets = block % sets := by
    rw [blocksOf, since_filter (by simpa using hset)]
    simp only [decide_eq_true_eq, hset]
  have hmem : block ∈ blocksOf sets earlier i ↔ block ∈ earlier.map TraceLine.block := by
    rw [blocksOf, List.mem_filter]
    simp [hset]
  rw [IsHit, hmem, hsince]
  apply and_congr_right
  intro _
  omega

/-- The hits of a trace of reads, set by set. -/
theorem readHits_eq_sum (hsets : 1 ≤ sets) (hassoc : 0 ≤ setAssoc)
    (hreads : ∀ l ∈ trace, l.isRead = true) :
    readHits sets setAssoc trace =
      ∑ i ∈ Finset.range sets.toNat, stackHits setAssoc.toNat (blocksOf sets trace i) := by
  induction trace with
  | nil => simp [readHits, blocksOf, stackHits]
  | cons l earlier ih =>
    have hlow := Int.emod_nonneg l.block (show sets ≠ 0 by omega)
    have hhigh := Int.emod_lt_of_pos l.block (show 0 < sets by omega)
    obtain ⟨j, hj⟩ := Int.eq_ofNat_of_zero_le hlow
    have hread : l.isRead = true := hreads l (List.mem_cons_self ..)
    have hterm (i : ℕ) : stackHits setAssoc.toNat (blocksOf sets (l :: earlier) i) =
        stackHits setAssoc.toNat (blocksOf sets earlier i) +
          if i = j then if IsHit sets setAssoc earlier l.block then 1 else 0 else 0 := by
      rw [blocksOf_cons]
      by_cases hij : i = j
      · subst hij
        rw [if_pos hj, if_pos rfl, stackHits]
        simp only [isHit_iff_stack hj hassoc]
      · have hother : ¬l.block % sets = i := by omega
        rw [if_neg hother, if_neg hij, Nat.add_zero]
    rw [readHits, ih fun l' hl' => hreads l' (List.mem_cons_of_mem _ hl')]
    simp only [hterm, Finset.sum_add_distrib, Finset.sum_ite_eq', Finset.mem_range, hread, true_and]
    rw [if_pos (show j < sets.toNat by omega)]

/-- The blocks of all sets are those of the trace. -/
theorem sum_length_blocksOf (hsets : 1 ≤ sets) (trace : List (TraceLine digit)) :
    ∑ i ∈ Finset.range sets.toNat, (blocksOf sets trace i).length = trace.length := by
  induction trace with
  | nil => simp [blocksOf]
  | cons l earlier ih =>
    have hlow := Int.emod_nonneg l.block (show sets ≠ 0 by omega)
    have hhigh := Int.emod_lt_of_pos l.block (show 0 < sets by omega)
    obtain ⟨j, hj⟩ := Int.eq_ofNat_of_zero_le hlow
    have hterm (i : ℕ) : (blocksOf sets (l :: earlier) i).length =
        (blocksOf sets earlier i).length + if i = j then 1 else 0 := by
      rw [blocksOf_cons]
      by_cases hij : i = j
      · subst hij
        rw [if_pos hj, if_pos rfl, List.length_cons]
      · have hother : ¬l.block % sets = i := by omega
        rw [if_neg hother, if_neg hij, Nat.add_zero]
    simp only [hterm, Finset.sum_add_distrib, ih, Finset.sum_ite_eq', Finset.mem_range]
    rw [if_pos (show j < sets.toNat by omega), List.length_cons]

/-- For a trace of reads the cache counts the hits and the misses that the simulator reports of an
LRU manager for each set. -/
theorem counts_eq_sum_reports (digit : Char → ℕ → Option ℕ) (passedNumSets passedSetAssoc : JavaInt)
    (hassoc : 1 ≤ passedSetAssoc.val) (hsize : passedSetAssoc.val ≤ passedNumSets.val)
    (trace : List (TraceLine digit)) (hreads : ∀ l ∈ trace, l.isRead = true)
    (hlength : trace.length < 2147483648) (showProgressEvery : JavaInt)
    (hprogress : showProgressEvery.val ≠ 0) :
    ∃ cache c, ∃ reports : ℕ → Performance, new passedNumSets passedSetAssoc = .ok cache ∧
      fillFromFile digit (trace.map TraceLine.text) cache = .ok c ∧
      (∀ i, testPerformance ((Policy.lru ⟨passedSetAssoc⟩).simulator
        (blocksOf (passedNumSets.val / passedSetAssoc.val) trace i) showProgressEvery) =
          .ok (reports i)) ∧
      c.hitCount =
        ∑ i ∈ Finset.range (passedNumSets.val / passedSetAssoc.val).toNat, (reports i).hits ∧
      c.missCount =
        ∑ i ∈ Finset.range (passedNumSets.val / passedSetAssoc.val).toNat, (reports i).misses := by
  obtain ⟨cache, c, hnew, hfill, hcounts⟩ :=
    exists_fillFromFile_counts digit hassoc hsize trace hlength
  obtain ⟨hsets, -⟩ := quotient_bounds hassoc hsize
  generalize passedNumSets.val / passedSetAssoc.val = sets at hcounts hsets ⊢
  have hshort (i : ℕ) : (blocksOf sets trace i).length ≤ 2147483647 := by
    have hle := List.length_filter_le (fun b => decide (b % sets = i)) (trace.map TraceLine.block)
    rw [List.length_map] at hle
    rw [blocksOf]
    omega
  choose reports hreports hhits hmisses using fun i =>
    LruCacheManager.exists_report_stackHits ⟨passedSetAssoc⟩ hassoc (blocksOf sets trace i)
      (hshort i) showProgressEvery hprogress
  have hsum := readHits_eq_sum hsets (by omega : 0 ≤ passedSetAssoc.val)
    fun l hl => hreads l (List.mem_reverse.mp hl)
  have hits : c.hitCount = ∑ i ∈ Finset.range sets.toNat, (reports i).hits := by
    rw [hcounts.hitCount, hsum, Nat.cast_sum]
    apply Finset.sum_congr rfl
    intro i _
    rw [hhits, blocksOf_reverse]
  refine ⟨cache, c, reports, hnew, hfill, hreports, hits, ?_⟩
  have htotal := readHits_add_readMisses sets passedSetAssoc.val trace.reverse
  have hall : trace.reverse.countP TraceLine.isRead = trace.length := by
    rw [List.countP_reverse]
    exact List.countP_eq_length.mpr hreads
  have hlines : (∑ i ∈ Finset.range sets.toNat, ((blocksOf sets trace i).length : ℤ)) =
      trace.length := by
    rw [← Nat.cast_sum, sum_length_blocksOf hsets]
  simp only [hmisses, Finset.sum_sub_distrib, hlines, ← hits]
  rw [hcounts.missCount, hcounts.hitCount]
  omega

theorem counts_eq_sum_reports_smallTrace : ∃ cache c, ∃ reports : ℕ → Performance,
    new 2 1 = .ok cache ∧ fillFromFile asciiDigit (smallTrace.map TraceLine.text) cache = .ok c ∧
    (∀ i, testPerformance ((Policy.lru ⟨1⟩).simulator (blocksOf 2 smallTrace i) 100) =
      .ok (reports i)) ∧
    c.hitCount = ∑ i ∈ Finset.range 2, (reports i).hits ∧
    c.missCount = ∑ i ∈ Finset.range 2, (reports i).misses :=
  counts_eq_sum_reports asciiDigit 2 1 (by decide) (by decide) smallTrace (by decide) (by decide) 100
    (by decide)

end LruCache

end CachePolicies
