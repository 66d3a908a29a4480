import CachePolicies.CompetitivePolicies
import CachePolicies.LfuRecency

/-!
# LFU against LRU

A key that has been visited twice stays in the LFU manager for good, as long as the others are visited
in turn: each of them is evicted, with a count of one, when the next one is missed. So there is no bound of
the kind that holds for LRU on what LFU misses.
-/

namespace CachePolicies

variable {α : Type} [DecidableEq α]

/-- Two keys in turn. -/
def inTurn : ℕ → α → α → List α
  | 0, _, _ => []
  | n + 1, x, y => x :: inTurn n y x

omit [DecidableEq α] in
theorem length_inTurn (n : ℕ) (x y : α) : (inTurn n x y).length = n := by
  induction n generalizing x y with
  | zero => rfl
  | succ n ih => rw [inTurn, List.length_cons, ih]

omit [DecidableEq α] in
theorem mem_inTurn {n : ℕ} {x y z : α} (hz : z ∈ inTurn n x y) : z = x ∨ z = y := by
  induction n generalizing x y with
  | zero => cases hz
  | succ n ih =>
    rcases List.mem_cons.mp hz with rfl | hz
    · exact .inl rfl
    · exact (ih hz).symm

namespace LfuCacheManager

open CacheHitSimulator

variable {config : LfuConfiguration} {k x y : α} {m m' : LfuCacheManager α} {hot : List α}

section Visits

variable {L : Type} {listeners : List (CacheManagerListener α (LfuCacheManager α) L)}
  {onEvict onLoad : α → L → L} {visits : ℤ} {counts : α → Option ℤ}

/-- The counts that a manager keeps. -/
structure HasCounts (config : LfuConfiguration) (counts : α → Option ℤ) (m : LfuCacheManager α) :
    Prop where
  sound : Sound config m
  lookup : ∀ y, m.visitCounts.lookup y = counts y

theorem Sound.of_visit (hr : Responds listeners (fun _ m => m) onEvict onLoad)
    (hc : 1 ≤ config.maxNodes.val) (h : Sound config m) {l l' : L}
    (hok : LfuCacheManager.visit config listeners k (m, l) = .ok (m', l')) : Sound config m' := by
  obtain ⟨m'', l'', hok', hsound, -⟩ := h.visit hr hc k l
  cases hok.symm.trans hok'
  exact hsound

section Counts

variable (hr : Responds listeners (fun _ m => m) onEvict onLoad) (hc : 1 ≤ config.maxNodes.val)
  (h : HasCounts config counts m) (l : L)

include hr hc h

theorem HasCounts.hit (hk : counts k = some visits) :
    ∃ m', visit config listeners k (m, l) = .ok (m', l) ∧
      HasCounts config (Function.update counts k (some (int32 (visits + 1)))) m' := by
  have hlookup : m.visitCounts.lookup k = some visits := (h.lookup k).trans hk
  have hok : visit config listeners k (m, l) =
      .ok (enlist k (int32 (visits + 1)) (discard k visits m), l) := by
    simp only [visit, hlookup, h.sound.filed.getQueue hlookup, Java.ok_bind, enlist_discard]
  refine ⟨_, hok, h.sound.of_visit hr hc hok, fun y => ?_⟩
  rw [lookup_enlist, lookup_discard, h.lookup, Function.update_apply]
  by_cases hy : y = k
  · rw [if_pos hy, if_pos hy]
  · rw [if_neg hy, if_neg hy, if_neg hy]

/-- A missed key that finds room. -/
theorem HasCounts.room (hk : counts k = none) (hroom : cacheSize m < config.maxNodes.val) :
    ∃ m', visit config listeners k (m, l) = .ok (m', onLoad k l) ∧
      HasCounts config (Function.update counts k (some 1)) m' := by
  have hlookup : m.visitCounts.lookup k = none := (h.lookup k).trans hk
  have hfull : ¬m.visitCounts.size ≥ config.maxNodes.val := not_le.mpr hroom
  have hok : visit config listeners k (m, l) = .ok (enlist k 1 m, onLoad k l) := by
    simp only [visit, hlookup, makeRoom, if_neg hfull, Java.ok_bind, hr.load]
  refine ⟨_, hok, h.sound.of_visit hr hc hok, fun y => ?_⟩
  rw [lookup_enlist, h.lookup, Function.update_apply]

/-- A missed key that takes the place of the only key with the least count. -/
theorem HasCounts.replaced (hk : counts k = none) (hfull : cacheSize m = config.maxNodes.val)
    (hx : counts x = some visits) (hleast : ∀ y count, counts y = some count → count ≤ visits → y = x) :
    ∃ m', visit config listeners k (m, l) = .ok (m', onLoad k (onEvict x l)) ∧
      HasCounts config (Function.update (Function.update counts x none) k (some 1)) m' := by
  have hlookup : m.visitCounts.lookup k = none := (h.lookup k).trans hk
  have hxlookup : m.visitCounts.lookup x = some visits := (h.lookup x).trans hx
  obtain ⟨first, y, ys, hfirst, hy⟩ :=
    h.sound.filed.firstKey ⟨x, mem_resident.mpr ⟨visits, hxlookup⟩⟩
  have hylookup : m.visitCounts.lookup y = some first :=
    (h.sound.filed.lookup y first).mpr (LinkedHashSet.mem_of_toList_cons hy)
  have hyx : y = x := hleast y first ((h.lookup y).symm.trans hylookup)
    (h.sound.filed.firstKey_le hfirst hxlookup)
  subst hyx
  cases hylookup.symm.trans hxlookup
  have hge : m.visitCounts.size ≥ config.maxNodes.val := hfull.ge
  have hok : visit config listeners k (m, l) =
      .ok (enlist k 1 (discard y visits m), onLoad k (onEvict y l)) := by
    simp only [visit, hlookup, makeRoom, if_pos hge, hfirst, h.sound.filed.getQueue hylookup,
      LinkedHashSet.take_cons hy, Java.ok_bind, hr.evict, hr.load]
    rfl
  refine ⟨_, hok, h.sound.of_visit hr hc hok, fun z => ?_⟩
  rw [lookup_enlist, lookup_discard, h.lookup, Function.update_apply, Function.update_apply]

end Counts

end Visits

/-! ## A trace for LFU -/

/-- The counts after two visits to each of the hot keys. -/
def twice (hot : List α) (y : α) : Option ℤ := if y ∈ hot then some 2 else none

/-- The hot keys have been visited twice, the key `x` once. -/
def twiceAndOnce (hot : List α) (x y : α) : Option ℤ := if y = x then some 1 else twice hot y

theorem HasCounts.cacheSize_twice (h : HasCounts config (twice hot) m) (hnodup : hot.Nodup) :
    cacheSize m = hot.length := by
  have hresident : resident m = hot.toFinset := by
    ext y
    rw [mem_resident, List.mem_toFinset]
    simp [h.lookup, twice]
  rw [h.sound.cacheSize_eq, hresident, List.toFinset_card_of_nodup hnodup]

theorem HasCounts.cacheSize_twiceAndOnce (h : HasCounts config (twiceAndOnce hot x) m)
    (hnodup : hot.Nodup) (hx : x ∉ hot) : cacheSize m = hot.length + 1 := by
  have hresident : resident m = insert x hot.toFinset := by
    ext y
    rw [mem_resident, Finset.mem_insert, List.mem_toFinset]
    by_cases hy : y = x
    · simp [h.lookup, twiceAndOnce, hy]
    · simp [h.lookup, twiceAndOnce, twice, hy]
  rw [h.sound.cacheSize_eq, hresident, Finset.card_insert_of_notMem (by simpa using hx),
    List.toFinset_card_of_nodup hnodup]
  push_cast
  rfl

variable {fqnSource : List α} {showProgressEvery : JavaInt}

/-- The progress of the simulator with given counts and a number of loads. -/
structure Stage (config : LfuConfiguration) (fqnSource : List α) (showProgressEvery : JavaInt)
    (counts : α → Option ℤ) (loads : ℕ)
    (s : Progress ((Policy.lfu config).simulator fqnSource showProgressEvery).policy) : Prop where
  hasCounts : HasCounts config counts s.1.1
  loads_eq : s.1.2 = loads

theorem int32_add_one {n : ℕ} (hn : n < 2147483647) : int32 ((n : ℤ) + 1) = (n + 1 : ℕ) := by
  rw [int32_of_isInt ⟨by omega, by omega⟩, Nat.cast_succ]

section Stages

variable (hc : 1 ≤ config.maxNodes.val) (hprogress : showProgressEvery.val ≠ 0)
  {s : Progress ((Policy.lfu config).simulator fqnSource showProgressEvery).policy} {loads : ℕ}

include hc hprogress

/-- Two visits to a new hot key. -/
theorem Stage.warm (h : Stage config fqnSource showProgressEvery (twice hot) hot.length s)
    (hnodup : (k :: hot).Nodup) (hroom : hot.length < config.maxNodes.val) :
    LeadsTo (iterate ((Policy.lfu config).simulator fqnSource showProgressEvery))
      (Stage config fqnSource showProgressEvery (twice (k :: hot)) (k :: hot).length) s [k, k] := by
  have hk := (List.nodup_cons.mp hnodup).1
  have hnone : twice hot k = none := if_neg hk
  have hmax := config.maxNodes.property.2
  obtain ⟨m₁, hok₁, h₁⟩ := h.hasCounts.room countingListener_responds hc s.1.2 hnone
    (by rw [h.hasCounts.cacheSize_twice hnodup.of_cons]; exact hroom)
  obtain ⟨m₂, hok₂, h₂⟩ := h₁.hit countingListener_responds hc (int32 (s.1.2 + 1))
    (Function.update_self _ _ _)
  have hcounts : Function.update (Function.update (twice hot) k (some 1)) k
      (some (int32 (1 + 1))) = twice (k :: hot) := by
    funext y
    rw [Function.update_idem, Function.update_apply, twice, twice]
    by_cases hy : y = k
    · rw [if_pos hy, if_pos (List.mem_cons.mpr (.inl hy))]
      rfl
    · simp [hy]
  rw [hcounts] at h₂
  refine ⟨_, (), iterate_of_visit hprogress hok₁, _, (), iterate_of_visit hprogress hok₂, h₂, ?_⟩
  show int32 (s.1.2 + 1) = _
  rw [h.loads_eq, int32_add_one (by omega), List.length_cons]

/-- One more key, for which there is still room. -/
theorem Stage.fill (h : Stage config fqnSource showProgressEvery (twice hot) hot.length s)
    (hnodup : (k :: hot).Nodup) (hroom : hot.length < config.maxNodes.val) :
    LeadsTo (iterate ((Policy.lfu config).simulator fqnSource showProgressEvery))
      (Stage config fqnSource showProgressEvery (twiceAndOnce hot k) (hot.length + 1)) s [k] := by
  have hk := (List.nodup_cons.mp hnodup).1
  have hnone : twice hot k = none := if_neg hk
  have hmax := config.maxNodes.property.2
  obtain ⟨m₁, hok₁, h₁⟩ := h.hasCounts.room countingListener_responds hc s.1.2 hnone
    (by rw [h.hasCounts.cacheSize_twice hnodup.of_cons]; exact hroom)
  have hcounts : Function.update (twice hot) k (some 1) = twiceAndOnce hot k := by
    funext y
    rw [Function.update_apply, twiceAndOnce]
  rw [hcounts] at h₁
  refine ⟨_, (), iterate_of_visit hprogress hok₁, h₁, ?_⟩
  show int32 (s.1.2 + 1) = _
  rw [h.loads_eq, int32_add_one (by omega)]

/-- The key that is missed takes the place of the one that was missed before it. -/
theorem Stage.contest
    (h : Stage config fqnSource showProgressEvery (twiceAndOnce hot x) loads s)
    (hnodup : hot.Nodup) (hx : x ∉ hot) (hk : k ∉ hot) (hne : k ≠ x)
    (hfull : hot.length + 1 = config.maxNodes.val) (hloads : loads < 2147483647) :
    LeadsTo (iterate ((Policy.lfu config).simulator fqnSource showProgressEvery))
      (Stage config fqnSource showProgressEvery (twiceAndOnce hot k) (loads + 1)) s [k] := by
  have hnone : twiceAndOnce hot x k = none := by simp [twiceAndOnce, twice, hne, hk]
  have hleast : ∀ y count, twiceAndOnce hot x y = some count → count ≤ 1 → y = x := by
    intro y count hy hle
    by_contra hyx
    rw [twiceAndOnce, if_neg hyx, twice] at hy
    split at hy
    · cases hy
      omega
    · cases hy
  obtain ⟨m₁, hok₁, h₁⟩ := h.hasCounts.replaced countingListener_responds hc s.1.2 hnone
    (by rw [h.hasCounts.cacheSize_twiceAndOnce hnodup hx]; exact hfull) (if_pos rfl) hleast
  have hcounts : Function.update (Function.update (twiceAndOnce hot x) x none) k (some 1) =
      twiceAndOnce hot k := by
    funext y
    rw [Function.update_apply, Function.update_apply, twiceAndOnce, twiceAndOnce]
    by_cases hyk : y = k
    · rw [if_pos hyk, if_pos hyk]
    · rw [if_neg hyk, if_neg hyk]
      by_cases hyx : y = x
      · rw [if_pos hyx, hyx, twice, if_neg hx]
      · rw [if_neg hyx, if_neg hyx]
  rw [hcounts] at h₁
  refine ⟨_, (), iterate_of_visit hprogress hok₁, h₁, ?_⟩
  show int32 (s.1.2 + 1) = _
  rw [h.loads_eq, int32_add_one hloads]

/-- All keys of the contest miss. -/
theorem Stage.contests {n : ℕ}
    (h : Stage config fqnSource showProgressEvery (twiceAndOnce hot x) loads s)
    (hnodup : hot.Nodup) (hx : x ∉ hot) (hk : k ∉ hot) (hne : k ≠ x)
    (hfull : hot.length + 1 = config.maxNodes.val) (hloads : loads + n ≤ 2147483647) :
    LeadsTo (iterate ((Policy.lfu config).simulator fqnSource showProgressEvery))
      (fun s => s.1.2 = (loads + n : ℕ)) s (inTurn n k x) := by
  induction n generalizing k x loads s with
  | zero => exact h.loads_eq
  | succ n ih =>
    have hnext := h.contest hc hprogress hnodup hx hk hne hfull (by omega)
    refine hnext.append fun s' hs' => ?_
    have hrest := ih hs' hk hx hne.symm (by omega)
    rwa [Nat.add_right_comm, Nat.add_assoc] at hrest

/-- The hot keys, each visited twice. -/
theorem Stage.warms {more : List α}
    (h : Stage config fqnSource showProgressEvery (twice hot) hot.length s)
    (hnodup : (more.reverse ++ hot).Nodup) (hroom : more.length + hot.length ≤ config.maxNodes.val) :
    LeadsTo (iterate ((Policy.lfu config).simulator fqnSource showProgressEvery))
      (Stage config fqnSource showProgressEvery (twice (more.reverse ++ hot))
        (more.reverse ++ hot).length) s (more.flatMap fun k => [k, k]) := by
  induction more generalizing hot s with
  | nil => exact h
  | cons k more ih =>
    rw [List.reverse_cons, List.append_assoc, List.singleton_append] at hnodup ⊢
    rw [List.length_cons] at hroom
    rw [List.flatMap_cons]
    have hwarm := h.warm hc hprogress (List.nodup_append.mp hnodup).2.1 (by omega)
    exact hwarm.append fun s' hs' => ih hs' hnodup (by rw [List.length_cons]; omega)

end Stages

/-- Two visits to each of the hot keys, then two other keys in turn. -/
def contest (hot : List α) (x k : α) (n : ℕ) : List α :=
  (hot.flatMap fun k => [k, k]) ++ ([x] ++ inTurn n k x)

omit [DecidableEq α] in
theorem length_contest (hot : List α) (x k : α) (n : ℕ) :
    (contest hot x k n).length = 2 * hot.length + 1 + n := by
  have htwo : (hot.flatMap fun k => [k, k]).length = 2 * hot.length := by
    simp [List.length_flatMap, Nat.mul_comm]
  rw [contest, List.length_append, htwo, List.length_append, List.length_singleton, length_inTurn,
    Nat.add_assoc]

/-- A store that lets go of the hot keys in time. -/
theorem serves_contest {hot : List α} {x k : α} {h : ℕ} (hnodup : (x :: hot).Nodup)
    (hh : 2 ≤ h) (hfull : hot.length + 1 = h) (n : ℕ) :
    ∃ loads final, Serves h ∅ (contest hot x k n) loads final ∧ loads ≤ h + 1 := by
  have hcard : (x :: hot).toFinset.card = h := by
    rw [List.toFinset_card_of_nodup hnodup, List.length_cons, hfull]
  have hfirst : Serves h ∅ ((hot.flatMap fun k => [k, k]) ++ [x]) ((x :: hot).toFinset \ ∅).card
      (x :: hot).toFinset := by
    refine Serves.switch (by simp) (fun y hy => ?_) hcard.le
    rw [List.mem_toFinset]
    rcases List.mem_append.mp hy with hy | hy
    · obtain ⟨z, hz, hyz⟩ := List.mem_flatMap.mp hy
      have hsame : y = z := by simpa using hyz
      exact hsame ▸ List.mem_cons_of_mem x hz
    · exact List.mem_singleton.mp hy ▸ List.mem_cons_self
  rw [Finset.sdiff_empty, hcard] at hfirst
  have hone : ({k, x} \ (x :: hot).toFinset : Finset α).card ≤ 1 := by
    refine (Finset.card_le_card (t := {k}) fun y hy => ?_).trans (Finset.card_singleton k).le
    obtain ⟨hy, hnot⟩ := Finset.mem_sdiff.mp hy
    rcases Finset.mem_insert.mp hy with rfl | hy
    · exact Finset.mem_singleton_self _
    · rw [Finset.mem_singleton.mp hy] at hnot
      exact absurd (List.mem_toFinset.mpr List.mem_cons_self) hnot
  rw [contest, ← List.append_assoc]
  cases n with
  | zero => exact ⟨h, _, by rwa [inTurn, List.append_nil], Nat.le_succ h⟩
  | succ n =>
    have hlast : Serves h (x :: hot).toFinset (inTurn (n + 1) k x)
        ({k, x} \ (x :: hot).toFinset : Finset α).card {k, x} := by
      refine Serves.switch (by simp [inTurn]) (fun y hy => ?_) (Finset.card_le_two.trans hh)
      rcases mem_inTurn hy with rfl | rfl
      · exact Finset.mem_insert_self _ _
      · exact Finset.mem_insert_of_mem (Finset.mem_singleton_self _)
    exact ⟨_, _, hfirst.append hlast, Nat.add_le_add_left hone h⟩

/-- All keys of the contest but the second visits are missed. -/
theorem testPerformance_contest (hc : 1 ≤ config.maxNodes.val)
    (hprogress : showProgressEvery.val ≠ 0) (hnodup : (x :: k :: hot).Nodup)
    (hfull : hot.length + 1 = config.maxNodes.val) {n : ℕ}
    (hn : config.maxNodes.val + n ≤ 2147483647) :
    ∃ report, testPerformance ((Policy.lfu config).simulator (contest hot x k n) showProgressEvery) =
        .ok report ∧ report.misses = config.maxNodes.val + n := by
  obtain ⟨hx, hrest⟩ := List.nodup_cons.mp hnodup
  obtain ⟨hk, hhot⟩ := List.nodup_cons.mp hrest
  have hne : k ≠ x := fun he => hx (he ▸ List.mem_cons_self)
  have hxhot : x ∉ hot.reverse := fun hmem => hx (List.mem_cons_of_mem k (List.mem_reverse.mp hmem))
  have hkhot : k ∉ hot.reverse := fun hmem => hk (List.mem_reverse.mp hmem)
  have hreverse : hot.reverse.Nodup := List.nodup_reverse.mpr hhot
  have hlength : hot.reverse.length = hot.length := List.length_reverse
  have hstart : Stage config (contest hot x k n) showProgressEvery (twice []) ([] : List α).length
      (start _) := by
    refine ⟨⟨sound_initial (by omega), fun y => ?_⟩, rfl⟩
    show (initial : LfuCacheManager α).visitCounts.lookup y = twice [] y
    simp [initial, twice]
  have hwarm : LeadsTo _ _ _ (hot.flatMap fun k => [k, k]) :=
    hstart.warms hc hprogress (by rwa [List.append_nil]) (by rw [List.length_nil]; omega)
  rw [List.append_nil] at hwarm
  have hall : LeadsTo (iterate ((Policy.lfu config).simulator (contest hot x k n) showProgressEvery))
      (fun s => s.1.2 = (hot.reverse.length + 1 + n : ℕ)) (start _) (contest hot x k n) := by
    refine hwarm.append fun s hs => ?_
    refine (hs.fill hc hprogress (List.nodup_cons.mpr ⟨hxhot, hreverse⟩) (by omega)).append
      fun s hs => ?_
    exact hs.contests hc hprogress hreverse hxhot hkhot hne (by omega) (by omega)
  obtain ⟨history, s, hreplay, hloads⟩ := hall.replayFrom []
  have hsource : replay (iterate ((Policy.lfu config).simulator (contest hot x k n)
      showProgressEvery)) (start _)
      ((Policy.lfu config).simulator (contest hot x k n) showProgressEvery).fqnSource =
      .ok (history, s) := hreplay
  refine ⟨_, by rw [testPerformance, hsource, Java.ok_bind], ?_⟩
  show s.1.2 = _
  rw [hloads]
  omega

/-- There is no bound on what LFU misses where a store of its size that knows the trace has to load
one key more than it has places, and LRU misses no more than a constant number of times. -/
theorem exists_contest (config : LfuConfiguration) (hc : 2 ≤ config.maxNodes.val)
    (elements : Finset α) (hcard : elements.card = config.maxNodes.val.toNat + 1) (n : ℕ)
    (hn : 2 * config.maxNodes.val + n ≤ 2147483647) (showProgressEvery : JavaInt)
    (hprogress : showProgressEvery.val ≠ 0) :
    ∃ trace report report', (∀ k ∈ trace, k ∈ elements) ∧
      testPerformance ((Policy.lfu config).simulator trace showProgressEvery) = .ok report ∧
      report.misses = config.maxNodes.val + n ∧
      testPerformance ((Policy.lru ⟨config.maxNodes⟩).simulator trace showProgressEvery) =
        .ok report' ∧
      report'.misses ≤ config.maxNodes.val * (config.maxNodes.val + 1) ∧
      ∃ loads final, Serves config.maxNodes.val.toNat ∅ trace loads final ∧
        loads ≤ config.maxNodes.val + 1 := by
  obtain ⟨x, k, hot, hlist⟩ : ∃ x k hot, elements.toList = x :: k :: hot := by
    have hlength : elements.toList.length = config.maxNodes.val.toNat + 1 := by
      rw [Finset.length_toList, hcard]
    match elements.toList, hlength with
    | [], hlength => exact absurd hlength (by simp)
    | [_], hlength =>
      rw [List.length_singleton] at hlength
      omega
    | x :: k :: hot, _ => exact ⟨x, k, hot, rfl⟩
  have hnodup : (x :: k :: hot).Nodup := hlist ▸ elements.nodup_toList
  have hfull : hot.length + 1 = config.maxNodes.val.toNat := by
    have hlength := elements.length_toList
    rw [hlist, hcard, List.length_cons, List.length_cons] at hlength
    omega
  have hmem : ∀ y ∈ contest hot x k n, y ∈ elements := by
    intro y hy
    rw [← Finset.mem_toList, hlist]
    rcases List.mem_append.mp hy with hy | hy
    · obtain ⟨z, hz, hyz⟩ := List.mem_flatMap.mp hy
      have hsame : y = z := by simpa using hyz
      exact hsame ▸ List.mem_cons_of_mem x (List.mem_cons_of_mem k hz)
    · rcases List.mem_append.mp hy with hy | hy
      · exact List.mem_singleton.mp hy ▸ List.mem_cons_self
      · rcases mem_inTurn hy with rfl | rfl
        · exact List.mem_cons_of_mem x List.mem_cons_self
        · exact List.mem_cons_self
  obtain ⟨report, hreport, hmisses⟩ : ∃ report,
      testPerformance ((Policy.lfu config).simulator (contest hot x k n) showProgressEvery) =
        .ok report ∧ report.misses = config.maxNodes.val + n :=
    testPerformance_contest (by omega) hprogress hnodup (by omega) (by omega)
  obtain ⟨loads, final, hserves, hloads⟩ := serves_contest
    ((List.nodup_cons.mpr ⟨fun hx => (List.nodup_cons.mp hnodup).1 (List.mem_cons_of_mem k hx),
      hnodup.of_cons.of_cons⟩)) (show 2 ≤ config.maxNodes.val.toNat by omega) hfull n
  have hlength : (contest hot x k n).length ≤ 2147483647 := by
    rw [length_contest]
    omega
  have hlru : 1 ≤ (Policy.lru (α := α) ⟨config.maxNodes⟩).maxNodes := by
    show 1 ≤ config.maxNodes.val
    omega
  obtain ⟨history, s, report', hrun, hmeets, hreport', hmisses', hrequests⟩ :=
    Policy.exists_report_of_evictsHead (p := Policy.lru ⟨config.maxNodes⟩) trivial hlru hprogress
      hlength
  have hserved := hserves
  rw [← hrequests] at hserved
  have hmax : (Policy.lru (α := α) ⟨config.maxNodes⟩).maxNodes = config.maxNodes.val := rfl
  have hcast : ((config.maxNodes.val.toNat : ℕ) : ℤ) = config.maxNodes.val :=
    Int.toNat_of_nonneg (by omega)
  have hbound := Policy.misses_le_of_run (p := Policy.lru ⟨config.maxNodes⟩) trivial hlru hrun
    hmeets (by omega) (by omega) hserved
  rw [← hmisses', hmax, hcast, sub_self, zero_add, one_mul, mul_zero, add_zero] at hbound
  refine ⟨contest hot x k n, report, report', hmem, hreport, hmisses, hreport', ?_, loads, final,
    hserves, by omega⟩
  exact hbound.trans (mul_le_mul_of_nonneg_left (by omega) (by omega))

theorem exists_contest_pair : ∃ trace report report', (∀ k ∈ trace, k ∈ Finset.range 3) ∧
    testPerformance ((Policy.lfu (α := ℕ) ⟨2⟩).simulator trace 100) = .ok report ∧
    report.misses = 11 ∧
    testPerformance ((Policy.lru (α := ℕ) ⟨2⟩).simulator trace 100) = .ok report' ∧
    report'.misses ≤ 2 * (2 + 1) ∧
    ∃ loads final, Serves 2 ∅ trace loads final ∧ (loads : ℤ) ≤ 2 + 1 :=
  exists_contest ⟨2⟩ (by decide) (Finset.range 3) rfl 9 (by decide) 100 (by decide)

end LfuCacheManager

end CachePolicies
