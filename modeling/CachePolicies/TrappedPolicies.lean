import CachePolicies.CompetitivePolicies
import CachePolicies.FixedReplacementVisits
import Mathlib.Data.Fintype.Pigeonhole

/-!
# Policies that can be trapped

A policy is trapped where a few keys can be visited for ever such that one of them is missing
each time, and the places which they would need are taken by keys that nobody asks for.
A store that knows the trace loads these few keys once. The fixed manager, the 2Q manager with a
short `a1Out` and the direct-mapped manager can all be led into a trap, so no bound such as that
of LRU holds for what they miss.
-/

namespace CachePolicies

variable {α : Type} [DecidableEq α]

namespace Policy

open CacheHitSimulator

variable {p : Policy α} {showProgressEvery : JavaInt} {elements : Finset α}
  {trapped Q R : p.manager.State → Prop} {n : ℕ}

/-- Some visits lead a new manager to a state where `Q` holds. -/
def Reached (p : Policy α) (showProgressEvery : JavaInt) (Q : p.manager.State → Prop) (n : ℕ) :
    Prop :=
  ∃ setup history s, setup.length = n ∧
    replay (iterate (p.simulator [] showProgressEvery)) (start _) setup = .ok (history, s) ∧ Q s.1.1

theorem Reached.start (h : Q p.manager.initial) : Reached p showProgressEvery Q 0 :=
  ⟨[], [], _, rfl, rfl, h⟩

theorem Reached.visit (h : Reached p showProgressEvery Q n) (hprogress : showProgressEvery.val ≠ 0)
    (hvisit : ∀ m, Q m → ∃ k, ∀ l, ∃ w, p.manager.visit [countingListener] k (m, l) = .ok w ∧ R w.1) :
    Reached p showProgressEvery R (n + 1) := by
  obtain ⟨setup, history, s, hlength, hreplay, hq⟩ := h
  obtain ⟨k, hk⟩ := hvisit s.1.1 hq
  obtain ⟨w, hok, hr⟩ := hk s.1.2
  have hstep : iterate (p.simulator [] showProgressEvery) s k = .ok ((w, int32 (s.2 + 1)), ()) :=
    iterate_of_visit hprogress hok
  exact ⟨setup ++ [k], _, _, by rw [List.length_append, hlength, List.length_singleton],
    replay_concat hreplay hstep, hr⟩

/-- In a trapped state one of the elements is missing, and a visit to it keeps the manager
trapped. -/
def Traps (p : Policy α) (elements : Finset α) (trapped : p.manager.State → Prop) : Prop :=
  ∀ m, trapped m → ∃ k ∈ elements, k ∉ p.manager.resident m ∧
    ∀ l w, p.manager.visit [countingListener] k (m, l) = .ok w → trapped w.1

/-- From a trapped state on every round can be made to miss. -/
theorem Traps.exists_missed (htraps : p.Traps elements trapped)
    (hpermits : ∀ m k, p.Permits m (.visit k)) (hprogress : showProgressEvery.val ≠ 0)
    {Inv : p.manager.State → Prop} {settles : (α → p.manager.State → p.manager.State) → Prop}
    (h : Protocol p.manager p.maxNodes Inv p.Permits settles) (hs : settles fun _ m => m)
    {history : List (Record (Progress (p.simulator [] showProgressEvery).policy) α Unit)}
    {s : Progress (p.simulator [] showProgressEvery).policy}
    (hcounted : @Counted α _ (p.simulator [] showProgressEvery) Inv history s)
    (htrapped : trapped s.1.1) (hn : history.length + n ≤ 2147483647) :
    ∃ rounds history' s', rounds.length = n ∧ (∀ k ∈ rounds, k ∈ elements) ∧
      replayFrom (iterate (p.simulator [] showProgressEvery)) history s rounds = .ok (history', s') ∧
      @Counted α _ (p.simulator [] showProgressEvery) Inv history' s' ∧
      history'.length = history.length + n ∧
      residentRounds (p.simulator [] showProgressEvery).policy history' =
        residentRounds (p.simulator [] showProgressEvery).policy history := by
  induction n generalizing history s with
  | zero => exact ⟨[], history, s, rfl, by simp, rfl, hcounted, rfl, rfl⟩
  | succ n ih =>
    obtain ⟨k, hk, hnot, hkeep⟩ := htraps s.1.1 htrapped
    obtain ⟨s', hok, hcounted'⟩ := hcounted.iterate h hs hprogress (hpermits _ _) (by omega)
    have htrapped' : trapped s'.1.1 := hkeep s.1.2 s'.1 (visit_of_iterate hok)
    obtain ⟨rounds, history', s'', hlength, hmem, hreplay, hfinal, hall, hrounds⟩ :=
      ih hcounted' htrapped' (by rw [List.length_cons]; omega)
    refine ⟨k :: rounds, history', s'', by rw [List.length_cons, hlength], ?_, ?_, hfinal, ?_, ?_⟩
    · intro x hx
      rcases List.mem_cons.mp hx with rfl | hx
      · exact hk
      · exact hmem x hx
    · rw [replayFrom, hok]
      exact hreplay
    · rw [hall, List.length_cons]
      omega
    · have hmiss : k ∉ (p.simulator [] showProgressEvery).policy.resident s.1.1 := hnot
      rw [hrounds, residentRounds, if_neg hmiss, Nat.add_zero]

/-- Once trapped, a policy misses as often as one likes, at a bounded cost for a store that knows
the trace. -/
theorem Traps.exists_trace (htraps : p.Traps elements trapped) (hp : p.Admissible)
    (hpermits : ∀ m k, p.Permits m (.visit k)) (hprogress : showProgressEvery.val ≠ 0)
    (hcard : elements.card ≤ p.maxNodes.toNat) {setup : List α}
    {history : List (Record (Progress (p.simulator [] showProgressEvery).policy) α Unit)}
    {s : Progress (p.simulator [] showProgressEvery).policy}
    (hsetup : replay (iterate (p.simulator [] showProgressEvery)) (start _) setup = .ok (history, s))
    (htrapped : trapped s.1.1) (n : ℕ) (hn : setup.length + n ≤ 2147483647) :
    ∃ trace report, testPerformance (p.simulator trace showProgressEvery) = .ok report ∧
      n ≤ report.misses ∧ ∃ loads final, Serves p.maxNodes.toNat ∅ trace loads final ∧
        loads ≤ setup.length + elements.card := by
  obtain ⟨Inv, settles, h, hs⟩ := exists_protocol hp
  have hone := one_le_maxNodes hp
  have hstart : @Counted α _ (p.simulator [] showProgressEvery) Inv [] (start _) :=
    ⟨h.initial, rfl, rfl⟩
  have hadmitted : Admitted (iterate (p.simulator [] showProgressEvery))
      (fun s fqn => p.Permits s.1.1 (.visit fqn)) (start _) setup :=
    (admitted_true _ _).mono fun s fqn _ => hpermits _ _
  obtain ⟨history₁, s₁, hreplay₁, hcounted, hlength₁⟩ :=
    hstart.replay h hs hprogress hadmitted (by rw [List.length_nil]; omega)
  cases hreplay₁.symm.trans hsetup
  rw [List.length_nil, Nat.zero_add] at hlength₁
  obtain ⟨rounds, history', s', hlength, hmem, hreplay, hcounted', hall, hrounds⟩ :=
    htraps.exists_missed (n := n) hpermits hprogress h hs hcounted htrapped (by omega)
  have hwhole : replay (iterate (p.simulator (setup ++ rounds) showProgressEvery)) (start _)
      (setup ++ rounds) = .ok (history', s') := (replayFrom_append hsetup).trans hreplay
  refine ⟨setup ++ rounds, _, by rw [testPerformance, show
    (p.simulator (setup ++ rounds) showProgressEvery).fqnSource = setup ++ rounds from rfl, hwhole,
    Java.ok_bind], ?_, ?_⟩
  · have hloads := hcounted'.loads
    have hle := residentRounds_le (p.simulator [] showProgressEvery).policy history
    show (n : ℤ) ≤ s'.1.2
    omega
  · obtain ⟨m, mid, hm, hmle⟩ := Serves.exists_of_length (show 1 ≤ p.maxNodes.toNat by omega) ∅ setup
    obtain ⟨k, final, hk, hkle⟩ : ∃ loads final, Serves p.maxNodes.toNat mid rounds loads final ∧
        loads ≤ elements.card := Serves.exists_of_subset hmem hcard
    exact ⟨m + k, final, hm.append hk, Nat.add_le_add hmle hkle⟩

end Policy

/-! ## The 2Q manager -/

namespace TwoQCacheManager

open CacheHitSimulator MultipleQueueCacheManager TwoQQueue

variable {config : TwoQConfiguration} {i j : ℤ} {k : α} {elements : Finset α}
  {m m' : TwoQCacheManager α}

/-- The sizes of the resident queues. -/
structure Filled (config : TwoQConfiguration) (i j : ℤ) (m : TwoQCacheManager α) : Prop where
  bounded : Bounded config m
  often : (m.queues am).length = i
  once : (m.queues a1In).length = j

theorem exists_fresh [Infinite α] (hm : m.Located) :
    ∃ k, m.currentLocations.lookup k = none := by
  obtain ⟨k, hk⟩ := Infinite.exists_notMem_finset
    ((m.queues am).toFinset ∪ (m.queues a1In).toFinset ∪ (m.queues a1Out).toFinset)
  refine ⟨k, ?_⟩
  cases hlookup : m.currentLocations.lookup k with
  | none => rfl
  | some q =>
    have hmem := (hm k q).mp hlookup
    simp only [Finset.mem_union, LinkedHashSet.mem_toFinset, not_or] at hk
    cases q with
    | am => exact absurd hmem hk.1.1
    | a1In => exact absurd hmem hk.1.2
    | a1Out => exact absurd hmem hk.2

/-- While `am` is small, room is made in `a1In`. -/
theorem Reclaimed.am_eq {L : Type} {onEvict : α → L → L} {l l' : L} (h : Sound config m)
    (hr : Reclaimed config (fun _ m => m) onEvict m l m' l')
    (hsmall : (m.queues am).length + config.kIn.val < config.maxNodes.val) :
    m'.queues am = m.queues am := by
  have hsize := h.cacheSize_eq
  have heq := h.size_eq (s := a1In) (by decide)
  cases hr with
  | room => rfl
  | demoted hfull hin hx htrimmed =>
    cases htrimmed with
    | kept => exact queues_relocate_of_ne (by decide) (by decide)
    | dropped =>
      rw [queues_forget_of_ne (by decide), queues_relocate_of_ne (by decide) (by decide)]
  | evicted hfull hin => omega

/-- A full cache with more than `kIn` keys in `a1In` demotes one of them. -/
theorem Filled.reclaimed {L : Type} {onEvict : α → L → L} {l l' : L} (h : Filled config i j m)
    (hfull : config.maxNodes.val ≤ i + j) (hin : config.kIn.val < j)
    (hr : Reclaimed config (fun _ m => m) onEvict m l m' l') :
    m'.queues am = m.queues am ∧ (m'.queues a1In).length = j - 1 ∧
      (1 ≤ config.kOut.val → ∃ x, x ∈ m'.queues a1Out) := by
  have hsize := h.bounded.cacheSize_eq
  have heq := h.bounded.size_eq (s := a1In) (by decide)
  have honce := h.once
  have hoften := h.often
  have hheld := h.bounded.held_le
  refine ⟨hr.am_eq h.bounded.toSound (by omega), ?_⟩
  cases hr with
  | room hroom => omega
  | evicted _ hin' => omega
  | @demoted x xs _ _ _ hx htrimmed =>
    have hmem : x ∈ m.queues a1In := LinkedHashSet.mem_of_toList_cons hx
    have hgone := length_relocate (q := a1In) (d := a1Out) h.bounded.located.filed hmem
    have hmoved : x ∈ (m.relocate x a1In a1Out).queues a1Out := mem_relocate.mpr (.inr ⟨rfl, rfl⟩)
    simp only [reduceCtorEq, if_false, if_true, add_zero] at hgone
    cases htrimmed with
    | kept => exact ⟨by rw [hgone, honce], fun _ => ⟨x, hmoved⟩⟩
    | @dropped y ys hlarge hy =>
      refine ⟨?_, fun hkOut => ?_⟩
      · rw [queues_forget_of_ne (by decide), hgone, honce]
      · have hrest := length_forget subclass (q := a1Out) (LinkedHashSet.mem_of_toList_cons hy)
        rw [if_pos rfl] at hrest
        have hle := ((m.relocate x a1In a1Out).queues a1Out).size_le_length
        obtain ⟨z, zs, hz⟩ := LinkedHashSet.exists_cons_of_length_pos
          (q := (forget subclass y a1Out (m.relocate x a1In a1Out)).queues a1Out) (by omega)
        exact ⟨z, LinkedHashSet.mem_of_toList_cons hz⟩

/-- A missed key joins `a1In` once there is room for it. -/
theorem Visited.of_none {L : Type} {onEvict onLoad : α → L → L} {l l' : L} (h : Sound config m)
    (hv : Visited config (fun _ m => m) onEvict onLoad k m l m' l')
    (hk : m.currentLocations.lookup k = none) :
    ∃ m₁ l₁, Reclaimed config (fun _ m => m) onEvict m l m₁ l₁ ∧
      m'.queues am = m₁.queues am ∧ m'.queues a1Out = m₁.queues a1Out ∧
      (m'.queues a1In).length = (m₁.queues a1In).length + 1 := by
  cases hv with
  | hitAm hlookup => cases hk.symm.trans hlookup
  | hitA1In hlookup => cases hk.symm.trans hlookup
  | ghostHit hlookup => cases hk.symm.trans hlookup
  | @missed m₁ l₁ _ hreclaimed =>
    have hafter := hreclaimed.after (.inl rfl) h
    have hnot := hafter.located.filed.notMem_of_none (hafter.missed k hk) a1In
    refine ⟨m₁, l₁, hreclaimed, ?_, ?_, ?_⟩
    · exact queues_enqueue_of_ne (by decide)
    · exact queues_enqueue_of_ne (by decide)
    · rw [length_enqueue hnot, if_pos rfl]

section Setup

variable (hc : Admissible config) (hlt : config.kOut.val < 2147483647)

include hc hlt

theorem Filled.fill [Infinite α] (h : Filled config i j m) (hroom : i + j < config.maxNodes.val) :
    ∃ k, ∀ l, ∃ w, (manager config).visit [countingListener] k (m, l) = .ok w ∧
      Filled config i (j + 1) w.1 := by
  obtain ⟨k, hk⟩ := exists_fresh h.bounded.located
  refine ⟨k, fun l => ?_⟩
  obtain ⟨m', l', hok, hv⟩ := visit_cases countingListener_responds (.inl rfl) hc h.bounded.toSound k l
  obtain ⟨m₁, l₁, hreclaimed, ham, -, hin⟩ := hv.of_none h.bounded.toSound hk
  have hsize := h.bounded.cacheSize_eq
  have honce := h.once
  have hoften := h.often
  have hsame : m₁ = m := by
    cases hreclaimed with
    | room => rfl
    | demoted hfull => omega
    | evicted hfull => omega
  rw [hsame] at ham hin
  exact ⟨_, hok, hv.bounded h.bounded (fits_of_lt hlt m _), by rw [ham, hoften], by rw [hin, honce]⟩

/-- A new key pushes one of the keys of a full cache into `a1Out`. -/
theorem Filled.rotate [Infinite α] (h : Filled config i j m) (hfull : config.maxNodes.val ≤ i + j)
    (hin : config.kIn.val < j) (hkOut : 1 ≤ config.kOut.val) :
    ∃ k, ∀ l, ∃ w, (manager config).visit [countingListener] k (m, l) = .ok w ∧
      (Filled config i j w.1 ∧ ∃ x, x ∈ w.1.queues a1Out) := by
  obtain ⟨k, hk⟩ := exists_fresh h.bounded.located
  refine ⟨k, fun l => ?_⟩
  obtain ⟨m', l', hok, hv⟩ := visit_cases countingListener_responds (.inl rfl) hc h.bounded.toSound k l
  obtain ⟨m₁, l₁, hreclaimed, ham, hout, hsize⟩ := hv.of_none h.bounded.toSound hk
  obtain ⟨ham₁, hin₁, hghost⟩ := h.reclaimed hfull hin hreclaimed
  refine ⟨_, hok, ⟨hv.bounded h.bounded (fits_of_lt hlt m _), ?_, ?_⟩, ?_⟩
  · rw [ham, ham₁, h.often]
  · rw [hsize, hin₁]
    omega
  · obtain ⟨x, hx⟩ := hghost hkOut
    exact ⟨x, hout ▸ hx⟩

/-- The key that was pushed there joins `am` when it is visited again. -/
theorem Filled.promote (h : Filled config i j m) (hfull : config.maxNodes.val ≤ i + j)
    (hin : config.kIn.val < j) (hghost : ∃ x, x ∈ m.queues a1Out) :
    ∃ k, ∀ l, ∃ w, (manager config).visit [countingListener] k (m, l) = .ok w ∧
      Filled config (i + 1) (j - 1) w.1 := by
  obtain ⟨k, hk⟩ := hghost
  have hlookup := (h.bounded.located k a1Out).mpr hk
  refine ⟨k, fun l => ?_⟩
  obtain ⟨m', l', hok, hv⟩ := visit_cases countingListener_responds (.inl rfl) hc h.bounded.toSound k l
  have hbounded := hv.bounded h.bounded (fits_of_lt hlt m _)
  refine ⟨_, hok, ?_⟩
  cases hv with
  | hitAm hk' => cases hlookup.symm.trans hk'
  | hitA1In hk' => cases hlookup.symm.trans hk'
  | missed hk' => cases hlookup.symm.trans hk'
  | @ghostHit m₁ l₁ _ hreclaimed =>
    obtain ⟨ham₁, hin₁, -⟩ := h.reclaimed hfull hin hreclaimed
    have hnot : k ∉ m.queues am := h.bounded.located.filed.notMem_of_lookup hlookup (by decide)
    refine ⟨hbounded, ?_, ?_⟩
    · rw [queues_relocate_destination (by decide), ham₁, LinkedHashSet.length_add hnot, h.often]
    · rw [queues_relocate_of_ne (by decide) (by decide), hin₁]

end Setup

/-- With too few places for the elements outside of `am`, one of them is always missing. -/
theorem traps (hc : Admissible config) (hlt : config.kOut.val < 2147483647)
    (hcard : config.kIn.val + config.kOut.val + 2 ≤ elements.card) :
    (Policy.twoQ (α := α) config).Traps elements fun m =>
      Bounded config m ∧ (m.queues am).length = config.maxNodes.val - config.kIn.val - 1 ∧
        ∀ k ∈ elements, k ∉ m.queues am := by
  rintro m ⟨hbounded, hsize, helements⟩
  have hsound := hbounded.toSound
  have hheld := hsound.held_le
  have hghosts := hbounded.ghosts_le
  obtain ⟨k, hk, hnot⟩ : ∃ k ∈ elements,
      k ∉ (m.queues a1In).toFinset ∪ (m.queues a1Out).toFinset := by
    apply Finset.exists_mem_notMem_of_card_lt_card
    have hle := Finset.card_union_le (m.queues a1In).toFinset (m.queues a1Out).toFinset
    have hin := (m.queues a1In).card_toFinset
    have hout := (m.queues a1Out).card_toFinset
    omega
  simp only [Finset.mem_union, LinkedHashSet.mem_toFinset, not_or] at hnot
  have ham := helements k hk
  have hlookup : m.currentLocations.lookup k = none := by
    cases hlookup : m.currentLocations.lookup k with
    | none => rfl
    | some q =>
      have hmem := (hsound.located k q).mp hlookup
      cases q with
      | am => exact absurd hmem ham
      | a1In => exact absurd hmem hnot.1
      | a1Out => exact absurd hmem hnot.2
  refine ⟨k, hk, ?_, ?_⟩
  · exact fun hres => (mem_resident.mp hres).elim ham hnot.1
  · intro l w hok
    obtain ⟨m', l', hok', hv⟩ := visit_cases countingListener_responds (.inl rfl) hc hsound k l
    cases hok'.symm.trans hok
    obtain ⟨m₁, l₁, hreclaimed, ham', -, -⟩ := hv.of_none hsound hlookup
    have hsame := hreclaimed.am_eq hsound (by omega)
    refine ⟨hv.bounded hbounded (fits_of_lt hlt m _), ?_, ?_⟩
    · rw [ham', hsame, hsize]
    · rw [ham', hsame]
      exact helements

section Reached

variable {showProgressEvery : JavaInt} [Infinite α] (hc : Admissible config)
  (hlt : config.kOut.val < 2147483647) (hprogress : showProgressEvery.val ≠ 0)

include hc hlt hprogress

theorem reached_filled (j : ℕ) (hj : j ≤ config.maxNodes.val) :
    (Policy.twoQ (α := α) config).Reached showProgressEvery (Filled config 0 j) j := by
  induction j with
  | zero => exact .start ⟨bounded_empty hc, rfl, rfl⟩
  | succ j ih =>
    have hstep : ∀ m, Filled (α := α) config 0 j m → ∃ k, ∀ l, ∃ w,
        (manager config).visit [countingListener] k (m, l) = .ok w ∧
          Filled config 0 ((j + 1 : ℕ) : ℤ) w.1 := by
      intro m h
      push_cast
      exact h.fill hc hlt (by omega)
    exact (ih (by omega)).visit hprogress hstep

theorem reached_promoted (hkOut : 1 ≤ config.kOut.val) (i : ℕ)
    (hi : i + config.kIn.val + 1 ≤ config.maxNodes.val) :
    (Policy.twoQ (α := α) config).Reached showProgressEvery
      (Filled config i (config.maxNodes.val - i)) (config.maxNodes.val.toNat + 2 * i) := by
  have hpos := hc.maxNodes_pos
  have hcast : ((config.maxNodes.val.toNat : ℕ) : ℤ) = config.maxNodes.val :=
    Int.toNat_of_nonneg (by omega)
  induction i with
  | zero =>
    have hfilled := reached_filled (α := α) hc hlt hprogress config.maxNodes.val.toNat (by omega)
    rw [hcast] at hfilled
    rwa [Nat.cast_zero, Int.sub_zero, Nat.mul_zero, Nat.add_zero]
  | succ i ih =>
    have hrotate : ∀ m, Filled (α := α) config i (config.maxNodes.val - i) m → ∃ k, ∀ l, ∃ w,
        (manager config).visit [countingListener] k (m, l) = .ok w ∧
          (Filled config i (config.maxNodes.val - i) w.1 ∧ ∃ x, x ∈ w.1.queues a1Out) :=
      fun m h => h.rotate hc hlt (by omega) (by push_cast at hi; omega) hkOut
    have hpromote : ∀ m, (Filled (α := α) config i (config.maxNodes.val - i) m ∧
        ∃ x, x ∈ m.queues a1Out) → ∃ k, ∀ l, ∃ w,
        (manager config).visit [countingListener] k (m, l) = .ok w ∧
          Filled config ((i + 1 : ℕ) : ℤ) (config.maxNodes.val - (i + 1 : ℕ)) w.1 := by
      rintro m ⟨h, hghost⟩
      push_cast at hi ⊢
      rw [← sub_sub]
      exact h.promote hc hlt (by omega) (by omega) hghost
    have hrotated : (Policy.twoQ (α := α) config).Reached showProgressEvery
        (fun m => Filled config i (config.maxNodes.val - i) m ∧ ∃ x, x ∈ m.queues a1Out)
        (config.maxNodes.val.toNat + 2 * i + 1) :=
      (ih (by push_cast at hi; omega)).visit hprogress hrotate
    exact hrotated.visit hprogress hpromote

end Reached

end TwoQCacheManager

/-! ## The fixed manager -/

namespace FixedReplacementCacheManager

open CacheHitSimulator MultipleQueueCacheManager ReplacementCacheManager ReplacementQueue

variable {config : FixedReplacementConfiguration} {i : ℤ} {k : α} {elements : Finset α}
  {m m' : FixedReplacementCacheManager α} {events : List (Event α)}

theorem Visited.visit_eq {L : Type}
    {listeners : List (CacheManagerListener α (FixedReplacementCacheManager α) L)}
    {onEvict onLoad : α → L → L} (hr : Responds listeners (fun _ m => m) onEvict onLoad)
    (hm : m.Located) (hv : Visited config k m m' events) (l : L) :
    ∃ l', (manager config).visit listeners k (m, l) = .ok (m', l') := by
  have hinsert (m' : FixedReplacementCacheManager α) (l' : L) :
      insertNode subclass listeners k t1 (m', l') = .ok (m'.enqueue k t1, onLoad k l') :=
    insertNode_ok hr
  cases hv with
  | @hit s hk =>
    refine ⟨l, ?_⟩
    simp only [manager, MultipleQueueCacheManager.visit, hk]
    rw [onHit, moveNode_ok hr]
    rcases resident_or s with rfl | rfl <;> rfl
  | room hk hroom =>
    refine ⟨onLoad k l, ?_⟩
    simp only [manager, MultipleQueueCacheManager.visit, hk, onMiss, if_pos hroom, Java.ok_bind,
      hinsert]
  | @replaced x xs hk hfull hx =>
    refine ⟨onLoad k (onEvict x l), ?_⟩
    simp only [manager, MultipleQueueCacheManager.visit, hk, onMiss_of_full _ _ _ hfull]
    rw [evictNode_cons hr (.inl rfl) (fun _ _ => rfl) hm.filed hx]
    simp only [Java.ok_bind, hinsert]

section Setup

variable (hlow : 0 < config.t1Size.val) (hhigh : config.t1Size.val < config.maxNodes.val)

include hlow hhigh

theorem Sound.exists_visited (h : Sound config m) (k : α) :
    ∃ m' events, Visited config k m m' events := by
  obtain ⟨m', events, hok, -⟩ :=
    h.visit recorder_responds (.inl rfl) hlow hhigh k ([] : List (Event α))
  rcases visit_cases config h.located k with ⟨m₁, events₁, -, hv⟩ | ⟨-, -, -, herror⟩
  · exact ⟨m₁, events₁, hv⟩
  · cases herror.symm.trans hok

omit hlow hhigh in
/-- While `t2` leaves `t1Size` places to `t1`, a missed key takes one of these. -/
theorem Visited.of_none (h : Sound config m) (hv : Visited config k m m' events)
    (hk : m.currentLocations.lookup k = none)
    (hsmall : (m.queues t2).length + config.t1Size.val ≤ config.maxNodes.val) :
    m'.queues t2 = m.queues t2 ∧ k ∈ m'.queues t1 := by
  cases hv with
  | hit hk' => cases hk.symm.trans hk'
  | room => exact ⟨queues_enqueue_of_ne (by simp), by simp⟩
  | @replaced x xs _ hfull hx =>
    have hsize := h.cacheSize_eq
    have heq := h.size_eq t1
    have hvictim : victimQueue config m = t1 := if_pos (by omega)
    rw [hvictim]
    refine ⟨?_, by simp⟩
    rw [queues_enqueue_of_ne (by simp), queues_forget_of_ne (by simp)]

/-- A new key joins `t1`, and goes on to `t2` when it is visited again. -/
theorem Sound.exists_new [Infinite α] (h : Sound config m) (hsize : (m.queues t2).length = i)
    (hsmall : i + config.t1Size.val ≤ config.maxNodes.val) :
    ∃ k, ∀ l, ∃ w, (manager config).visit [countingListener] k (m, l) = .ok w ∧
      (Sound config w.1 ∧ (w.1.queues t2).length = i ∧ ∃ x, x ∈ w.1.queues t1) := by
  obtain ⟨k, hk⟩ := Infinite.exists_notMem_finset ((m.queues t1).toFinset ∪ (m.queues t2).toFinset)
  simp only [Finset.mem_union, LinkedHashSet.mem_toFinset, not_or] at hk
  have hlookup : m.currentLocations.lookup k = none := by
    cases hlookup : m.currentLocations.lookup k with
    | none => rfl
    | some q =>
      have hmem := (h.located k q).mp hlookup
      rcases resident_or q with rfl | rfl
      · exact absurd hmem hk.1
      · exact absurd hmem hk.2
  obtain ⟨m', events, hv⟩ := h.exists_visited hlow hhigh k
  obtain ⟨ht2, ht1⟩ := hv.of_none h hlookup (by omega)
  refine ⟨k, fun l => ?_⟩
  obtain ⟨l', hok⟩ := hv.visit_eq countingListener_responds h.located l
  exact ⟨_, hok, (hv.effect h).1, by rw [ht2, hsize], k, ht1⟩

theorem Sound.exists_again (h : Sound config m) (hsize : (m.queues t2).length = i)
    (hone : ∃ x, x ∈ m.queues t1) :
    ∃ k, ∀ l, ∃ w, (manager config).visit [countingListener] k (m, l) = .ok w ∧
      (Sound config w.1 ∧ (w.1.queues t2).length = i + 1) := by
  obtain ⟨k, hk⟩ := hone
  have hlookup := (h.located k t1).mpr hk
  obtain ⟨m', events, hv⟩ := h.exists_visited hlow hhigh k
  have hgrown : (m'.queues t2).length = i + 1 := by
    cases hv with
    | @hit s hk' =>
      cases hlookup.symm.trans hk'
      have hnot : k ∉ m.queues t2 := h.located.filed.notMem_of_lookup hlookup (by simp)
      rw [queues_relocate_destination (by simp), LinkedHashSet.length_add hnot, hsize]
    | room hk' => cases hlookup.symm.trans hk'
    | replaced hk' => cases hlookup.symm.trans hk'
  refine ⟨k, fun l => ?_⟩
  obtain ⟨l', hok⟩ := hv.visit_eq countingListener_responds h.located l
  exact ⟨_, hok, (hv.effect h).1, hgrown⟩

/-- With `t1Size` places for them, one of `t1Size + 1` elements is always missing. -/
theorem traps (hcard : config.t1Size.val + 1 ≤ elements.card) :
    (Policy.fixedReplacement (α := α) config).Traps elements fun m =>
      Sound config m ∧ (m.queues t2).length = config.maxNodes.val - config.t1Size.val ∧
        ∀ k ∈ elements, k ∉ m.queues t2 := by
  rintro m ⟨hsound, hsize, helements⟩
  have hheld := hsound.held_le
  obtain ⟨k, hk, hnot⟩ : ∃ k ∈ elements, k ∉ (m.queues t1).toFinset := by
    apply Finset.exists_mem_notMem_of_card_lt_card
    have ht1 := (m.queues t1).card_toFinset
    omega
  rw [LinkedHashSet.mem_toFinset] at hnot
  have ht2 := helements k hk
  have hres : k ∉ resident m := fun hres => (mem_resident.mp hres).elim hnot ht2
  have hlookup : m.currentLocations.lookup k = none := by
    cases hlookup : m.currentLocations.lookup k with
    | none => rfl
    | some q => exact absurd (hsound.promote hlookup).1 hres
  refine ⟨k, hk, hres, ?_⟩
  intro l w hok
  obtain ⟨m', events, hv⟩ := hsound.exists_visited hlow hhigh k
  obtain ⟨l', hok'⟩ := hv.visit_eq countingListener_responds hsound.located l
  cases hok'.symm.trans hok
  obtain ⟨hsame, -⟩ := hv.of_none hsound hlookup (by omega)
  refine ⟨(hv.effect hsound).1, ?_, ?_⟩
  · rw [hsame, hsize]
  · rw [hsame]
    exact helements

theorem reached_promoted [Infinite α] {showProgressEvery : JavaInt}
    (hprogress : showProgressEvery.val ≠ 0) (i : ℕ)
    (hi : i + config.t1Size.val ≤ config.maxNodes.val) :
    (Policy.fixedReplacement (α := α) config).Reached showProgressEvery
      (fun m => Sound config m ∧ (m.queues t2).length = i) (2 * i) := by
  induction i with
  | zero => exact .start ⟨sound_initial (by omega), rfl⟩
  | succ i ih =>
    have hnew : ∀ m : FixedReplacementCacheManager α, (Sound config m ∧ (m.queues t2).length = i) →
        ∃ k, ∀ l, ∃ w, (manager config).visit [countingListener] k (m, l) = .ok w ∧
          (Sound config w.1 ∧ (w.1.queues t2).length = i ∧ ∃ x, x ∈ w.1.queues t1) :=
      fun m h => h.1.exists_new hlow hhigh h.2 (by push_cast at hi; omega)
    have hagain : ∀ m : FixedReplacementCacheManager α,
        (Sound config m ∧ (m.queues t2).length = i ∧ ∃ x, x ∈ m.queues t1) →
        ∃ k, ∀ l, ∃ w, (manager config).visit [countingListener] k (m, l) = .ok w ∧
          (Sound config w.1 ∧ (w.1.queues t2).length = ((i + 1 : ℕ) : ℤ)) := by
      rintro m ⟨h, hsize, hone⟩
      push_cast
      exact h.exists_again hlow hhigh hsize hone
    have hvisited : (Policy.fixedReplacement (α := α) config).Reached showProgressEvery
        (fun m => Sound config m ∧ (m.queues t2).length = i ∧ ∃ x, x ∈ m.queues t1) (2 * i + 1) :=
      (ih (by push_cast at hi; omega)).visit hprogress hnew
    exact hvisited.visit hprogress hagain

end Setup

end FixedReplacementCacheManager

/-! ## The direct-mapped manager -/

namespace DirectMappedCacheManager

variable {config : DirectMappedConfiguration α} {x y : α}

/-- Of two keys with the same place one is always missing. -/
theorem traps (hc : Admissible config) (hne : x ≠ y) (hplace : place config x = place config y) :
    (Policy.directMapped config).Traps {x, y} (Sound config) := by
  intro m hsound
  have hkeep (k : α) (l : ℤ) (w : DirectMappedCacheManager α × ℤ)
      (hok : (manager config).visit [CacheHitSimulator.countingListener] k (m, l) = .ok w) :
      Sound config w.1 := by
    obtain ⟨m', l', hok', hsound', -⟩ :=
      hsound.visit CacheHitSimulator.countingListener_responds hc k l
    cases hok'.symm.trans hok
    exact hsound'
  by_cases hx : x ∈ resident m
  · refine ⟨y, by simp, ?_, hkeep y⟩
    intro hy
    have hentry := hsound.mem_resident.mp hx
    rw [hplace, hsound.mem_resident.mp hy] at hentry
    exact hne (Option.some.inj (Option.some.inj hentry)).symm
  · exact ⟨x, by simp, hx, hkeep x⟩

omit [DecidableEq α] in
/-- There are not enough places for infinitely many keys. -/
theorem exists_same_place [Infinite α] (hc : Admissible config) :
    ∃ x y, x ≠ y ∧ place config x = place config y := by
  have hpos := hc.maxNodes_pos
  obtain ⟨x, y, hne, hsame⟩ := Finite.exists_ne_map_eq_of_infinite
    fun k : α => (⟨place config k, by have hlt := place_lt hc k; omega⟩ : Fin config.maxNodes.val.toNat)
  exact ⟨x, y, hne, Fin.mk.inj hsame⟩

end DirectMappedCacheManager

/-! ## Unbounded misses -/

namespace Policy

open CacheHitSimulator MultipleQueueCacheManager

omit [DecidableEq α] in
/-- The policies with a trap, and their configurations. -/
def HasTrap : Policy α → Prop
  | fixedReplacement _ => True
  | twoQ config =>
    1 ≤ config.kOut.val ∧ config.kIn.val + config.kOut.val + 2 ≤ config.maxNodes.val
  | directMapped config => 2 ≤ config.maxNodes.val
  | lru _ | fifo _ | adaptiveReplacement _ | mq _ | lfu _ => False

theorem exists_elements [Infinite α] (s : Finset α) (n : ℕ) :
    ∃ elements : Finset α, elements.card = n ∧ ∀ k ∈ elements, k ∉ s := by
  obtain ⟨all, hall⟩ := Infinite.exists_subset_card_eq α (n + s.card)
  have hle := Finset.le_card_sdiff s all
  obtain ⟨elements, hsub, hcard⟩ := Finset.exists_subset_card_eq (show n ≤ (all \ s).card by omega)
  exact ⟨elements, hcard, fun k hk => (Finset.mem_sdiff.mp (hsub hk)).2⟩

/-- A policy with a trap misses any number of times on traces which a store of its size that knows
them serves with at most `4 * maxNodes` loads. -/
theorem exists_trap [Infinite α] (p : Policy α) (hp : p.Admissible) (htrap : p.HasTrap)
    (showProgressEvery : JavaInt) (hprogress : showProgressEvery.val ≠ 0) (n : ℕ)
    (hn : 3 * p.maxNodes + n ≤ 2147483647) :
    ∃ trace report, testPerformance (p.simulator trace showProgressEvery) = .ok report ∧
      n ≤ report.misses ∧
      ∃ loads final, Serves p.maxNodes.toNat ∅ trace loads final ∧ loads ≤ 4 * p.maxNodes := by
  have hone := one_le_maxNodes hp
  cases p with
  | fixedReplacement config =>
    obtain ⟨maxNodes, t1Size, haccepted⟩ := hp
    obtain ⟨hlow, hhigh⟩ := FixedReplacementCacheManager.accepted_bounds haccepted
    have hmax : (fixedReplacement (α := α) config).maxNodes = config.maxNodes.val := rfl
    rw [hmax] at hn hone
    obtain ⟨i, hi⟩ := Int.eq_ofNat_of_zero_le (show 0 ≤ config.maxNodes.val - config.t1Size.val by omega)
    obtain ⟨setup, history, s, hlength, hsetup, hsound, hsize⟩ :=
      FixedReplacementCacheManager.reached_promoted (α := α) hlow hhigh hprogress i (by omega)
    obtain ⟨elements, hcard, hnew⟩ := exists_elements
      (LinkedHashSet.toFinset (s.1.1.queues ReplacementQueue.t2)) (config.t1Size.val.toNat + 1)
    have htraps : (fixedReplacement (α := α) config).Traps elements _ :=
      FixedReplacementCacheManager.traps hlow hhigh (by omega)
    obtain ⟨trace, report, hreport, hmisses, loads, final, hserves, hloads⟩ :=
      htraps.exists_trace ⟨maxNodes, t1Size, haccepted⟩
        (fun _ _ => ⟨trivial, trivial, trivial⟩) hprogress (by rw [hmax]; omega) hsetup
        ⟨hsound, hsize.trans hi.symm, fun k hk hmem => hnew k hk (LinkedHashSet.mem_toFinset.mpr hmem)⟩
        n (by omega)
    exact ⟨trace, report, hreport, hmisses, loads, final, hserves, by rw [hmax]; omega⟩
  | twoQ config =>
    obtain ⟨hkOut, hshort⟩ := htrap
    have hmax : (twoQ (α := α) config).maxNodes = config.maxNodes.val := rfl
    have hkIn := hp.kIn_nonneg
    rw [hmax] at hn hone
    have hlt : config.kOut.val < 2147483647 := by omega
    obtain ⟨i, hi⟩ := Int.eq_ofNat_of_zero_le
      (show 0 ≤ config.maxNodes.val - config.kIn.val - 1 by omega)
    obtain ⟨setup, history, s, hlength, hsetup, hfilled⟩ :=
      TwoQCacheManager.reached_promoted (α := α) hp hlt hprogress hkOut i (by omega)
    obtain ⟨elements, hcard, hnew⟩ := exists_elements
      (LinkedHashSet.toFinset (s.1.1.queues TwoQQueue.am)) (config.kIn.val + config.kOut.val + 2).toNat
    have htraps : (twoQ (α := α) config).Traps elements _ :=
      TwoQCacheManager.traps hp hlt (by omega)
    obtain ⟨trace, report, hreport, hmisses, loads, final, hserves, hloads⟩ :=
      htraps.exists_trace hp (fun _ _ => ⟨trivial, trivial, trivial⟩) hprogress
        (by rw [hmax]; omega) hsetup
        ⟨hfilled.bounded, hfilled.often.trans hi.symm,
          fun k hk hmem => hnew k hk (LinkedHashSet.mem_toFinset.mpr hmem)⟩ n (by omega)
    exact ⟨trace, report, hreport, hmisses, loads, final, hserves, by rw [hmax]; omega⟩
  | directMapped config =>
    have hmax : (directMapped config).maxNodes = config.maxNodes.val := rfl
    have htwo : 2 ≤ config.maxNodes.val := htrap
    rw [hmax] at hn hone
    obtain ⟨x, y, hne, hplace⟩ := DirectMappedCacheManager.exists_same_place hp
    have hcard := Finset.card_pair hne
    obtain ⟨trace, report, hreport, hmisses, loads, final, hserves, hloads⟩ :=
      (DirectMappedCacheManager.traps hp hne hplace).exists_trace hp
        (fun _ _ => ⟨trivial, trivial, trivial⟩) hprogress
        (by rw [hmax]; omega) rfl (DirectMappedCacheManager.sound_new hp) n
        (by rw [List.length_nil]; omega)
    exact ⟨trace, report, hreport, hmisses, loads, final, hserves,
      by rw [hmax]; rw [List.length_nil] at hloads; omega⟩
  | lru | fifo | adaptiveReplacement | mq | lfu => exact htrap.elim

theorem exists_trap_twoQ : ∃ trace report,
    testPerformance ((twoQ (α := ℕ) ⟨4, 1, 1⟩).simulator trace 100) = .ok report ∧
    1000 ≤ report.misses ∧
    ∃ loads final, Serves 4 ∅ trace loads final ∧ (loads : ℤ) ≤ 4 * 4 :=
  exists_trap (twoQ ⟨4, 1, 1⟩) ⟨by decide, by decide, by decide, by decide⟩
    ⟨by decide, by decide⟩ 100 (by decide) 1000 (by decide)

end Policy

end CachePolicies
