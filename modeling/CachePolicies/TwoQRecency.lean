import CachePolicies.RecencyLists
import CachePolicies.TwoQManagers
import CachePolicies.VisitHistories

/-!
# Order of the queues of the 2Q manager

Read from `a1Out` to `a1In`, the keys which were loaded into `a1In` stand in the order
of their loads, since demoting a key moves it across the border between the two. The
keys of `am` stand in the order of their last visits.
-/

namespace CachePolicies.TwoQCacheManager

open MultipleQueueCacheManager TwoQQueue

variable {α L : Type} [DecidableEq α]

/-- The keys which entered at `a1In`, the longest watched first. -/
def loaded (m : TwoQCacheManager α) : List α := (m.queues a1Out).toList ++ (m.queues a1In).toList

section Visits

variable {config : TwoQConfiguration} {k x : α} {m m' : TwoQCacheManager α} {l' : List (Event α)}

theorem forget_sublist (x : α) (s : TwoQQueue) (m : TwoQCacheManager α) :
    (loaded (forget subclass x s m)).Sublist (loaded m) ∧
      ((forget subclass x s m).queues am).toList.Sublist (m.queues am).toList := by
  have hqueue := toList_forget_sublist subclass x s m
  exact ⟨(hqueue a1Out).append (hqueue a1In), hqueue am⟩

/-- `reclaimForEntry` takes keys out of the lists and reorders none. -/
theorem Reclaimed.lists (hm : m.Located)
    (h : Reclaimed config (fun _ m => m) recordEviction m [] m' l') :
    (loaded m').Sublist (loaded m) ∧ (m'.queues am).toList.Sublist (m.queues am).toList ∧
      loads l' = [] := by
  cases h with
  | room => exact ⟨List.Sublist.refl _, List.Sublist.refl _, rfl⟩
  | @demoted x xs m' hfull hin hx htrimmed =>
    have hloaded : loaded (m.relocate x a1In a1Out) = loaded m :=
      toList_relocate_head hm.filed (by decide) hx
    have ham : (m.relocate x a1In a1Out).queues am = m.queues am :=
      queues_relocate_of_ne (by decide) (by decide)
    rw [← hloaded, ← ham]
    cases htrimmed with
    | kept => exact ⟨List.Sublist.refl _, List.Sublist.refl _, rfl⟩
    | dropped =>
      obtain ⟨h1, h2⟩ := forget_sublist _ a1Out (m.relocate x a1In a1Out)
      exact ⟨h1, h2, rfl⟩
  | evicted =>
    obtain ⟨h1, h2⟩ := forget_sublist _ am m
    exact ⟨h1, h2, rfl⟩

/-- What a visit to `k` does to the two lists. -/
inductive Reordered (k : α) (m m' : TwoQCacheManager α) (events : List (Event α)) : Prop
  | missed {l : List α} (hload : loads events = [k]) (hloaded : loaded m' = l ++ [k])
      (hsub : l.Sublist (loaded m)) (hk : k ∉ loaded m)
      (ham : (m'.queues am).toList.Sublist (m.queues am).toList) (hkam : k ∉ m.queues am)
  | kept (hload : loads events = []) (hloaded : loaded m' = loaded m)
      (ham : m'.queues am = m.queues am) (hkam : k ∉ m.queues am)
  | promoted {l : List α} (hload : ∀ x ∈ loads events, x = k)
      (hloaded : (loaded m').Sublist (loaded m)) (ham : (m'.queues am).toList = l ++ [k])
      (hsub : l.Sublist (m.queues am).toList)

omit [DecidableEq α] in
theorem mem_loaded : k ∈ loaded m ↔ k ∈ m.queues a1Out ∨ k ∈ m.queues a1In := List.mem_append

theorem Visited.reordered (h : Sound config m)
    (hv : Visited config (fun _ m => m) recordEviction recordLoad k m [] m' l') :
    Reordered k m m' l' := by
  have hm := h.located
  cases hv with
  | hitAm hk =>
    refine .promoted (by simp) ?_ toList_relocate_self List.erase_sublist
    rw [loaded, loaded, queues_relocate_of_ne (by decide) (by decide),
      queues_relocate_of_ne (by decide) (by decide)]
  | hitA1In hk => exact .kept rfl rfl rfl (hm.filed.notMem_of_lookup hk (by decide))
  | @ghostHit m₁ l₁ hk hreclaimed =>
    have hafter := hreclaimed.after (.inl rfl) h
    have hnot : k ∉ m₁.queues am := fun hmem => absurd (hafter.watched k hk am hmem) (by decide)
    obtain ⟨hsub, ham, hload⟩ := hreclaimed.lists hm
    refine .promoted (by simp [hload]) ?_ (toList_relocate_destination (by decide) hnot) ham
    rw [loaded, toList_relocate_source (by decide), queues_relocate_of_ne (by decide) (by decide)]
    exact (List.erase_sublist.append (List.Sublist.refl _)).trans hsub
  | @missed m₁ l₁ hk hreclaimed =>
    have hafter := hreclaimed.after (.inl rfl) h
    have hk₁ := hafter.missed k hk
    obtain ⟨hsub, ham, hload⟩ := hreclaimed.lists hm
    have hout : k ∉ loaded m := by
      rw [mem_loaded]
      rintro (hmem | hmem) <;> exact hm.filed.notMem_of_none hk _ hmem
    refine .missed (by simp [hload]) ?_ hsub hout ?_ (hm.filed.notMem_of_none hk am)
    · rw [loaded, queues_enqueue_of_ne (by decide),
        toList_enqueue (hafter.located.filed.notMem_of_none hk₁ a1In), ← List.append_assoc]
      rfl
    · rw [queues_enqueue_of_ne (by decide)]
      exact ham

end Visits

/-! ## Whole runs -/

section Runs

variable {config : TwoQConfiguration} {k x : α} {m m' : TwoQCacheManager α}
  {history : History (TwoQCacheManager α) α} {events : List (Event α)}

structure Recent (config : TwoQConfiguration) (history : History (TwoQCacheManager α) α)
    (m : TwoQCacheManager α) : Prop where
  bounded : Bounded config m
  increasingLoads : Increasing (lastLoad history) (loaded m)
  increasingVisits : Increasing (lastVisit history) (m.queues am).toList

theorem Recent.visit (h : Recent config history m) (hbounded : Bounded config m')
    (hr : Reordered k m m' events) :
    Recent config (⟨m, .visit k, events, m'⟩ :: history) m' := by
  have hm' := hbounded.located
  refine ⟨hbounded, ?_, ?_⟩
  · cases hr with
    | @missed l hload hloaded hsub hk =>
      rw [hloaded]
      refine (h.increasingLoads.sublist hsub).touch (fun x hx => lastLoad_of_notMem ?_)
        (fun x _ => lastLoad_lt (by simp [hload]) x)
      rw [hload, List.mem_singleton]
      rintro rfl
      exact hk (hsub.subset hx)
    | kept hload hloaded =>
      rw [hloaded]
      exact h.increasingLoads.congr fun x _ => lastLoad_of_notMem (by simp [hload])
    | promoted hload hloaded ham =>
      have hmem : k ∈ m'.queues am := by simp [LinkedHashSet.mem_def, ham]
      refine (h.increasingLoads.sublist hloaded).congr fun x hx => lastLoad_of_notMem ?_
      intro hxload
      rw [hload x hxload] at hx
      rcases mem_loaded.mp hx with hx | hx <;> cases hm'.filed.eq_of_mem hmem hx
  · cases hr with
    | missed _ _ _ _ ham hkam =>
      refine (h.increasingVisits.sublist ham).congr fun x hx => lastVisit_visit_of_ne ?_
      rintro rfl
      exact hkam (ham.subset hx)
    | kept _ _ ham hkam =>
      rw [ham]
      refine h.increasingVisits.congr fun x hx => lastVisit_visit_of_ne ?_
      rintro rfl
      exact hkam hx
    | @promoted l hload hloaded ham hsub =>
      have hnodup := (m'.queues am).nodup
      rw [ham] at hnodup ⊢
      refine (h.increasingVisits.sublist hsub).touch (fun x hx => lastVisit_visit_of_ne ?_)
        (fun x _ => lastVisit_lt x)
      exact (List.nodup_append.mp hnodup).2.2 x hx k (List.mem_singleton_self k)

/-- A call which is no visit takes keys away at most. -/
theorem Recent.shrunk {call : Call α} (h : Recent config history m) (hbounded : Bounded config m')
    (hcall : ∀ k, call ≠ .visit k) (hloaded : (loaded m').Sublist (loaded m))
    (ham : (m'.queues am).toList.Sublist (m.queues am).toList) :
    Recent config (⟨m, call, [], m'⟩ :: history) m' := by
  refine ⟨hbounded, ?_, ?_⟩
  · exact (h.increasingLoads.sublist hloaded).congr fun x _ => lastLoad_of_notMem (by simp)
  · refine (h.increasingVisits.sublist ham).congr fun x _ => ?_
    rw [lastVisit, if_neg (hcall x)]

/-- A visit leaves the lists in order, and `a1Out` within its bound where it fits. -/
theorem Recent.exists_visit (hc : Admissible config) (h : Recent config history m) (k : α) :
    ∃ m' events, (manager config).perform m (.visit k) = .ok (m', events) ∧
      (Fits config m (.visit k) → Recent config (⟨m, .visit k, events, m'⟩ :: history) m') ∧
      ((m'.queues a1Out).length ≤ config.kOut.val → Fits config m (.visit k)) := by
  obtain ⟨m', events, hok, hv⟩ :=
    visit_cases recorder_responds (.inl rfl) hc h.bounded.toSound k []
  exact ⟨m', events, hok,
    fun hfits => h.visit (hv.bounded h.bounded hfits) (hv.reordered h.bounded.toSound),
    hv.fits h.bounded⟩

theorem Recent.perform (hc : Admissible config) (h : Recent config history m) {call : Call α}
    (hfits : Fits config m call) :
    ∃ m' events, (manager config).perform m call = .ok (m', events) ∧
      Recent config (⟨m, call, events, m'⟩ :: history) m' := by
  cases call with
  | visit k =>
    obtain ⟨m', events, hok, hrecent, -⟩ := h.exists_visit hc k
    exact ⟨m', events, hok, hrecent hfits⟩
  | remove k =>
    refine ⟨_, _, rfl, h.shrunk (h.bounded.remove k) (by simp) ?_ ?_⟩
    all_goals
      rw [MultipleQueueCacheManager.remove]
      split
      · exact List.Sublist.refl _
    · exact (forget_sublist k _ m).1
    · exact (forget_sublist k _ m).2
  | clear =>
    exact ⟨_, _, rfl,
      h.shrunk (bounded_empty hc) (by simp) (List.nil_sublist _) (List.nil_sublist _)⟩

/-- A call that leaves no ghost too many fits. -/
theorem Recent.fits (hc : Admissible config) (h : Recent config history m) {call : Call α}
    (hok : (manager config).perform m call = .ok (m', events))
    (hghosts : (m'.queues a1Out).length ≤ config.kOut.val) : Fits config m call := by
  cases call with
  | visit k =>
    obtain ⟨m₁, events₁, hok₁, -, hfits⟩ := h.exists_visit hc k
    cases hok₁.symm.trans hok
    exact hfits hghosts
  | remove k => trivial
  | clear => trivial

/-- The consistency of the queues and their bounds. -/
structure Consistent (config : TwoQConfiguration) (history : History (TwoQCacheManager α) α)
    (m : TwoQCacheManager α) : Prop where
  nodup : ∀ q, (m.queues q).toList.Nodup
  disjoint : ∀ q s, q ≠ s → List.Disjoint (m.queues q).toList (m.queues s).toList
  located : ∀ k q, m.currentLocations.lookup k = some q ↔ k ∈ (m.queues q).toList
  held_le : (m.queues am).length + (m.queues a1In).length ≤ config.maxNodes.val
  ghosts_le : (m.queues a1Out).length ≤ config.kOut.val
  increasingLoads :
    Increasing (lastLoad history) ((m.queues a1Out).toList ++ (m.queues a1In).toList)
  increasingVisits : Increasing (lastVisit history) (m.queues am).toList

theorem Recent.consistent (h : Recent config history m) : Consistent config history m where
  nodup q := (m.queues q).nodup
  disjoint _ _ hne _ hq hs := hne (h.bounded.located.filed.eq_of_mem hq hs)
  located := h.bounded.located
  held_le := h.bounded.held_le
  ghosts_le := h.bounded.ghosts_le
  increasingLoads := h.increasingLoads
  increasingVisits := h.increasingVisits

/-- A sequence of calls leaves the queues consistent, bounded and in order, however many of its
calls have been made, exactly when no visit makes `a1Out` longer than `size()` can tell. -/
theorem consistent_iff_fits (config : TwoQConfiguration) (hc : 1 ≤ config.maxNodes.val)
    (hkIn : 0 ≤ config.kIn.val) (hlt : config.kIn.val < config.maxNodes.val)
    (hkOut : 0 ≤ config.kOut.val) (calls : List (Call α)) :
    (∀ start, start <+: calls → ∃ history m,
      replay (manager config).perform (manager config).initial start = .ok (history, m) ∧
        Consistent config history m) ↔
    Admitted (manager config).perform (Fits config) (manager config).initial calls := by
  have hadmissible : Admissible config := ⟨hc, hkIn, hlt, hkOut⟩
  exact prefixes_iff_admitted (fun history m (h : Recent config history m) => h.consistent)
    (fun history m call h hfits => h.perform hadmissible hfits)
    (fun history m call m' events h hok hgood => h.fits hadmissible hok hgood.ghosts_le)
    ⟨bounded_empty hadmissible, Increasing.nil, Increasing.nil⟩

/-- A watched key returns while the key demoted for it pushes it out of `a1Out`. -/
theorem consistent_iff_fits_watched :
    ∃ history m, replay (manager (α := ℕ) ⟨2, 0, 1⟩).perform
      initial [.visit 1, .visit 2, .visit 3, .visit 1, .visit 1, .remove 3, .clear] =
        .ok (history, m) ∧
      Consistent ⟨2, 0, 1⟩ history m :=
  (consistent_iff_fits ⟨2, 0, 1⟩ (by decide) (by decide) (by decide) (by decide) _).mpr
    (by decide) _ (List.prefix_refl _)

end Runs

/-! ## The largest `kOut` -/

section Watched

variable {n : ℕ} {m : TwoQCacheManager ℕ}

/-- One key is resident at a time, and `kOut` is the largest `int`. -/
def largest : TwoQConfiguration := ⟨1, 0, 2147483647⟩

/-- Each key but the last one of `0, …, n` waits in `a1Out`, however many these are. -/
structure Watching (n : ℕ) (m : TwoQCacheManager ℕ) : Prop extends Sound largest m where
  none_frequent : m.queues am = ∅
  recent : (m.queues a1In).length = 1
  watched : (m.queues a1Out).length = n
  fresh : ∀ k, n < k → m.currentLocations.lookup k = none

/-- The key demoted for a new one stays, since no `size()` exceeds the largest `kOut`. -/
theorem Watching.visit (h : Watching n m) :
    ∃ m' events, (manager largest).perform m (.visit (n + 1)) = .ok (m', events) ∧
      Watching (n + 1) m' := by
  have hadmissible : Admissible largest := ⟨by decide, by decide, by decide, by decide⟩
  have hfull : cacheSize m = 1 := by
    rw [h.toSound.cacheSize_eq, h.none_frequent, h.recent, LinkedHashSet.length_empty, zero_add]
  have hin : (m.queues a1In).size = 1 := (h.toSound.size_eq (by decide)).trans h.recent
  have hfresh := h.fresh (n + 1) (Nat.lt_succ_self n)
  obtain ⟨m', l', hok, hv⟩ := visit_cases recorder_responds (.inl rfl) hadmissible h.toSound (n + 1)
    ([] : List (Event ℕ))
  have hsound := (hv.sound (.inl rfl) h.toSound).1
  cases hv with
  | hitAm hk => cases hfresh.symm.trans hk
  | hitA1In hk => cases hfresh.symm.trans hk
  | ghostHit hk => cases hfresh.symm.trans hk
  | missed _ hreclaimed =>
    cases hreclaimed with
    | room hroom => exact absurd hroom (not_lt.mpr hfull.ge)
    | evicted _ hle => exact absurd (hin.symm.trans_le hle) (by decide)
    | @demoted x xs m₁ _ _ hx htrimmed =>
      have hmem : x ∈ m.queues a1In := LinkedHashSet.mem_of_toList_cons hx
      have hsizes (q) := length_relocate (q := q) (d := a1Out) h.located.filed hmem
      have hxloc := h.located.filed hmem
      cases htrimmed with
      | dropped hsize => exact absurd hsize (not_lt.mpr (min_le_right _ _))
      | kept =>
        have hnone (k : ℕ) (hk : n < k) :
            (m.relocate x a1In a1Out).currentLocations.lookup k = none := by
          refine lookup_relocate_eq_none.mpr ⟨?_, h.fresh k hk⟩
          rintro rfl
          cases hxloc.symm.trans (h.fresh k hk)
        have hnew := (h.located.relocate (d := a1Out) (h.located.only hxloc)).filed.notMem_of_none
          (hnone (n + 1) (Nat.lt_succ_self n)) a1In
        have hentered (q) := length_enqueue (q := q) hnew
        refine ⟨_, _, hok, hsound, ?_, ?_, ?_, ?_⟩
        · rw [queues_enqueue_of_ne (by decide), queues_relocate_of_ne (by decide) (by decide)]
          exact h.none_frequent
        · rw [hentered a1In, hsizes a1In, h.recent]
          decide
        · rw [hentered a1Out, hsizes a1Out, h.watched]
          simp
        · intro k hk
          exact lookup_enqueue_eq_none.mpr ⟨by omega, hnone k (by omega)⟩

/-- The visits to `0, …, n`. -/
def watchedCalls (n : ℕ) : List (Call ℕ) := (List.range (n + 1)).map Call.visit

theorem watching_of_visits (n : ℕ) :
    ∃ history m, replay (manager largest).perform (manager largest).initial (watchedCalls n) =
      .ok (history, m) ∧ Watching n m := by
  induction n with
  | zero =>
    refine ⟨_, initial.enqueue 0 a1In, rfl, ⟨located_empty.enqueue rfl, by decide⟩, rfl, rfl, rfl,
      fun k hk => ?_⟩
    exact lookup_enqueue_eq_none.mpr ⟨hk.ne', rfl⟩
  | succ n ih =>
    obtain ⟨history, m, hreplay, hwatching⟩ := ih
    obtain ⟨m', events, hok, hwatching'⟩ := hwatching.visit
    have hcalls : watchedCalls (n + 1) = watchedCalls n ++ [.visit (n + 1)] := by
      rw [watchedCalls, List.range_succ, List.map_append]
      rfl
    rw [hcalls]
    exact ⟨_, m', replay_concat hreplay hok, hwatching'⟩

theorem not_consistent_of_watching (hn : 2147483647 < (n : ℤ)) :
    ¬∃ history m, replay (manager largest).perform (manager largest).initial (watchedCalls n) =
      .ok (history, m) ∧ Consistent largest history m := by
  rintro ⟨history, m, hreplay, hconsistent⟩
  obtain ⟨history', m', hreplay', hwatching⟩ := watching_of_visits n
  cases hreplay.symm.trans hreplay'
  have hghosts := hconsistent.ghosts_le
  rw [hwatching.watched] at hghosts
  exact absurd hn (not_lt.mpr hghosts)

/-- With `kOut = 2^31 - 1`, visits to `2^31 + 1` keys leave `2^31` of them in `a1Out`. -/
theorem not_consistent_largest :
    ¬∃ history m, replay (manager largest).perform (manager largest).initial
      (watchedCalls 2147483648) = .ok (history, m) ∧ Consistent largest history m :=
  not_consistent_of_watching (by decide)

end Watched

end CachePolicies.TwoQCacheManager
