import CachePolicies.AdaptiveReplacementRecency
import CachePolicies.RecentVisits

/-!
# What the directory of the adaptive manager remembers

A key leaves the directory only as the head of one of the two lists, and only while that list
holds `maxNodes` keys or more. All keys behind the head, and the one that is
visited instead, have been visited since, so the key would not be in an LRU queue of
`maxNodes` keys either. What such a queue would hit is in the cache or among the ghosts.
-/

namespace CachePolicies.AdaptiveReplacementCacheManager

open MultipleQueueCacheManager ReplacementCacheManager ReplacementQueue

variable {α L : Type} [DecidableEq α]

section Visits

variable {config : AdaptiveReplacementConfiguration} {onEvict onLoad : α → L → L} {k x : α}
  {m m' : AdaptiveReplacementCacheManager α} {l l' : L} {xs : List α}

omit [DecidableEq α] in
theorem length_seenOnce :
    ((seenOnce m).length : ℤ) = (m.queues t1).length + (m.queues b1).length := by
  rw [seenOnce, List.length_append, Nat.cast_add, add_comm]
  rfl

omit [DecidableEq α] in
theorem length_seenOften :
    ((seenOften m).length : ℤ) = (m.queues t2).length + (m.queues b2).length := by
  rw [seenOften, List.length_append, Nat.cast_add, add_comm]
  rfl

/-- The key heads a list of at least `maxNodes` keys. -/
def HeadsFullList (config : AdaptiveReplacementConfiguration) (m : AdaptiveReplacementCacheManager α)
    (x : α) : Prop :=
  ∃ xs, (seenOnce m = x :: xs ∨ seenOften m = x :: xs) ∧ config.maxNodes.val ≤ (x :: xs).length

theorem eq_of_forget {q s : AdaptiveReplacementQueue} (hq : m.currentLocations.lookup x = some q)
    {y : α} (hdrop : (forget subclass y s m).currentLocations.lookup x = none) : x = y := by
  by_contra hne
  rw [lookup_forget, if_neg hne, hq] at hdrop
  cases hdrop

/-- A key that a visit drops from the directory heads a full list, and the visited key is new. -/
theorem Visited.dropped (hc : 1 ≤ config.maxNodes.val) (h : Sound config m)
    (hfits : Fits config m (.visit k))
    (hv : Visited config (fun _ m => m) onEvict onLoad k m l m' l')
    (hx : tracked m x = true) (hdrop : tracked m' x = false) :
    tracked m k = false ∧ HeadsFullList config m x := by
  obtain ⟨q, hq⟩ := Option.isSome_iff_exists.mp hx
  have hnone : m'.currentLocations.lookup x = none := by
    rw [tracked] at hdrop
    simpa using hdrop
  have hkept {P : Prop} (h : m.currentLocations.lookup x = none) : P :=
    absurd (hq.symm.trans h) (by simp)
  have honce := length_seenOnce (m := m)
  have hoften := length_seenOften (m := m)
  have hside := h.leftSideSize_eq
  have hcache := h.directorySize_eq
  cases hv with
  | hit => exact hkept (lookup_relocate_eq_none.mp hnone).2
  | ghostHit hs hk htarget hf =>
    exact hkept (hf.untracked (m := { m with own := _ }) (lookup_relocate_eq_none.mp hnone).2)
  | @sideFull y ys _ _ hk hfull ht1 hhead hf =>
    obtain rfl := eq_of_forget hq (hf.untracked (lookup_enqueue_eq_none.mp hnone).2)
    have hlist : seenOnce m = x :: (ys ++ (m.queues t1).toList) := by
      rw [seenOnce, hhead, List.cons_append]
    refine ⟨tracked_of_none hk, _, .inl hlist, ?_⟩
    rw [← hlist]
    omega
  | @t1Full y ys hk hfull ht1 hhead =>
    obtain rfl := eq_of_forget hq (lookup_enqueue_eq_none.mp hnone).2
    have hempty : m.queues b1 = ∅ := LinkedHashSet.eq_empty_of_length (by have hl := h.left_le; omega)
    have hlist : seenOnce m = x :: ys := by
      rw [seenOnce, hempty, hhead]
      rfl
    refine ⟨tracked_of_none hk, _, .inl hlist, ?_⟩
    rw [← hlist]
    omega
  | @directoryFull y ys _ _ hk hroom hall hdirectory hhead hf =>
    obtain rfl := eq_of_forget hq (hf.untracked (lookup_enqueue_eq_none.mp hnone).2)
    have hlist : seenOften m = x :: (ys ++ (m.queues t2).toList) := by
      rw [seenOften, hhead, List.cons_append]
    rw [directoryCapacity_eq (hfits.1 hk hroom hall) hc] at hdirectory
    refine ⟨tracked_of_none hk, _, .inr hlist, ?_⟩
    rw [← hlist]
    omega
  | cacheFull hk hroom hall hdirectory hf =>
    exact hkept (hf.untracked (lookup_enqueue_eq_none.mp hnone).2)
  | room => exact hkept (lookup_enqueue_eq_none.mp hnone).2

/-- A visited key is in the directory. -/
theorem Visited.tracks (hm : m.Located)
    (hv : Visited config (fun _ m => m) onEvict onLoad k m l m' l') :
    tracked m' k = true := by
  obtain ⟨hm', hreordered⟩ := hv.reordered hm
  apply (tracked_iff hm').mpr
  cases hreordered with
  | missed hk honce hsub hoften =>
    left
    simp [honce]
  | revisited hk honce hoften hsub =>
    right
    simp [hoften]

end Visits

section Runs

variable {config : AdaptiveReplacementConfiguration} {k x : α}
  {m m' : AdaptiveReplacementCacheManager α}
  {history : History (AdaptiveReplacementCacheManager α) α} {events : List (Event α)}

/-- Since the head of a list was visited, all others of the list have been; a key outside of
the directory that is visited now is one more. -/
theorem Recent.length_le_since (h : Recent history m) {xs : List α}
    (hlist : seenOnce m = x :: xs ∨ seenOften m = x :: xs) (hx : x ∈ visits history)
    (hk : tracked m k = false) : (x :: xs).length ≤ (insert k (since x (visits history))).card := by
  have hincreasing : Increasing (lastVisit history) (x :: xs) := by
    rcases hlist with hlist | hlist
    · exact hlist ▸ h.increasingOnce
    · exact hlist ▸ h.increasingOften
  have hin : ∀ y ∈ x :: xs, tracked m y = true := by
    intro y hy
    apply (tracked_iff h.located).mpr
    rcases hlist with hlist | hlist
    · exact .inl (hlist ▸ hy)
    · exact .inr (hlist ▸ hy)
  obtain ⟨hlater, hrest⟩ := List.pairwise_cons.mp hincreasing
  have hnodup : xs.Nodup := by
    refine hrest.imp ?_
    rintro y z hlt rfl
    exact lt_irrefl _ hlt
  have hnot : k ∉ xs.toFinset := by
    intro hmem
    have htracked := hin k (List.mem_cons_of_mem x (List.mem_toFinset.mp hmem))
    rw [hk] at htracked
    cases htracked
  have hsub : xs.toFinset ⊆ since x (visits history) := by
    intro y hy
    exact (mem_since_visits hx).mpr (hlater y (List.mem_toFinset.mp hy))
  calc (x :: xs).length
      = (insert k xs.toFinset).card := by
        rw [Finset.card_insert_of_notMem hnot, List.toFinset_card_of_nodup hnodup, List.length_cons]
    _ ≤ (insert k (since x (visits history))).card :=
      Finset.card_le_card (Finset.insert_subset_insert k hsub)

/-- The keys that an LRU queue of `maxNodes` keys would hold are in the directory. -/
def Recalls (config : AdaptiveReplacementConfiguration)
    (history : History (AdaptiveReplacementCacheManager α) α)
    (m : AdaptiveReplacementCacheManager α) : Prop :=
  ∀ x, Remembered history x → (since x (visits history)).card < config.maxNodes.val →
    tracked m x = true

theorem Recalls.visit (h : Recalls config history m) (hc : 1 ≤ config.maxNodes.val)
    (hsound : Sound config m) (hrecent : Recent history m) (hfits : Fits config m (.visit k))
    (hok : (manager config).perform m (.visit k) = .ok (m', events)) :
    Recalls config (⟨m, .visit k, events, m'⟩ :: history) m' := by
  rcases visit_cases config recorder_responds (.inl rfl) hsound.located k ([] : List (Event α))
    with ⟨m₁, l₁, hok₁, hv⟩ | ⟨herror, -⟩
  · cases hok₁.symm.trans hok
    intro x hremembered hcard
    by_cases hx : x = k
    · rw [hx]
      exact hv.tracks hsound.located
    · have hbefore : Remembered history x := hremembered.resolve_left hx
      rw [visits, since_cons_of_ne (Ne.symm hx)] at hcard
      have hsub := Finset.card_le_card (Finset.subset_insert k (since x (visits history)))
      have hold := h x hbefore (by omega)
      by_contra hdrop
      rw [Bool.not_eq_true] at hdrop
      obtain ⟨hk, xs, hlist, hlength⟩ := hv.dropped hc hsound hfits hold hdrop
      have hle := hrecent.length_le_since hlist hbefore.mem_visits hk
      omega
  · cases herror.symm.trans hok

theorem Recalls.remove (h : Recalls config history m) (k : α) (events : List (Event α)) :
    Recalls config (⟨m, .remove k, events, MultipleQueueCacheManager.remove subclass k m⟩ :: history)
      (MultipleQueueCacheManager.remove subclass k m) := by
  intro x hremembered hcard
  obtain ⟨hx, hbefore⟩ := hremembered
  have hold := h x hbefore hcard
  rw [tracked] at hold ⊢
  rw [MultipleQueueCacheManager.remove]
  split
  · exact hold
  · rwa [lookup_forget, if_neg hx]

theorem sound_of_reaches (hc : 1 ≤ config.maxNodes.val) (hrun : (manager config).Reaches history m)
    (hfits : Meets (Fits config) history) : Sound config m := by
  refine Run.invariant (sound_initial hc) ?_ hrun hfits
  intro m call m' events h hfit hok
  obtain ⟨m₁, events₁, hok₁, hsound⟩ := Sound.perform hc h hfit
  cases hok₁.symm.trans hok
  exact hsound

theorem recalls_of_reaches (hc : 1 ≤ config.maxNodes.val)
    (hrun : (manager config).Reaches history m) (hfits : Meets (Fits config) history) :
    Recalls config history m := by
  induction hrun with
  | start =>
    intro x hx
    exact hx.elim
  | @call history m m' call events run hok ih =>
    obtain ⟨hfit, hrest⟩ := meets_cons.mp hfits
    have hrecalls := ih hrest
    cases call with
    | visit k =>
      exact hrecalls.visit hc (sound_of_reaches hc run hrest) (recent_of_reaches run) hfit hok
    | remove k =>
      cases hok
      exact hrecalls.remove k _
    | clear =>
      intro x hx
      exact hx.elim

/-- Whatever calls are made, a key since whose last visit fewer than `maxNodes` others were
visited is in the directory, unless it was removed or cleared away since. -/
theorem tracked_of_recent (config : AdaptiveReplacementConfiguration) (hc : 1 ≤ config.maxNodes.val)
    {history : History (AdaptiveReplacementCacheManager α) α}
    {m : AdaptiveReplacementCacheManager α} (hrun : (manager config).Reaches history m)
    (hfits : Meets (Fits config) history) (k : α) (hk : Remembered history k)
    (hrecent : (since k (visits history)).card < config.maxNodes.val) :
    tracked m k = true := by
  exact recalls_of_reaches hc hrun hfits k hk hrecent

theorem tracked_of_recent_ghost :
    ∃ history m, (manager (α := ℕ) twoNodes).Reaches history m ∧ 2 ∉ resident m ∧
      tracked m 2 = true := by
  have hrun : (manager (α := ℕ) twoNodes).Reaches _ _ :=
    run_of_replay [.visit 1, .visit 1, .visit 2, .visit 3] rfl
  exact ⟨_, _, hrun, by decide, tracked_of_recent twoNodes (by decide) hrun (by decide) 2 (by decide)
    (by decide)⟩

end Runs

end CachePolicies.AdaptiveReplacementCacheManager
