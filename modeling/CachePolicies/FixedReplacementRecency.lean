import CachePolicies.FixedReplacementVisits
import CachePolicies.RecencyLists
import CachePolicies.VisitHistories

/-!
# Order of the queues of the fixed manager

A key enters `t1` with its load and leaves it for `t2` with its next visit, and every visit
takes its key to the tail of a queue. So the two queues are determined by the history of the
calls, and the head of each is its least recently visited key.
-/

namespace CachePolicies.FixedReplacementCacheManager

open MultipleQueueCacheManager ReplacementCacheManager ReplacementQueue

variable {α : Type} [DecidableEq α]

section Visits

variable {config : FixedReplacementConfiguration} {k x : α} {m m' : FixedReplacementCacheManager α}
  {events : List (Event α)}

/-- What a visit to `k` does to the two queues. -/
inductive Reordered (k : α) (m m' : FixedReplacementCacheManager α) (events : List (Event α)) : Prop
  | missed {l : List α} (hload : loads events = [k]) (ht1 : (m'.queues t1).toList = l ++ [k])
      (hsub : l.Sublist (m.queues t1).toList) (hk : k ∉ m.queues t1)
      (ht2 : (m'.queues t2).toList.Sublist (m.queues t2).toList) (hk2 : k ∉ m.queues t2)
  | found {l : List α} (hload : loads events = []) (hk : k ∈ m.queues t1 ∨ k ∈ m.queues t2)
      (ht1 : (m'.queues t1).toList.Sublist (m.queues t1).toList) (hk1 : k ∉ m'.queues t1)
      (ht2 : (m'.queues t2).toList = l ++ [k]) (hsub : l.Sublist (m.queues t2).toList)

theorem Visited.reordered (hm : m.Located) (hv : Visited config k m m' events) :
    Reordered k m m' events := by
  cases hv with
  | @hit s hk =>
    have hmem := (hm k s).mp hk
    have hk1 : k ∉ (m.relocate k s t2).queues t1 := by
      rw [mem_relocate, not_or]
      refine ⟨?_, by simp⟩
      rintro ⟨hin, hne⟩
      exact hne (hm.filed.eq_of_mem hin hmem) rfl
    have hsub : ((m.relocate k s t2).queues t1).toList.Sublist (m.queues t1).toList :=
      toList_relocate_sublist (by simp)
    rcases resident_or s with rfl | rfl
    · have hnot : k ∉ m.queues t2 := hm.filed.notMem_of_lookup hk (by simp)
      exact .found rfl (.inl hmem) hsub hk1 (toList_relocate_destination (by simp) hnot)
        (List.Sublist.refl _)
    · exact .found rfl (.inr hmem) hsub hk1 toList_relocate_self List.erase_sublist
  | room hk hroom =>
    have hnot := hm.filed.notMem_of_none hk
    refine .missed rfl (toList_enqueue (hnot t1)) (List.Sublist.refl _) (hnot t1) ?_ (hnot t2)
    rw [queues_enqueue_of_ne (by simp)]
  | @replaced x xs hk hfull hx =>
    have hnot := hm.filed.notMem_of_none hk
    have hqueue := toList_forget_sublist subclass x (victimQueue config m) m
    have hgone : k ∉ (forget subclass x (victimQueue config m) m).queues t1 := by
      rw [mem_forget]
      exact fun hin => hnot t1 hin.1
    refine .missed rfl (toList_enqueue hgone) (hqueue t1) (hnot t1) ?_ (hnot t2)
    rw [queues_enqueue_of_ne (by simp)]
    exact hqueue t2

end Visits

/-! ## Whole runs -/

section Runs

variable {config : FixedReplacementConfiguration} {k x : α} {m m' : FixedReplacementCacheManager α}
  {history : History (FixedReplacementCacheManager α) α} {events : List (Event α)}

/-- The queues agree with the history of the calls. -/
structure Recent (config : FixedReplacementConfiguration)
    (history : History (FixedReplacementCacheManager α) α) (m : FixedReplacementCacheManager α) :
    Prop where
  sound : Sound config m
  held : resident m = heldKeys history
  once : ∀ k ∈ m.queues t1, visitsSinceLoad history k = 1
  often : ∀ k ∈ m.queues t2, 2 ≤ visitsSinceLoad history k
  increasingOnce : Increasing (lastVisit history) (m.queues t1).toList
  increasingOften : Increasing (lastVisit history) (m.queues t2).toList

theorem recent_initial (hc : 0 ≤ config.maxNodes.val) :
    Recent config [] (initial (α := α)) := by
  refine ⟨sound_initial hc, ?_, ?_, ?_, Increasing.nil, Increasing.nil⟩
  · simp [resident, initial, LinkedHashSet.toFinset, heldKeys]
  · intro k hk
    cases hk
  · intro k hk
    cases hk

/-- Keys other than the visited one keep their counts. -/
theorem visitsSinceLoad_of_ne (hload : ∀ y ∈ loads events, y = k) (hx : x ≠ k) :
    visitsSinceLoad (⟨m, .visit k, events, m'⟩ :: history) x = visitsSinceLoad history x := by
  have hne : (Call.visit k : Call α) ≠ .visit x := by simpa using hx.symm
  rw [visitsSinceLoad_of_notMem fun hin => hx (hload x hin), if_neg hne, add_zero]

theorem Recent.missed {l : List α} (h : Recent config history m) (hsound : Sound config m')
    (hheld : resident m' = heldKeys (⟨m, .visit k, events, m'⟩ :: history))
    (hload : loads events = [k]) (ht1 : (m'.queues t1).toList = l ++ [k])
    (hsub : l.Sublist (m.queues t1).toList) (hk : k ∉ m.queues t1)
    (ht2 : (m'.queues t2).toList.Sublist (m.queues t2).toList) (hk2 : k ∉ m.queues t2) :
    Recent config (⟨m, .visit k, events, m'⟩ :: history) m' := by
  have honly : ∀ y ∈ loads events, y = k := fun y hy => by simpa [hload] using hy
  have h1 {x : α} (hx : x ∈ l) : x ≠ k := fun he => hk (he ▸ hsub.subset hx)
  have h2 {x : α} (hx : x ∈ m'.queues t2) : x ≠ k := fun he => hk2 (he ▸ ht2.subset hx)
  refine ⟨hsound, hheld, ?_, ?_, ?_, ?_⟩
  · intro x hx
    rw [LinkedHashSet.mem_def, ht1, List.mem_append, List.mem_singleton] at hx
    rcases hx with hx | rfl
    · rw [visitsSinceLoad_of_ne honly (h1 hx)]
      exact h.once x (hsub.subset hx)
    · exact visitsSinceLoad_of_mem (by simp [hload])
  · intro x hx
    rw [visitsSinceLoad_of_ne honly (h2 hx)]
    exact h.often x (ht2.subset hx)
  · rw [ht1]
    exact (h.increasingOnce.sublist hsub).touch (fun x hx => lastVisit_visit_of_ne (h1 hx))
      (fun x _ => lastVisit_lt x)
  · exact (h.increasingOften.sublist ht2).congr fun x hx => lastVisit_visit_of_ne (h2 hx)

theorem Recent.found {l : List α} (h : Recent config history m) (hsound : Sound config m')
    (hheld : resident m' = heldKeys (⟨m, .visit k, events, m'⟩ :: history))
    (hload : loads events = []) (hk : k ∈ m.queues t1 ∨ k ∈ m.queues t2)
    (ht1 : (m'.queues t1).toList.Sublist (m.queues t1).toList) (hk1 : k ∉ m'.queues t1)
    (ht2 : (m'.queues t2).toList = l ++ [k]) (hsub : l.Sublist (m.queues t2).toList) :
    Recent config (⟨m, .visit k, events, m'⟩ :: history) m' := by
  have honly : ∀ y ∈ loads events, y = k := fun y hy => by simp [hload] at hy
  have h1 {x : α} (hx : x ∈ m'.queues t1) : x ≠ k := fun he => hk1 (he ▸ hx)
  have h2 {x : α} (hx : x ∈ l) : x ≠ k := by
    have hnodup := (m'.queues t2).nodup
    rw [ht2] at hnodup
    exact (List.nodup_append.mp hnodup).2.2 x hx k (List.mem_singleton_self k)
  refine ⟨hsound, hheld, ?_, ?_, ?_, ?_⟩
  · intro x hx
    rw [visitsSinceLoad_of_ne honly (h1 hx)]
    exact h.once x (ht1.subset hx)
  · intro x hx
    rw [LinkedHashSet.mem_def, ht2, List.mem_append, List.mem_singleton] at hx
    rcases hx with hx | rfl
    · rw [visitsSinceLoad_of_ne honly (h2 hx)]
      exact h.often x (hsub.subset hx)
    · rw [visitsSinceLoad_of_notMem (by simp [hload]), if_pos rfl]
      rcases hk with hk | hk
      · rw [h.once x hk]
      · have htwice := h.often x hk
        omega
  · exact (h.increasingOnce.sublist ht1).congr fun x hx => lastVisit_visit_of_ne (h1 hx)
  · rw [ht2]
    exact (h.increasingOften.sublist hsub).touch (fun x hx => lastVisit_visit_of_ne (h2 hx))
      (fun x _ => lastVisit_lt x)

/-- A call which is no visit takes keys away at most. -/
theorem Recent.shrunk {call : Call α} (h : Recent config history m) (hsound : Sound config m')
    (hheld : resident m' = heldKeys (⟨m, call, [], m'⟩ :: history))
    (hcall : ∀ k, call ≠ .visit k)
    (hqueue : ∀ q, (m'.queues q).toList.Sublist (m.queues q).toList) :
    Recent config (⟨m, call, [], m'⟩ :: history) m' := by
  have hcount (x : α) : visitsSinceLoad (⟨m, call, [], m'⟩ :: history) x =
      visitsSinceLoad history x := by
    rw [visitsSinceLoad_of_notMem (by simp), if_neg (hcall x), add_zero]
  have hlast (x : α) : lastVisit (⟨m, call, [], m'⟩ :: history) x = lastVisit history x := by
    rw [lastVisit, if_neg (hcall x)]
  refine ⟨hsound, hheld, ?_, ?_, ?_, ?_⟩
  · intro x hx
    rw [hcount]
    exact h.once x ((hqueue t1).subset hx)
  · intro x hx
    rw [hcount]
    exact h.often x ((hqueue t2).subset hx)
  · exact (h.increasingOnce.sublist (hqueue t1)).congr fun x _ => hlast x
  · exact (h.increasingOften.sublist (hqueue t2)).congr fun x _ => hlast x

theorem Recent.visited (h : Recent config history m) (hv : Visited config k m m' events) :
    Recent config (⟨m, .visit k, events, m'⟩ :: history) m' := by
  obtain ⟨hsound, -⟩ := hv.effect h.sound
  have hheld := heldKeys_visit (hv.reported h.sound) h.held
  cases hv.reordered h.sound.located with
  | missed hload ht1 hsub hk ht2 hk2 => exact h.missed hsound hheld hload ht1 hsub hk ht2 hk2
  | found hload hk ht1 hk1 ht2 hsub => exact h.found hsound hheld hload hk ht1 hk1 ht2 hsub

omit [DecidableEq α] in
/-- With an accepted configuration the queue which a full cache evicts from is not empty. -/
theorem victimQueue_nonempty (hlow : 0 < config.t1Size.val)
    (hhigh : config.t1Size.val < config.maxNodes.val)
    (hfull : (m.queues t1).length + (m.queues t2).length = config.maxNodes.val) :
    m.queues (victimQueue config m) ≠ ∅ := by
  intro hempty
  rw [victimQueue] at hempty
  split at hempty
  · next hge =>
    rw [hempty, LinkedHashSet.size_empty] at hge
    omega
  · next hsmall =>
    rw [ge_iff_le, not_le, LinkedHashSet.size_lt_val] at hsmall
    rw [hempty, LinkedHashSet.length_empty] at hfull
    omega

theorem Recent.visit (hlow : 0 < config.t1Size.val) (hhigh : config.t1Size.val < config.maxNodes.val)
    (h : Recent config history m) (k : α) :
    ∃ m' events, (manager config).perform m (.visit k) = .ok (m', events) ∧
      Visited config k m m' events ∧
      Recent config (⟨m, .visit k, events, m'⟩ :: history) m' := by
  rcases visit_cases config h.sound.located k with
    ⟨m', events, hok, hv⟩ | ⟨-, hfull, hempty, -⟩
  · exact ⟨m', events, hok, hv, h.visited hv⟩
  · have hsize := h.sound.cacheSize_eq
    have hheld := h.sound.held_le
    exact absurd hempty (victimQueue_nonempty hlow hhigh (by omega))

theorem Recent.perform (hlow : 0 < config.t1Size.val)
    (hhigh : config.t1Size.val < config.maxNodes.val) (h : Recent config history m)
    (call : Call α) :
    ∃ m' events, (manager config).perform m call = .ok (m', events) ∧
      Recent config (⟨m, call, events, m'⟩ :: history) m' := by
  cases call with
  | visit k =>
    obtain ⟨m', events, hok, -, h'⟩ := h.visit hlow hhigh k
    exact ⟨m', events, hok, h'⟩
  | remove k =>
    refine ⟨_, _, rfl, h.shrunk (h.sound.remove k) ?_ (by simp) ?_⟩
    · rw [resident_remove h.sound.located.filed, h.held]
      rfl
    · rw [MultipleQueueCacheManager.remove]
      split
      · exact fun _ => List.Sublist.refl _
      · exact toList_forget_sublist subclass k _ m
  | clear =>
    have hinitial : Sound config (initial (α := α)) := sound_initial (by omega)
    exact ⟨_, _, rfl, h.shrunk hinitial rfl (by simp) fun _ => List.nil_sublist _⟩

/-- What a visit in a state evicts: the least recently visited key of the chosen queue, and
nothing unless the cache is full and the visited key is not resident. -/
structure EvictsLeastRecent (config : FixedReplacementConfiguration)
    (history : History (FixedReplacementCacheManager α) α) (m : FixedReplacementCacheManager α)
    (k : α) (events : List (Event α)) : Prop where
  evicts_once : (evictions events).length ≤ 1
  missing : evictions events ≠ [] → k ∉ m.queues t1 ∧ k ∉ m.queues t2
  full : evictions events ≠ [] →
    (m.queues t1).length + (m.queues t2).length = config.maxNodes.val
  victim : ∀ x ∈ evictions events, x ∈ m.queues (victimQueue config m) ∧
    ∀ y ∈ m.queues (victimQueue config m), y ≠ x → lastVisit history x < lastVisit history y

theorem Recent.increasing (h : Recent config history m) (q : ReplacementQueue Empty) :
    Increasing (lastVisit history) (m.queues q).toList := by
  rcases resident_or q with rfl | rfl
  · exact h.increasingOnce
  · exact h.increasingOften

theorem Recent.evictsLeastRecent (h : Recent config history m)
    (hv : Visited config k m m' events) : EvictsLeastRecent config history m k events := by
  have hsize := h.sound.cacheSize_eq
  have hheld := h.sound.held_le
  cases hv with
  | hit hk => exact ⟨Nat.zero_le 1, by simp [evictions], by simp [evictions], by simp [evictions]⟩
  | room hk hroom =>
    have hnone : evictions [Event.objectLoaded k] = [] := rfl
    refine ⟨?_, fun hne => absurd hnone hne, fun hne => absurd hnone hne, ?_⟩
    · simp [hnone]
    · simp [hnone]
  | @replaced x xs hk hfull hx =>
    have hone : evictions [Event.objectReadyForEviction x, .objectLoaded k] = [x] := rfl
    have hnot := h.sound.located.filed.notMem_of_none hk
    refine ⟨?_, fun _ => ⟨hnot t1, hnot t2⟩, fun _ => by omega, ?_⟩
    · simp [hone]
    · intro y hy
      rw [hone, List.mem_singleton] at hy
      subst hy
      refine ⟨LinkedHashSet.mem_of_toList_cons hx, ?_⟩
      intro z hz hne
      have hincreasing := h.increasing (victimQueue config m)
      rw [LinkedHashSet.mem_def, hx] at hz
      rw [hx] at hincreasing
      exact (List.pairwise_cons.mp hincreasing).1 z
        ((List.mem_cons.mp hz).resolve_left hne)

/-- The queues of the manager, as the history determines them, and what a visit evicts. -/
structure Characterised (config : FixedReplacementConfiguration)
    (history : History (FixedReplacementCacheManager α) α) (m : FixedReplacementCacheManager α) :
    Prop where
  once : ∀ k, k ∈ m.queues t1 ↔ k ∈ heldKeys history ∧ visitsSinceLoad history k = 1
  often : ∀ k, k ∈ m.queues t2 ↔ k ∈ heldKeys history ∧ 2 ≤ visitsSinceLoad history k
  increasingOnce : Increasing (lastVisit history) (m.queues t1).toList
  increasingOften : Increasing (lastVisit history) (m.queues t2).toList
  held_le : (m.queues t1).length + (m.queues t2).length ≤ config.maxNodes.val
  visit : ∀ k, ∃ m' events, (manager config).perform m (.visit k) = .ok (m', events) ∧
    EvictsLeastRecent config history m k events
  victimQueue_nonempty : (m.queues t1).length + (m.queues t2).length = config.maxNodes.val →
    m.queues (victimQueue config m) ≠ ∅

theorem Recent.characterised (hlow : 0 < config.t1Size.val)
    (hhigh : config.t1Size.val < config.maxNodes.val) (h : Recent config history m) :
    Characterised config history m := by
  have hheld {x : α} : x ∈ heldKeys history ↔ x ∈ m.queues t1 ∨ x ∈ m.queues t2 := by
    rw [← h.held, mem_resident]
  refine ⟨?_, ?_, h.increasingOnce, h.increasingOften, h.sound.held_le, ?_,
    victimQueue_nonempty hlow hhigh⟩
  · intro x
    constructor
    · exact fun hx => ⟨hheld.mpr (.inl hx), h.once x hx⟩
    · rintro ⟨hx, hcount⟩
      rcases hheld.mp hx with hx | hx
      · exact hx
      · have htwice := h.often x hx
        omega
  · intro x
    constructor
    · exact fun hx => ⟨hheld.mpr (.inr hx), h.often x hx⟩
    · rintro ⟨hx, hcount⟩
      rcases hheld.mp hx with hx | hx
      · have honce := h.once x hx
        omega
      · exact hx
  · intro x
    obtain ⟨m', events, hok, hv, -⟩ := h.visit hlow hhigh x
    exact ⟨m', events, hok, h.evictsLeastRecent hv⟩

/-- With a configuration that the constructor accepts, no sequence of calls throws, and each
leaves the queues as its history determines them. -/
theorem characterised_of_calls (maxNodes t1Size : JavaInt) (config : FixedReplacementConfiguration)
    (hnew : FixedReplacementConfiguration.new maxNodes t1Size = .ok config)
    (calls : List (Call α)) :
    ∃ history m, replay (manager config).perform (manager config).initial calls =
      .ok (history, m) ∧ Characterised config history m := by
  obtain ⟨hlow, hhigh⟩ := accepted_bounds hnew
  obtain ⟨history, m, hreplay, h⟩ := exists_replayFrom
    (fun history m call (h : Recent config history m) => h.perform hlow hhigh call)
    (recent_initial (by omega)) calls
  exact ⟨history, m, hreplay, h.characterised hlow hhigh⟩

/-- The victim comes first from `t1`, and then from `t2` once a removal has made `t1` short. -/
theorem characterised_of_calls_victims :
    ∃ history m, replay (manager (α := ℕ) ⟨3, 2⟩).perform initial
      [.visit 1, .visit 1, .visit 2, .visit 3, .visit 4, .remove 3, .visit 4, .visit 5,
        .visit 6] = .ok (history, m) ∧ Characterised ⟨3, 2⟩ history m :=
  characterised_of_calls 3 2 ⟨3, 2⟩ rfl _

end Runs

end CachePolicies.FixedReplacementCacheManager
