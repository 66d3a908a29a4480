import CachePolicies.RecencyLists
import CachePolicies.SimpleManagers
import CachePolicies.VisitHistories

/-!
# Order of the LRU and FIFO queues

The two managers differ only in what a visit to a resident key does: the LRU manager takes the
key to the tail of its queue, and the FIFO manager leaves it where it is. So the one queue is in
order of the last visits and the other in order of the last loads, whatever else is removed and
cleared. What an LRU queue holds is the end of what any larger one holds.
-/

namespace CachePolicies

variable {α : Type} [DecidableEq α] {maxNodes : ℤ} {k x : α}
  {queue revisited queue' : LinkedHashSet α} {events : List (Event α)}

/-- What a visit does to a queue, `revisited` being the queue after a visit to a resident key. -/
inductive QueueVisited (maxNodes : ℤ) (k : α) (queue revisited : LinkedHashSet α) :
    LinkedHashSet α → List (Event α) → Prop
  | hit (hk : k ∈ queue) : QueueVisited maxNodes k queue revisited revisited []
  | room (hk : k ∉ queue) (hroom : (queue.add k).size ≤ maxNodes) :
    QueueVisited maxNodes k queue revisited (queue.add k) [.objectLoaded k]
  | trimmed {x : α} {xs : List α} (hk : k ∉ queue) (hfull : maxNodes < (queue.add k).size)
      (hx : queue.toList = x :: xs) : QueueVisited maxNodes k queue revisited
        ((queue.remove x).add k) [.objectLoaded k, .objectReadyForEviction x]

theorem QueueVisited.loads (hv : QueueVisited maxNodes k queue revisited queue' events) :
    loads events = if k ∈ queue then [] else [k] := by
  cases hv with
  | hit hk => exact (if_pos hk).symm
  | room hk => exact (if_neg hk).symm
  | trimmed hk => exact (if_neg hk).symm

/-- Below the largest `int` a queue stays within `maxNodes`. -/
theorem QueueVisited.length_le (hlt : maxNodes < 2147483647)
    (hv : QueueVisited maxNodes k queue revisited queue' events) (hle : queue.length ≤ maxNodes)
    (hhit : k ∈ queue → revisited.length ≤ maxNodes) : queue'.length ≤ maxNodes := by
  cases hv with
  | hit hk => exact hhit hk
  | room hk hroom =>
    have hshort := (queueFits_of_lt hlt queue (.visit k)).length_lt hk hroom
    rw [LinkedHashSet.length_add hk]
    omega
  | @trimmed x xs hk hfull hx =>
    rw [LinkedHashSet.length_add (notMem_remove hk),
      LinkedHashSet.length_remove (LinkedHashSet.mem_of_toList_cons hx)]
    omega

theorem loadAndTrim_cases (hc : 1 ≤ maxNodes) (hk : k ∉ queue) :
    ∃ queue' events, loadAndTrim maxNodes [recorder] k (queue.add k, []) = .ok (queue', events) ∧
      QueueVisited maxNodes k queue revisited queue' events := by
  by_cases hroom : (queue.add k).size ≤ maxNodes
  · exact ⟨_, _, loadAndTrim_room recorder_responds hroom, .room hk hroom⟩
  · have hfull := not_le.mp hroom
    have hlength := LinkedHashSet.length_add hk
    have hlong := (LinkedHashSet.lt_size_iff.mp hfull).1
    obtain ⟨x, xs, hx⟩ := LinkedHashSet.exists_cons_of_length_pos (q := queue) (by omega)
    exact ⟨_, _, loadAndTrim_full recorder_responds (.inl rfl) hk hfull hx, .trimmed hk hfull hx⟩

theorem LruCacheManager.perform_visit (config : LruConfiguration) (hc : 1 ≤ config.maxNodes.val)
    (queue : LinkedHashSet α) (k : α) :
    ∃ queue' events, (manager config).perform queue (.visit k) = .ok (queue', events) ∧
      QueueVisited config.maxNodes.val k queue ((queue.remove k).add k) queue' events := by
  by_cases hk : k ∈ queue
  · exact ⟨_, _, if_pos hk, .hit hk⟩
  · obtain ⟨queue', events, hok, hv⟩ := loadAndTrim_cases hc hk
    refine ⟨queue', events, ?_, hv⟩
    show visit config [recorder] k (queue, []) = _
    rw [visit, if_neg hk, LinkedHashSet.remove_of_notMem hk, hok]

theorem FifoCacheManager.perform_visit (config : FifoConfiguration) (hc : 1 ≤ config.maxNodes.val)
    (queue : LinkedHashSet α) (k : α) :
    ∃ queue' events, (manager config).perform queue (.visit k) = .ok (queue', events) ∧
      QueueVisited config.maxNodes.val k queue queue queue' events := by
  by_cases hk : k ∈ queue
  · exact ⟨_, _, if_pos hk, .hit hk⟩
  · obtain ⟨queue', events, hok, hv⟩ := loadAndTrim_cases hc hk
    refine ⟨queue', events, ?_, hv⟩
    show visit config [recorder] k (queue, []) = _
    rw [visit, if_neg hk, hok]

/-! ## Stamps -/

section Stamps

variable {stamp : History (LinkedHashSet α) α → α → ℕ}
  {history : History (LinkedHashSet α) α}

/-- A load gives its key the newest stamp, and a call that is no visit changes no stamp. -/
structure Stamps (stamp : History (LinkedHashSet α) α → α → ℕ) : Prop where
  loaded : ∀ {history k events queue queue'}, loads events = [k] →
    ∀ x, stamp history x < stamp (⟨queue, .visit k, events, queue'⟩ :: history) k
  loaded_of_ne : ∀ {history k events queue queue'}, loads events = [k] → ∀ {x}, x ≠ k →
    stamp (⟨queue, .visit k, events, queue'⟩ :: history) x = stamp history x
  unvisited : ∀ {history} {call : Call α} {queue queue'}, (∀ k, call ≠ .visit k) →
    ∀ x, stamp (⟨queue, call, [], queue'⟩ :: history) x = stamp history x

theorem stamps_lastVisit : Stamps (α := α) lastVisit where
  loaded _ x := lastVisit_lt x
  loaded_of_ne _ _ hx := lastVisit_visit_of_ne hx
  unvisited hcall x := by rw [lastVisit, if_neg (hcall x)]

theorem stamps_lastLoad : Stamps (α := α) lastLoad where
  loaded hload x := lastLoad_lt (by simp [hload]) x
  loaded_of_ne hload _ hx := lastLoad_of_notMem (by simpa [hload] using hx)
  unvisited _ _ := lastLoad_of_notMem (by simp)

/-- The queue holds what the history leaves in it, in order of the stamps. -/
structure Ordered (stamp : History (LinkedHashSet α) α → α → ℕ) (maxNodes : ℤ)
    (history : History (LinkedHashSet α) α) (queue : LinkedHashSet α) : Prop where
  held : queue.toFinset = heldKeys history
  increasing : Increasing (stamp history) queue.toList
  length_le : queue.length ≤ maxNodes

theorem ordered_initial (hc : 1 ≤ maxNodes) : Ordered stamp maxNodes [] (∅ : LinkedHashSet α) :=
  ⟨rfl, .nil, (by decide : (0 : ℤ) ≤ 1).trans hc⟩

/-- A key is appended to a queue that has lost keys at most. -/
theorem Ordered.appended (hstamps : Stamps stamp) (h : Ordered stamp maxNodes history queue)
    (hload : loads events = [k]) {l : List α} (hsub : l.Sublist queue.toList) (hk : k ∉ l)
    (hqueue : queue'.toList = l ++ [k]) :
    Increasing (stamp (⟨queue, .visit k, events, queue'⟩ :: history)) queue'.toList := by
  rw [hqueue]
  refine (h.increasing.sublist hsub).touch ?_ fun x _ => hstamps.loaded hload x
  intro x hx
  exact hstamps.loaded_of_ne hload fun he => hk (he ▸ hx)

theorem Ordered.visited (hlt : maxNodes < 2147483647) (hstamps : Stamps stamp)
    (h : Ordered stamp maxNodes history queue)
    (hv : QueueVisited maxNodes k queue revisited queue' events)
    (hhit : k ∈ queue →
      Ordered stamp maxNodes (⟨queue, .visit k, [], revisited⟩ :: history) revisited) :
    Ordered stamp maxNodes (⟨queue, .visit k, events, queue'⟩ :: history) queue' := by
  have hlength := hv.length_le hlt h.length_le fun hk => (hhit hk).length_le
  cases hv with
  | hit hk => exact hhit hk
  | room hk hroom =>
    have hqueue := LinkedHashSet.toList_add hk
    refine ⟨?_, h.appended hstamps rfl (List.Sublist.refl _) hk hqueue, hlength⟩
    rw [toFinset_add, h.held, heldKeys]
    show insert k (heldKeys history) = (heldKeys history ∪ {k}) \ ∅
    rw [Finset.sdiff_empty, Finset.union_comm]
    rfl
  | @trimmed x xs hk hfull hx =>
    have hmem : x ∈ queue := LinkedHashSet.mem_of_toList_cons hx
    have hne : k ≠ x := fun he => hk (he ▸ hmem)
    have hgone := notMem_remove (x := x) hk
    have hsub : (queue.remove x).toList.Sublist queue.toList := by
      rw [LinkedHashSet.toList_remove]
      exact List.erase_sublist
    refine ⟨?_, h.appended hstamps rfl hsub hgone (LinkedHashSet.toList_add hgone), hlength⟩
    rw [toFinset_add, toFinset_remove, h.held, heldKeys]
    show insert k ((heldKeys history).erase x) = (heldKeys history ∪ {k}) \ {x}
    rw [← Finset.erase_insert_of_ne hne, Finset.sdiff_singleton_eq_erase, Finset.union_comm]
    rfl

/-- A call that is no visit takes keys away at most. -/
theorem Ordered.shrunk (hstamps : Stamps stamp) {call : Call α}
    (h : Ordered stamp maxNodes history queue) (hcall : ∀ k, call ≠ .visit k)
    (hheld : queue'.toFinset = heldKeys (⟨queue, call, [], queue'⟩ :: history))
    (hsub : queue'.toList.Sublist queue.toList) :
    Ordered stamp maxNodes (⟨queue, call, [], queue'⟩ :: history) queue' := by
  refine ⟨hheld, ?_, ?_⟩
  · exact (h.increasing.sublist hsub).congr fun x _ => hstamps.unvisited hcall x
  · have hshorter := hsub.length_le
    have hlength := h.length_le
    simp only [LinkedHashSet.length] at hlength ⊢
    omega

theorem Ordered.remove (hstamps : Stamps stamp) (h : Ordered stamp maxNodes history queue) (k : α) :
    Ordered stamp maxNodes (⟨queue, .remove k, [], queue.remove k⟩ :: history)
      (queue.remove k) := by
  refine h.shrunk hstamps (by simp) ?_ List.erase_sublist
  rw [toFinset_remove, h.held]
  rfl

theorem Ordered.clear (hstamps : Stamps stamp) (h : Ordered stamp maxNodes history queue) :
    Ordered stamp maxNodes (⟨queue, .clear, [], ∅⟩ :: history) (∅ : LinkedHashSet α) :=
  h.shrunk hstamps (by simp) rfl (List.nil_sublist _)

/-- What a visit loads and evicts: the key with the oldest stamp leaves when a missed key finds
the queue full, and nothing leaves otherwise. -/
structure EvictsOldest (stamp : α → ℕ) (maxNodes : ℤ) (queue : LinkedHashSet α) (k : α)
    (events : List (Event α)) : Prop where
  loads : loads events = if k ∈ queue then [] else [k]
  kept : k ∈ queue ∨ queue.length < maxNodes → evictions events = []
  evicted : k ∉ queue → queue.length = maxNodes → ∃ x ∈ queue, evictions events = [x] ∧
    ∀ y ∈ queue, y ≠ x → stamp x < stamp y

theorem Ordered.evictsOldest (hlt : maxNodes < 2147483647)
    (h : Ordered stamp maxNodes history queue)
    (hv : QueueVisited maxNodes k queue revisited queue' events) :
    EvictsOldest (stamp history) maxNodes queue k events := by
  have hloads := hv.loads
  cases hv with
  | hit hk =>
    refine ⟨hloads, fun _ => rfl, ?_⟩
    intro hnot
    exact absurd hk hnot
  | room hk hroom =>
    refine ⟨hloads, fun _ => rfl, ?_⟩
    intro _ hfull
    exact absurd (lt_size_add hk hlt hfull.ge) (not_lt.mpr hroom)
  | @trimmed x xs hk hfull hx =>
    refine ⟨hloads, ?_, ?_⟩
    · rintro (hmem | hroom)
      · exact absurd hmem hk
      · exact absurd hfull (not_lt.mpr (size_add_le hk hroom))
    · intro _ _
      refine ⟨x, LinkedHashSet.mem_of_toList_cons hx, rfl, ?_⟩
      intro y hy hne
      have hincreasing := h.increasing
      rw [LinkedHashSet.mem_def, hx] at hy
      rw [hx] at hincreasing
      exact (List.pairwise_cons.mp hincreasing).1 y ((List.mem_cons.mp hy).resolve_left hne)

/-- The queue as the held keys and their stamps determine it, and what a visit does in it. -/
structure Determined (perform : LinkedHashSet α → Call α → Java (LinkedHashSet α × List (Event α)))
    (maxNodes : ℤ) (stamp : α → ℕ) (held : Finset α) (queue : LinkedHashSet α) : Prop where
  mem : ∀ k, k ∈ queue ↔ k ∈ held
  increasing : Increasing stamp queue.toList
  length_le : queue.length ≤ maxNodes
  visit : ∀ k, ∃ queue' events, perform queue (.visit k) = .ok (queue', events) ∧
    EvictsOldest stamp maxNodes queue k events

theorem Ordered.determined
    {perform : LinkedHashSet α → Call α → Java (LinkedHashSet α × List (Event α))}
    {revisited : α → LinkedHashSet α} (hlt : maxNodes < 2147483647)
    (h : Ordered stamp maxNodes history queue)
    (hvisit : ∀ k, ∃ queue' events, perform queue (.visit k) = .ok (queue', events) ∧
      QueueVisited maxNodes k queue (revisited k) queue' events) :
    Determined perform maxNodes (stamp history) (heldKeys history) queue := by
  refine ⟨?_, h.increasing, h.length_le, ?_⟩
  · intro k
    rw [← h.held, LinkedHashSet.mem_toFinset]
  · intro k
    obtain ⟨queue', events, hok, hv⟩ := hvisit k
    exact ⟨queue', events, hok, h.evictsOldest hlt hv⟩

/-- One queue of which only what a visit to a resident key does is left open, under a stamp that
such a visit keeps to. -/
theorem exists_determined
    {perform : LinkedHashSet α → Call α → Java (LinkedHashSet α × List (Event α))}
    {revisited : LinkedHashSet α → α → LinkedHashSet α} (hstamps : Stamps stamp) (hc : 1 ≤ maxNodes)
    (hlt : maxNodes < 2147483647)
    (hvisit : ∀ queue k, ∃ queue' events, perform queue (.visit k) = .ok (queue', events) ∧
      QueueVisited maxNodes k queue (revisited queue k) queue' events)
    (hremove : ∀ queue k, perform queue (.remove k) = .ok (queue.remove k, []))
    (hclear : ∀ queue, perform queue .clear = .ok (∅, []))
    (hhit : ∀ history queue k, Ordered stamp maxNodes history queue → k ∈ queue →
      Ordered stamp maxNodes (⟨queue, .visit k, [], revisited queue k⟩ :: history)
        (revisited queue k))
    (calls : List (Call α)) :
    ∃ history queue, replay perform ∅ calls = .ok (history, queue) ∧
      Determined perform maxNodes (stamp history) (heldKeys history) queue := by
  have hstep (history : History (LinkedHashSet α) α) (queue : LinkedHashSet α) (call : Call α)
      (h : Ordered stamp maxNodes history queue) :
      ∃ queue' events, perform queue call = .ok (queue', events) ∧
        Ordered stamp maxNodes (⟨queue, call, events, queue'⟩ :: history) queue' := by
    cases call with
    | visit k =>
      obtain ⟨queue', events, hok, hv⟩ := hvisit queue k
      exact ⟨queue', events, hok, h.visited hlt hstamps hv (hhit history queue k h)⟩
    | remove k => exact ⟨_, _, hremove queue k, h.remove hstamps k⟩
    | clear => exact ⟨_, _, hclear queue, h.clear hstamps⟩
  obtain ⟨history, queue, hreplay, h⟩ := exists_replayFrom hstep (ordered_initial hc) calls
  exact ⟨history, queue, hreplay, h.determined hlt (hvisit queue)⟩

end Stamps

/-! ## The order of the LRU queue -/

namespace LruCacheManager

theorem length_revisited (hk : k ∈ queue) : ((queue.remove k).add k).length = queue.length := by
  rw [LinkedHashSet.length_add (by simp), LinkedHashSet.length_remove hk]
  omega

variable {history : History (LinkedHashSet α) α}

theorem ordered_hit (h : Ordered lastVisit maxNodes history queue) (hk : k ∈ queue) :
    Ordered lastVisit maxNodes
      (⟨queue, .visit k, [], (queue.remove k).add k⟩ :: history) ((queue.remove k).add k) := by
  have hgone : k ∉ queue.remove k := by simp
  refine ⟨?_, ?_, ?_⟩
  · have hmem : k ∈ queue.toFinset := LinkedHashSet.mem_toFinset.mpr hk
    rw [toFinset_add, toFinset_remove, Finset.insert_erase hmem, h.held, heldKeys]
    show heldKeys history = (heldKeys history ∪ ∅) \ ∅
    rw [Finset.union_empty, Finset.sdiff_empty]
  · rw [LinkedHashSet.toList_add hgone]
    refine (h.increasing.sublist List.erase_sublist).touch ?_ fun x _ => lastVisit_lt x
    intro x hx
    exact lastVisit_visit_of_ne fun he => hgone (he ▸ hx)
  · rw [length_revisited hk]
    exact h.length_le

/-- The LRU queue is in order of the last visits, and a visit evicts the least recently
visited key. -/
theorem lastVisits_determine (config : LruConfiguration) (hc : 1 ≤ config.maxNodes.val)
    (hlt : config.maxNodes.val < 2147483647) (calls : List (Call α)) :
    ∃ history queue, replay (manager config).perform (manager config).initial calls =
        .ok (history, queue) ∧
      Determined (manager config).perform config.maxNodes.val (lastVisit history) (heldKeys history)
        queue := by
  apply exists_determined stamps_lastVisit hc hlt
  · exact fun queue k => perform_visit config hc queue k
  · exact fun _ _ => rfl
  · exact fun _ => rfl
  · exact fun _ _ _ h hk => ordered_hit h hk

theorem lastVisits_determine_twoNodes :
    ∃ history queue, replay (manager (α := ℕ) ⟨2⟩).perform ∅
        [.visit 1, .visit 2, .visit 1, .visit 3, .remove 1, .visit 4] = .ok (history, queue) ∧
      Determined (manager ⟨2⟩).perform 2 (lastVisit history) (heldKeys history) queue :=
  lastVisits_determine ⟨2⟩ (by decide) (by decide) _

end LruCacheManager

/-! ## The order of the FIFO queue -/

namespace FifoCacheManager

variable {history : History (LinkedHashSet α) α}

theorem ordered_hit (h : Ordered lastLoad maxNodes history queue) :
    Ordered lastLoad maxNodes (⟨queue, .visit k, [], queue⟩ :: history) queue := by
  refine ⟨?_, h.increasing.congr fun x _ => lastLoad_of_notMem (by simp), h.length_le⟩
  rw [h.held, heldKeys]
  show heldKeys history = (heldKeys history ∪ ∅) \ ∅
  rw [Finset.union_empty, Finset.sdiff_empty]

/-- The FIFO queue is in order of the last loads, and a visit evicts the key loaded first. -/
theorem lastLoads_determine (config : FifoConfiguration) (hc : 1 ≤ config.maxNodes.val)
    (hlt : config.maxNodes.val < 2147483647) (calls : List (Call α)) :
    ∃ history queue, replay (manager config).perform (manager config).initial calls =
        .ok (history, queue) ∧
      Determined (manager config).perform config.maxNodes.val (lastLoad history) (heldKeys history)
        queue := by
  apply exists_determined stamps_lastLoad hc hlt
  · exact fun queue k => perform_visit config hc queue k
  · exact fun _ _ => rfl
  · exact fun _ => rfl
  · exact fun _ _ _ h _ => ordered_hit h

theorem lastLoads_determine_twoNodes :
    ∃ history queue, replay (manager (α := ℕ) ⟨2⟩).perform ∅
        [.visit 1, .visit 2, .visit 1, .visit 3, .remove 3, .visit 1] = .ok (history, queue) ∧
      Determined (manager ⟨2⟩).perform 2 (lastLoad history) (heldKeys history) queue :=
  lastLoads_determine ⟨2⟩ (by decide) (by decide) _

end FifoCacheManager

/-! ## LRU queues of different sizes -/

section Inclusion

/-- Taking a key out of a list without repetitions, and out of its end. -/
theorem erase_suffix {l l' : List α} (hnodup : l'.Nodup) (h : l <:+ l') (k : α) :
    l.erase k <:+ l'.erase k := by
  rw [hnodup.erase_eq_filter, (hnodup.sublist h.sublist).erase_eq_filter]
  exact h.filter _

/-- What a visit leaves of an LRU queue before the visited key: all other keys, or all but the
head. -/
inductive Leaves (maxNodes : ℤ) (k : α) (queue : LinkedHashSet α) : List α → Prop
  | rest (hroom : k ∈ queue ∨ (queue.add k).size ≤ maxNodes) :
    Leaves maxNodes k queue (queue.toList.erase k)
  | tail {x : α} {xs : List α} (hk : k ∉ queue) (hfull : maxNodes < (queue.add k).size)
      (hx : queue.toList = x :: xs) : Leaves maxNodes k queue xs

theorem QueueVisited.leaves
    (hv : QueueVisited maxNodes k queue ((queue.remove k).add k) queue' events) :
    ∃ l, queue'.toList = l ++ [k] ∧ Leaves maxNodes k queue l := by
  cases hv with
  | hit hk => exact ⟨_, LinkedHashSet.toList_add (by simp), .rest (.inl hk)⟩
  | room hk hroom =>
    refine ⟨_, ?_, .rest (.inr hroom)⟩
    rw [LinkedHashSet.toList_add hk, List.erase_of_not_mem hk]
  | @trimmed x xs hk hfull hx =>
    refine ⟨xs, ?_, .tail hk hfull hx⟩
    rw [LinkedHashSet.toList_add (notMem_remove hk), LinkedHashSet.toList_remove, hx,
      List.erase_cons_head]

variable {maxNodes' : ℤ} {queue₁ queue₁' : LinkedHashSet α} {events' : List (Event α)}

/-- A visit leaves no more of the smaller queue than of the larger one. -/
theorem Leaves.suffix {l l' : List α} (hle : maxNodes ≤ maxNodes')
    (hsuffix : queue.toList <:+ queue₁.toList) (h : Leaves maxNodes k queue l)
    (h' : Leaves maxNodes' k queue₁ l') : l <:+ l' := by
  have herase := erase_suffix queue₁.nodup hsuffix k
  cases h with
  | rest hroom =>
    cases h' with
    | rest => exact herase
    | tail hk' hfull' hy =>
      -- The larger queue is full and the smaller one is not, so it loses a key the latter lacks.
      have hk : k ∉ queue := fun hin => hk' (hsuffix.subset hin)
      have hsize := hroom.resolve_left hk
      rw [List.erase_of_not_mem hk]
      rw [hy] at hsuffix
      rcases List.suffix_cons_iff.mp hsuffix with heq | hsuffix
      · have hsame : queue = queue₁ := LinkedHashSet.ext (heq.trans hy.symm)
        rw [hsame] at hsize
        omega
      · exact hsuffix
  | @tail x _ hk hfull hx =>
    have htail : l <:+ queue.toList := hx ▸ List.suffix_cons x l
    cases h' with
    | rest =>
      rw [List.erase_of_not_mem hk] at herase
      exact htail.trans herase
    | tail hk' hfull' hy =>
      rw [hy] at hsuffix
      rcases List.suffix_cons_iff.mp hsuffix with heq | hsuffix
      · cases hx.symm.trans heq
        exact List.suffix_rfl
      · exact htail.trans hsuffix

theorem QueueVisited.suffix (hle : maxNodes ≤ maxNodes')
    (hsuffix : queue.toList <:+ queue₁.toList)
    (hv : QueueVisited maxNodes k queue ((queue.remove k).add k) queue' events)
    (hv' : QueueVisited maxNodes' k queue₁ ((queue₁.remove k).add k) queue₁' events') :
    queue'.toList <:+ queue₁'.toList := by
  obtain ⟨l, hl, hleaves⟩ := hv.leaves
  obtain ⟨l', hl', hleaves'⟩ := hv'.leaves
  rw [hl, hl']
  exact List.suffix_append_self_iff.mpr (hleaves.suffix hle hsuffix hleaves')

end Inclusion

namespace LruCacheManager

/-- The call of the smaller manager loads what the call of the larger one loads, and the queue
it leaves is the end of the larger one's. -/
structure Included (r r' : Record (LinkedHashSet α) (Call α) (List (Event α))) : Prop where
  call : r.call = r'.call
  loads : loads r'.output ⊆ loads r.output
  suffix : r.after.toList <:+ r'.after.toList

/-- The LRU manager with fewer places holds the most recently visited of the keys that one with
more places holds, and misses whatever the latter misses. -/
theorem queue_suffix_of_le (config config' : LruConfiguration) (hc : 1 ≤ config.maxNodes.val)
    (hle : config.maxNodes.val ≤ config'.maxNodes.val) (calls : List (Call α)) :
    ∃ history queue history' queue',
      replay (manager config).perform (manager config).initial calls = .ok (history, queue) ∧
      replay (manager config').perform (manager config').initial calls = .ok (history', queue') ∧
      queue.toList <:+ queue'.toList ∧ List.Forall₂ Included history history' := by
  have hstep (queue queue₁ : LinkedHashSet α) (call : Call α)
      (hsuffix : queue.toList <:+ queue₁.toList) (_ : True) (_ : True) :
      ∃ queue' events queue₁' events',
        (manager config).perform queue call = .ok (queue', events) ∧
        (manager config').perform queue₁ call = .ok (queue₁', events') ∧
        queue'.toList <:+ queue₁'.toList ∧
        Included ⟨queue, call, events, queue'⟩ ⟨queue₁, call, events', queue₁'⟩ := by
    cases call with
    | visit k =>
      obtain ⟨queue', events, hok, hv⟩ := perform_visit config hc queue k
      obtain ⟨queue₁', events', hok', hv'⟩ := perform_visit config' (hc.trans hle) queue₁ k
      have hnext := hv.suffix hle hsuffix hv'
      refine ⟨_, _, _, _, hok, hok', hnext, rfl, ?_, hnext⟩
      show CachePolicies.loads events' ⊆ CachePolicies.loads events
      rw [hv.loads, hv'.loads]
      by_cases hk : k ∈ queue₁
      · rw [if_pos hk]
        exact List.nil_subset _
      · have hnot : k ∉ queue := fun hin => hk (hsuffix.subset hin)
        rw [if_neg hk, if_neg hnot]
        exact List.Subset.refl _
    | remove k =>
      have hnext := erase_suffix queue₁.nodup hsuffix k
      exact ⟨_, _, _, _, rfl, rfl, hnext, rfl, List.Subset.refl _, hnext⟩
    | clear =>
      exact ⟨_, _, _, _, rfl, rfl, List.suffix_rfl, rfl, List.Subset.refl _, List.suffix_rfl⟩
  obtain ⟨history, queue, history', queue', hreplay, hreplay', hsuffix, hincluded⟩ :=
    replayFrom_forall₂ hstep List.suffix_rfl .nil (admitted_true _ calls) (admitted_true _ calls)
  exact ⟨history, queue, history', queue', hreplay, hreplay', hsuffix, hincluded⟩

theorem queue_suffix_of_le_twoNodes :
    ∃ history queue history' queue',
      replay (manager (α := ℕ) ⟨2⟩).perform ∅
        [.visit 1, .visit 2, .visit 3, .remove 2, .visit 1, .visit 4] = .ok (history, queue) ∧
      replay (manager (α := ℕ) ⟨3⟩).perform ∅
        [.visit 1, .visit 2, .visit 3, .remove 2, .visit 1, .visit 4] = .ok (history', queue') ∧
      queue.toList <:+ queue'.toList ∧ List.Forall₂ Included history history' :=
  queue_suffix_of_le ⟨2⟩ ⟨3⟩ (by decide) (by decide) _

end LruCacheManager

end CachePolicies
