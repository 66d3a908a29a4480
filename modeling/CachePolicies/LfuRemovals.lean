import CachePolicies.LfuManagers
import Mathlib.Algebra.BigOperators.Ring.Finset

/-!
# Removal from the LFU manager

`remove` takes the head of the queue that the removed key waits in, and keeps that queue
when it is empty. Only when the removed key is the head and other keys wait behind it do
the two maps stay in step.
-/

namespace CachePolicies.LfuCacheManager

variable {α : Type} [DecidableEq α]

/-- A removed key waits in no queue, or at the head of one with further keys. -/
def RemovesHead (m : LfuCacheManager α) : Call α → Prop
  | .remove k => ∀ visits ∈ m.visitCounts.lookup k,
      (counted visits m).peek = some k ∧ 2 ≤ (counted visits m).length
  | _ => True

instance (m : LfuCacheManager α) : ∀ call, Decidable (RemovesHead m call)
  | .remove k => inferInstanceAs (Decidable (∀ visits ∈ m.visitCounts.lookup k, _ ∧ _))
  | .visit _ | .clear => .isTrue trivial

/-- The counts are the positions of the keys, and `cacheSize` is the number of queued keys. -/
structure Represented (m : LfuCacheManager α) : Prop extends Filed m where
  cacheSize_eq : cacheSize m = ∑ visits ∈ m.priorityQueue.keys, (counted visits m).length

/-- A call that leaves the maps in step, removes the right key and evicts what was resident. -/
structure Kept (r : Record (LfuCacheManager α) (Call α) (List (Event α))) : Prop where
  represented : Represented r.after
  removed : ∀ k, r.call = .remove k → resident r.after = (resident r.before).erase k
  evicted : ∀ x ∈ evictions r.output, x ∈ resident r.before

variable {config : LfuConfiguration} {m m' : LfuCacheManager α} {k : α} {visits : ℤ}

omit [DecidableEq α] in
theorem mem_keys (h : k ∈ counted visits m) : visits ∈ m.priorityQueue.keys := by
  rw [Finmap.mem_keys, ← Finmap.lookup_isSome]
  rw [counted] at h
  cases hqueue : m.priorityQueue.lookup visits with
  | some queue => rfl
  | none =>
    rw [hqueue] at h
    exact absurd h (LinkedHashSet.notMem_empty k)

theorem Sound.represented (h : Sound config m) : Represented m := by
  have hfiled := h.filed
  refine ⟨hfiled, ?_⟩
  have hunion : resident m =
      m.priorityQueue.keys.biUnion fun visits => (counted visits m).toFinset := by
    ext k
    simp only [mem_resident, Finset.mem_biUnion, LinkedHashSet.mem_toFinset, hfiled.lookup]
    constructor
    · rintro ⟨visits, hk⟩
      exact ⟨visits, mem_keys hk, hk⟩
    · rintro ⟨visits, -, hk⟩
      exact ⟨visits, hk⟩
  rw [h.cacheSize_eq, hunion, Finset.card_biUnion]
  · rw [Nat.cast_sum]
    exact Finset.sum_congr rfl fun visits _ => LinkedHashSet.card_toFinset _
  · intro visits _ visits' _ hne
    refine Finset.disjoint_left.mpr fun k hk hk' => ?_
    have hvisits := (hfiled.lookup k visits).mpr (LinkedHashSet.mem_toFinset.mp hk)
    have hvisits' := (hfiled.lookup k visits').mpr (LinkedHashSet.mem_toFinset.mp hk')
    exact hne (Option.some.inj (hvisits.symm.trans hvisits'))

/-- What `remove` does to a queue with the head `x`, whichever of its keys is removed. -/
theorem Filed.remove_ok (h : Filed m) (hk : m.visitCounts.lookup k = some visits) :
    ∃ x xs, (counted visits m).toList = x :: xs ∧ remove k m =
      .ok ⟨m.priorityQueue.insert visits ((counted visits m).remove x), m.visitCounts.erase k⟩ := by
  have hmem := (h.lookup k visits).mp hk
  obtain ⟨x, xs, hx⟩ :=
    LinkedHashSet.exists_cons_of_length_pos (LinkedHashSet.length_pos_of_mem hmem)
  refine ⟨x, xs, hx, ?_⟩
  simp only [remove, hk, h.getQueue hk, LinkedHashSet.take_cons hx, Java.ok_bind]

/-- Taking the head out is what `remove` should do, if it is the removed key and not alone. -/
theorem Sound.remove_head (h : Sound config m) (hremoves : RemovesHead m (.remove k)) :
    ∃ m', remove k m = .ok m' ∧ Sound config m' ∧ resident m' = (resident m).erase k := by
  cases hk : m.visitCounts.lookup k with
  | none =>
    have hnot : k ∉ resident m := by
      rw [mem_resident, hk]
      simp
    refine ⟨m, ?_, h, (Finset.erase_eq_of_notMem hnot).symm⟩
    rw [remove, hk]
  | some visits =>
    obtain ⟨hpeek, hsize⟩ := hremoves visits hk
    obtain ⟨x, xs, hx, hok⟩ := h.filed.remove_ok hk
    have hxk : x = k := by
      rw [LinkedHashSet.peek, hx] at hpeek
      exact Option.some.inj hpeek
    subst hxk
    have hrest : ((counted visits m).remove x).isEmpty ≠ true := by
      intro hempty
      have hsize' := LinkedHashSet.length_remove (LinkedHashSet.mem_of_toList_cons hx)
      rw [LinkedHashSet.isEmpty_iff.mp hempty, LinkedHashSet.length_empty] at hsize'
      omega
    have hdiscard : discard x visits m =
        ⟨m.priorityQueue.insert visits ((counted visits m).remove x), m.visitCounts.erase x⟩ := by
      rw [discard, keepQueue, if_neg hrest]
    rw [← hdiscard] at hok
    refine ⟨_, hok, ⟨h.filed.discard hk, ?_⟩, resident_discard⟩
    rw [resident_discard]
    exact (Int.ofNat_le.mpr (Finset.card_erase_le)).trans h.held_le

/-- Where `remove` leaves the maps in step, it has taken the right key out of a longer queue. -/
theorem Filed.removesHead (h : Filed m) (hok : remove k m = .ok m') (h' : Filed m') :
    RemovesHead m (.remove k) := by
  intro visits hk
  obtain ⟨x, xs, hx, hok'⟩ := h.remove_ok hk
  cases hok.symm.trans hok'
  have hrest : counted visits ⟨m.priorityQueue.insert visits ((counted visits m).remove x),
      m.visitCounts.erase k⟩ = (counted visits m).remove x := by
    rw [counted, HashMap.lookup_insert_eq, if_pos rfl, Option.getD_some]
  have hxk : x = k := by
    by_contra hne
    have hlookup := (h.lookup x visits).mpr (LinkedHashSet.mem_of_toList_cons hx)
    have hstays := (h'.lookup x visits).mp (by rw [HashMap.lookup_erase_eq, if_neg hne, hlookup])
    rw [hrest] at hstays
    exact (LinkedHashSet.mem_remove.mp hstays).1 rfl
  subst hxk
  refine ⟨by rw [LinkedHashSet.peek, hx, List.head?_cons], ?_⟩
  have hne : (counted visits m).remove x ≠ ∅ := by
    refine h'.nonempty visits _ ?_
    rw [HashMap.lookup_insert_eq, if_pos rfl]
  have hsize := LinkedHashSet.length_remove (LinkedHashSet.mem_of_toList_cons hx)
  by_contra hshort
  exact hne (LinkedHashSet.eq_empty_of_length (by omega))

theorem Sound.perform_kept (hc : 1 ≤ config.maxNodes.val) (h : Sound config m) {call : Call α}
    (hremoves : RemovesHead m call) :
    ∃ m' events, (manager config).perform m call = .ok (m', events) ∧ Sound config m' ∧
      Kept ⟨m, call, events, m'⟩ := by
  cases call with
  | visit k =>
    obtain ⟨m', events, hok, h', hreported⟩ :=
      (protocol config hc).visit_reported rfl (k := k) h trivial
    refine ⟨m', events, hok, h', h'.represented, ?_, ?_⟩
    · intro y hy
      cases hy
    · exact fun x hx => (hreported.evicts_resident x hx).1
  | remove k =>
    obtain ⟨m', hok, h', hresident⟩ := h.remove_head hremoves
    refine ⟨m', [], ?_, h', h'.represented, ?_, by simp⟩
    · simp only [CacheManager.perform, hok, Java.ok_bind]
    · intro y hy
      cases hy
      exact hresident
  | clear =>
    have h' : Sound config (initial (α := α)) := sound_initial (by omega)
    refine ⟨initial, [], rfl, h', h'.represented, ?_, by simp⟩
    intro y hy
    cases hy

/-- The maps stay in step through a sequence of calls exactly when each removed key is
uncounted, or the head of a queue with further keys. -/
theorem kept_iff_removesHead (config : LfuConfiguration) (hc : 1 ≤ config.maxNodes.val)
    (calls : List (Call α)) :
    Represented (initial (α := α)) ∧ Succeeds (manager config).perform Kept initial calls ↔
      Admitted (manager config).perform RemovesHead (initial (α := α)) calls := by
  have hinitial : Sound config (initial (α := α)) := sound_initial (by omega)
  rw [and_iff_right hinitial.represented]
  refine succeeds_iff_admitted (fun m call h hremoves => h.perform_kept hc hremoves) ?_ hinitial
  intro m call m' events h hok hkept
  cases call with
  | visit k => trivial
  | remove k =>
    obtain ⟨m₁, hremove, heq⟩ := Java.bind_eq_ok.mp hok
    cases heq
    exact h.filed.removesHead hremove hkept.represented.toFiled
  | clear => trivial

def twoNodes : LfuConfiguration := ⟨2⟩

theorem kept_twoNodes :
    Represented (initial (α := ℕ)) ∧ Succeeds (manager twoNodes).perform Kept initial
      [.visit 1, .visit 2, .remove 1, .visit 2, .remove 3, .visit 4, .visit 5, .clear, .visit 1] :=
  (kept_iff_removesHead twoNodes (by decide) _).mpr (by decide)

/-- Removing the second of two keys leaves it in the queue, from which it is evicted later. -/
theorem not_kept_twoNodes :
    ¬(Represented (initial (α := ℕ)) ∧ Succeeds (manager twoNodes).perform Kept initial
      [.visit 1, .visit 2, .remove 2, .visit 3, .visit 4]) := by
  rintro ⟨-, hcalls⟩
  obtain ⟨m₁, _, h₁, -, m₂, _, h₂, -, m₃, _, h₃, -, m₄, _, h₄, -, m₅, _, h₅, hkept, -⟩ := hcalls
  cases h₁
  cases h₂
  cases h₃
  cases h₄
  cases h₅
  have hresident := hkept.evicted 2 (by decide)
  exact absurd hresident (by decide)

end CachePolicies.LfuCacheManager
