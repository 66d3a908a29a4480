import CachePolicies.EvictionQueues
import CachePolicies.SimpleManagers
import Mathlib.Algebra.BigOperators.Group.Multiset.Defs

/-!
# The index of an eviction queue

`Held` says what the index is for: the entry last added under each name, unless it was
removed or cleared since. The queue keeps to it exactly as long as no held entry is removed,
no two names share a string, and the total number of elements stays an `int`.
-/

namespace CachePolicies

/-- The entries held, and whether a name already held has been added again. -/
structure Held (φ : Type) where
  entries : HashMap φ (NodeEntry φ)
  readded : Bool

namespace Held

variable {φ : Type} [DecidableEq φ]

def initial : Held φ := ⟨∅, false⟩

def perform (held : Held φ) : QueueCall φ → Held φ
  | .processVisit _ => held
  | .addNodeEntry entry =>
    ⟨held.entries.insert entry.fqn entry, held.readded || (held.entries.lookup entry.fqn).isSome⟩
  | .removeNodeEntry entry => { held with entries := held.entries.erase entry.fqn }
  | .clear => { held with entries := ∅ }

omit [DecidableEq φ] in
/-- The number of elements of all entries held. -/
def total (held : Held φ) : ℤ :=
  (held.entries.entries.map fun entry => entry.2.numberOfElements.val).sum

theorem total_add {held : Held φ} {entry : NodeEntry φ} (h : entry.fqn ∉ held.entries) :
    (held.perform (.addNodeEntry entry)).total = held.total + entry.numberOfElements.val := by
  rw [total, perform, Finmap.entries_insert_of_notMem h, Multiset.map_cons, Multiset.sum_cons, total,
    add_comm]

end Held

namespace CacheManagerEvictionQueue

variable {φ : Type} [DecidableEq φ] {P : CacheManager φ} (toString : φ → String)

/-- One call, beside which the held entries are noted. -/
def tracked (s : CacheManagerEvictionQueue P × Held φ) (call : QueueCall φ) :
    Java ((CacheManagerEvictionQueue P × Held φ) × List (Event φ)) := do
  let (queue, events) ← perform toString s.1 call
  .ok ((queue, s.2.perform call), events)

/-- The index returns the entries held, has their strings as its keys, and counts their elements
as long as no name already held has been added again. -/
structure IndexExact (s : CacheManagerEvictionQueue P × Held φ) : Prop where
  getNodeEntry : ∀ fqn, s.1.getNodeEntry toString fqn = s.2.entries.lookup fqn
  keys : ∀ key, key ∈ s.1.byFqn ↔ ∃ fqn ∈ s.2.entries, key = .string (toString fqn)
  count : s.2.readded = false → s.1.getNumberOfElements = s.2.total

/-- No held entry is removed. The string of an added entry belongs to its name only, and its
elements keep the total in range. -/
def KeepsIndex (s : CacheManagerEvictionQueue P × Held φ) : QueueCall φ → Prop
  | .processVisit _ => True
  | .addNodeEntry entry =>
    (∀ fqn, toString fqn = toString entry.fqn → fqn = entry.fqn) ∧
      (s.2.readded = false → entry.fqn ∉ s.2.entries →
        IsInt (s.2.total + entry.numberOfElements.val))
  | .removeNodeEntry entry => entry.fqn ∉ s.2.entries
  | .clear => True

/-- The index is exact, and every entry is held under its own name. -/
structure Indexed (s : CacheManagerEvictionQueue P × Held φ) : Prop where
  exact : IndexExact toString s
  named : ∀ fqn entry, s.2.entries.lookup fqn = some entry → entry.fqn = fqn

variable {toString} {s s' : CacheManagerEvictionQueue P × Held φ} {call : QueueCall φ}
  {entry : NodeEntry φ} {events : List (Event φ)}

theorem tracked_ok (hok : tracked toString s call = .ok (s', events)) :
    perform toString s.1 call = .ok (s'.1, events) ∧ s'.2 = s.2.perform call := by
  obtain ⟨⟨queue, events'⟩, hperform, hs'⟩ := Java.bind_eq_ok.mp hok
  cases hs'
  exact ⟨hperform, rfl⟩

theorem indexed_empty (P : CacheManager φ) (m : P.State) (readded : Bool) :
    Indexed toString ((⟨m, ∅, ∅, 0⟩ : CacheManagerEvictionQueue P), ⟨∅, readded⟩) := by
  refine ⟨⟨fun _ => rfl, fun key => ?_, fun _ => rfl⟩, fun fqn entry hentry => ?_⟩
  · exact iff_of_false (Finmap.notMem_empty) fun h => Finmap.notMem_empty h.choose_spec.1
  · cases hentry

theorem Indexed.processVisit (h : Indexed toString s) {fqn : φ}
    (hok : tracked toString s (.processVisit fqn) = .ok (s', events)) : Indexed toString s' := by
  obtain ⟨hvisit, hheld⟩ := tracked_ok hok
  obtain ⟨queue, held⟩ := s'
  obtain ⟨⟨m, toEvict, events'⟩, -, hqueue⟩ := Java.bind_eq_ok.mp hvisit
  cases hheld
  cases hqueue
  exact ⟨⟨h.exact.getNodeEntry, h.exact.keys, h.exact.count⟩, h.named⟩

theorem Indexed.addNodeEntry (h : Indexed toString s) (hkeeps : KeepsIndex toString s (.addNodeEntry entry))
    (hok : tracked toString s (.addNodeEntry entry) = .ok (s', events)) : Indexed toString s' := by
  obtain ⟨hunique, hint⟩ := hkeeps
  cases hok
  refine ⟨⟨fun fqn => ?_, fun key => ?_, fun hreadded => ?_⟩, fun fqn entry' hentry => ?_⟩
  · have hsame : IndexKey.string (φ := φ) (toString fqn) = .string (toString entry.fqn) ↔
        fqn = entry.fqn := by
      refine ⟨fun he => hunique fqn (IndexKey.string.inj he), fun he => by rw [he]⟩
    have hold := h.exact.getNodeEntry fqn
    rw [CacheManagerEvictionQueue.getNodeEntry] at hold ⊢
    rw [CacheManagerEvictionQueue.addNodeEntry, Held.perform, HashMap.lookup_insert_eq,
      HashMap.lookup_insert_eq, hold]
    simp only [hsame]
  · have hold := h.exact.keys key
    rw [CacheManagerEvictionQueue.addNodeEntry, Held.perform, Finmap.mem_insert, hold]
    constructor
    · rintro (rfl | ⟨fqn, hfqn, rfl⟩)
      · exact ⟨entry.fqn, Finmap.mem_insert.mpr (.inl rfl), rfl⟩
      · exact ⟨fqn, Finmap.mem_insert.mpr (.inr hfqn), rfl⟩
    · rintro ⟨fqn, hfqn, rfl⟩
      rcases Finmap.mem_insert.mp hfqn with rfl | hfqn
      · exact .inl rfl
      · exact .inr ⟨fqn, hfqn, rfl⟩
  · obtain ⟨hfresh, hnone⟩ := Bool.or_eq_false_iff.mp hreadded
    have hnew : entry.fqn ∉ s.2.entries := by
      rw [← Finmap.lookup_isSome, hnone]
      exact Bool.false_ne_true
    rw [Held.total_add hnew, ← int32_of_isInt (hint hfresh hnew), ← h.exact.count hfresh]
    rfl
  · rw [Held.perform, HashMap.lookup_insert_eq] at hentry
    split at hentry
    · next hfqn =>
      cases hentry
      exact hfqn.symm
    · exact h.named fqn entry' hentry

/-- An entry that is not held leaves no trace when it is removed. -/
theorem Indexed.removeNodeEntry (h : Indexed toString s) (hfree : entry.fqn ∉ s.2.entries)
    (hok : tracked toString s (.removeNodeEntry entry) = .ok (s', events)) : Indexed toString s' := by
  obtain ⟨hperform, hheld⟩ := tracked_ok hok
  obtain ⟨queue, held⟩ := s'
  obtain ⟨queue', hremove, hqueue⟩ := Java.bind_eq_ok.mp hperform
  obtain ⟨m, -, hqueue'⟩ := Java.bind_eq_ok.mp hremove
  have herase : s.2.entries.erase entry.fqn = s.2.entries := HashMap.erase_of_notMem hfree
  have hkey : s.1.byFqn.erase (.entry entry.fqn) = s.1.byFqn := by
    apply HashMap.erase_of_notMem
    rw [h.exact.keys]
    rintro ⟨fqn, -, he⟩
    cases he
  cases hheld
  cases hqueue'
  cases hqueue
  rw [hkey, herase]
  exact ⟨⟨h.exact.getNodeEntry, h.exact.keys, h.exact.count⟩, h.named⟩

theorem Indexed.step (h : Indexed toString s) (hkeeps : KeepsIndex toString s call)
    (hok : tracked toString s call = .ok (s', events)) : Indexed toString s' := by
  cases call with
  | processVisit fqn => exact h.processVisit hok
  | addNodeEntry entry => exact h.addNodeEntry hkeeps hok
  | removeNodeEntry entry => exact h.removeNodeEntry hkeeps hok
  | clear =>
    cases hok
    exact indexed_empty P _ _

/-- The string of another name would now return the added entry. -/
theorem Indexed.addNodeEntry_needs (h : Indexed toString s)
    (hok : tracked toString s (.addNodeEntry entry) = .ok (s', events))
    (hexact : IndexExact toString s') : KeepsIndex toString s (.addNodeEntry entry) := by
  cases hok
  refine ⟨fun fqn hfqn => ?_, fun hfresh hnew => ?_⟩
  · have hentry := hexact.getNodeEntry fqn
    rw [CacheManagerEvictionQueue.getNodeEntry, CacheManagerEvictionQueue.addNodeEntry, Held.perform,
      HashMap.lookup_insert_eq, if_pos (by rw [hfqn]), HashMap.lookup_insert_eq] at hentry
    split at hentry
    · assumption
    · exact (h.named fqn entry hentry.symm).symm
  · have hnone : (s.2.entries.lookup entry.fqn).isSome = false := by
      rw [← Bool.not_eq_true, Finmap.lookup_isSome]
      exact hnew
    have hcount := hexact.count (Bool.or_eq_false_iff.mpr ⟨hfresh, hnone⟩)
    rw [Held.total_add hnew, ← h.exact.count hfresh] at hcount
    rw [← h.exact.count hfresh, ← hcount]
    exact isInt_int32 _

/-- The removed entry stays in the index. -/
theorem Indexed.removeNodeEntry_needs (h : Indexed toString s)
    (hok : tracked toString s (.removeNodeEntry entry) = .ok (s', events))
    (hexact : IndexExact toString s') : entry.fqn ∉ s.2.entries := by
  obtain ⟨hperform, hheld⟩ := tracked_ok hok
  obtain ⟨queue, held⟩ := s'
  obtain ⟨queue', hremove, hqueue⟩ := Java.bind_eq_ok.mp hperform
  obtain ⟨m, -, hqueue'⟩ := Java.bind_eq_ok.mp hremove
  cases hheld
  cases hqueue'
  cases hqueue
  have hentry := hexact.getNodeEntry entry.fqn
  have hold := h.exact.getNodeEntry entry.fqn
  rw [CacheManagerEvictionQueue.getNodeEntry] at hold
  rw [CacheManagerEvictionQueue.getNodeEntry, HashMap.lookup_erase_eq, HashMap.lookup_erase_eq,
    if_pos rfl, if_neg (by simp), hold] at hentry
  exact Finmap.lookup_eq_none.mp hentry

/-- The index of a queue is exact after every call exactly when no held entry is removed, no name
shares its string with an added one and the total of the elements stays an `int`. -/
theorem indexExact_iff_keepsIndex (toString : φ → String) (P : CacheManager φ)
    (calls : List (QueueCall φ)) :
    Always (tracked toString) (IndexExact toString) (initial P, Held.initial) calls ↔
      Admitted (tracked toString)
        (fun s call => (∃ r, tracked toString s call = .ok r) → KeepsIndex toString s call)
        (initial P, Held.initial) calls := by
  have hinitial : Indexed toString (initial P, Held.initial) := indexed_empty P _ _
  refine always_iff_admitted (fun s (h : Indexed toString s) => h.exact) ?_ ?_ hinitial
  · intro s call s' events h hkeeps hok
    exact h.step hkeeps hok
  · intro s call s' events h hok hexact
    cases call with
    | processVisit fqn => trivial
    | addNodeEntry entry => exact h.addNodeEntry_needs hok hexact
    | removeNodeEntry entry => exact h.removeNodeEntry_needs hok hexact
    | clear => trivial

/-- The entry of a removed node is still returned. -/
theorem not_indexExact_removed :
    ¬∀ calls : List (QueueCall ℕ), Always (tracked Nat.repr) (IndexExact Nat.repr)
      (initial (LruCacheManager.manager ⟨2⟩), Held.initial) calls := by
  intro h
  obtain ⟨-, hadded⟩ := h [.addNodeEntry ⟨1, 3⟩, .removeNodeEntry ⟨1, 3⟩]
  obtain ⟨-, hremoved⟩ := hadded _ _ rfl
  have hentry := (hremoved _ _ rfl).getNodeEntry 1
  cases hentry

end CacheManagerEvictionQueue

end CachePolicies
