import CachePolicies.HashMaps
import CachePolicies.LinkedHashSets
import CachePolicies.VisitProtocols
import Mathlib.Data.Finset.Max

/-!
# The LFU manager

Keys wait in one queue for each visit count, and a missed key evicts the head of the
queue with the least count. A count that wraps round keeps the queues exact, so no visit
needs a condition. `remove` takes the head of a queue instead of the removed key.
-/

namespace CachePolicies

structure LfuConfiguration where
  maxNodes : JavaInt

/-- `priorityQueue` is a sorted map, of which only `firstKey` reads the order. -/
structure LfuCacheManager (α : Type) where
  priorityQueue : HashMap ℤ (LinkedHashSet α)
  visitCounts : HashMap α ℤ

namespace LfuCacheManager

variable {α L : Type} [DecidableEq α]

def initial : LfuCacheManager α := ⟨∅, ∅⟩

omit [DecidableEq α] in
/-- The keys with a visit count. -/
def resident (m : LfuCacheManager α) : Finset α := m.visitCounts.keys

def cacheSize (m : LfuCacheManager α) : ℤ := m.visitCounts.size

/-- `priorityQueue.firstKey()`. -/
def firstKey (m : LfuCacheManager α) : Java ℤ :=
  match m.priorityQueue.keys.min with
  | none => .error .noSuchElement
  | some count => .ok count

/-- `priorityQueue.get(count)`, whose result is used. -/
def getQueue (count : ℤ) (m : LfuCacheManager α) : Java (LinkedHashSet α) :=
  match m.priorityQueue.lookup count with
  | none => .error .nullPointer
  | some queue => .ok queue

/-- A queue from which a key has been taken leaves the map when it is empty. -/
def keepQueue (count : ℤ) (queue : LinkedHashSet α) (m : LfuCacheManager α) : LfuCacheManager α :=
  { m with priorityQueue :=
      if queue.isEmpty then m.priorityQueue.erase count else m.priorityQueue.insert count queue }

/-- Append `hit` to the queue of its new count, which is made at its first use. -/
def enlist (hit : α) (visits : ℤ) (m : LfuCacheManager α) : LfuCacheManager α where
  priorityQueue :=
    m.priorityQueue.insert visits (((m.priorityQueue.lookup visits).getD ∅).add hit)
  visitCounts := m.visitCounts.insert hit visits

section Methods

variable (config : LfuConfiguration) (listeners : List (CacheManagerListener α (LfuCacheManager α) L))

def makeRoom (w : LfuCacheManager α × L) : Java (LfuCacheManager α × L) :=
  if w.1.visitCounts.size ≥ config.maxNodes.val then do
    let maxCount ← firstKey w.1
    let queue ← getQueue maxCount w.1
    let (evicted, rest) ← queue.take
    let m := keepQueue maxCount rest w.1
    evict listeners evicted ({ m with visitCounts := m.visitCounts.erase evicted }, w.2)
  else .ok w

def visit (hit : α) (w : LfuCacheManager α × L) : Java (LfuCacheManager α × L) :=
  match w.1.visitCounts.lookup hit with
  | some visits => do
    let oldVisited ← getQueue visits w.1
    .ok (enlist hit (int32 (visits + 1)) (keepQueue visits (oldVisited.remove hit) w.1), w.2)
  | none => do
    let w ← makeRoom config listeners w
    load listeners hit (enlist hit 1 w.1, w.2)

end Methods

/-- `remove`, which leaves an emptied queue in the map. -/
def remove (hit : α) (m : LfuCacheManager α) : Java (LfuCacheManager α) :=
  match m.visitCounts.lookup hit with
  | none => .ok m
  | some priority => do
    let queue ← getQueue priority m
    let (_, rest) ← queue.take
    .ok ⟨m.priorityQueue.insert priority rest, m.visitCounts.erase hit⟩

abbrev manager (config : LfuConfiguration) : CacheManager α where
  State := LfuCacheManager α
  initial := initial
  add _ m := m
  visit := visit config
  remove := remove
  clear _ := initial
  cacheSize := cacheSize
  resident := resident

/-! ## The protocol -/

/-- The keys counted `visits` times. -/
def counted (visits : ℤ) (m : LfuCacheManager α) : LinkedHashSet α :=
  (m.priorityQueue.lookup visits).getD ∅

/-- Each key waits in the queue of its count, and no queue is empty. -/
structure Filed (m : LfuCacheManager α) : Prop where
  lookup : ∀ k visits, m.visitCounts.lookup k = some visits ↔ k ∈ counted visits m
  nonempty : ∀ visits queue, m.priorityQueue.lookup visits = some queue → queue ≠ ∅

structure Sound (config : LfuConfiguration) (m : LfuCacheManager α) : Prop where
  filed : Filed m
  held_le : ((resident m).card : ℤ) ≤ config.maxNodes.val

/-- The calls other than `remove`, which breaks the agreement of the two maps. -/
def VisitsOrClears (_ : LfuCacheManager α) : Call α → Prop
  | .remove _ => False
  | _ => True

section Queues

variable {m : LfuCacheManager α} {k : α} {count visits : ℤ} {queue : LinkedHashSet α}

omit [DecidableEq α] in
theorem counted_keepQueue : counted visits (keepQueue count queue m) =
    if visits = count then queue else counted visits m := by
  unfold counted keepQueue
  by_cases hempty : queue.isEmpty = true
  · rw [if_pos hempty, HashMap.lookup_erase_eq, LinkedHashSet.isEmpty_iff.mp hempty]
    split <;> rfl
  · rw [if_neg hempty, HashMap.lookup_insert_eq]
    split <;> rfl

theorem counted_enlist : counted visits (enlist k count m) =
    if visits = count then (counted count m).add k else counted visits m := by
  unfold counted enlist
  rw [HashMap.lookup_insert_eq]
  split <;> rfl

/-- Take a key out of the queue of its count and forget the count. -/
def discard (k : α) (visits : ℤ) (m : LfuCacheManager α) : LfuCacheManager α :=
  { keepQueue visits ((counted visits m).remove k) m with visitCounts := m.visitCounts.erase k }

theorem Filed.discard (h : Filed m) (hk : m.visitCounts.lookup k = some visits) :
    Filed (discard k visits m) := by
  refine ⟨?_, ?_⟩
  · intro y count
    have hqueue : counted count (LfuCacheManager.discard k visits m) =
        if count = visits then (counted visits m).remove k else counted count m := counted_keepQueue
    have hlookup : (LfuCacheManager.discard k visits m).visitCounts.lookup y =
        if y = k then none else m.visitCounts.lookup y := HashMap.lookup_erase_eq _ _ _
    have hy := h.lookup y count
    rw [hqueue, hlookup]
    by_cases hcount : count = visits
    · subst hcount
      by_cases hyk : y = k
      · simp [hyk]
      · simp [hyk, hy]
    · by_cases hyk : y = k
      · subst hyk
        rw [hk] at hy
        simp only [if_neg hcount, if_true, ← hy]
        simpa using Ne.symm hcount
      · simp [hyk, hcount, hy]
  · intro count queue hqueue
    change (if _ then _ else _ : HashMap ℤ (LinkedHashSet α)).lookup count = _ at hqueue
    split at hqueue
    · rw [HashMap.lookup_erase_eq] at hqueue
      split at hqueue
      · cases hqueue
      · exact h.nonempty count queue hqueue
    · next hempty =>
      rw [HashMap.lookup_insert_eq] at hqueue
      split at hqueue
      · cases hqueue
        exact fun he => hempty (LinkedHashSet.isEmpty_iff.mpr he)
      · exact h.nonempty count queue hqueue

theorem Filed.enlist (h : Filed m) (hk : m.visitCounts.lookup k = none) (count : ℤ) :
    Filed (enlist k count m) := by
  refine ⟨?_, ?_⟩
  · intro y visits
    have hlookup : (LfuCacheManager.enlist k count m).visitCounts.lookup y =
        if y = k then some count else m.visitCounts.lookup y := HashMap.lookup_insert_eq _ _ _ _
    rw [counted_enlist, hlookup]
    have hy := h.lookup y visits
    by_cases hyk : y = k
    · subst hyk
      rw [hk] at hy
      by_cases hvisits : visits = count
      · simp [hvisits]
      · simp only [if_neg hvisits, ← hy, if_true]
        simpa using Ne.symm hvisits
    · by_cases hvisits : visits = count
      · subst hvisits
        simp [hyk, hy]
      · simp [hyk, hvisits, hy]
  · intro visits queue hqueue
    change (Finmap.insert _ _ _).lookup visits = _ at hqueue
    rw [HashMap.lookup_insert_eq] at hqueue
    split at hqueue
    · cases hqueue
      intro he
      have hmem : k ∈ ((m.priorityQueue.lookup count).getD ∅).add k := by simp
      rw [he] at hmem
      exact LinkedHashSet.notMem_empty k hmem
    · exact h.nonempty visits queue hqueue

/-- What is counted anew is found in its queue alone, so its old count may as well be gone. -/
theorem enlist_discard : enlist k count (discard k visits m) =
    enlist k count (keepQueue visits ((counted visits m).remove k) m) := by
  have hcounts : Finmap.insert k count (Finmap.erase k m.visitCounts) =
      Finmap.insert k count m.visitCounts := by
    apply Finmap.ext_lookup
    intro y
    by_cases hy : y = k <;> simp [hy]
  simp only [enlist, discard, keepQueue, hcounts]

theorem Filed.getQueue (h : Filed m) (hk : m.visitCounts.lookup k = some visits) :
    getQueue visits m = .ok (counted visits m) := by
  have hmem := (h.lookup k visits).mp hk
  rw [LfuCacheManager.getQueue]
  unfold counted at hmem ⊢
  cases hqueue : m.priorityQueue.lookup visits with
  | none =>
    rw [hqueue] at hmem
    exact absurd hmem (LinkedHashSet.notMem_empty k)
  | some queue => rfl

theorem mem_resident : k ∈ resident m ↔ ∃ visits, m.visitCounts.lookup k = some visits := by
  rw [resident, Finmap.mem_keys, ← Finmap.lookup_isSome, Option.isSome_iff_exists]

theorem resident_enlist : resident (enlist k count m) = insert k (resident m) := by
  ext y
  rw [Finset.mem_insert, mem_resident, mem_resident]
  simp only [enlist, HashMap.lookup_insert_eq]
  by_cases hy : y = k <;> simp [hy]

theorem resident_discard : resident (discard k visits m) = (resident m).erase k := by
  ext y
  rw [Finset.mem_erase, mem_resident, mem_resident]
  simp only [discard, HashMap.lookup_erase_eq]
  by_cases hy : y = k <;> simp [hy]

/-- The least count is that of a queue with a head. -/
theorem Filed.firstKey (h : Filed m) (hne : (resident m).Nonempty) :
    ∃ visits x xs, firstKey m = .ok visits ∧ (counted visits m).toList = x :: xs := by
  obtain ⟨k, hk⟩ := hne
  obtain ⟨visits, hk⟩ := mem_resident.mp hk
  have hkey {visits : ℤ} : visits ∈ m.priorityQueue.keys ↔
      ∃ queue, m.priorityQueue.lookup visits = some queue := by
    rw [Finmap.mem_keys, ← Finmap.lookup_isSome, Option.isSome_iff_exists]
  have hmem : visits ∈ m.priorityQueue.keys := by
    rw [hkey]
    by_contra hnone
    have hin := (h.lookup k visits).mp hk
    rw [counted, Option.eq_none_iff_forall_ne_some.mpr fun q hq => hnone ⟨q, hq⟩] at hin
    exact LinkedHashSet.notMem_empty k hin
  obtain ⟨count, hmin⟩ := Finset.min_of_mem hmem
  obtain ⟨queue, hqueue⟩ := hkey.mp (Finset.mem_of_min hmin)
  have hcounted : counted count m = queue := by rw [counted, hqueue, Option.getD_some]
  cases hx : queue.toList with
  | nil => exact absurd (LinkedHashSet.ext hx) (h.nonempty count queue hqueue)
  | cons x xs => exact ⟨count, x, xs, by rw [LfuCacheManager.firstKey, hmin], hcounted ▸ hx⟩

end Queues

section Visits

variable {config : LfuConfiguration} {listeners : List (CacheManagerListener α (LfuCacheManager α) L)}
  {onEvict onLoad : α → L → L} {k : α} {m : LfuCacheManager α}

theorem Sound.cacheSize_eq (h : Sound config m) : cacheSize m = (resident m).card :=
  min_eq_left (h.held_le.trans config.maxNodes.property.2)

theorem Sound.hit (h : Sound config m) {visits : ℤ} (hk : m.visitCounts.lookup k = some visits)
    (l : L) :
    ∃ m' l', visit config listeners k (m, l) = .ok (m', l') ∧ Sound config m' ∧
      VisitEffect (resident m) k onEvict onLoad l (resident m') l' := by
  have hgone : (discard k visits m).visitCounts.lookup k = none := by simp [discard]
  have hmem : k ∈ resident m := mem_resident.mpr ⟨visits, hk⟩
  have hresident : resident (enlist k (int32 (visits + 1)) (discard k visits m)) = resident m := by
    rw [resident_enlist, resident_discard, Finset.insert_erase hmem]
  refine ⟨enlist k (int32 (visits + 1)) (discard k visits m), l, ?_, ⟨?_, ?_⟩, ?_⟩
  · simp only [visit, hk, h.filed.getQueue hk, Java.ok_bind, enlist_discard]
  · exact (h.filed.discard hk).enlist hgone _
  · rw [hresident]
    exact h.held_le
  · rw [hresident]
    exact .hit hmem

/-- A full cache makes room by the eviction of one of its keys. -/
theorem Sound.makeRoom (hr : Responds listeners (fun _ m => m) onEvict onLoad)
    (hc : 1 ≤ config.maxNodes.val) (h : Sound config m) (hk : m.visitCounts.lookup k = none) (l : L) :
    ∃ m' l', makeRoom config listeners (m, l) = .ok (m', l') ∧ Filed m' ∧
      m'.visitCounts.lookup k = none ∧ ((resident m').card : ℤ) + 1 ≤ config.maxNodes.val ∧
      RoomMade (resident m) onEvict l (resident m') l' := by
  have hheld := h.held_le
  by_cases hfull : ((resident m).card : ℤ) ≥ config.maxNodes.val
  · have hne : (resident m).Nonempty := Finset.card_pos.mp (by omega)
    obtain ⟨visits, x, xs, hfirst, hx⟩ := h.filed.firstKey hne
    have hxloc : m.visitCounts.lookup x = some visits :=
      (h.filed.lookup x visits).mpr (LinkedHashSet.mem_of_toList_cons hx)
    have hxres : x ∈ resident m := mem_resident.mpr ⟨visits, hxloc⟩
    have hcard := Finset.card_erase_add_one hxres
    refine ⟨discard x visits m, onEvict x l, ?_, h.filed.discard hxloc, ?_, ?_, ?_⟩
    · have hsize := (HashMap.le_size_iff config.maxNodes.property.2).mpr hfull
      simp only [LfuCacheManager.makeRoom, if_pos hsize, hfirst, h.filed.getQueue hxloc,
        LinkedHashSet.take_cons hx, Java.ok_bind, hr.evict]
      rfl
    · simp [discard, hk]
    · rw [resident_discard]
      omega
    · rw [resident_discard]
      exact .evicted hxres
  · refine ⟨m, l, ?_, h.filed, hk, by omega, .kept⟩
    have hsize := mt (HashMap.le_size_iff config.maxNodes.property.2).mp hfull
    rw [LfuCacheManager.makeRoom, if_neg hsize]

theorem Sound.visit (hr : Responds listeners (fun _ m => m) onEvict onLoad)
    (hc : 1 ≤ config.maxNodes.val) (h : Sound config m) (k : α) (l : L) :
    ∃ m' l', visit config listeners k (m, l) = .ok (m', l') ∧ Sound config m' ∧
      VisitEffect (resident m) k onEvict onLoad l (resident m') l' := by
  cases hk : m.visitCounts.lookup k with
  | some visits => exact h.hit hk l
  | none =>
    obtain ⟨m', l', hok, hfiled, hnone, hlt, hroom⟩ := h.makeRoom hr hc hk l
    have hnot {m : LfuCacheManager α} (hk : m.visitCounts.lookup k = none) : k ∉ resident m := by
      rw [mem_resident, hk]
      simp
    refine ⟨enlist k 1 m', onLoad k l', ?_, ⟨hfiled.enlist hnone 1, ?_⟩, ?_⟩
    · simp only [LfuCacheManager.visit, hk, hok, Java.ok_bind, hr.load]
    · rw [resident_enlist, Finset.card_insert_of_notMem (hnot hnone)]
      exact hlt
    · rw [resident_enlist]
      exact .miss (hnot hk) hroom

theorem sound_initial (hc : 0 ≤ config.maxNodes.val) : Sound config (initial (α := α)) := by
  refine ⟨⟨?_, ?_⟩, hc⟩
  · intro k visits
    simp [initial, counted]
  · intro visits queue hqueue
    simp [initial] at hqueue

theorem protocol (config : LfuConfiguration) (hc : 1 ≤ config.maxNodes.val) :
    Protocol (manager config (α := α)) config.maxNodes.val (Sound config) VisitsOrClears
      (fun settle => settle = fun _ m => m) where
  initial := sound_initial (by omega)
  visit hr hs _ k l h _ := h.visit (hs ▸ hr) hc k l
  remove _ hcall := hcall.elim
  clear _ := ⟨sound_initial (by omega), rfl⟩
  size h := ⟨h.cacheSize_eq, h.cacheSize_eq.trans_le h.held_le⟩

end Visits

end LfuCacheManager

end CachePolicies
