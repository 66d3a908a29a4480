import CachePolicies.JavaStrings
import CachePolicies.LinkedHashMaps
import CachePolicies.PartialRuns

/-!
# The least frequently used cache

`LFUCache` keeps its entries in insertion order, each with the number of its hits, and looks for
the first one of the smallest number when it is full. It does so for every key that is added,
also for one that it holds, and the entry which has to go need not be that of the key.
-/

namespace CachePolicies

/-- The class `CacheEntry`, with data that is not `null`. -/
structure CacheEntry where
  data : JavaString
  frequency : ℤ
  deriving DecidableEq

/-- The class `LFUCache`, whose fields are static. -/
structure LFUCache where
  initialCapacity : ℤ
  cacheMap : LinkedHashMap ℤ CacheEntry

namespace LFUCache

/-- The static fields before any constructor has run. -/
def initial : LFUCache := ⟨10, .empty⟩

/-- The constructor, which leaves the map alone. -/
def new (initialCapacity : JavaInt) (c : LFUCache) : LFUCache :=
  { c with initialCapacity := initialCapacity.val }

/-- The body of the loop in `getLFUKey`, with the key and the frequency found so far. -/
def leastSoFar (best : ℤ × ℤ) (entry : ℤ × CacheEntry) : ℤ × ℤ :=
  if best.2 > entry.2.frequency then (entry.1, entry.2.frequency) else best

def getLFUKey (c : LFUCache) : ℤ := (c.cacheMap.entries.foldl leastSoFar (0, 2147483647)).1

def isFull (c : LFUCache) : Bool := c.cacheMap.size = c.initialCapacity

def addCacheEntry (key : ℤ) (data : JavaString) (c : LFUCache) : LFUCache :=
  if !c.isFull then { c with cacheMap := c.cacheMap.insert key ⟨data, 0⟩ }
  else
    let entryKeyToBeRemoved := c.getLFUKey
    { c with cacheMap := (c.cacheMap.remove entryKeyToBeRemoved).insert key ⟨data, 0⟩ }

/-- `getCacheEntry`: the data of the key or `null`, and the cache it leaves. -/
def getCacheEntry (key : ℤ) (c : LFUCache) : Option JavaString × LFUCache :=
  match c.cacheMap.get key with
  | none => (none, c)
  | some temp => (some temp.data,
      { c with cacheMap := c.cacheMap.insert key { temp with
          frequency := int32 (temp.frequency + 1) } })

inductive EntryCall
  | addCacheEntry (key : ℤ) (data : JavaString)
  | getCacheEntry (key : ℤ)

def EntryCall.isGet : EntryCall → Bool
  | .addCacheEntry _ _ => false
  | .getCacheEntry _ => true

/-- A call, and what it returns. -/
def perform (c : LFUCache) : EntryCall → LFUCache × Option JavaString
  | .addCacheEntry key data => (c.addCacheEntry key data, none)
  | .getCacheEntry key => ((c.getCacheEntry key).2, (c.getCacheEntry key).1)

/-- A cache beside the calls made so far, the latest first. -/
def noting (t : List EntryCall × LFUCache) (call : EntryCall) :
    Java ((List EntryCall × LFUCache) × Option JavaString) :=
  .ok ((call :: t.1, (t.2.perform call).1), (t.2.perform call).2)

/-! ## A map that evicts by frequency -/

/-- The data last added for a key. -/
def lastAdded (key : ℤ) : List EntryCall → Option JavaString
  | [] => none
  | .addCacheEntry key' data :: calls => if key' = key then some data else lastAdded key calls
  | .getCacheEntry _ :: calls => lastAdded key calls

/-- The number of calls that asked for a key after it was last added. -/
def hitsSinceAdded (key : ℤ) : List EntryCall → ℕ
  | [] => 0
  | .addCacheEntry key' _ :: calls => if key' = key then 0 else hitsSinceAdded key calls
  | .getCacheEntry key' :: calls => hitsSinceAdded key calls + if key' = key then 1 else 0

/-- Each entry has the data last added for its key, and the number of hits since. -/
def Tracks (calls : List EntryCall) (m : LinkedHashMap ℤ CacheEntry) : Prop :=
  ∀ e ∈ m.entries, lastAdded e.1 calls = some e.2.data ∧
    (hitsSinceAdded e.1 calls : ℤ) = e.2.frequency

/-- The oldest of the entries of minimal frequency. -/
def leastFrequent (m : LinkedHashMap ℤ CacheEntry) : Option (ℤ × CacheEntry) :=
  m.entries.find? fun e => ∀ x ∈ m.entries, e.2.frequency ≤ x.2.frequency

/-- A call on a map of capacity `c` which gives up a key only for an absent one that needs its
place. -/
structure EvictsByFrequency (c : ℤ)
    (r : Record (List EntryCall × LFUCache) EntryCall (Option JavaString)) : Prop where
  size : r.after.2.cacheMap.entries.length ≤ c
  stores : ∀ key data, r.call = .addCacheEntry key data →
    r.after.2.cacheMap.get key = some ⟨data, 0⟩
  present : ∀ key data, r.call = .addCacheEntry key data →
    r.before.2.cacheMap.containsKey key = true →
    r.after.2.cacheMap.remove key = r.before.2.cacheMap.remove key
  absent : ∀ key data, r.call = .addCacheEntry key data →
    r.before.2.cacheMap.containsKey key = false →
    r.before.2.cacheMap.entries.length < c ∧
        r.after.2.cacheMap.remove key = r.before.2.cacheMap ∨
      r.before.2.cacheMap.entries.length = c ∧ ∃ e, leastFrequent r.before.2.cacheMap = some e ∧
        r.after.2.cacheMap.remove key = r.before.2.cacheMap.remove e.1
  result : ∀ key, r.call = .getCacheEntry key →
    r.output = (if r.before.2.cacheMap.containsKey key then lastAdded key r.before.1 else none) ∧
      r.after.2.cacheMap.keys = r.before.2.cacheMap.keys ∧
      r.after.2.cacheMap.remove key = r.before.2.cacheMap.remove key
  tracks : Tracks r.after.1 r.after.2.cacheMap

/-- A key that is held is added to a full map only if its own entry is the one to go. -/
def ReaddsLeastFrequent (c : ℤ) (t : List EntryCall × LFUCache) : EntryCall → Prop
  | .addCacheEntry key _ => t.2.cacheMap.containsKey key = true →
      t.2.cacheMap.entries.length = c → (leastFrequent t.2.cacheMap).map Prod.fst = some key
  | .getCacheEntry _ => True

instance (c : ℤ) (t : List EntryCall × LFUCache) :
    ∀ call, Decidable (ReaddsLeastFrequent c t call)
  | .addCacheEntry _ _ => inferInstanceAs (Decidable (_ → _ → _))
  | .getCacheEntry _ => .isTrue trivial

/-! ## The search for the least frequent key -/

/-- The loop finds the first of the smallest frequencies, unless none is below the start. -/
theorem foldl_leastSoFar (entries : List (ℤ × CacheEntry)) (best : ℤ × ℤ) :
    ((∀ e ∈ entries, best.2 ≤ e.2.frequency) ∧ entries.foldl leastSoFar best = best) ∨
      ∃ older e newer, entries = older ++ e :: newer ∧
        entries.foldl leastSoFar best = (e.1, e.2.frequency) ∧ e.2.frequency < best.2 ∧
        (∀ x ∈ older, e.2.frequency < x.2.frequency) ∧
        ∀ x ∈ newer, e.2.frequency ≤ x.2.frequency := by
  induction entries generalizing best with
  | nil => exact .inl ⟨by simp, rfl⟩
  | cons a entries ih =>
    rw [List.foldl_cons, leastSoFar]
    split
    · next hlt =>
      right
      rcases ih (a.1, a.2.frequency) with ⟨hle, hfold⟩ | ⟨older, e, newer, rfl, hfold, he, ho, hn⟩
      · exact ⟨[], a, entries, rfl, hfold, hlt, by simp, hle⟩
      · refine ⟨a :: older, e, newer, rfl, hfold, by omega, ?_, hn⟩
        exact List.forall_mem_cons.mpr ⟨he, ho⟩
    · next hge =>
      rcases ih best with ⟨hle, hfold⟩ | ⟨older, e, newer, rfl, hfold, he, ho, hn⟩
      · exact .inl ⟨List.forall_mem_cons.mpr ⟨by omega, hle⟩, hfold⟩
      · refine .inr ⟨a :: older, e, newer, rfl, hfold, he, ?_, hn⟩
        exact List.forall_mem_cons.mpr ⟨by omega, ho⟩

/-- Where a frequency is below the largest `int`, the key is that of the least frequent entry. -/
theorem getLFUKey_cases (c : LFUCache) :
    ((∀ e ∈ c.cacheMap.entries, 2147483647 ≤ e.2.frequency) ∧ c.getLFUKey = 0) ∨
      ∃ e, leastFrequent c.cacheMap = some e ∧ e.2.frequency < 2147483647 ∧
        c.getLFUKey = e.1 := by
  rw [getLFUKey]
  rcases foldl_leastSoFar c.cacheMap.entries (0, 2147483647) with
    ⟨hle, hfold⟩ | ⟨older, e, newer, hentries, hfold, hlt, ho, hn⟩
  · exact .inl ⟨hle, by rw [hfold]⟩
  · refine .inr ⟨e, ?_, hlt, by rw [hfold]⟩
    rw [leastFrequent, List.find?_eq_some_iff_append]
    refine ⟨decide_eq_true ?_, older, newer, hentries, fun x hx => ?_⟩
    · rw [hentries]
      intro x hx
      rcases List.mem_append.mp hx with hx | hx
      · exact (ho x hx).le
      · rcases List.mem_cons.mp hx with rfl | hx
        · exact le_rfl
        · exact hn x hx
    · have hmem : e ∈ c.cacheMap.entries := by
        rw [hentries]
        exact List.mem_append_right _ (List.mem_cons_self ..)
      have hnot : ¬∀ y ∈ c.cacheMap.entries, x.2.frequency ≤ y.2.frequency :=
        fun hall => absurd (hall e hmem) (not_le.mpr (ho x hx))
      simp only [hnot, decide_false, Bool.not_false]

/-! ## Calls -/

theorem hitsSinceAdded_le (key : ℤ) (calls : List EntryCall) :
    hitsSinceAdded key calls ≤ calls.countP EntryCall.isGet := by
  induction calls with
  | nil => exact le_rfl
  | cons call calls ih =>
    rw [List.countP_cons]
    cases call with
    | addCacheEntry key' data =>
      rw [hitsSinceAdded]
      split <;> omega
    | getCacheEntry key' =>
      rw [hitsSinceAdded, EntryCall.isGet, if_pos rfl]
      split <;> omega

variable {calls : List EntryCall} {m m' : LinkedHashMap ℤ CacheEntry} {key : ℤ} {data : JavaString}
  {temp : CacheEntry}

theorem Tracks.addCacheEntry (h : Tracks calls m)
    (hentries : ∀ e ∈ m'.entries, e = (key, ⟨data, 0⟩) ∨ e ∈ m.entries ∧ e.1 ≠ key) :
    Tracks (.addCacheEntry key data :: calls) m' := by
  intro e he
  rcases hentries e he with rfl | ⟨hmem, hne⟩
  · rw [lastAdded, hitsSinceAdded, if_pos rfl, if_pos rfl]
    exact ⟨rfl, rfl⟩
  · rw [lastAdded, hitsSinceAdded, if_neg fun heq => hne heq.symm, if_neg fun heq => hne heq.symm]
    exact h e hmem

theorem Tracks.miss (h : Tracks calls m) (hkey : m.containsKey key = false) :
    Tracks (.getCacheEntry key :: calls) m := by
  intro e he
  have hne : key ≠ e.1 := by
    rintro rfl
    rw [LinkedHashMap.containsKey_iff.mpr ⟨e.2, he⟩] at hkey
    cases hkey
  rw [lastAdded, hitsSinceAdded, if_neg hne]
  exact h e he

theorem Tracks.hit (h : Tracks calls m) (hkey : m.get key = some temp) :
    Tracks (.getCacheEntry key :: calls)
      (m.insert key { temp with frequency := temp.frequency + 1 }) := by
  intro e he
  rcases LinkedHashMap.mem_insert.mp he with rfl | he
  · obtain ⟨hdata, hfrequency⟩ := h _ (LinkedHashMap.get_eq_some_iff.mp hkey)
    rw [lastAdded, hitsSinceAdded, if_pos rfl]
    refine ⟨hdata, ?_⟩
    push_cast
    rw [hfrequency]
  · obtain ⟨hmem, hne⟩ := LinkedHashMap.mem_remove.mp he
    rw [lastAdded, hitsSinceAdded, if_neg fun heq => hne heq.symm]
    exact h e hmem

/-- The only cache of a program, which has kept to its capacity. -/
structure Sole (c : ℤ) (t : List EntryCall × LFUCache) : Prop where
  initialCapacity : t.2.initialCapacity = c
  size : t.2.cacheMap.entries.length ≤ c
  tracks : Tracks t.1 t.2.cacheMap

/-- The call is one of fewer than `2^31 - 1` that ask for a key. -/
def FewGets (t : List EntryCall × LFUCache) (call : EntryCall) : Prop :=
  (call :: t.1).countP EntryCall.isGet < 2147483647

variable {c : ℤ} {t : List EntryCall × LFUCache}

theorem Sole.frequency_lt (h : Sole c t) {call : EntryCall} (hfew : FewGets t call)
    {e : ℤ × CacheEntry} (he : e ∈ t.2.cacheMap.entries) :
    0 ≤ e.2.frequency ∧ e.2.frequency < 2147483647 := by
  have hfrequency := (h.tracks e he).2
  have hhits := hitsSinceAdded_le e.1 t.1
  rw [FewGets, List.countP_cons] at hfew
  omega

theorem Sole.isFull_iff (h : Sole c t) (hc : c ≤ 2147483647) :
    t.2.isFull = true ↔ t.2.cacheMap.entries.length = c := by
  have hsize := h.size
  rw [isFull, decide_eq_true_eq, h.initialCapacity, LinkedHashMap.size]
  omega

/-- What an addition does to a map that is kept to its capacity. -/
inductive Added (c key : ℤ) (data : JavaString) (m : LinkedHashMap ℤ CacheEntry) :
    LinkedHashMap ℤ CacheEntry → Prop
  | room (hroom : m.entries.length < c) : Added c key data m (m.insert key ⟨data, 0⟩)
  | evicting {e : ℤ × CacheEntry} (hfull : m.entries.length = c) (he : leastFrequent m = some e) :
      Added c key data m ((m.remove e.1).insert key ⟨data, 0⟩)

theorem mem_of_leastFrequent {e : ℤ × CacheEntry} (he : leastFrequent m = some e) :
    e ∈ m.entries := List.mem_of_find?_eq_some he

theorem Sole.added (hc : 1 ≤ c ∧ c ≤ 2147483647) (h : Sole c t)
    (hfew : FewGets t (.addCacheEntry key data)) :
    ∃ m', t.2.addCacheEntry key data = ⟨c, m'⟩ ∧ Added c key data t.2.cacheMap m' := by
  have hsize := h.size
  have hcapacity := h.initialCapacity
  rw [LFUCache.addCacheEntry]
  by_cases hfull : t.2.isFull = true
  · have hlength := (h.isFull_iff hc.2).mp hfull
    rcases t.2.getLFUKey_cases with ⟨hle, -⟩ | ⟨e, he, -, hkey⟩
    · obtain ⟨e, he⟩ : ∃ e, e ∈ t.2.cacheMap.entries :=
        List.exists_mem_of_length_pos (by omega)
      have hlow := hle e he
      have hlt := (h.frequency_lt hfew he).2
      omega
    · refine ⟨_, ?_, .evicting hlength he⟩
      rw [hfull, hkey, hcapacity]
      rfl
  · have hlength : ¬(t.2.cacheMap.entries.length : ℤ) = c := fun hlength =>
      hfull ((h.isFull_iff hc.2).mpr hlength)
    rw [Bool.not_eq_true] at hfull
    refine ⟨_, ?_, .room (by omega)⟩
    rw [hfull, hcapacity]
    rfl

namespace Added

theorem length_le (h : Added c key data m m') : m'.entries.length ≤ c := by
  cases h with
  | room hroom =>
    have hremove := List.length_filter_le (fun e : ℤ × CacheEntry => decide (e.1 ≠ key)) m.entries
    rw [LinkedHashMap.length_insert, LinkedHashMap.entries_remove]
    omega
  | @evicting e hfull he =>
    have hremove := List.length_filter_le (fun e : ℤ × CacheEntry => decide (e.1 ≠ key))
      (m.remove e.1).entries
    have hheld : m.containsKey e.1 = true :=
      LinkedHashMap.containsKey_iff.mpr ⟨e.2, mem_of_leastFrequent he⟩
    have hlength := LinkedHashMap.length_remove hheld
    rw [LinkedHashMap.length_insert, LinkedHashMap.entries_remove]
    omega

theorem mem (h : Added c key data m m') :
    ∀ e ∈ m'.entries, e = (key, ⟨data, 0⟩) ∨ e ∈ m.entries ∧ e.1 ≠ key := by
  intro e he
  cases h with
  | room hroom =>
    rw [LinkedHashMap.mem_insert, LinkedHashMap.mem_remove] at he
    exact he
  | evicting hfull hleast =>
    rw [LinkedHashMap.mem_insert, LinkedHashMap.mem_remove, LinkedHashMap.mem_remove] at he
    exact he.imp_right fun hmem => ⟨hmem.1.1, hmem.2⟩

theorem get (h : Added c key data m m') : m'.get key = some ⟨data, 0⟩ := by
  rw [LinkedHashMap.get_eq_some_iff]
  cases h with
  | room hroom => exact LinkedHashMap.mem_insert_self ..
  | evicting hfull hleast => exact LinkedHashMap.mem_insert_self ..

/-- An absent key makes room for itself and changes nothing else. -/
theorem absent (h : Added c key data m m') (hkey : m.containsKey key = false) :
    m.entries.length < c ∧ m'.remove key = m ∨
      m.entries.length = c ∧ ∃ e, leastFrequent m = some e ∧ m'.remove key = m.remove e.1 := by
  cases h with
  | room hroom =>
    exact .inl ⟨hroom, by rw [LinkedHashMap.remove_insert, LinkedHashMap.remove_eq_self hkey]⟩
  | @evicting e hfull he =>
    refine .inr ⟨hfull, e, he, ?_⟩
    rw [LinkedHashMap.remove_insert, LinkedHashMap.remove_comm, LinkedHashMap.remove_eq_self hkey]

/-- A key that is held leaves the other entries alone unless another one has to go. -/
theorem present_iff (h : Added c key data m m') :
    m'.remove key = m.remove key ↔
      (m.entries.length = c → (leastFrequent m).map Prod.fst = some key) := by
  cases h with
  | room hroom =>
    exact iff_of_true (LinkedHashMap.remove_insert ..) fun hfull => absurd hfull (by omega)
  | @evicting e hfull he =>
    rw [LinkedHashMap.remove_insert, he, Option.map_some, Option.some_inj, imp_iff_right hfull]
    constructor
    · intro hsame
      by_contra hne
      have hmem : e ∈ (m.remove key).entries :=
        LinkedHashMap.mem_remove.mpr ⟨mem_of_leastFrequent he, hne⟩
      rw [← hsame, LinkedHashMap.remove_comm, LinkedHashMap.mem_remove] at hmem
      exact hmem.2 rfl
    · rintro rfl
      rw [LinkedHashMap.remove_remove]

end Added

/-- A call keeps to what is expected, unless it adds a key that another one has to make way for. -/
theorem Sole.noting (hc : 1 ≤ c ∧ c ≤ 2147483647) (h : Sole c t) {call : EntryCall}
    (hfew : FewGets t call) :
    ∃ t' o, LFUCache.noting t call = .ok (t', o) ∧ Sole c t' ∧
      (EvictsByFrequency c ⟨t, call, o, t'⟩ ↔ ReaddsLeastFrequent c t call) := by
  cases call with
  | addCacheEntry key data =>
    obtain ⟨m', hadd, hadded⟩ := h.added hc hfew
    have hsize := hadded.length_le
    have htracks := h.tracks.addCacheEntry hadded.mem
    refine ⟨(.addCacheEntry key data :: t.1, ⟨c, m'⟩), none, ?_, ⟨rfl, hsize, htracks⟩, ?_⟩
    · rw [LFUCache.noting, perform, hadd]
    · constructor
      · intro hgood hkey
        exact hadded.present_iff.mp (hgood.present key data rfl hkey)
      · intro hcondition
        refine ⟨hsize, ?_, ?_, ?_, nofun, htracks⟩
        · rintro _ _ ⟨⟩
          exact hadded.get
        · rintro _ _ ⟨⟩ hkey
          exact hadded.present_iff.mpr (hcondition hkey)
        · rintro _ _ ⟨⟩ hkey
          exact hadded.absent hkey
  | getCacheEntry key =>
    have hheld := LinkedHashMap.isSome_get t.2.cacheMap key
    refine ⟨_, _, rfl, ?_⟩
    rw [perform, getCacheEntry]
    cases hget : t.2.cacheMap.get key with
    | none =>
      rw [hget] at hheld
      have htracks := h.tracks.miss hheld.symm
      refine ⟨⟨h.initialCapacity, h.size, htracks⟩, iff_of_true ?_ trivial⟩
      refine ⟨h.size, nofun, nofun, nofun, ?_, htracks⟩
      rintro _ ⟨⟩
      exact ⟨by simp only [← hheld]; rfl, rfl, rfl⟩
    | some temp =>
      rw [hget] at hheld
      have hmem := LinkedHashMap.get_eq_some_iff.mp hget
      have hlt : 0 ≤ temp.frequency ∧ temp.frequency < 2147483647 := h.frequency_lt hfew hmem
      have hfrequency : int32 (temp.frequency + 1) = temp.frequency + 1 :=
        int32_of_isInt ⟨by omega, by omega⟩
      have htracks := h.tracks.hit hget
      rw [← hfrequency] at htracks
      have hkeys := LinkedHashMap.keys_insert_of_mem hheld.symm
        { temp with frequency := int32 (temp.frequency + 1) }
      have hsize := h.size
      rw [← LinkedHashMap.length_keys, ← hkeys, LinkedHashMap.length_keys] at hsize
      refine ⟨⟨h.initialCapacity, hsize, htracks⟩, iff_of_true ?_ trivial⟩
      refine ⟨hsize, nofun, nofun, nofun, ?_, htracks⟩
      rintro _ ⟨⟩
      refine ⟨?_, hkeys, LinkedHashMap.remove_insert ..⟩
      simp only [← hheld]
      exact (h.tracks _ hmem).1.symm

theorem admitted_fewGets {calls : List EntryCall}
    (hgets : (t.1.countP EntryCall.isGet + calls.countP EntryCall.isGet) < 2147483647) :
    Admitted LFUCache.noting FewGets t calls := by
  induction calls generalizing t with
  | nil => trivial
  | cons call calls ih =>
    rw [List.countP_cons] at hgets
    have hfew : (call :: t.1).countP EntryCall.isGet + calls.countP EntryCall.isGet < 2147483647 := by
      rw [List.countP_cons]
      omega
    refine ⟨by rw [FewGets]; omega, fun t' o hok => ih ?_⟩
    cases hok
    exact hfew

/-- A single cache of any capacity evicts by frequency, as long as fewer than `2^31 - 1` calls
ask for a key, exactly if no held key is added to it while it is full and another key is the
oldest of the least frequent ones. -/
theorem evictsByFrequency_iff (c : JavaInt) (hc : 1 ≤ c.val) (calls : List EntryCall)
    (hgets : calls.countP EntryCall.isGet < 2147483647) :
    Succeeds LFUCache.noting (EvictsByFrequency c.val) ([], new c initial) calls ↔
      Admitted LFUCache.noting (ReaddsLeastFrequent c.val) ([], new c initial) calls := by
  have hbounds : 1 ≤ c.val ∧ c.val ≤ 2147483647 := ⟨hc, c.property.2⟩
  have hsole : Sole c.val ([], new c initial) :=
    ⟨rfl, show ((0 : ℕ) : ℤ) ≤ c.val by omega, by simp [Tracks, new, initial, LinkedHashMap.empty]⟩
  have hfew : Admitted LFUCache.noting FewGets ([], new c initial) calls :=
    admitted_fewGets (by simpa using hgets)
  refine succeeds_iff_of_step (fun t call h hfew => ?_) hsole hfew
  obtain ⟨t', o, hok, h', hiff⟩ := h.noting hbounds hfew
  exact ⟨t', o, hok, fun _ => h', hiff⟩

/-- The held key `1` is added while it is the less frequent one, and `3` takes its place. -/
theorem evictsByFrequency_twoEntries :
    Succeeds LFUCache.noting (EvictsByFrequency 2) ([], new 2 initial)
      [.addCacheEntry 1 ['a'], .addCacheEntry 2 ['b'], .getCacheEntry 2, .addCacheEntry 1 ['c'],
        .addCacheEntry 3 ['d'], .getCacheEntry 1] :=
  (evictsByFrequency_iff 2 (by decide) _ (by decide)).mpr (by decide)

/-- The held key `2` is added to a full cache, which gives up the key `1` for it. -/
theorem not_evictsByFrequency_twoEntries :
    ¬ Succeeds LFUCache.noting (EvictsByFrequency 2) ([], new 2 initial)
      [.addCacheEntry 1 ['a'], .addCacheEntry 2 ['b'], .addCacheEntry 2 ['c']] := by
  rintro ⟨t₁, _, hok₁, -, t₂, _, hok₂, -, t₃, _, hok₃, hgood, -⟩
  cases hok₁
  cases hok₂
  cases hok₃
  exact absurd (hgood.present 2 ['c'] rfl (by decide)) (by decide)

end LFUCache

end CachePolicies
