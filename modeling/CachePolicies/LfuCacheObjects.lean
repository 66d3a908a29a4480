import CachePolicies.LfuCaches

/-!
# Several least frequently used caches

The map and the capacity of `LFUCache` are static, so that all objects of the class share one
map, and each constructor changes the capacity of all of them. The objects keep apart only as long
as nothing is added while there are two of them.
-/

namespace CachePolicies

namespace LFUCache

/-- The construction of an object, or a call on one. -/
inductive ObjectCall
  | construct (object : ℕ) (initialCapacity : JavaInt)
  | addCacheEntry (object : ℕ) (key : ℤ) (data : JavaString)
  | getCacheEntry (object : ℕ) (key : ℤ)

namespace ObjectCall

def object : ObjectCall → ℕ
  | .construct object _ => object
  | .addCacheEntry object _ _ => object
  | .getCacheEntry object _ => object

def isAdd : ObjectCall → Bool
  | .addCacheEntry _ _ _ => true
  | _ => false

end ObjectCall

/-- What a call on an object does to the static fields, and what it returns. -/
def performOn (c : LFUCache) : ObjectCall → LFUCache × Option JavaString
  | .construct _ initialCapacity => (c.new initialCapacity, none)
  | .addCacheEntry _ key data => (c.addCacheEntry key data, none)
  | .getCacheEntry _ key => ((c.getCacheEntry key).2, (c.getCacheEntry key).1)

/-- The static fields beside the calls made so far, the latest first. -/
def recording (t : List ObjectCall × LFUCache) (call : ObjectCall) :
    Java ((List ObjectCall × LFUCache) × Option JavaString) :=
  .ok ((call :: t.1, (t.2.performOn call).1), (t.2.performOn call).2)

/-! ## Objects that keep apart -/

/-- The static fields after some calls, the latest of which comes first. -/
def staticsAfter : List ObjectCall → LFUCache
  | [] => initial
  | call :: calls => ((staticsAfter calls).performOn call).1

/-- The objects constructed so far, with their capacities. -/
def capacities : List ObjectCall → List (ℕ × ℤ)
  | [] => []
  | .construct object initialCapacity :: calls =>
    (object, initialCapacity.val) :: capacities calls
  | _ :: calls => capacities calls

/-- The object through which a key was last added. -/
def lastAdder (key : ℤ) : List ObjectCall → Option ℕ
  | [] => none
  | .addCacheEntry object key' _ :: calls => if key' = key then some object else lastAdder key calls
  | _ :: calls => lastAdder key calls

/-- The number of entries held on behalf of an object. -/
def heldFor (object : ℕ) (t : List ObjectCall × LFUCache) : ℕ :=
  t.2.cacheMap.entries.countP fun e => lastAdder e.1 t.1 = some object

/-- A choice of calls that has all those on one object and none of those on the others, of which
only the constructions may be left. -/
structure Isolates (object : ℕ) (keep : ObjectCall → Bool) : Prop where
  own : ∀ call, call.object = object → keep call = true
  adds : ∀ other key data, other ≠ object → keep (.addCacheEntry other key data) = false
  gets : ∀ other key, other ≠ object → keep (.getCacheEntry other key) = false

/-- The object would give this result for the key if there had been no calls on the others. -/
def SameAlone (calls : List ObjectCall) (object : ℕ) (key : ℤ) (result : Option JavaString) :
    Prop :=
  ∀ keep, Isolates object keep →
    result = ((staticsAfter (calls.filter keep)).getCacheEntry key).1

/-- No object holds more than its capacity, and any key that it could be asked for is answered as
if the others had not been used. -/
structure KeptApart (t : List ObjectCall × LFUCache) : Prop where
  bounded : ∀ o ∈ capacities t.1, (heldFor o.1 t : ℤ) ≤ o.2
  alone : ∀ o ∈ capacities t.1, ∀ key, SameAlone t.1 o.1 key (t.2.getCacheEntry key).1

/-- A call that returns what it would alone, and leaves the objects apart. -/
structure KeepsApart (r : Record (List ObjectCall × LFUCache) ObjectCall (Option JavaString)) :
    Prop where
  result : ∀ object key, r.call = .getCacheEntry object key →
    SameAlone r.before.1 object key r.output
  after : KeptApart r.after

/-- The call constructs a new object of a positive capacity, or is on one that there is. -/
def OnObject (t : List ObjectCall × LFUCache) : ObjectCall → Prop
  | .construct object initialCapacity =>
    object ∉ (capacities t.1).map Prod.fst ∧ 1 ≤ initialCapacity.val
  | .addCacheEntry object _ _ => object ∈ (capacities t.1).map Prod.fst
  | .getCacheEntry object _ => object ∈ (capacities t.1).map Prod.fst

/-- A full map has something to give up for the key: its own entry, the one which is removed when
no frequency is below the largest `int`, or one of a smaller frequency. -/
def HasRoom (key : ℤ) (c : LFUCache) : Prop :=
  c.isFull = true → c.cacheMap.containsKey key = true ∨ c.cacheMap.containsKey 0 = true ∨
    ∃ e ∈ c.cacheMap.entries, e.2.frequency < 2147483647

/-- Nothing has been added when an object is constructed, and there is no other object when
something is. -/
def UsesOneObject (t : List ObjectCall × LFUCache) : ObjectCall → Prop
  | .construct _ _ => t.2.cacheMap.entries = []
  | .addCacheEntry object key _ => (∀ o ∈ capacities t.1, o.1 = object) ∧ HasRoom key t.2
  | .getCacheEntry _ _ => True

instance (key : ℤ) (c : LFUCache) : Decidable (HasRoom key c) :=
  inferInstanceAs (Decidable (_ → _ ∨ _ ∨ _))

instance (t : List ObjectCall × LFUCache) : ∀ call, Decidable (OnObject t call)
  | .construct _ _ => inferInstanceAs (Decidable (_ ∧ _))
  | .addCacheEntry object _ _ => inferInstanceAs (Decidable (object ∈ _))
  | .getCacheEntry object _ => inferInstanceAs (Decidable (object ∈ _))

instance (t : List ObjectCall × LFUCache) : ∀ call, Decidable (UsesOneObject t call)
  | .construct _ _ => inferInstanceAs (Decidable (_ = _))
  | .addCacheEntry _ _ _ => inferInstanceAs (Decidable (_ ∧ _))
  | .getCacheEntry _ _ => .isTrue trivial

/-! ## The size of the map -/

variable {c : LFUCache} {key : ℤ} {data : JavaString} {capacity : ℤ}

/-- The map with the place that an addition takes. -/
def freed (c : LFUCache) : LinkedHashMap ℤ CacheEntry :=
  if c.isFull then c.cacheMap.remove c.getLFUKey else c.cacheMap

theorem addCacheEntry_eq (c : LFUCache) (key : ℤ) (data : JavaString) :
    c.addCacheEntry key data = { c with cacheMap := c.freed.insert key ⟨data, 0⟩ } := by
  rw [addCacheEntry, freed]
  cases c.isFull <;> rfl

theorem mem_addCacheEntry {e : ℤ × CacheEntry}
    (he : e ∈ (c.addCacheEntry key data).cacheMap.entries) :
    e = (key, ⟨data, 0⟩) ∨ e ∈ c.cacheMap.entries ∧ e.1 ≠ key := by
  rw [addCacheEntry_eq, LinkedHashMap.mem_insert, LinkedHashMap.mem_remove] at he
  refine he.imp_right fun hmem => ⟨?_, hmem.2⟩
  have hfreed := hmem.1
  rw [freed] at hfreed
  split at hfreed
  · exact (LinkedHashMap.mem_remove.mp hfreed).1
  · exact hfreed

theorem get_addCacheEntry (c : LFUCache) (key : ℤ) (data : JavaString) :
    ((c.addCacheEntry key data).getCacheEntry key).1 = some data := by
  have hget : (c.addCacheEntry key data).cacheMap.get key = some ⟨data, 0⟩ := by
    rw [addCacheEntry_eq, LinkedHashMap.get_eq_some_iff]
    exact LinkedHashMap.mem_insert_self ..
  rw [getCacheEntry, hget]

/-- The size of the map that has room for a key remains within the capacity, and no other. -/
theorem length_addCacheEntry_le_iff (hc : c.initialCapacity = capacity)
    (hle : c.cacheMap.entries.length ≤ capacity) (hmax : capacity ≤ 2147483647)
    (data : JavaString) :
    (c.addCacheEntry key data).cacheMap.entries.length ≤ capacity ↔ HasRoom key c := by
  have hsize : c.isFull = true ↔ c.cacheMap.entries.length = capacity := by
    rw [isFull, decide_eq_true_eq, hc, LinkedHashMap.size]
    omega
  have hremoved (m : LinkedHashMap ℤ CacheEntry) :
      (m.remove key).entries.length ≤ m.entries.length := List.length_filter_le _ _
  rw [addCacheEntry_eq, LinkedHashMap.length_insert, freed, HasRoom]
  cases hfull : c.isFull with
  | false =>
    have hlength : ¬(c.cacheMap.entries.length : ℤ) = capacity := by
      rw [← hsize, hfull]
      simp
    have hle' := hremoved c.cacheMap
    exact iff_of_true (by rw [if_neg (by simp)]; omega) (by simp)
  | true =>
    have hlength := hsize.mp hfull
    rw [if_pos rfl, imp_iff_right rfl]
    cases hheld : c.cacheMap.containsKey c.getLFUKey with
    | true =>
      have hle' := hremoved (c.cacheMap.remove c.getLFUKey)
      have hone := LinkedHashMap.length_remove hheld
      refine iff_of_true (by omega) ?_
      rcases c.getLFUKey_cases with ⟨-, hzero⟩ | ⟨e, he, hlt, -⟩
      · rw [hzero] at hheld
        exact .inr (.inl hheld)
      · exact .inr (.inr ⟨e, mem_of_leastFrequent he, hlt⟩)
    | false =>
      -- nothing is removed, as no frequency is below the largest `int`
      rcases c.getLFUKey_cases with ⟨hall, hzero⟩ | ⟨e, he, -, hkey⟩
      · rw [LinkedHashMap.remove_eq_self hheld]
        rw [hzero] at hheld
        cases hkey : c.cacheMap.containsKey key with
        | true =>
          have hone := LinkedHashMap.length_remove hkey
          exact iff_of_true (by omega) (.inl rfl)
        | false =>
          rw [LinkedHashMap.remove_eq_self hkey]
          refine iff_of_false (by omega) ?_
          rintro (hkey' | hzero' | ⟨e, he, hlt⟩)
          · cases hkey'
          · rw [hheld] at hzero'
            cases hzero'
          · exact absurd (hall e he) (by omega)
      · have hmem := LinkedHashMap.containsKey_iff.mpr ⟨e.2, mem_of_leastFrequent he⟩
        rw [hkey, hmem] at hheld
        cases hheld

theorem keys_getCacheEntry (key : ℤ) (c : LFUCache) :
    (c.getCacheEntry key).2.cacheMap.keys = c.cacheMap.keys := by
  have hheld := LinkedHashMap.isSome_get c.cacheMap key
  rw [getCacheEntry]
  cases hget : c.cacheMap.get key with
  | none => rfl
  | some temp =>
    rw [hget] at hheld
    exact LinkedHashMap.keys_insert_of_mem hheld.symm _

theorem getCacheEntry_of_empty (h : c.cacheMap.entries = []) (key : ℤ) :
    (c.getCacheEntry key).1 = none := by
  rw [getCacheEntry, LinkedHashMap.get, h]
  rfl

/-! ## Runs -/

variable {calls : List ObjectCall} {t : List ObjectCall × LFUCache} {object : ℕ}

theorem entries_eq_nil_iff {m m' : LinkedHashMap ℤ CacheEntry} (h : m.keys = m'.keys) :
    m.entries = [] ↔ m'.entries = [] := by
  rw [← List.length_eq_zero_iff, ← List.length_eq_zero_iff, ← LinkedHashMap.length_keys, h,
    LinkedHashMap.length_keys]

theorem staticsAfter_empty (h : ∀ call ∈ calls, call.isAdd = false) :
    (staticsAfter calls).cacheMap.entries = [] := by
  induction calls with
  | nil => rfl
  | cons call calls ih =>
    obtain ⟨hcall, hcalls⟩ := List.forall_mem_cons.mp h
    have hempty := ih hcalls
    cases call with
    | construct object initialCapacity => exact hempty
    | addCacheEntry object key data => cases hcall
    | getCacheEntry object key => exact (entries_eq_nil_iff (keys_getCacheEntry key _)).mpr hempty

/-- The choice of the calls on an object and nothing else. -/
theorem isolates_own (object : ℕ) : Isolates object fun call => decide (call.object = object) :=
  ⟨fun _ h => decide_eq_true h, fun _ _ _ h => decide_eq_false h, fun _ _ h => decide_eq_false h⟩

/-- An object which nothing was added to would find nothing alone. -/
theorem alone_none (h : ∀ call ∈ calls, call.isAdd = true → call.object ≠ object) {key : ℤ}
    {result : Option JavaString} (hsame : SameAlone calls object key result) : result = none := by
  rw [hsame _ (isolates_own object)]
  refine getCacheEntry_of_empty (staticsAfter_empty fun call hcall => ?_) key
  obtain ⟨hmem, hobject⟩ := List.mem_filter.mp hcall
  rw [← Bool.not_eq_true]
  exact fun hadd => h call hmem hadd (of_decide_eq_true hobject)

/-- The objects have positive capacities, and share their map with no other object once something
is in it. -/
structure Shared (t : List ObjectCall × LFUCache) : Prop where
  statics : t.2 = staticsAfter t.1
  nodup : ((capacities t.1).map Prod.fst).Nodup
  bounds : ∀ o ∈ capacities t.1, 1 ≤ o.2 ∧ o.2 ≤ 2147483647
  latest : ∀ o rest, capacities t.1 = o :: rest → t.2.initialCapacity = o.2
  known : ∀ call ∈ t.1, call.object ∈ (capacities t.1).map Prod.fst
  added : ∀ key ∈ t.2.cacheMap.keys, ∃ object ∈ (capacities t.1).map Prod.fst,
    lastAdder key t.1 = some object
  unadded : t.2.cacheMap.entries = [] → ∀ call ∈ t.1, call.isAdd = false
  fits : t.2.cacheMap.entries = [] ∨
    ∃ o, capacities t.1 = [o] ∧ t.2.cacheMap.entries.length ≤ o.2

theorem Shared.keptApart (h : Shared t) : KeptApart t := by
  rcases h.fits with hempty | ⟨o, ho, hle⟩
  · refine ⟨fun o ho => ?_, fun o ho key keep hkeep => ?_⟩
    · have hone := (h.bounds o ho).1
      rw [heldFor, hempty, List.countP_nil]
      omega
    · rw [getCacheEntry_of_empty hempty]
      refine (getCacheEntry_of_empty (staticsAfter_empty fun call hcall => ?_) key).symm
      exact h.unadded hempty call (List.mem_filter.mp hcall).1
  · have hall : ∀ call ∈ t.1, call.object = o.1 := by
      intro call hcall
      have hknown := h.known call hcall
      rw [ho, List.map_singleton, List.mem_singleton] at hknown
      exact hknown
    refine ⟨fun o' ho' => ?_, fun o' ho' key keep hkeep => ?_⟩
    · have hcount := List.countP_le_length
        (p := fun e : ℤ × CacheEntry => decide (lastAdder e.1 t.1 = some o'.1))
        (l := t.2.cacheMap.entries)
      rw [ho, List.mem_singleton] at ho'
      rw [heldFor, ho'] at *
      omega
    · rw [ho, List.mem_singleton] at ho'
      have hfilter : t.1.filter keep = t.1 :=
        List.filter_eq_self.mpr fun call hcall => hkeep.own call (by rw [hall call hcall, ho'])
      rw [hfilter, ← h.statics]

/-- An object is the only one if there is no other number. -/
theorem eq_singleton_of_forall {objects : List (ℕ × ℤ)} (hnodup : (objects.map Prod.fst).Nodup)
    (hmem : object ∈ objects.map Prod.fst) (hall : ∀ o ∈ objects, o.1 = object) :
    ∃ o, objects = [o] ∧ o.1 = object := by
  match objects with
  | [] => cases hmem
  | [o] => exact ⟨o, rfl, hall o (List.mem_singleton_self o)⟩
  | o :: o' :: rest =>
    have hne : o.1 ≠ o'.1 := by
      rw [List.map_cons, List.nodup_cons] at hnodup
      exact fun heq => hnodup.1 (heq ▸ List.mem_map_of_mem (List.mem_cons_self ..))
    exact absurd ((hall o (by simp)).trans (hall o' (by simp)).symm) hne

/-! ### Constructions -/

theorem Shared.construct (h : Shared t) {initialCapacity : JavaInt}
    (hon : OnObject t (.construct object initialCapacity))
    (hempty : t.2.cacheMap.entries = []) :
    Shared (.construct object initialCapacity :: t.1, t.2.new initialCapacity) := by
  obtain ⟨hfresh, hone⟩ := hon
  refine ⟨?_, List.nodup_cons.mpr ⟨hfresh, h.nodup⟩, ?_, ?_, ?_, ?_, fun _ => ?_, .inl hempty⟩
  · rw [staticsAfter, performOn, h.statics]
  · exact List.forall_mem_cons.mpr ⟨⟨hone, initialCapacity.property.2⟩, h.bounds⟩
  · rintro o rest ⟨⟩
    rfl
  · refine List.forall_mem_cons.mpr ⟨List.mem_cons_self .., fun call hcall => ?_⟩
    exact List.mem_cons_of_mem _ (h.known call hcall)
  · intro key hkey
    rw [LinkedHashMap.keys] at hkey
    rw [new, hempty] at hkey
    cases hkey
  · exact List.forall_mem_cons.mpr ⟨rfl, h.unadded hempty⟩

/-- A second object finds what was added to the first. -/
theorem Shared.entries_eq_nil (h : Shared t) {initialCapacity : JavaInt}
    (hon : OnObject t (.construct object initialCapacity))
    (hapart : KeptApart (.construct object initialCapacity :: t.1, t.2.new initialCapacity)) :
    t.2.cacheMap.entries = [] := by
  by_contra hne
  obtain ⟨o, ho, -⟩ := h.fits.resolve_left hne
  obtain ⟨e, he⟩ := List.exists_mem_of_ne_nil _ hne
  have hother : object ≠ o.1 := by
    have hfresh := hon.1
    rw [ho, List.map_singleton, List.mem_singleton] at hfresh
    exact hfresh
  have halone := hapart.alone (object, initialCapacity.val) (List.mem_cons_self ..) e.1
  have hget : ((t.2.new initialCapacity).getCacheEntry e.1).1 = some e.2.data := by
    have hfound : (t.2.new initialCapacity).cacheMap.get e.1 = some e.2 :=
      LinkedHashMap.get_eq_some_iff.mpr he
    rw [getCacheEntry, hfound]
  have hnone := alone_none (fun call hcall hadd => ?_) halone
  · rw [hget] at hnone
    cases hnone
  · rcases List.mem_cons.mp hcall with rfl | hcall
    · cases hadd
    · have hknown := h.known call hcall
      rw [ho, List.map_singleton, List.mem_singleton] at hknown
      rw [hknown]
      exact hother.symm

/-! ### Additions -/

/-- The map of a single object is within its capacity. -/
theorem Shared.length_le (h : Shared t) {o : ℕ × ℤ} (ho : capacities t.1 = [o]) :
    t.2.cacheMap.entries.length ≤ o.2 ∧ o.2 ≤ 2147483647 := by
  have hbounds := h.bounds o (by simp [ho])
  refine ⟨?_, hbounds.2⟩
  rcases h.fits with hempty | ⟨o', ho', hle⟩
  · rw [hempty, List.length_nil]
    omega
  · rw [ho, List.singleton_inj] at ho'
    rw [ho']
    exact hle

theorem lastAdder_addCacheEntry_of_ne {key' : ℤ} (hne : key' ≠ key) (object : ℕ)
    (data : JavaString) (calls : List ObjectCall) :
    lastAdder key' (.addCacheEntry object key data :: calls) = lastAdder key' calls := by
  rw [lastAdder, if_neg fun heq => hne heq.symm]

theorem Shared.addCacheEntry (h : Shared t) (hon : OnObject t (.addCacheEntry object key data))
    (hall : ∀ o ∈ capacities t.1, o.1 = object) (hroom : HasRoom key t.2) :
    Shared (.addCacheEntry object key data :: t.1, t.2.addCacheEntry key data) := by
  obtain ⟨o, ho, rfl⟩ := eq_singleton_of_forall h.nodup hon hall
  have hcapacity := h.latest o [] ho
  obtain ⟨hle, hmax⟩ := h.length_le ho
  have hmem : (key, (⟨data, 0⟩ : CacheEntry)) ∈
      (t.2.addCacheEntry key data).cacheMap.entries := by
    rw [addCacheEntry_eq]
    exact LinkedHashMap.mem_insert_self ..
  refine ⟨?_, h.nodup, h.bounds, fun o' rest ho' => ?_, ?_, fun key' hkey' => ?_, fun hempty => ?_,
    .inr ⟨o, ho, (length_addCacheEntry_le_iff hcapacity hle hmax data).mpr hroom⟩⟩
  · rw [staticsAfter, performOn, h.statics]
  · rw [addCacheEntry_eq]
    exact h.latest o' rest ho'
  · exact List.forall_mem_cons.mpr ⟨hon, h.known⟩
  · obtain ⟨e, he, rfl⟩ := List.mem_map.mp hkey'
    rcases mem_addCacheEntry he with rfl | ⟨he, hne⟩
    · exact ⟨o.1, hon, if_pos rfl⟩
    · obtain ⟨adder, hadder, hlast⟩ := h.added e.1 (List.mem_map_of_mem he)
      exact ⟨adder, hadder, (lastAdder_addCacheEntry_of_ne hne ..).trans hlast⟩
  · rw [hempty] at hmem
    cases hmem

/-- Another object finds what is added, and an object without room is given too much. -/
theorem Shared.usesOneObject (h : Shared t) (hon : OnObject t (.addCacheEntry object key data))
    (hapart : KeptApart (.addCacheEntry object key data :: t.1, t.2.addCacheEntry key data)) :
    (∀ o ∈ capacities t.1, o.1 = object) ∧ HasRoom key t.2 := by
  have hall : ∀ o ∈ capacities t.1, o.1 = object := by
    intro o ho
    by_contra hother
    have hnone := alone_none (fun call hcall hadd => ?_) (hapart.alone o ho key)
    · rw [get_addCacheEntry] at hnone
      cases hnone
    · rcases List.mem_cons.mp hcall with rfl | hcall
      · exact fun heq => hother heq.symm
      · rcases h.fits with hempty | ⟨o', ho', -⟩
        · rw [h.unadded hempty call hcall] at hadd
          cases hadd
        · rw [OnObject, ho', List.map_singleton, List.mem_singleton] at hon
          rw [ho', List.mem_singleton] at ho
          rw [hon, ho] at hother
          exact absurd rfl hother
  refine ⟨hall, ?_⟩
  obtain ⟨o, ho, rfl⟩ := eq_singleton_of_forall h.nodup hon hall
  have hcapacity := h.latest o [] ho
  obtain ⟨hle, hmax⟩ := h.length_le ho
  refine (length_addCacheEntry_le_iff hcapacity hle hmax data).mp ?_
  have hheld : heldFor o.1 (.addCacheEntry o.1 key data :: t.1, t.2.addCacheEntry key data) =
      (t.2.addCacheEntry key data).cacheMap.entries.length := by
    refine List.countP_eq_length.mpr fun e he => decide_eq_true ?_
    rcases mem_addCacheEntry he with rfl | ⟨he, hne⟩
    · exact if_pos rfl
    · obtain ⟨adder, hadder, hlast⟩ := h.added e.1 (List.mem_map_of_mem he)
      rw [ho, List.map_singleton, List.mem_singleton] at hadder
      rw [lastAdder_addCacheEntry_of_ne hne, hlast, hadder]
  have hbounded := hapart.bounded o (show o ∈ capacities t.1 by simp [ho])
  rwa [hheld] at hbounded

/-! ### Lookups -/

theorem Shared.getCacheEntry (h : Shared t) (hon : OnObject t (.getCacheEntry object key)) :
    Shared (.getCacheEntry object key :: t.1, (t.2.getCacheEntry key).2) := by
  have hkeys := keys_getCacheEntry key t.2
  have hcapacity : (t.2.getCacheEntry key).2.initialCapacity = t.2.initialCapacity := by
    rw [LFUCache.getCacheEntry]
    split <;> rfl
  have hlength : (t.2.getCacheEntry key).2.cacheMap.entries.length =
      t.2.cacheMap.entries.length := by
    rw [← LinkedHashMap.length_keys, hkeys, LinkedHashMap.length_keys]
  refine ⟨?_, h.nodup, h.bounds, fun o rest ho => hcapacity.trans (h.latest o rest ho), ?_,
    fun key' hkey' => h.added key' (hkeys ▸ hkey'), fun hempty => ?_, ?_⟩
  · rw [staticsAfter, performOn, h.statics]
  · exact List.forall_mem_cons.mpr ⟨hon, h.known⟩
  · exact List.forall_mem_cons.mpr ⟨rfl, h.unadded ((entries_eq_nil_iff hkeys).mp hempty)⟩
  · rw [hlength, entries_eq_nil_iff hkeys]
    exact h.fits

/-- The calls that keep the objects apart are those that use one object. -/
theorem Shared.recording (h : Shared t) {call : ObjectCall} (hon : OnObject t call) :
    ∃ t' o, LFUCache.recording t call = .ok (t', o) ∧ (UsesOneObject t call → Shared t') ∧
      (KeepsApart ⟨t, call, o, t'⟩ ↔ UsesOneObject t call) := by
  have hgood {t' : List ObjectCall × LFUCache} {o : Option JavaString} (hshared : Shared t')
      (hresult : ∀ object key, call = .getCacheEntry object key →
        SameAlone t.1 object key o) : KeepsApart ⟨t, call, o, t'⟩ :=
    ⟨hresult, hshared.keptApart⟩
  refine ⟨_, _, rfl, ?_⟩
  cases call with
  | construct object initialCapacity =>
    refine ⟨h.construct hon, fun hapart => h.entries_eq_nil hon hapart.after, fun hempty => ?_⟩
    exact hgood (h.construct hon hempty) nofun
  | addCacheEntry object key data =>
    refine ⟨fun hone => h.addCacheEntry hon hone.1 hone.2,
      fun hapart => h.usesOneObject hon hapart.after, fun hone => ?_⟩
    exact hgood (h.addCacheEntry hon hone.1 hone.2) nofun
  | getCacheEntry object key =>
    refine ⟨fun _ => h.getCacheEntry hon, iff_of_true (hgood (h.getCacheEntry hon) ?_) trivial⟩
    rintro _ _ ⟨⟩
    obtain ⟨o, ho, rfl⟩ := List.mem_map.mp hon
    exact h.keptApart.alone o ho key

theorem shared_initial : Shared ([], initial) := by
  refine ⟨rfl, List.nodup_nil, ?_, ?_, ?_, ?_, ?_, .inl rfl⟩
  · exact fun o ho => absurd ho List.not_mem_nil
  · exact fun o rest ho => absurd ho (List.cons_ne_nil o rest).symm
  · exact fun call hcall => absurd hcall List.not_mem_nil
  · exact fun key hkey => absurd hkey List.not_mem_nil
  · exact fun _ call hcall => absurd hcall List.not_mem_nil

/-- The objects of a program keep to their capacities and answer as if each were alone exactly if
at most one of them is used, and what is added to it finds room. -/
theorem keepsApart_iff (calls : List ObjectCall)
    (hon : Admitted LFUCache.recording OnObject ([], initial) calls) :
    Succeeds LFUCache.recording KeepsApart ([], initial) calls ↔
      Admitted LFUCache.recording UsesOneObject ([], initial) calls := by
  refine succeeds_iff_of_step (fun t call h hon => ?_) shared_initial hon
  exact h.recording hon

/-- One object, which gives up the key `5` for the key `6`. -/
theorem keepsApart_oneObject :
    Succeeds LFUCache.recording KeepsApart ([], initial)
      [.construct 0 1, .addCacheEntry 0 5 ['a'], .addCacheEntry 0 6 ['b'], .getCacheEntry 0 5] :=
  (keepsApart_iff _ (by decide)).mpr (by decide)

/-- The capacity of the second object is that of the first as well, which holds two entries. -/
theorem not_keepsApart_twoObjects :
    ¬ Succeeds LFUCache.recording KeepsApart ([], initial)
      [.construct 0 1, .construct 1 2, .addCacheEntry 0 5 ['a'], .addCacheEntry 0 6 ['b']] := by
  rintro ⟨t₁, _, hok₁, -, t₂, _, hok₂, -, t₃, _, hok₃, -, t₄, _, hok₄, hgood, -⟩
  cases hok₁
  cases hok₂
  cases hok₃
  cases hok₄
  exact absurd (hgood.after.bounded (0, 1) (by decide)) (by decide)

end LFUCache

end CachePolicies
