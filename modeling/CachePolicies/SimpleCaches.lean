import CachePolicies.HashMaps
import CachePolicies.VisitProtocols

/-!
# A store driven by a policy

`SimpleCache` keeps values under the keys of its policy. It listens to the policy and
answers an eviction by `remove`, which calls back into the policy that is still busy with
its visit. A second listener watches the events.
-/

namespace CachePolicies

/-- What the listeners remember: the map `cache` and the events seen by the watcher. -/
abbrev StoreMemory (α V : Type) := HashMap α V × List (Event α)

/-- The calls of a client, who adds no null values. -/
inductive StoreCall (α V : Type)
  | add (key : α) (value : V)
  | get (key : α)
  | remove (key : α)

namespace SimpleCache

variable {α V : Type} [DecidableEq α]

section Methods

variable (policy : CacheManager α)

def remove (key : α) (w : policy.State × StoreMemory α V) :
    Java (policy.State × StoreMemory α V) := do
  let m ← policy.remove key w.1
  .ok (m, w.2.1.erase key, w.2.2)

/-- `SimpleListener`. -/
def simpleListener : CacheManagerListener α policy.State (StoreMemory α V) where
  objectReadyForEviction key w := remove policy key w
  objectLoaded _ w := .ok w

/-- A listener that only records what it is told. -/
def watcher : CacheManagerListener α policy.State (StoreMemory α V) where
  objectReadyForEviction item w := .ok (w.1, w.2.1, recordEviction item w.2.2)
  objectLoaded item w := .ok (w.1, w.2.1, recordLoad item w.2.2)

def listeners : List (CacheManagerListener α policy.State (StoreMemory α V)) :=
  [simpleListener policy, watcher policy]

def add (key : α) (value : V) (w : policy.State × StoreMemory α V) :
    Java (policy.State × StoreMemory α V) :=
  let m := if w.2.1.lookup key = none then policy.add key w.1 else w.1
  policy.visit (listeners policy) key (m, w.2.1.insert key value, w.2.2)

def get (key : α) (w : policy.State × StoreMemory α V) :
    Java ((policy.State × StoreMemory α V) × Option V) :=
  match w.2.1.lookup key with
  | some result => do
    let w ← policy.visit (listeners policy) key w
    .ok (w, some result)
  | none => .ok (w, none)

/-- One call of a client, with its result and the events it fires. -/
def perform (s : policy.State × HashMap α V) :
    StoreCall α V → Java ((policy.State × HashMap α V) × Option V × List (Event α))
  | .add key value => do
    let (m, cache, events) ← add policy key value (s.1, s.2, [])
    .ok ((m, cache), none, events)
  | .get key => do
    let ((m, cache, events), result) ← get policy key (s.1, s.2, [])
    .ok ((m, cache), result, events)
  | .remove key => do
    let (m, cache, events) ← remove policy key (s.1, s.2, [])
    .ok ((m, cache), none, events)

def initial : policy.State × HashMap α V := (policy.initial, ∅)

/-- The runs of a store from its construction over a fresh policy. -/
abbrev Reaches :
    List (Record (policy.State × HashMap α V) (StoreCall α V) (Option V × List (Event α))) →
      policy.State × HashMap α V → Prop :=
  Run (perform policy) (initial policy)

end Methods

/-- The value of the last `add` of a key, unless it was removed or evicted since. -/
def lastValue {S : Type} (k : α) :
    List (Record S (StoreCall α V) (Option V × List (Event α))) → Option V
  | [] => none
  | r :: history =>
    if k ∈ evictions r.output.2 then none
    else match r.call with
      | .add key value => if key = k then some value else lastValue k history
      | .get _ => lastValue k history
      | .remove key => if key = k then none else lastValue k history

/-- The policy visits of a call keep to a condition of the policy. -/
def Fits {policy : CacheManager α} (FitsVisit : policy.State → Call α → Prop)
    (s : policy.State × HashMap α V) : StoreCall α V → Prop
  | .add key _ => FitsVisit s.1 (.visit key)
  | .get key => key ∈ s.2 → FitsVisit s.1 (.visit key)
  | .remove _ => True

instance {policy : CacheManager α} (FitsVisit : policy.State → Call α → Prop)
    [∀ m call, Decidable (FitsVisit m call)] (s : policy.State × HashMap α V) :
    (call : StoreCall α V) → Decidable (Fits FitsVisit s call)
  | .add key _ => inferInstanceAs (Decidable (FitsVisit s.1 (.visit key)))
  | .get key => inferInstanceAs (Decidable (key ∈ s.2 → FitsVisit s.1 (.visit key)))
  | .remove _ => .isTrue trivial

/-- The store and its policy agree, and the store holds what was last added. -/
structure Agrees (policy : CacheManager α) (maxNodes : ℤ)
    (history : List (Record (policy.State × HashMap α V) (StoreCall α V) (Option V × List (Event α))))
    (s : policy.State × HashMap α V) : Prop where
  keys : s.2.keys = policy.resident s.1
  size : policy.cacheSize s.1 = s.2.keys.card
  size_le : policy.cacheSize s.1 ≤ maxNodes
  lookup : ∀ k, s.2.lookup k = lastValue k history

/-! ## The agreement -/

section Protocols

variable {policy : CacheManager α} {maxNodes : ℤ} {Inv : policy.State → Prop}
  {FitsVisit : policy.State → Call α → Prop} {settles : (α → policy.State → policy.State) → Prop}
  {settle : α → policy.State → policy.State} {k : α} {s : policy.State × HashMap α V}
  {history : List (Record (policy.State × HashMap α V) (StoreCall α V) (Option V × List (Event α)))}

/-- What a policy owes a store: the protocol, also under a listener that removes what is
evicted. -/
structure Backs (policy : CacheManager α) (maxNodes : ℤ) (Inv : policy.State → Prop)
    (FitsVisit : policy.State → Call α → Prop) (settle : α → policy.State → policy.State) : Prop where
  protocol : Protocol policy maxNodes Inv FitsVisit fun settle' => settle' = settle
  remove : ∀ k m, policy.remove k m = .ok (settle k m)
  add : ∀ k m, policy.add k m = m
  resident_initial : policy.resident policy.initial = ∅
  fits_remove : ∀ k m, FitsVisit m (.remove k)

theorem listeners_responds (hremove : ∀ k m, policy.remove k m = .ok (settle k m)) :
    Responds (listeners (V := V) policy) settle
      (fun x memory => (memory.1.erase x, recordEviction x memory.2))
      (fun x memory => (memory.1, recordLoad x memory.2)) where
  evict x m l := by
    simp only [evict, listeners, List.foldlM_cons, List.foldlM_nil, simpleListener, watcher, remove,
      hremove, Java.ok_bind, Java.pure_eq]
  load _ _ _ := rfl

theorem perform_add (hadd : ∀ k m, policy.add k m = m) (s : policy.State × HashMap α V) (k : α)
    (value : V) :
    perform policy s (.add k value) = (do
      let (m, cache, events) ← policy.visit (listeners policy) k (s.1, Finmap.insert k value s.2, [])
      .ok ((m, cache), none, events)) := by
  simp only [perform, add, hadd, ite_self]

/-- The store follows the residents: what is evicted leaves both. -/
theorem visitEffect_store {resident resident' : Finset α} {cache cache' : HashMap α V}
    {events : List (Event α)} (hkeys : cache.keys = insert k resident)
    (h : VisitEffect resident k
      (fun x (memory : StoreMemory α V) => (memory.1.erase x, recordEviction x memory.2))
      (fun x memory => (memory.1, recordLoad x memory.2)) (cache, []) resident' (cache', events)) :
    cache'.keys = resident' ∧
      ∀ y, cache'.lookup y = if y ∈ evictions events then none else cache.lookup y := by
  have hevicted {x : α} (hk : k ∉ resident) (hx : x ∈ resident) :
      (Finmap.erase x cache).keys = insert k (resident.erase x) := by
    have hxk : x ≠ k := fun he => hk (he ▸ hx)
    rw [Finmap.keys_erase, hkeys, Finset.erase_insert_of_ne hxk.symm]
  generalize hmemory : (cache', events) = memory' at h
  cases h with
  | hit hk =>
    cases hmemory
    refine ⟨by rw [hkeys, Finset.insert_eq_of_mem hk], fun y => ?_⟩
    rw [evictions_nil, if_neg List.not_mem_nil]
  | miss hk hroom =>
    cases hroom with
    | kept =>
      cases hmemory
      refine ⟨hkeys, fun y => ?_⟩
      rw [evictions_recordLoad, evictions_nil, if_neg List.not_mem_nil]
    | evicted hx =>
      cases hmemory
      refine ⟨hevicted hk hx, fun y => ?_⟩
      simp
  | trimmed hk hx =>
    cases hmemory
    refine ⟨hevicted hk hx, fun y => ?_⟩
    simp

/-- What is true of the policy and the store after the calls of a history. -/
structure Stored (Inv : policy.State → Prop)
    (history : List (Record (policy.State × HashMap α V) (StoreCall α V) (Option V × List (Event α))))
    (s : policy.State × HashMap α V) : Prop where
  inv : Inv s.1
  keys : s.2.keys = policy.resident s.1
  lookup : ∀ k, s.2.lookup k = lastValue k history

theorem Stored.agrees (h : Backs policy maxNodes Inv FitsVisit settle) (hs : Stored Inv history s) :
    Agrees policy maxNodes history s := by
  obtain ⟨hsize, hle⟩ := h.protocol.size hs.inv
  exact ⟨hs.keys, by rw [hsize, hs.keys], hle, hs.lookup⟩

theorem Backs.visit (h : Backs policy maxNodes Inv FitsVisit settle) {m : policy.State}
    {cache : HashMap α V} (hm : Inv m) (hfits : FitsVisit m (.visit k))
    (hkeys : cache.keys = insert k (policy.resident m)) :
    ∃ m' cache' events, policy.visit (listeners policy) k (m, cache, []) = .ok (m', cache', events) ∧
      Inv m' ∧ cache'.keys = policy.resident m' ∧
      ∀ y, cache'.lookup y = if y ∈ evictions events then none else cache.lookup y := by
  obtain ⟨m', ⟨cache', events⟩, hok, hm', heffect⟩ :=
    h.protocol.visit (listeners_responds h.remove) rfl (cache, []) hm hfits
  obtain ⟨hkeys', hlookup⟩ := visitEffect_store hkeys heffect
  exact ⟨m', cache', events, hok, hm', hkeys', hlookup⟩

theorem Stored.add (h : Backs policy maxNodes Inv FitsVisit settle) (hs : Stored Inv history s)
    (value : V) (hfits : FitsVisit s.1 (.visit k)) :
    ∃ s' o, SimpleCache.perform policy s (.add k value) = .ok (s', o) ∧
      Stored Inv (⟨s, .add k value, o, s'⟩ :: history) s' := by
  obtain ⟨m, cache⟩ := s
  have hkeys : (cache.insert k value).keys = insert k (policy.resident m) := by
    ext y
    rw [Finmap.mem_keys, Finmap.mem_insert, Finset.mem_insert, ← hs.keys, Finmap.mem_keys]
  obtain ⟨m', cache', events, hok, hm', hkeys', hlookup⟩ := h.visit hs.inv hfits hkeys
  refine ⟨(m', cache'), (none, events), ?_, hm', hkeys', fun y => ?_⟩
  · rw [perform_add h.add, hok, Java.ok_bind]
  · rw [hlookup, HashMap.lookup_insert_eq, lastValue, ← hs.lookup y]
    simp only [eq_comm]

theorem Stored.get (h : Backs policy maxNodes Inv FitsVisit settle) (hs : Stored Inv history s)
    (hfits : k ∈ s.2 → FitsVisit s.1 (.visit k)) :
    ∃ s' o, SimpleCache.perform policy s (.get k) = .ok (s', o) ∧
      Stored Inv (⟨s, .get k, o, s'⟩ :: history) s' ∧ o.1 = lastValue k history := by
  obtain ⟨m, cache⟩ := s
  have hlast := hs.lookup k
  cases hk : cache.lookup k with
  | none =>
    refine ⟨(m, cache), (none, []), ?_, ⟨hs.inv, hs.keys, fun y => ?_⟩, hk.symm.trans hlast⟩
    · simp only [SimpleCache.perform, SimpleCache.get, hk, Java.ok_bind]
    · rw [lastValue, evictions_nil, if_neg List.not_mem_nil]
      exact hs.lookup y
  | some result =>
    have hmem : k ∈ cache := Finmap.lookup_isSome.mp (hk ▸ rfl)
    have hkeys : cache.keys = insert k (policy.resident m) := by
      rw [← hs.keys, Finset.insert_eq_of_mem (Finmap.mem_keys.mpr hmem)]
    obtain ⟨m', cache', events, hok, hm', hkeys', hlookup⟩ := h.visit hs.inv (hfits hmem) hkeys
    refine ⟨(m', cache'), (some result, events), ?_, ⟨hm', hkeys', fun y => ?_⟩, hk.symm.trans hlast⟩
    · simp only [SimpleCache.perform, SimpleCache.get, hk, hok, Java.ok_bind]
    · rw [hlookup, lastValue, ← hs.lookup y]

theorem Stored.remove (h : Backs policy maxNodes Inv FitsVisit settle) (hs : Stored Inv history s)
    (k : α) : ∃ s' o, SimpleCache.perform policy s (.remove k) = .ok (s', o) ∧
      Stored Inv (⟨s, .remove k, o, s'⟩ :: history) s' := by
  obtain ⟨m, cache⟩ := s
  obtain ⟨m', hok, hm', hresident⟩ := h.protocol.remove hs.inv (h.fits_remove k m)
  refine ⟨(m', cache.erase k), (none, []), ?_, hm', ?_, fun y => ?_⟩
  · simp only [SimpleCache.perform, SimpleCache.remove, hok, Java.ok_bind]
  · show (cache.erase k).keys = policy.resident m'
    rw [Finmap.keys_erase, hs.keys, hresident]
  · rw [lastValue, evictions_nil, if_neg List.not_mem_nil]
    show (cache.erase k).lookup y = if k = y then none else lastValue y history
    rw [HashMap.lookup_erase_eq, ← hs.lookup y]
    simp only [eq_comm]

/-- No call throws, and each keeps the store and the policy in agreement. -/
theorem Stored.perform (h : Backs policy maxNodes Inv FitsVisit settle) (hs : Stored Inv history s)
    {call : StoreCall α V} (hfits : Fits FitsVisit s call) :
    ∃ s' o, SimpleCache.perform policy s call = .ok (s', o) ∧
      Stored Inv (⟨s, call, o, s'⟩ :: history) s' ∧ ∀ k, call = .get k → o.1 = lastValue k history := by
  cases call with
  | add k value =>
    obtain ⟨s', o, hok, hs'⟩ := hs.add h value hfits
    exact ⟨s', o, hok, hs', fun _ hget => by cases hget⟩
  | get k =>
    obtain ⟨s', o, hok, hs', hresult⟩ := hs.get h hfits
    refine ⟨s', o, hok, hs', fun _ hget => ?_⟩
    cases hget
    exact hresult
  | remove k =>
    obtain ⟨s', o, hok, hs'⟩ := hs.remove h k
    exact ⟨s', o, hok, hs', fun _ hget => by cases hget⟩

theorem stored_of_reaches (h : Backs policy maxNodes Inv FitsVisit settle)
    (hrun : Reaches policy history s) (hfits : Meets (Fits FitsVisit) history) :
    Stored Inv history s := by
  induction hrun with
  | start => exact ⟨h.protocol.initial, h.resident_initial.symm, fun _ => rfl⟩
  | call run hok ih =>
    obtain ⟨hfit, hrest⟩ := meets_cons.mp hfits
    obtain ⟨s', o, hok', hs', -⟩ := (ih hrest).perform h hfit
    cases hok'.symm.trans hok
    exact hs'

end Protocols

end SimpleCache

end CachePolicies
