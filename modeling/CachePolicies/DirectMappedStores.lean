import CachePolicies.DirectMappedManagers
import CachePolicies.SimpleCaches

/-!
# A store over the direct-mapped manager

`visit` counts the new key only if its place is empty. Where the place is taken, the store
answers the eviction by a `remove` that empties the place and lowers the count, so that the
new key is stored without being counted.
-/

namespace CachePolicies.DirectMappedCacheManager

variable {α V : Type} [DecidableEq α]

/-- The places of `storage` that are not null. -/
def occupied (m : DirectMappedCacheManager α) : ℕ := (m.storage.filter Option.isSome).length

/-- The reported size counts the places in use and the entries of the store, and is in range. -/
structure SizeExact (config : DirectMappedConfiguration α)
    (s : DirectMappedCacheManager α × HashMap α V) : Prop where
  occupied : s.1.size = occupied s.1
  entries : s.1.size = s.2.keys.card
  nonneg : 0 ≤ s.1.size
  le : s.1.size ≤ config.maxNodes.val

/-- A key is added where its place is empty, or its own already. -/
def Uncontested (config : DirectMappedConfiguration α)
    (s : DirectMappedCacheManager α × HashMap α V) : StoreCall α V → Prop
  | .add key _ => entry config key s.1 = none ∨ entry config key s.1 = some key
  | .get _ => True
  | .remove _ => True

instance (config : DirectMappedConfiguration α) (s : DirectMappedCacheManager α × HashMap α V) :
    (call : StoreCall α V) → Decidable (Uncontested config s call)
  | .add _ _ => inferInstanceAs (Decidable (_ ∨ _))
  | .get _ => .isTrue trivial
  | .remove _ => .isTrue trivial

section Storage

variable {config : DirectMappedConfiguration α} {m : DirectMappedCacheManager α}

/-- A key in its place is in no other one. -/
theorem Sound.nodup (h : Sound config m) : m.storage.reduceOption.Nodup := by
  rw [List.Nodup, List.reduceOption, List.pairwise_filterMap, List.pairwise_iff_getElem]
  intro i j hi hj hij k hk x hx he
  subst he
  have hplace {n : ℕ} (hn : n < m.storage.length) (hget : id m.storage[n] = some k) :
      n = place config k :=
    h.placed n k ((List.getElem?_eq_getElem hn).trans (congrArg some hget))
  rw [hplace hi hk, hplace hj hx] at hij
  exact lt_irrefl _ hij

theorem Sound.occupied_eq (h : Sound config m) : occupied m = (resident m).card := by
  rw [occupied, resident, List.toFinset_card_of_nodup h.nodup, List.reduceOption_length_eq]

/-- The place of an evicted key is that of the key which evicts it. -/
theorem Sound.place_eq (hc : Admissible config) (h : Sound config m) {k x : α}
    (hx : entry config k m = some x) : place config x = place config k :=
  (h.placed _ x ((h.getElem?_place hc k).trans (congrArg some hx))).symm

end Storage

section Calls

variable {config : DirectMappedConfiguration α} {s : DirectMappedCacheManager α × HashMap α V}
  {k x : α}

/-- The store has an entry for each key in its place. -/
structure Stored (config : DirectMappedConfiguration α)
    (s : DirectMappedCacheManager α × HashMap α V) : Prop where
  sound : Sound config s.1
  keys : s.2.keys = resident s.1

theorem Stored.sizeExact (h : Stored config s) : SizeExact config s := by
  have hsize := h.sound.size_eq
  refine ⟨?_, ?_, ?_, ?_⟩
  · rw [h.sound.occupied_eq, hsize]
  · rw [h.keys, hsize]
  · rw [hsize]
    exact Int.natCast_nonneg _
  · rw [hsize]
    exact h.sound.card_le

theorem keys_insert (cache : HashMap α V) (k : α) (value : V) :
    (cache.insert k value).keys = insert k cache.keys := by
  ext y
  rw [Finmap.mem_keys, Finmap.mem_insert, Finset.mem_insert, Finmap.mem_keys]

/-- A key that is added to its own place, or to an empty one. -/
theorem Stored.add (hc : Admissible config) (h : Stored config s) (value : V)
    (hfree : Uncontested config s (.add k value)) :
    ∃ s' o, SimpleCache.perform (manager config) s (.add k value) = .ok (s', o) ∧
      Stored config s' := by
  obtain ⟨m, cache⟩ := s
  have hkeys : (cache.insert k value).keys = insert k (resident m) := by
    rw [keys_insert, h.keys]
  rw [SimpleCache.perform_add fun _ _ => rfl]
  rcases hfree with hentry | hentry
  · have hk : k ∉ resident m := by
      rw [h.sound.mem_resident_iff hc]
      rintro he
      cases hentry.symm.trans he
    have hroom : entry config k m = none ∧ int32 (m.size + 1) = int32 (m.size + 1) ∧
        ([] : List (Event α)) = [] := ⟨hentry, rfl, rfl⟩
    obtain ⟨hsound, heffect⟩ :
        Sound config ⟨m.storage.set (place config k) (some k), int32 (m.size + 1)⟩ ∧
          VisitEffect (resident m) k recordEviction recordLoad []
            (resident ⟨m.storage.set (place config k) (some k), int32 (m.size + 1)⟩)
              (recordLoad k []) := h.sound.accept hc hk (.inl hroom)
    have hreported : Reported (manager config) config.maxNodes.val m k
        ⟨m.storage.set (place config k) (some k), int32 (m.size + 1)⟩ (recordLoad k []) :=
      Protocol.reported_of_effect hsound.size_eq (hsound.size_eq.trans_le hsound.card_le) heffect
    have hresident := hreported.resident
    refine ⟨(_, cache.insert k value), (none, recordLoad k []), ?_, hsound, ?_⟩
    · rw [show (manager config).visit = visit config from rfl, visit_vacant hc h.sound hentry]
      rfl
    · rw [hkeys]
      exact (hresident.trans (by simp)).symm
  · have hk : k ∈ resident m := (h.sound.mem_resident_iff hc).mpr hentry
    refine ⟨(m, cache.insert k value), (none, []), ?_, h.sound, ?_⟩
    · rw [show (manager config).visit = visit config from rfl, visit_resident hc h.sound hk]
      rfl
    · rw [hkeys, Finset.insert_eq_of_mem hk]

theorem Stored.get (hc : Admissible config) (h : Stored config s) (k : α) :
    ∃ o, SimpleCache.perform (manager config) s (.get k) = .ok (s, o) := by
  obtain ⟨m, cache⟩ := s
  cases hlookup : cache.lookup k with
  | none => exact ⟨(none, []), by simp only [SimpleCache.perform, SimpleCache.get, hlookup, Java.ok_bind]⟩
  | some result =>
    have hmem : k ∈ cache.keys := Finmap.mem_keys.mpr (Finmap.lookup_isSome.mp (hlookup ▸ rfl))
    have hk : k ∈ resident m := h.keys ▸ hmem
    have hvisit : visit config (SimpleCache.listeners (V := V) (manager config)) k
        (m, cache, []) = .ok (m, cache, []) := visit_resident hc h.sound hk _
    refine ⟨(some result, []), ?_⟩
    simp only [SimpleCache.perform, SimpleCache.get, hlookup, hvisit, Java.ok_bind]

theorem Stored.remove (hc : Admissible config) (h : Stored config s) (k : α) :
    ∃ s' o, SimpleCache.perform (manager config) s (.remove k) = .ok (s', o) ∧
      Stored config s' := by
  obtain ⟨m, cache⟩ := s
  obtain ⟨m', hok, hsound, hresident⟩ := h.sound.remove hc k
  refine ⟨(m', cache.erase k), (none, []), ?_, hsound, ?_⟩
  · simp only [SimpleCache.perform, SimpleCache.remove, hok, Java.ok_bind]
  · show (cache.erase k).keys = resident m'
    rw [Finmap.keys_erase, hresident, ← h.keys]

theorem Stored.perform (hc : Admissible config) (h : Stored config s) {call : StoreCall α V}
    (hfree : Uncontested config s call) :
    ∃ s' o, SimpleCache.perform (manager config) s call = .ok (s', o) ∧ Stored config s' := by
  cases call with
  | add key value => exact h.add hc value hfree
  | get key =>
    obtain ⟨o, hok⟩ := h.get hc key
    exact ⟨s, o, hok, h⟩
  | remove key => exact h.remove hc key

/-- A key that takes the place of another one is stored, but the count falls short of it. -/
theorem Stored.add_contested (hc : Admissible config) (h : Stored config s) (value : V)
    (hx : entry config k s.1 = some x) (hne : x ≠ k) :
    ∃ s' o, SimpleCache.perform (manager config) s (.add k value) = .ok (s', o) ∧
      s'.1.size + 1 = occupied s'.1 := by
  obtain ⟨m, cache⟩ := s
  have hm : Sound config m := h.sound
  have hxres : x ∈ resident m := hm.entry_resident hc hx
  have hk : k ∉ resident m := by
    rw [hm.mem_resident_iff hc, hx]
    simpa using hne
  have hplace := hm.place_eq hc hx
  have hvacate := (hm.vacate hc hxres).1
  have hset := set_ok (m := ⟨m.storage.set (place config x) none, int32 (m.size - 1)⟩) hc
    hvacate.length k (some k)
  rw [hplace, List.set_set] at hset
  have hevict : evict (SimpleCache.listeners (V := V) (manager config)) x
      (m, cache.insert k value, []) =
        .ok (⟨m.storage.set (place config x) none, int32 (m.size - 1)⟩,
          (cache.insert k value).erase x, recordEviction x []) := by
    have hremove : DirectMappedCacheManager.remove config x m = _ := remove_resident hc hm hxres
    simp only [evict, SimpleCache.listeners, List.foldlM_cons, List.foldlM_nil,
      SimpleCache.simpleListener, SimpleCache.watcher, SimpleCache.remove, hremove, Java.ok_bind,
      Java.pure_eq]
  have hroom : entry config k m = some x ∧ m.size = m.size ∧
      recordEviction x ([] : List (Event α)) = recordEviction x [] := ⟨hx, rfl, rfl⟩
  obtain ⟨hsound, -⟩ : Sound config ⟨m.storage.set (place config k) (some k), m.size⟩ ∧
      VisitEffect (resident m) k recordEviction recordLoad []
        (resident ⟨m.storage.set (place config k) (some k), m.size⟩)
          (recordLoad k (recordEviction x [])) := hm.accept hc hk (.inr ⟨x, hroom⟩)
  refine ⟨(⟨m.storage.set (place config k) (some k), int32 (m.size - 1)⟩,
    (cache.insert k value).erase x), (none, recordLoad k (recordEviction x [])), ?_, ?_⟩
  · rw [SimpleCache.perform_add fun _ _ => rfl,
      show (manager config).visit = visit config from rfl, visit_occupied hc hm hx hne, hevict]
    simp only [Java.ok_bind, hplace, hset]
    rfl
  · have hafter := hsound.occupied_eq
    have hsize := hsound.size_eq
    have hvacated := hvacate.size_eq
    rw [(hm.vacate hc hxres).2] at hvacated
    have hless := Finset.card_erase_add_one hxres
    have hbefore := hm.size_eq
    show int32 (m.size - 1) + 1 = (occupied ⟨m.storage.set (place config k) (some k), m.size⟩ : ℤ)
    rw [hafter, ← hsize]
    show int32 (m.size - 1) + 1 = m.size
    rw [show int32 (m.size - 1) = _ from hvacated, hbefore]
    omega

theorem stored_initial (hc : Admissible config) :
    Stored config (SimpleCache.initial (V := V) (manager config)) :=
  ⟨sound_new hc, (resident_new config).symm⟩

/-- The size stays exact through a sequence of calls exactly when each key is added to a place
which is empty or its own already. -/
theorem sizeExact_iff_uncontested (config : DirectMappedConfiguration α) (hc : Admissible config)
    (calls : List (StoreCall α V)) :
    Throughout (SimpleCache.perform (manager config)) (SizeExact config)
        (SimpleCache.initial (manager config)) calls ↔
      Admitted (SimpleCache.perform (manager config)) (Uncontested config)
        (SimpleCache.initial (manager config)) calls := by
  refine throughout_iff_admitted (fun s h => h.sizeExact) (fun s call h hfree => h.perform hc hfree)
    ?_ (stored_initial hc)
  intro s call s' o h hok hexact
  cases call with
  | add key value =>
    cases hentry : entry config key s.1 with
    | none => exact .inl hentry
    | some x =>
      by_cases hne : x = key
      · exact .inr (hentry.trans (congrArg some hne))
      · obtain ⟨s₁, o₁, hok₁, hshort⟩ := h.add_contested hc value hentry hne
        cases hok₁.symm.trans hok
        have hsize := hexact.occupied
        omega
  | get key => trivial
  | remove key => trivial

/-- Three places, to which every key is sent by its remainder. -/
def threePlaces : DirectMappedConfiguration (Fin 10) := ⟨3, fun k => ⟨k.val, by decide +revert⟩⟩

theorem sizeExact_threePlaces :
    Throughout (SimpleCache.perform (manager threePlaces)) (SizeExact threePlaces)
      (SimpleCache.initial (V := ℕ) (manager threePlaces))
      [.add 1 10, .add 2 20, .add 1 11, .get 2, .remove 1, .add 4 40, .get 7, .remove 7] :=
  (sizeExact_iff_uncontested threePlaces ⟨by decide, by decide⟩ _).mpr (by decide)

/-- The second of two keys for one place is stored while the size goes back to zero. -/
theorem not_sizeExact_threePlaces :
    ¬∀ calls : List (StoreCall (Fin 10) ℕ),
      Throughout (SimpleCache.perform (manager threePlaces)) (SizeExact threePlaces)
        (SimpleCache.initial (manager threePlaces)) calls := by
  intro h
  obtain ⟨-, s₁, o₁, h₁, -, s₂, o₂, h₂, hexact⟩ := h [.add 1 10, .add 4 40]
  cases h₁
  cases h₂
  exact absurd hexact.occupied (by decide)

end Calls

end CachePolicies.DirectMappedCacheManager
