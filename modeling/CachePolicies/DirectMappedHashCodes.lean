import CachePolicies.DirectMappedManagers

/-!
# Places computed from hash codes

The default associator takes the absolute value of a hash code, which is negative for the
least `int`. Its remainder is then negative as well, and no index, unless the length of the
table divides the code.
-/

namespace CachePolicies

namespace Associators

variable {α : Type}

/-- `Math.abs`, which leaves the least `int` as it is. -/
def mathAbs (a : JavaInt) : JavaInt := ⟨int32 a.val.natAbs, isInt_int32 _⟩

def hashCodeAssociator (hashCode : α → JavaInt) (item : α) : JavaInt := mathAbs (hashCode item)

theorem mathAbs_of_ne {a : JavaInt} (h : a.val ≠ -2147483648) : (mathAbs a).val = a.val.natAbs := by
  have hint := a.property
  unfold IsInt at hint
  refine int32_of_isInt ⟨?_, ?_⟩ <;> omega

theorem mathAbs_least {a : JavaInt} (h : a.val = -2147483648) : (mathAbs a).val = -2147483648 := by
  show int32 a.val.natAbs = _
  rw [h]
  decide

end Associators

namespace DirectMappedCacheManager

open Associators

variable {α : Type} [DecidableEq α]

/-- The configuration of the constructor that is given no associator. -/
def hashed (maxNodes : JavaInt) (hashCode : α → JavaInt) : DirectMappedConfiguration α :=
  ⟨maxNodes, hashCodeAssociator hashCode⟩

/-- The hash code is not the least `int`, or the length of the table divides it. -/
def Indexed (maxNodes : JavaInt) (hashCode : α → JavaInt) (k : α) : Prop :=
  (hashCode k).val ≠ -2147483648 ∨ maxNodes.val ∣ 2147483648

/-- The keys of a call are indexed. -/
def IndexedCall (maxNodes : JavaInt) (hashCode : α → JavaInt) : Call α → Prop
  | .visit hit => Indexed maxNodes hashCode hit
  | .remove hit => Indexed maxNodes hashCode hit
  | .clear => True

instance (maxNodes : JavaInt) (hashCode : α → JavaInt) (k : α) :
    Decidable (Indexed maxNodes hashCode k) :=
  inferInstanceAs (Decidable (_ ∨ _))

instance (maxNodes : JavaInt) (hashCode : α → JavaInt) :
    (call : Call α) → Decidable (IndexedCall maxNodes hashCode call)
  | .visit hit => inferInstanceAs (Decidable (Indexed maxNodes hashCode hit))
  | .remove hit => inferInstanceAs (Decidable (Indexed maxNodes hashCode hit))
  | .clear => .isTrue trivial

/-- Every stored key is in the place of its hash code, and a visited key is stored. -/
structure PlacedByHash (maxNodes : JavaInt) (hashCode : α → JavaInt)
    (r : Record (DirectMappedCacheManager α) (Call α) (List (Event α))) : Prop where
  placed : ∀ (i : ℕ) k, r.after.storage[i]? = some (some k) →
    (i : ℤ) = ((hashCode k).val.natAbs : ℤ) % maxNodes.val
  visited : ∀ k, r.call = .visit k → ∃ i : ℕ, r.after.storage[i]? = some (some k)

section Places

variable {maxNodes : JavaInt} {hashCode : α → JavaInt} {k : α} {m : DirectMappedCacheManager α}

/-- An associator whose values are not negative, for the keys that are indexed. -/
def indexing (maxNodes : JavaInt) (hashCode : α → JavaInt) : DirectMappedConfiguration α where
  maxNodes := maxNodes
  associator k := if (hashCode k).val = -2147483648 then 0 else hashCodeAssociator hashCode k

omit [DecidableEq α] in
theorem associator_indexing_of_ne (h : (hashCode k).val ≠ -2147483648) :
    ((indexing maxNodes hashCode).associator k).val = ((hashCode k).val.natAbs : ℤ) := by
  have hcode : (indexing maxNodes hashCode).associator k = mathAbs (hashCode k) := if_neg h
  rw [hcode, mathAbs_of_ne h]

omit [DecidableEq α] in
theorem associator_indexing_of_least (h : (hashCode k).val = -2147483648) :
    ((indexing maxNodes hashCode).associator k).val = 0 := by
  have hcode : (indexing maxNodes hashCode).associator k = 0 := if_pos h
  rw [hcode]
  rfl

omit [DecidableEq α] in
theorem admissible_indexing (hc : 1 ≤ maxNodes.val) :
    Admissible (indexing maxNodes hashCode) := by
  refine ⟨hc, fun k => ?_⟩
  by_cases h : (hashCode k).val = -2147483648
  · exact (associator_indexing_of_least h).ge
  · rw [associator_indexing_of_ne h]
    exact Int.natCast_nonneg _

omit [DecidableEq α] in
/-- The location of an indexed key is the same under both associators. -/
theorem location_hashed (hlength : (m.storage.length : ℤ) = maxNodes.val)
    (hk : Indexed maxNodes hashCode k) :
    location (hashed maxNodes hashCode) k m = location (indexing maxNodes hashCode) k m := by
  have hcode : (hashed maxNodes hashCode).associator k = mathAbs (hashCode k) := rfl
  rw [location, location, hcode]
  by_cases h : (hashCode k).val = -2147483648
  · have hdvd := hk.resolve_left (not_not_intro h)
    rw [mathAbs_least h, associator_indexing_of_least h, hlength, remainder, remainder,
      Int.neg_tmod, Int.tmod_eq_zero_of_dvd hdvd, Int.zero_tmod, Int.neg_zero]
  · rw [mathAbs_of_ne h, associator_indexing_of_ne h]

omit [DecidableEq α] in
/-- The place of an indexed key is the remainder of the absolute value of its hash code. -/
theorem place_indexing (hc : 1 ≤ maxNodes.val) (hk : Indexed maxNodes hashCode k) :
    (place (indexing maxNodes hashCode) k : ℤ) = ((hashCode k).val.natAbs : ℤ) % maxNodes.val := by
  have hmax : (indexing maxNodes hashCode).maxNodes = maxNodes := rfl
  have hnonneg (a : ℤ) : 0 ≤ a % maxNodes.val := Int.emod_nonneg a (by omega)
  rw [place, hmax, Int.toNat_of_nonneg (hnonneg _)]
  by_cases h : (hashCode k).val = -2147483648
  · have hdvd := hk.resolve_left (not_not_intro h)
    have habs : ((-2147483648 : ℤ).natAbs : ℤ) = 2147483648 := rfl
    rw [associator_indexing_of_least h, h, habs, Int.emod_eq_zero_of_dvd hdvd, Int.zero_emod]
  · rw [associator_indexing_of_ne h]

omit [DecidableEq α] in
/-- A key which is not indexed has a negative location. -/
theorem location_negative (hc : 1 ≤ maxNodes.val)
    (hlength : (m.storage.length : ℤ) = maxNodes.val) (hk : ¬Indexed maxNodes hashCode k) :
    ∃ index < 0, location (hashed maxNodes hashCode) k m = .ok index := by
  obtain ⟨hleast, hdvd⟩ := not_or.mp hk
  have hcode : (hashed maxNodes hashCode).associator k = mathAbs (hashCode k) := rfl
  refine ⟨-(Int.tmod 2147483648 maxNodes.val), ?_, ?_⟩
  · have hnonneg := Int.tmod_nonneg maxNodes.val (by decide : (0 : ℤ) ≤ 2147483648)
    have hne : Int.tmod 2147483648 maxNodes.val ≠ 0 := fun h => hdvd (Int.dvd_of_tmod_eq_zero h)
    omega
  · rw [location, hcode, mathAbs_least (not_not.mp hleast), hlength, remainder, if_neg (by omega),
      Int.neg_tmod]

omit [DecidableEq α] in
theorem get_negative {index : ℤ} (h : index < 0) (m : DirectMappedCacheManager α) :
    get index m = .error .indexOutOfBounds := by
  rw [get, checkIndex, if_neg (by omega), Java.error_bind]

end Places

section Calls

variable {maxNodes : JavaInt} {hashCode : α → JavaInt} {k : α} {m m' : DirectMappedCacheManager α}
  {events : List (Event α)}

/-- All stored keys are indexed, and in their places. -/
structure Hashed (maxNodes : JavaInt) (hashCode : α → JavaInt) (m : DirectMappedCacheManager α) :
    Prop where
  sound : Sound (indexing maxNodes hashCode) m
  indexed : ∀ k ∈ resident m, Indexed maxNodes hashCode k

theorem Hashed.length (h : Hashed maxNodes hashCode m) :
    (m.storage.length : ℤ) = maxNodes.val :=
  h.sound.length

theorem Hashed.placed (hc : 1 ≤ maxNodes.val) (h : Hashed maxNodes hashCode m) (i : ℕ) (k : α)
    (hk : m.storage[i]? = some (some k)) : (i : ℤ) = ((hashCode k).val.natAbs : ℤ) % maxNodes.val := by
  rw [h.sound.placed i k hk]
  exact place_indexing hc (h.indexed k (mem_resident.mpr ⟨i, hk⟩))

theorem Hashed.visit (hc : 1 ≤ maxNodes.val) (h : Hashed maxNodes hashCode m)
    (hk : Indexed maxNodes hashCode k) :
    ∃ m' events, (manager (hashed maxNodes hashCode)).perform m (.visit k) = .ok (m', events) ∧
      Hashed maxNodes hashCode m' ∧ k ∈ resident m' := by
  have hadmissible : Admissible (indexing maxNodes hashCode) := admissible_indexing hc
  obtain ⟨m', events, hok, hsound, hreported⟩ :=
    (protocol _ hadmissible).visit_reported rfl (k := k) h.sound trivial
  have hresident : resident m' = insert k (resident m) \ (evictions events).toFinset :=
    hreported.resident
  refine ⟨m', events, ?_, ⟨hsound, ?_⟩, ?_⟩
  · rw [← hok]
    simp only [CacheManager.perform, manager, DirectMappedCacheManager.visit,
      location_hashed h.length hk]
  · intro x hx
    rw [hresident, Finset.mem_sdiff, Finset.mem_insert] at hx
    rcases hx.1 with rfl | hx
    · exact hk
    · exact h.indexed x hx
  · rw [hresident, Finset.mem_sdiff, List.mem_toFinset]
    exact ⟨Finset.mem_insert_self _ _, fun hin => (hreported.evicts_resident k hin).2 rfl⟩

theorem Hashed.remove (hc : 1 ≤ maxNodes.val) (h : Hashed maxNodes hashCode m)
    (hk : Indexed maxNodes hashCode k) :
    ∃ m', (manager (hashed maxNodes hashCode)).perform m (.remove k) = .ok (m', []) ∧
      Hashed maxNodes hashCode m' := by
  obtain ⟨m', hok, hsound, hresident⟩ := h.sound.remove (admissible_indexing hc) k
  have hremove : DirectMappedCacheManager.remove (hashed maxNodes hashCode) k m = .ok m' := by
    rw [← hok]
    simp only [DirectMappedCacheManager.remove, location_hashed h.length hk]
  refine ⟨m', ?_, hsound, fun x hx => ?_⟩
  · simp only [CacheManager.perform, hremove, Java.ok_bind]
  · rw [hresident] at hx
    exact h.indexed x (Finset.mem_of_mem_erase hx)

omit [DecidableEq α] in
theorem newStorage_hashed (maxNodes : JavaInt) (hashCode : α → JavaInt) :
    newStorage (hashed maxNodes hashCode) = newStorage (indexing maxNodes hashCode) := by
  have hhashed : (hashed maxNodes hashCode).maxNodes = maxNodes := rfl
  have hindexing : (indexing maxNodes hashCode).maxNodes = maxNodes := rfl
  rw [newStorage, newStorage, hhashed, hindexing]

theorem hashed_new (hc : 1 ≤ maxNodes.val) :
    Hashed maxNodes hashCode (manager (hashed maxNodes hashCode)).initial := by
  have hinitial : (manager (hashed maxNodes hashCode)).initial =
      ⟨newStorage (indexing maxNodes hashCode), 0⟩ := by
    rw [← newStorage_hashed]
  rw [hinitial]
  refine ⟨sound_new (admissible_indexing hc), fun k hk => ?_⟩
  have hempty := resident_new (indexing maxNodes hashCode)
  exact absurd (hempty ▸ hk) (Finset.notMem_empty k)

theorem Hashed.perform (hc : 1 ≤ maxNodes.val) (h : Hashed maxNodes hashCode m) {call : Call α}
    (hcall : IndexedCall maxNodes hashCode call) :
    ∃ m' events, (manager (hashed maxNodes hashCode)).perform m call = .ok (m', events) ∧
      Hashed maxNodes hashCode m' ∧ PlacedByHash maxNodes hashCode ⟨m, call, events, m'⟩ := by
  cases call with
  | visit k =>
    obtain ⟨m', events, hok, h', hk⟩ := h.visit hc hcall
    refine ⟨m', events, hok, h', h'.placed hc, ?_⟩
    rintro x hx
    cases hx
    exact mem_resident.mp hk
  | remove k =>
    obtain ⟨m', hok, h'⟩ := h.remove hc hcall
    exact ⟨m', [], hok, h', h'.placed hc, fun x hx => nomatch hx⟩
  | clear =>
    have h' : Hashed maxNodes hashCode _ := hashed_new hc
    exact ⟨_, [], rfl, h', h'.placed hc, fun x hx => nomatch hx⟩

/-- A call which returns has found an index for its key. -/
theorem Hashed.indexedCall (hc : 1 ≤ maxNodes.val) (h : Hashed maxNodes hashCode m) {call : Call α}
    (hok : (manager (hashed maxNodes hashCode)).perform m call = .ok (m', events)) :
    IndexedCall maxNodes hashCode call := by
  cases call with
  | visit k =>
    by_contra hk
    obtain ⟨index, hneg, hlocation⟩ := location_negative hc h.length hk
    simp only [CacheManager.perform, manager, DirectMappedCacheManager.visit, hlocation,
      Java.ok_bind, get_negative hneg, Java.error_bind] at hok
    cases hok
  | remove k =>
    by_contra hk
    obtain ⟨index, hneg, hlocation⟩ := location_negative hc h.length hk
    simp only [CacheManager.perform, manager, DirectMappedCacheManager.remove, hlocation,
      Java.ok_bind, get_negative hneg, Java.error_bind] at hok
    cases hok
  | clear => trivial

/-- With the default associator no call of a sequence throws and every key is stored in the place
of its hash code, exactly when the table length divides the least `int` or no key of a call has
it as its hash code. -/
theorem placedByHash_iff_indexed (maxNodes : JavaInt) (hc : 1 ≤ maxNodes.val)
    (hashCode : α → JavaInt) (calls : List (Call α)) :
    Succeeds (manager (hashed maxNodes hashCode)).perform (PlacedByHash maxNodes hashCode)
        (manager (hashed maxNodes hashCode)).initial calls ↔
      ∀ call ∈ calls, IndexedCall maxNodes hashCode call :=
  succeeds_iff_forall (fun _ _ h hcall => Hashed.perform hc h hcall)
    (fun _ _ _ _ h hok _ => h.indexedCall hc hok) (hashed_new hc)

/-- A hash code that is the least `int` for one of the keys. -/
def leastCode (k : Bool) : JavaInt := if k then ⟨-2147483648, by decide⟩ else 6

/-- The least `int` does no harm as a hash code where the table length is a power of two. -/
theorem placedByHash_fourPlaces :
    Succeeds (manager (hashed 4 leastCode)).perform (PlacedByHash 4 leastCode)
      (manager (hashed 4 leastCode)).initial
      [.visit true, .visit false, .remove true, .clear, .visit true] :=
  (placedByHash_iff_indexed 4 (by decide) leastCode _).mpr (by decide)

/-- In a table of three places a key with the least `int` as its hash code is sent to index `-2`. -/
theorem not_placedByHash_threePlaces :
    ¬∀ (hashCode : Unit → JavaInt) (calls : List (Call Unit)),
      Succeeds (manager (hashed 3 hashCode)).perform (PlacedByHash 3 hashCode)
        (manager (hashed 3 hashCode)).initial calls := by
  intro h
  obtain ⟨m, events, hok, -⟩ := h (fun _ => ⟨-2147483648, by decide⟩) [.visit ()]
  cases hok

end Calls

end DirectMappedCacheManager

end CachePolicies
