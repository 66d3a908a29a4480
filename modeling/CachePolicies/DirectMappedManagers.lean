import CachePolicies.VisitProtocols
import Mathlib.Data.List.GetD
import Mathlib.Data.List.ReduceOption

/-!
# The direct-mapped manager

The associator sends each key to the one place of `storage` where it may be kept. A
negative location throws, as it is no index of the array.
-/

namespace CachePolicies

structure DirectMappedConfiguration (α : Type) where
  maxNodes : JavaInt
  associator : α → JavaInt

structure DirectMappedCacheManager (α : Type) where
  storage : List (Option α)
  size : ℤ

namespace DirectMappedCacheManager

variable {α L : Type} [DecidableEq α]

section Methods

variable (config : DirectMappedConfiguration α)
  (listeners : List (CacheManagerListener α (DirectMappedCacheManager α) L))

/-- `new Object[getMaxNodes()]`, for a length that is not negative. -/
def newStorage : List (Option α) := List.replicate config.maxNodes.val.toNat none

def location (hit : α) (m : DirectMappedCacheManager α) : Java ℤ :=
  remainder (config.associator hit).val m.storage.length

/-- The index of an array access, checked against its length. -/
def checkIndex (index : ℤ) (storage : List (Option α)) : Java ℕ :=
  if 0 ≤ index ∧ index < storage.length then .ok index.toNat else .error .indexOutOfBounds

/-- `storage[index]`. -/
def get (index : ℤ) (m : DirectMappedCacheManager α) : Java (Option α) := do
  let i ← checkIndex index m.storage
  .ok (m.storage.getD i none)

/-- `storage[index] = entry`. -/
def set (index : ℤ) (entry : Option α) (m : DirectMappedCacheManager α) :
    Java (DirectMappedCacheManager α) := do
  let i ← checkIndex index m.storage
  .ok { m with storage := m.storage.set i entry }

def visit (hit : α) (w : DirectMappedCacheManager α × L) :
    Java (DirectMappedCacheManager α × L) := do
  let location ← location config hit w.1
  let entry ← get location w.1
  if entry = some hit then .ok w
  else do
    let w ← match entry with
      | none => .ok ({ w.1 with size := int32 (w.1.size + 1) }, w.2)
      | some evicted => evict listeners evicted w
    let m ← set location (some hit) w.1
    load listeners hit (m, w.2)

def remove (hit : α) (m : DirectMappedCacheManager α) : Java (DirectMappedCacheManager α) := do
  let location ← location config hit m
  let entry ← get location m
  if entry = some hit then do
    let m ← set location none m
    .ok { m with size := int32 (m.size - 1) }
  else .ok m

end Methods

/-- The keys in the places of `storage`. -/
def resident (m : DirectMappedCacheManager α) : Finset α := m.storage.reduceOption.toFinset

abbrev manager (config : DirectMappedConfiguration α) : CacheManager α where
  State := DirectMappedCacheManager α
  initial := ⟨newStorage config, 0⟩
  add _ m := m
  visit := visit config
  remove := remove config
  clear _ := ⟨newStorage config, 0⟩
  cacheSize m := m.size
  resident := resident

/-! ## The protocol -/

/-- A configuration whose locations are indices. -/
structure Admissible (config : DirectMappedConfiguration α) : Prop where
  maxNodes_pos : 1 ≤ config.maxNodes.val
  associator_nonneg : ∀ k, 0 ≤ (config.associator k).val

/-- The place of a key. -/
def place (config : DirectMappedConfiguration α) (k : α) : ℕ :=
  ((config.associator k).val % config.maxNodes.val).toNat

structure Sound (config : DirectMappedConfiguration α) (m : DirectMappedCacheManager α) : Prop where
  length : (m.storage.length : ℤ) = config.maxNodes.val
  placed : ∀ (i : ℕ) k, m.storage[i]? = some (some k) → i = place config k
  size_eq : m.size = (resident m).card

section Storage

variable {config : DirectMappedConfiguration α} {m : DirectMappedCacheManager α} {k x : α}

theorem mem_resident : k ∈ resident m ↔ ∃ i : ℕ, m.storage[i]? = some (some k) := by
  rw [resident, List.mem_toFinset, List.reduceOption_mem_iff, List.mem_iff_getElem?]

/-- A key is resident when it is found in its place. -/
theorem Sound.mem_resident (h : Sound config m) :
    k ∈ resident m ↔ m.storage[place config k]? = some (some k) := by
  rw [DirectMappedCacheManager.mem_resident]
  constructor
  · rintro ⟨i, hi⟩
    exact h.placed i k hi ▸ hi
  · exact fun hk => ⟨_, hk⟩

theorem card_resident_le (m : DirectMappedCacheManager α) :
    (resident m).card ≤ m.storage.length :=
  (List.toFinset_card_le m.storage.reduceOption).trans (List.reduceOption_length_le m.storage)

theorem Sound.card_le (h : Sound config m) : ((resident m).card : ℤ) ≤ config.maxNodes.val :=
  h.length ▸ Int.ofNat_le.mpr (card_resident_le m)

omit [DecidableEq α] in
theorem place_lt (hc : Admissible config) (k : α) :
    (place config k : ℤ) < config.maxNodes.val := by
  have hpos := hc.maxNodes_pos
  have hnonneg := Int.emod_nonneg (config.associator k).val (by omega : config.maxNodes.val ≠ 0)
  have hlt := Int.emod_lt_of_pos (config.associator k).val (by omega : 0 < config.maxNodes.val)
  rw [place]
  omega

theorem location_ok (hc : Admissible config) (h : Sound config m) (k : α) :
    location config k m = .ok (place config k) := by
  have hpos := hc.maxNodes_pos
  have hlength := h.length
  have hnonneg := Int.emod_nonneg (config.associator k).val (by omega : config.maxNodes.val ≠ 0)
  rw [location, remainder, if_neg (by omega), hlength,
    Int.tmod_eq_emod_of_nonneg (hc.associator_nonneg k), place, Int.toNat_of_nonneg hnonneg]

omit [DecidableEq α] in
theorem checkIndex_ok (hc : Admissible config)
    (hlength : (m.storage.length : ℤ) = config.maxNodes.val) (k : α) :
    checkIndex (place config k) m.storage = .ok (place config k) := by
  have hlt := place_lt hc k
  rw [checkIndex, if_pos ⟨Int.natCast_nonneg _, hlength ▸ hlt⟩, Int.toNat_natCast]

/-- The entry in the place of a key. -/
def entry (config : DirectMappedConfiguration α) (k : α) (m : DirectMappedCacheManager α) :
    Option α :=
  m.storage.getD (place config k) none

theorem get_ok (hc : Admissible config) (h : Sound config m) (k : α) :
    get (place config k) m = .ok (entry config k m) := by
  simp only [get, checkIndex_ok hc h.length, Java.ok_bind]
  rfl

omit [DecidableEq α] in
theorem set_ok (hc : Admissible config) (hlength : (m.storage.length : ℤ) = config.maxNodes.val)
    (k : α) (entry : Option α) :
    set (place config k) entry m =
      .ok { m with storage := m.storage.set (place config k) entry } := by
  simp only [set, checkIndex_ok hc hlength, Java.ok_bind]

theorem Sound.getElem?_place (hc : Admissible config) (h : Sound config m) (k : α) :
    m.storage[place config k]? = some (entry config k m) := by
  have hlt := place_lt hc k
  have hlength := h.length
  have hget := List.getElem?_eq_getElem (show place config k < m.storage.length by omega)
  rw [entry, List.getD_eq_getElem?_getD, hget, Option.getD_some]

theorem Sound.mem_resident_iff (hc : Admissible config) (h : Sound config m) :
    k ∈ resident m ↔ entry config k m = some k := by
  rw [h.mem_resident, h.getElem?_place hc, Option.some_inj]

theorem Sound.entry_resident (hc : Admissible config) (h : Sound config m)
    (hx : entry config k m = some x) : x ∈ resident m := by
  refine DirectMappedCacheManager.mem_resident.mpr ⟨place config k, ?_⟩
  rw [h.getElem?_place hc, hx]

/-- A write replaces the entry of one place and leaves the other keys alone. -/
theorem Sound.mem_set (hc : Admissible config) (h : Sound config m) (v : Option α) :
    x ∈ resident { m with storage := m.storage.set (place config k) v } ↔
      v = some x ∨ x ∈ resident m ∧ entry config k m ≠ some x := by
  have hlt : place config k < m.storage.length := by
    have hlt := place_lt hc k
    have hlength := h.length
    omega
  have hentry := h.getElem?_place hc k
  rw [DirectMappedCacheManager.mem_resident, DirectMappedCacheManager.mem_resident]
  simp only [List.getElem?_set]
  constructor
  · rintro ⟨i, hi⟩
    split at hi
    · exact .inl (Option.some.inj hi)
    · next hne =>
      refine .inr ⟨⟨i, hi⟩, fun hx => hne ?_⟩
      rw [h.placed i x hi, h.placed _ x (hentry.trans (congrArg some hx))]
  · rintro (rfl | ⟨⟨i, hi⟩, hne⟩)
    · exact ⟨place config k, by rw [if_pos rfl, if_pos hlt]⟩
    · refine ⟨i, ?_⟩
      rw [if_neg, hi]
      rintro rfl
      exact hne (Option.some.inj (hentry.symm.trans hi))

theorem Sound.placed_set (h : Sound config m) {v : Option α} (hv : v = some k ∨ v = none) (i : ℕ)
    (y : α) (hy : (m.storage.set (place config k) v)[i]? = some (some y)) : i = place config y := by
  rw [List.getElem?_set] at hy
  split at hy
  · next he =>
    split at hy
    · rcases hv with rfl | rfl
      · cases hy
        exact he.symm
      · cases hy
    · cases hy
  · exact h.placed i y hy

end Storage

section Visits

variable {config : DirectMappedConfiguration α}
  {listeners : List (CacheManagerListener α (DirectMappedCacheManager α) L)}
  {onEvict onLoad : α → L → L} {m : DirectMappedCacheManager α} {k : α}

/-- A key which is not in its place takes it, from no key or from the one it evicts. -/
theorem Sound.accept (hc : Admissible config) (h : Sound config m) (hk : k ∉ resident m)
    {size : ℤ} {l l' : L}
    (hroom : entry config k m = none ∧ size = int32 (m.size + 1) ∧ l' = l ∨
      ∃ x, entry config k m = some x ∧ size = m.size ∧ l' = onEvict x l) :
    Sound config ⟨m.storage.set (place config k) (some k), size⟩ ∧
      VisitEffect (resident m) k onEvict onLoad l
        (resident ⟨m.storage.set (place config k) (some k), size⟩) (onLoad k l') := by
  have hplaced := h.placed_set (k := k) (.inl rfl)
  have hlength : ((m.storage.set (place config k) (some k)).length : ℤ) = config.maxNodes.val := by
    rw [List.length_set, h.length]
  have hmax := config.maxNodes.property
  unfold IsInt at hmax
  have hsize := h.size_eq
  have hmem (y : α) := h.mem_set (x := y) (k := k) hc (some k)
  rcases hroom with ⟨hentry, rfl, rfl⟩ | ⟨x, hentry, rfl, rfl⟩
  · have hresident : resident ⟨m.storage.set (place config k) (some k), int32 (m.size + 1)⟩ =
        insert k (resident m) := by
      ext y
      refine (hmem y).trans ?_
      rw [hentry, Finset.mem_insert]
      simp [eq_comm]
    have hcard := Finset.card_insert_of_notMem hk
    have hbound : ((insert k (resident m)).card : ℤ) ≤ config.maxNodes.val := by
      rw [← hresident, ← hlength]
      exact Int.ofNat_le.mpr (card_resident_le _)
    refine ⟨⟨hlength, hplaced, ?_⟩, ?_⟩
    · rw [hresident, hcard, int32_of_isInt]
      · push_cast
        rw [hsize]
      · unfold IsInt
        omega
    · rw [hresident]
      exact .miss hk .kept
  · have hx : x ∈ resident m := h.entry_resident hc hentry
    have hresident : resident ⟨m.storage.set (place config k) (some k), m.size⟩ =
        insert k ((resident m).erase x) := by
      ext y
      refine (hmem y).trans ?_
      rw [hentry, Finset.mem_insert, Finset.mem_erase]
      simp only [Option.some.injEq, ne_eq]
      grind
    have hcard := Finset.card_erase_add_one hx
    refine ⟨⟨hlength, hplaced, ?_⟩, ?_⟩
    · rw [hresident, Finset.card_insert_of_notMem fun hm => hk (Finset.mem_of_mem_erase hm), hcard,
        hsize]
    · rw [hresident]
      exact .miss hk (.evicted hx)

theorem visit_resident (hc : Admissible config) (h : Sound config m) (hk : k ∈ resident m) (l : L) :
    visit config listeners k (m, l) = .ok (m, l) := by
  have hentry := (h.mem_resident_iff hc).mp hk
  simp only [DirectMappedCacheManager.visit, location_ok hc h, get_ok hc h, Java.ok_bind, hentry,
    if_true]

theorem visit_vacant (hc : Admissible config) (h : Sound config m) (hentry : entry config k m = none)
    (l : L) : visit config listeners k (m, l) =
      load listeners k (⟨m.storage.set (place config k) (some k), int32 (m.size + 1)⟩, l) := by
  have hset := set_ok (m := ⟨m.storage, int32 (m.size + 1)⟩) hc h.length k (some k)
  simp only [DirectMappedCacheManager.visit, location_ok hc h, get_ok hc h, Java.ok_bind, hentry,
    reduceCtorEq, if_false, hset]

theorem visit_occupied (hc : Admissible config) (h : Sound config m) {x : α}
    (hentry : entry config k m = some x) (hne : x ≠ k) (l : L) :
    visit config listeners k (m, l) = (do
      let w ← evict listeners x (m, l)
      let m ← set (place config k) (some k) w.1
      load listeners k (m, w.2)) := by
  have hother : ¬some x = some k := by simpa using hne
  simp only [DirectMappedCacheManager.visit, location_ok hc h, get_ok hc h, Java.ok_bind, hentry,
    if_neg hother]

theorem Sound.visit (hr : Responds listeners (fun _ m => m) onEvict onLoad) (hc : Admissible config)
    (h : Sound config m) (k : α) (l : L) :
    ∃ m' l', visit config listeners k (m, l) = .ok (m', l') ∧ Sound config m' ∧
      VisitEffect (resident m) k onEvict onLoad l (resident m') l' := by
  by_cases hk : k ∈ resident m
  · exact ⟨m, l, visit_resident hc h hk l, h, .hit hk⟩
  · cases hentry : entry config k m with
    | none =>
      obtain ⟨hsound, heffect⟩ := h.accept (l := l) hc hk (.inl ⟨hentry, rfl, rfl⟩)
      refine ⟨_, _, ?_, hsound, heffect⟩
      rw [visit_vacant hc h hentry, hr.load]
    | some x =>
      obtain ⟨hsound, heffect⟩ := h.accept (l := l) hc hk (.inr ⟨x, hentry, rfl, rfl⟩)
      have hne : x ≠ k := fun he => hk (he ▸ h.entry_resident hc hentry)
      refine ⟨_, _, ?_, hsound, heffect⟩
      rw [visit_occupied hc h hentry hne]
      simp only [hr.evict, Java.ok_bind, set_ok hc h.length, hr.load]

/-- What `remove` does with a resident key. -/
theorem Sound.vacate (hc : Admissible config) (h : Sound config m) (hk : k ∈ resident m) :
    Sound config ⟨m.storage.set (place config k) none, int32 (m.size - 1)⟩ ∧
      resident ⟨m.storage.set (place config k) none, int32 (m.size - 1)⟩ = (resident m).erase k := by
  have hentry := (h.mem_resident_iff hc).mp hk
  have hresident : resident ⟨m.storage.set (place config k) none, int32 (m.size - 1)⟩ =
      (resident m).erase k := by
    ext y
    refine (h.mem_set (x := y) (k := k) hc none).trans ?_
    rw [hentry, Finset.mem_erase]
    simp only [Option.some.injEq, reduceCtorEq, ne_eq, false_or]
    grind
  have hcard := Finset.card_erase_add_one hk
  have hle := h.card_le
  have hsize := h.size_eq
  have hmax := config.maxNodes.property
  unfold IsInt at hmax
  refine ⟨⟨?_, h.placed_set (.inr rfl), ?_⟩, hresident⟩
  · rw [List.length_set, h.length]
  · rw [hresident]
    show int32 (m.size - 1) = _
    rw [int32_of_isInt]
    · omega
    · unfold IsInt
      omega

theorem remove_resident (hc : Admissible config) (h : Sound config m) (hk : k ∈ resident m) :
    remove config k m = .ok ⟨m.storage.set (place config k) none, int32 (m.size - 1)⟩ := by
  have hentry := (h.mem_resident_iff hc).mp hk
  simp only [DirectMappedCacheManager.remove, location_ok hc h, get_ok hc h, Java.ok_bind,
    hentry, if_true, set_ok hc h.length]

theorem Sound.remove (hc : Admissible config) (h : Sound config m) (k : α) :
    ∃ m', remove config k m = .ok m' ∧ Sound config m' ∧ resident m' = (resident m).erase k := by
  by_cases hk : k ∈ resident m
  · exact ⟨_, remove_resident hc h hk, h.vacate hc hk⟩
  · have hne : entry config k m ≠ some k := fun he => hk ((h.mem_resident_iff hc).mpr he)
    refine ⟨m, ?_, h, (Finset.erase_eq_of_notMem hk).symm⟩
    simp only [DirectMappedCacheManager.remove, location_ok hc h, get_ok hc h, Java.ok_bind,
      if_neg hne]

theorem resident_new (config : DirectMappedConfiguration α) :
    resident ⟨newStorage config, 0⟩ = ∅ := by
  ext k
  simp [mem_resident, newStorage, List.getElem?_replicate]

theorem sound_new (hc : Admissible config) : Sound config ⟨newStorage config, 0⟩ := by
  have hpos := hc.maxNodes_pos
  refine ⟨?_, ?_, ?_⟩
  · rw [newStorage, List.length_replicate]
    omega
  · intro i k hk
    exact absurd (mem_resident.mpr ⟨i, hk⟩) (by simp [resident_new])
  · rw [resident_new, Finset.card_empty]
    rfl

theorem protocol (config : DirectMappedConfiguration α) (hc : Admissible config) :
    Protocol (manager config) config.maxNodes.val (Sound config) (fun _ _ => True)
      (fun settle => settle = fun _ m => m) where
  initial := sound_new hc
  visit hr hs _ k l h _ := h.visit (hs ▸ hr) hc k l
  remove h _ := h.remove hc _
  clear _ := ⟨sound_new hc, resident_new config⟩
  size h := ⟨h.size_eq, h.size_eq.trans_le h.card_le⟩

end Visits

end DirectMappedCacheManager

end CachePolicies
