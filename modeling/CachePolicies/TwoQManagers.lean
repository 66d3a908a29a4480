import CachePolicies.QueueGroups

/-!
# The 2Q manager

Missed keys enter `a1In`. What leaves `a1In` is watched in `a1Out`, and a hit there
promotes a key to `am`. The configuration holds the two thresholds as the truncated
products which the methods `kIn` and `kOut` compute from its ratios.
-/

namespace CachePolicies

structure TwoQConfiguration where
  maxNodes : JavaInt
  kIn : JavaInt
  kOut : JavaInt

inductive TwoQQueue | am | a1In | a1Out
  deriving DecidableEq

abbrev TwoQCacheManager (α : Type) := MultipleQueueCacheManager TwoQQueue α Unit

namespace TwoQCacheManager

open MultipleQueueCacheManager TwoQQueue

variable {α L : Type} [DecidableEq α]

def subclass : Subclass TwoQQueue α Unit where
  afterInsert source _ := source = none || source = some a1Out
  afterRemove _ f := f

def initial : TwoQCacheManager α := ⟨fun _ => ∅, ∅, ()⟩

def clear (m : TwoQCacheManager α) : TwoQCacheManager α :=
  { m with queues := fun _ => ∅, currentLocations := ∅ }

def cacheSize (m : TwoQCacheManager α) : ℤ := int32 ((m.queues am).size + (m.queues a1In).size)

/-- The keys of `am` and `a1In`. -/
def resident (m : TwoQCacheManager α) : Finset α := (m.queues am).toFinset ∪ (m.queues a1In).toFinset

section Methods

variable (config : TwoQConfiguration)
  (listeners : List (CacheManagerListener α (TwoQCacheManager α) L))

def reclaimForEntry (w : TwoQCacheManager α × L) : Java (TwoQCacheManager α × L) :=
  if cacheSize w.1 < config.maxNodes.val then .ok w
  else if (w.1.queues a1In).size > config.kIn.val then do
    let (item, m) ← moveHead a1In a1Out w.1
    let w ← evict listeners item (m, w.2)
    if (w.1.queues a1Out).size > config.kOut.val then do
      let m ← removeNode subclass a1Out w.1
      .ok (m, w.2)
    else .ok w
  else evictNode subclass listeners am w

def onMiss (entry : α) (w : TwoQCacheManager α × L) : Java (TwoQCacheManager α × L) := do
  let w ← reclaimForEntry config listeners w
  insertNode subclass listeners entry a1In w

def onHit (node : α) (currentLocation : TwoQQueue) (w : TwoQCacheManager α × L) :
    Java (TwoQCacheManager α × L) :=
  if currentLocation = am then moveNode subclass listeners node currentLocation am w
  else if currentLocation = a1In then .ok w
  else do
    let w ← reclaimForEntry config listeners w
    moveNode subclass listeners node currentLocation am w

end Methods

abbrev manager (config : TwoQConfiguration) : CacheManager α where
  State := TwoQCacheManager α
  initial := initial
  add _ m := m
  visit listeners :=
    MultipleQueueCacheManager.visit (onHit config listeners) (onMiss config listeners)
  remove hit m := .ok (MultipleQueueCacheManager.remove subclass hit m)
  clear := clear
  cacheSize := cacheSize
  resident := resident

/-! ## What a visit does -/

/-- The thresholds of a usable configuration. -/
structure Admissible (config : TwoQConfiguration) : Prop where
  maxNodes_pos : 1 ≤ config.maxNodes.val
  kIn_nonneg : 0 ≤ config.kIn.val
  kIn_lt : config.kIn.val < config.maxNodes.val
  kOut_nonneg : 0 ≤ config.kOut.val

structure Sound (config : TwoQConfiguration) (m : TwoQCacheManager α) : Prop where
  located : m.Located
  held_le : (m.queues am).length + (m.queues a1In).length ≤ config.maxNodes.val

/-- The end of the demotion of a key: an overfull `a1Out` drops its head. -/
inductive Trimmed (config : TwoQConfiguration) (m : TwoQCacheManager α) : TwoQCacheManager α → Prop
  | kept (hsize : (m.queues a1Out).size ≤ config.kOut.val) : Trimmed config m m
  | dropped {y : α} {ys : List α} (hsize : (m.queues a1Out).size > config.kOut.val)
      (hy : (m.queues a1Out).toList = y :: ys) : Trimmed config m (forget subclass y a1Out m)

/-- The effect of `reclaimForEntry`. -/
inductive Reclaimed (config : TwoQConfiguration) (settle : α → TwoQCacheManager α → TwoQCacheManager α)
    (onEvict : α → L → L) (m : TwoQCacheManager α) (l : L) : TwoQCacheManager α → L → Prop
  | room (hroom : cacheSize m < config.maxNodes.val) : Reclaimed config settle onEvict m l m l
  | demoted {x : α} {xs : List α} {m' : TwoQCacheManager α}
      (hfull : cacheSize m ≥ config.maxNodes.val) (hin : (m.queues a1In).size > config.kIn.val)
      (hx : (m.queues a1In).toList = x :: xs)
      (htrimmed : Trimmed config (settle x (m.relocate x a1In a1Out)) m') :
      Reclaimed config settle onEvict m l m' (onEvict x l)
  | evicted {x : α} {xs : List α} (hfull : cacheSize m ≥ config.maxNodes.val)
      (hin : (m.queues a1In).size ≤ config.kIn.val) (hx : (m.queues am).toList = x :: xs) :
      Reclaimed config settle onEvict m l (forget subclass x am m) (onEvict x l)

/-- The effect of `visit(k)`, by where the key is found. -/
inductive Visited (config : TwoQConfiguration) (settle : α → TwoQCacheManager α → TwoQCacheManager α)
    (onEvict onLoad : α → L → L) (k : α) (m : TwoQCacheManager α) (l : L) :
    TwoQCacheManager α → L → Prop
  | hitAm (hk : m.currentLocations.lookup k = some am) :
      Visited config settle onEvict onLoad k m l (m.relocate k am am) l
  | hitA1In (hk : m.currentLocations.lookup k = some a1In) :
      Visited config settle onEvict onLoad k m l m l
  | ghostHit {m' : TwoQCacheManager α} {l' : L} (hk : m.currentLocations.lookup k = some a1Out)
      (hreclaimed : Reclaimed config settle onEvict m l m' l') :
      Visited config settle onEvict onLoad k m l (m'.relocate k a1Out am) (onLoad k l')
  | missed {m' : TwoQCacheManager α} {l' : L} (hk : m.currentLocations.lookup k = none)
      (hreclaimed : Reclaimed config settle onEvict m l m' l') :
      Visited config settle onEvict onLoad k m l (m'.enqueue k a1In) (onLoad k l')

section Visits

variable {config : TwoQConfiguration}
  {listeners : List (CacheManagerListener α (TwoQCacheManager α) L)}
  {settle : α → TwoQCacheManager α → TwoQCacheManager α} {onEvict onLoad : α → L → L} {k x : α}
  {s : TwoQQueue} {m m' : TwoQCacheManager α} {l l' : L} {xs : List α}

theorem mem_resident : k ∈ resident m ↔ k ∈ m.queues am ∨ k ∈ m.queues a1In := by simp [resident]

theorem resident_eq_keysIn : resident m = keysIn {am, a1In} m := by
  rw [keysIn, Finset.biUnion_insert, Finset.singleton_biUnion, resident]

theorem card_resident (h : m.Filed) :
    ((resident m).card : ℤ) = (m.queues am).length + (m.queues a1In).length := by
  rw [resident_eq_keysIn, h.card_keysIn, Finset.sum_pair (by decide)]

theorem resident_forget (honly : ∀ q, k ∈ m.queues q → q = s) :
    resident (forget subclass k s m) = (resident m).erase k := by
  rw [resident_eq_keysIn, keysIn_forget honly, ← resident_eq_keysIn]

theorem resident_enqueue : resident (m.enqueue k a1In) = insert k (resident m) := by
  rw [resident_eq_keysIn, keysIn_enqueue (by decide), ← resident_eq_keysIn]

theorem resident_promote : resident (m.relocate k s am) = insert k (resident m) := by
  rw [resident_eq_keysIn, keysIn_promote (by decide), ← resident_eq_keysIn]

theorem resident_remove (h : m.Filed) :
    resident (MultipleQueueCacheManager.remove subclass k m) = (resident m).erase k := by
  rw [resident_eq_keysIn, h.keysIn_remove, ← resident_eq_keysIn]

/-- A resident queue is not longer than `size()` can tell. -/
theorem Sound.size_eq (h : Sound config m) (hs : s ≠ a1Out) :
    (m.queues s).size = (m.queues s).length := by
  have ham := (m.queues am).length_nonneg
  have hin := (m.queues a1In).length_nonneg
  have hheld := h.held_le
  have hc := config.maxNodes.property.2
  apply LinkedHashSet.size_of_le
  cases s with
  | am => omega
  | a1In => omega
  | a1Out => exact absurd rfl hs

theorem Sound.cacheSize_eq (h : Sound config m) :
    cacheSize m = (m.queues am).length + (m.queues a1In).length := by
  have ham := (m.queues am).length_nonneg
  have hin := (m.queues a1In).length_nonneg
  have hheld := h.held_le
  have hc := config.maxNodes.property
  rw [cacheSize, h.size_eq (by decide), h.size_eq (by decide), int32_of_isInt]
  unfold IsInt at hc ⊢
  omega

/-- `reclaimForEntry` takes heads only from queues that have one. -/
theorem exists_reclaimed (settle : α → TwoQCacheManager α → TwoQCacheManager α)
    (onEvict : α → L → L) (hc : Admissible config) (h : Sound config m) (l : L) :
    ∃ m' l', Reclaimed config settle onEvict m l m' l' := by
  have hkIn := hc.kIn_nonneg
  have hlt := hc.kIn_lt
  have hkOut := hc.kOut_nonneg
  by_cases hroom : cacheSize m < config.maxNodes.val
  · exact ⟨m, l, .room hroom⟩
  · have hsize := h.cacheSize_eq
    have heq := h.size_eq (s := a1In) (by decide)
    by_cases hin : (m.queues a1In).size > config.kIn.val
    · obtain ⟨x, xs, hx⟩ := LinkedHashSet.exists_cons_of_length_pos (q := m.queues a1In) (by omega)
      by_cases hout : ((settle x (m.relocate x a1In a1Out)).queues a1Out).size > config.kOut.val
      · have hle := ((settle x (m.relocate x a1In a1Out)).queues a1Out).size_le_length
        obtain ⟨y, ys, hy⟩ := LinkedHashSet.exists_cons_of_length_pos
          (q := (settle x (m.relocate x a1In a1Out)).queues a1Out) (by omega)
        exact ⟨_, _, .demoted (not_lt.mp hroom) hin hx (.dropped hout hy)⟩
      · exact ⟨_, _, .demoted (not_lt.mp hroom) hin hx (.kept (not_lt.mp hout))⟩
    · obtain ⟨x, xs, hx⟩ := LinkedHashSet.exists_cons_of_length_pos (q := m.queues am) (by omega)
      exact ⟨_, _, .evicted (not_lt.mp hroom) (not_lt.mp hin) hx⟩

theorem Reclaimed.reclaimForEntry_eq (hr : Responds listeners settle onEvict onLoad)
    (hs : Settles subclass settle) (hm : m.Filed)
    (h : Reclaimed config settle onEvict m l m' l') :
    reclaimForEntry config listeners (m, l) = .ok (m', l') := by
  cases h with
  | room hroom => rw [reclaimForEntry, if_pos hroom]
  | demoted hfull hin hx htrimmed =>
    cases htrimmed with
    | kept hsize =>
      simp only [reclaimForEntry, if_neg (not_lt.mpr hfull), if_pos hin, moveHead_cons hx,
        Java.ok_bind, hr.evict, if_neg (not_lt.mpr hsize)]
    | dropped hsize hy =>
      simp only [reclaimForEntry, if_neg (not_lt.mpr hfull), if_pos hin, moveHead_cons hx,
        Java.ok_bind, hr.evict, if_pos hsize, removeNode_cons hy]
  | evicted hfull hin hx =>
    simp only [reclaimForEntry, if_neg (not_lt.mpr hfull), if_neg (not_lt.mpr hin)]
    exact evictNode_cons hr hs (fun _ _ => rfl) hm hx

theorem Visited.visit_eq (hr : Responds listeners settle onEvict onLoad)
    (hs : Settles subclass settle) (hm : m.Filed)
    (h : Visited config settle onEvict onLoad k m l m' l') :
    (manager config).visit listeners k (m, l) = .ok (m', l') := by
  cases h with
  | hitAm hk =>
    simp only [manager, MultipleQueueCacheManager.visit, hk, onHit, if_true, moveNode_ok hr]
    rfl
  | hitA1In hk =>
    simp only [manager, MultipleQueueCacheManager.visit, hk]
    rfl
  | ghostHit hk hreclaimed =>
    simp only [manager, MultipleQueueCacheManager.visit, hk, onHit,
      if_neg (show a1Out ≠ am by decide), if_neg (show a1Out ≠ a1In by decide),
      hreclaimed.reclaimForEntry_eq hr hs hm, Java.ok_bind, moveNode_ok hr]
    rfl
  | missed hk hreclaimed =>
    simp only [manager, MultipleQueueCacheManager.visit, hk, onMiss,
      hreclaimed.reclaimForEntry_eq hr hs hm, Java.ok_bind, insertNode_ok hr]
    rfl

theorem visit_cases (hr : Responds listeners settle onEvict onLoad) (hs : Settles subclass settle)
    (hc : Admissible config) (h : Sound config m) (k : α) (l : L) :
    ∃ m' l', (manager config).visit listeners k (m, l) = .ok (m', l') ∧
      Visited config settle onEvict onLoad k m l m' l' := by
  obtain ⟨m', l', hreclaimed⟩ := exists_reclaimed settle onEvict hc h l
  obtain ⟨m'', l'', hv⟩ : ∃ m'' l'', Visited config settle onEvict onLoad k m l m'' l'' := by
    cases hk : m.currentLocations.lookup k with
    | none => exact ⟨_, _, .missed hk hreclaimed⟩
    | some s =>
      cases s with
      | am => exact ⟨_, _, .hitAm hk⟩
      | a1In => exact ⟨_, _, .hitA1In hk⟩
      | a1Out => exact ⟨_, _, .ghostHit hk hreclaimed⟩
  exact ⟨m'', l'', hv.visit_eq hr hs h.located.filed, hv⟩

end Visits

/-! ## The invariant -/

section Invariants

variable {config : TwoQConfiguration}
  {listeners : List (CacheManagerListener α (TwoQCacheManager α) L)}
  {settle : α → TwoQCacheManager α → TwoQCacheManager α} {onEvict onLoad : α → L → L} {k x : α}
  {m m' : TwoQCacheManager α} {l l' : L} {xs : List α}

/-- What is true of the manager once `reclaimForEntry` has run. A watched key may have been
dropped on the way. -/
structure AfterReclaim (config : TwoQConfiguration) (onEvict : α → L → L)
    (m : TwoQCacheManager α) (l : L) (m' : TwoQCacheManager α) (l' : L) : Prop where
  located : m'.Located
  held_lt : (m'.queues am).length + (m'.queues a1In).length + 1 ≤ config.maxNodes.val
  room : RoomMade (resident m) onEvict l (resident m') l'
  missed : ∀ k, m.currentLocations.lookup k = none → m'.currentLocations.lookup k = none
  watched : ∀ k, m.currentLocations.lookup k = some a1Out → ∀ q, k ∈ m'.queues q → q = a1Out

/-- A demoted key waits in `a1Out`, unless the listeners have removed it. -/
theorem afterReclaim_demote (hs : Settles subclass settle) (h : Sound config m)
    (hx : (m.queues a1In).toList = x :: xs) :
    AfterReclaim config onEvict m l (settle x (m.relocate x a1In a1Out)) (onEvict x l) := by
  have hm := h.located
  have hmem : x ∈ m.queues a1In := LinkedHashSet.mem_of_toList_cons hx
  have hxloc := hm.filed hmem
  have hmoved : (m.relocate x a1In a1Out).currentLocations.lookup x = some a1Out := by simp
  have hsame (q) (hq : q ≠ a1Out) :
      (settle x (m.relocate x a1In a1Out)).queues q = (m.relocate x a1In a1Out).queues q :=
    hs.queues_of_ne hmoved hq
  have hsizes (q) := length_relocate (q := q) (d := a1Out) hm.filed hmem
  have h1 := hsizes am
  have h2 := hsizes a1In
  simp at h1 h2
  have hheld := h.held_le
  have hxam := hm.filed.notMem_of_lookup hxloc (q := am) (by decide)
  have hlocated := hs.located (hm.relocate (d := a1Out) (hm.only hxloc)) x
  refine ⟨hlocated, ?_, ?_, ?_, ?_⟩
  · rw [hsame am (by decide), hsame a1In (by decide)]
    omega
  · have hresident : resident (settle x (m.relocate x a1In a1Out)) = (resident m).erase x := by
      rw [resident_eq_keysIn, hs.keysIn hmoved (by decide), keysIn_demote (hm.only hxloc) (by decide),
        ← resident_eq_keysIn]
    rw [hresident]
    exact .evicted (mem_resident.mpr (.inr hmem))
  · intro k hk
    have hkx : k ≠ x := by
      rintro rfl
      cases hk.symm.trans hxloc
    rw [hs.lookup_of_ne hmoved hkx, lookup_relocate, if_neg hkx, hk]
  · intro k hk
    have hkx : k ≠ x := by
      rintro rfl
      cases hk.symm.trans hxloc
    apply hlocated.only
    rw [hs.lookup_of_ne hmoved hkx, lookup_relocate, if_neg hkx, hk]

/-- Dropping the head of `a1Out` touches no resident key. -/
theorem AfterReclaim.drop {y : α} {ys : List α} (h : AfterReclaim config onEvict m l m' l')
    (hy : (m'.queues a1Out).toList = y :: ys) :
    AfterReclaim config onEvict m l (forget subclass y a1Out m') l' := by
  have hmem : y ∈ m'.queues a1Out := LinkedHashSet.mem_of_toList_cons hy
  have ham : (forget subclass y a1Out m').queues am = m'.queues am :=
    queues_forget_of_ne (by decide)
  have hin : (forget subclass y a1Out m').queues a1In = m'.queues a1In :=
    queues_forget_of_ne (by decide)
  refine ⟨h.located.forget (h.located.only (h.located.filed hmem)), ?_, ?_, ?_, ?_⟩
  · rw [ham, hin]
    exact h.held_lt
  · have hresident : resident (forget subclass y a1Out m') = resident m' := by
      rw [resident, resident, ham, hin]
    rw [hresident]
    exact h.room
  · intro k hk
    rw [lookup_forget, h.missed k hk, ite_self]
  · intro k hk q hq
    exact h.watched k hk q (mem_forget.mp hq).1

theorem Reclaimed.after (hs : Settles subclass settle)
    (h : Sound config m) (hr : Reclaimed config settle onEvict m l m' l') :
    AfterReclaim config onEvict m l m' l' := by
  have hm := h.located
  have hheld := h.held_le
  cases hr with
  | room hroom =>
    rw [h.cacheSize_eq] at hroom
    exact ⟨hm, by omega, .kept, fun _ hk => hk, fun k hk => hm.only hk⟩
  | @demoted x xs m₁ hfull hin hx htrimmed =>
    cases htrimmed with
    | kept => exact afterReclaim_demote hs h hx
    | dropped _ hy => exact (afterReclaim_demote hs h hx).drop hy
  | @evicted x xs hfull hin hx =>
    have hmem : x ∈ m.queues am := LinkedHashSet.mem_of_toList_cons hx
    have hxloc := hm.filed hmem
    have hsizes (q) := length_forget subclass (q := q) hmem
    have h1 := hsizes am
    have h2 := hsizes a1In
    simp at h1 h2
    refine ⟨hm.forget (hm.only hxloc), by omega, ?_, ?_, ?_⟩
    · rw [resident_forget (hm.only hxloc)]
      exact .evicted (mem_resident.mpr (.inl hmem))
    · intro k hk
      rw [lookup_forget, hk, ite_self]
    · intro k hk q hq
      exact hm.only hk q (mem_forget.mp hq).1

theorem sound_empty (hc : Admissible config) :
    Sound config (⟨fun _ => ∅, ∅, ()⟩ : TwoQCacheManager α) := by
  have hpos := hc.maxNodes_pos
  refine ⟨located_empty, ?_⟩
  simp
  omega

theorem Sound.remove (h : Sound config m) (k : α) :
    Sound config (MultipleQueueCacheManager.remove subclass k m) := by
  have hle := length_remove_le subclass k m
  have h1 := hle am
  have h2 := hle a1In
  have hheld := h.held_le
  exact ⟨h.located.remove k, by omega⟩

/-- A watched key joins `am`, also when `reclaimForEntry` has just dropped it from `a1Out`. -/
theorem AfterReclaim.promote (h : AfterReclaim config onEvict m l m' l')
    (hk : m.currentLocations.lookup k = some a1Out) : Sound config (m'.relocate k a1Out am) := by
  have honly := h.watched k hk
  have hlt := h.held_lt
  by_cases hmem : k ∈ m'.queues a1Out
  · have hsizes (q) := length_relocate (q := q) (d := am) h.located.filed hmem
    have h1 := hsizes am
    have h2 := hsizes a1In
    simp at h1 h2
    exact ⟨h.located.relocate honly, by omega⟩
  · have hlocated := h.located.relocate (d := am) honly
    rw [relocate_of_notMem hmem] at hlocated ⊢
    have hsizes (q) := length_enqueue (q := q) (fun hin => absurd (honly am hin) (by decide))
    have h1 := hsizes am
    have h2 := hsizes a1In
    simp at h1 h2
    exact ⟨hlocated, by omega⟩

/-- Every branch of `visit` keeps the invariant and the load and evict protocol. -/
theorem Visited.sound (hs : Settles subclass settle) (h : Sound config m)
    (hv : Visited config settle onEvict onLoad k m l m' l') :
    Sound config m' ∧ VisitEffect (resident m) k onEvict onLoad l (resident m') l' := by
  have hm := h.located
  have hheld := h.held_le
  cases hv with
  | hitAm hk =>
    have hmem := (hm k am).mp hk
    have hsizes (q) := length_relocate (q := q) (d := am) hm.filed hmem
    have h1 := hsizes am
    have h2 := hsizes a1In
    simp at h1 h2
    refine ⟨⟨hm.relocate (hm.only hk), by omega⟩, ?_⟩
    have hres : k ∈ resident m := mem_resident.mpr (.inl hmem)
    rw [resident_promote, Finset.insert_eq_of_mem hres]
    exact .hit hres
  | hitA1In hk => exact ⟨h, .hit (mem_resident.mpr (.inr ((hm k a1In).mp hk)))⟩
  | @ghostHit m₁ l₁ hk hreclaimed =>
    have hafter := hreclaimed.after hs h
    have hnot : k ∉ resident m := by
      rw [resident_eq_keysIn]
      exact hm.filed.notMem_keysIn hk (by decide)
    rw [resident_promote]
    exact ⟨hafter.promote hk, .miss hnot hafter.room⟩
  | @missed m₁ l₁ hk hreclaimed =>
    have hafter := hreclaimed.after hs h
    have hk₁ := hafter.missed k hk
    have hlt := hafter.held_lt
    have hsizes (q) := length_enqueue (q := q) (hafter.located.filed.notMem_of_none hk₁ a1In)
    have h1 := hsizes am
    have h2 := hsizes a1In
    simp at h1 h2
    refine ⟨⟨hafter.located.enqueue hk₁, by omega⟩, ?_⟩
    rw [resident_enqueue]
    refine .miss ?_ hafter.room
    rw [resident_eq_keysIn]
    exact hm.filed.notMem_keysIn_of_none hk

theorem Sound.visit (hr : Responds listeners settle onEvict onLoad) (hs : Settles subclass settle)
    (hc : Admissible config) (h : Sound config m) (k : α) (l : L) :
    ∃ m' l', (manager config).visit listeners k (m, l) = .ok (m', l') ∧ Sound config m' ∧
      VisitEffect (resident m) k onEvict onLoad l (resident m') l' := by
  obtain ⟨m', l', hok, hv⟩ := visit_cases hr hs hc h k l
  exact ⟨m', l', hok, hv.sound hs h⟩

end Invariants

/-! ## The ghosts -/

/-- No visit makes `a1Out` longer than `size()` can tell: at the largest `kOut` nothing would be
dropped from it. Only a key which is not tracked, and for which another one is demoted, does so. -/
def Fits (config : TwoQConfiguration) (m : TwoQCacheManager α) : Call α → Prop
  | .visit k =>
    config.kOut.val < 2147483647 ∨ (m.queues a1Out).length < 2147483647 ∨
      m.currentLocations.lookup k ≠ none ∨ cacheSize m < config.maxNodes.val ∨
      (m.queues a1In).size ≤ config.kIn.val
  | _ => True

instance (config : TwoQConfiguration) (m : TwoQCacheManager α) :
    ∀ call, Decidable (Fits config m call)
  | .visit _ => inferInstanceAs (Decidable (_ ∨ _ ∨ _ ∨ _ ∨ _))
  | .remove _ | .clear => .isTrue trivial

theorem fits_of_lt {config : TwoQConfiguration} (h : config.kOut.val < 2147483647)
    (m : TwoQCacheManager α) (call : Call α) : Fits config m call := by
  cases call with
  | visit k => exact .inl h
  | remove k => trivial
  | clear => trivial

/-- The invariant, with the bound on the ghosts. -/
structure Bounded (config : TwoQConfiguration) (m : TwoQCacheManager α) : Prop
    extends Sound config m where
  ghosts_le : (m.queues a1Out).length ≤ config.kOut.val

section Ghosts

variable {config : TwoQConfiguration} {onEvict onLoad : α → L → L} {k : α}
  {m m' : TwoQCacheManager α} {l l' : L}

/-- The demotion for which `size()` does not tell that `a1Out` holds a key too many. -/
structure Overfull (config : TwoQConfiguration) (m m' : TwoQCacheManager α) : Prop where
  full : config.maxNodes.val ≤ cacheSize m
  demotes : config.kIn.val < (m.queues a1In).size
  largest : config.kOut.val = 2147483647
  length_eq : (m.queues a1Out).length = 2147483647
  kept : ∀ k ∈ m.queues a1Out, k ∈ m'.queues a1Out
  length_after : (m'.queues a1Out).length = 2147483648

/-- A demotion drops the ghost which is too many, where `size()` can tell. -/
theorem Reclaimed.ghosts_le (h : Bounded config m)
    (hr : Reclaimed config (fun _ m => m) onEvict m l m' l') :
    (m'.queues a1Out).length ≤ config.kOut.val ∨ Overfull config m m' := by
  have hghosts := h.ghosts_le
  have hkOut := config.kOut.property.2
  cases hr with
  | room => exact .inl hghosts
  | @demoted x xs m' hfull hin hx htrimmed =>
    have hmem : x ∈ m.queues a1In := LinkedHashSet.mem_of_toList_cons hx
    have hsizes := length_relocate (q := a1Out) (d := a1Out) h.located.filed hmem
    simp at hsizes
    cases htrimmed with
    | kept hsize =>
      by_cases hle : ((m.relocate x a1In a1Out).queues a1Out).length ≤ config.kOut.val
      · exact .inl hle
      · -- `size()` is the largest `int`, and no `kOut` is below it
        have hnot := not_lt.mpr hsize
        rw [LinkedHashSet.lt_size_iff] at hnot
        refine .inr ⟨hfull, hin, by omega, by omega, fun y hy => ?_, by omega⟩
        exact mem_relocate.mpr (.inl ⟨hy, fun heq => absurd heq (by decide)⟩)
    | dropped hsize hy =>
      have hdropped := length_forget subclass (q := a1Out) (LinkedHashSet.mem_of_toList_cons hy)
      simp at hdropped
      left
      omega
  | evicted =>
    rw [queues_forget_of_ne (by decide)]
    exact .inl hghosts

/-- A ghost that returns makes the room which the key demoted for it takes. -/
theorem Visited.bounded (h : Bounded config m)
    (hv : Visited config (fun _ m => m) onEvict onLoad k m l m' l')
    (hfits : Fits config m (.visit k)) : Bounded config m' := by
  refine ⟨(hv.sound (.inl rfl) h.toSound).1, ?_⟩
  cases hv with
  | hitAm =>
    rw [queues_relocate_of_ne (by decide) (by decide)]
    exact h.ghosts_le
  | hitA1In => exact h.ghosts_le
  | @ghostHit m₁ l₁ hk hreclaimed =>
    rw [queues_relocate_source (by decide)]
    have hle := LinkedHashSet.length_remove_le (m₁.queues a1Out) k
    rcases hreclaimed.ghosts_le h with hghosts | hover
    · exact hle.trans hghosts
    · have hmem := hover.kept k ((h.located k a1Out).mp hk)
      have hafter := hover.length_after
      have hlargest := hover.largest
      rw [LinkedHashSet.length_remove hmem]
      omega
  | @missed m₁ l₁ hk hreclaimed =>
    rw [queues_enqueue_of_ne (by decide)]
    rcases hreclaimed.ghosts_le h with hghosts | hover
    · exact hghosts
    · rcases hfits with hlt | hlt | htracked | hroom | hin
      · exact absurd hover.largest hlt.ne
      · exact absurd hover.length_eq hlt.ne
      · exact absurd hk htracked
      · exact absurd hover.full (not_le.mpr hroom)
      · exact absurd hover.demotes (not_lt.mpr hin)

/-- A visit that does not fit leaves more ghosts than `kOut`. -/
theorem Visited.fits (h : Bounded config m)
    (hv : Visited config (fun _ m => m) onEvict onLoad k m l m' l')
    (hghosts : (m'.queues a1Out).length ≤ config.kOut.val) : Fits config m (.visit k) := by
  by_contra hnot
  simp only [Fits, not_or, not_lt, not_le, not_not] at hnot
  obtain ⟨hkOut, hlength, hk, hfull, hin⟩ := hnot
  have hmax := config.kOut.property.2
  have hbound := h.ghosts_le
  cases hv with
  | hitAm hlookup => cases hlookup.symm.trans hk
  | hitA1In hlookup => cases hlookup.symm.trans hk
  | ghostHit hlookup => cases hlookup.symm.trans hk
  | missed _ hreclaimed =>
    rw [queues_enqueue_of_ne (by decide)] at hghosts
    cases hreclaimed with
    | room hroom => exact absurd hroom (not_lt.mpr hfull)
    | evicted _ hle => exact absurd hin (not_lt.mpr hle)
    | @demoted x xs m₁ _ _ hx htrimmed =>
      have hmem : x ∈ m.queues a1In := LinkedHashSet.mem_of_toList_cons hx
      have hsizes := length_relocate (q := a1Out) (d := a1Out) h.located.filed hmem
      simp at hsizes
      cases htrimmed with
      | kept => omega
      | dropped hsize =>
        rw [gt_iff_lt, LinkedHashSet.lt_size_iff] at hsize
        omega

theorem bounded_empty (hc : Admissible config) :
    Bounded config (⟨fun _ => ∅, ∅, ()⟩ : TwoQCacheManager α) :=
  ⟨sound_empty hc, hc.kOut_nonneg⟩

theorem Bounded.remove (h : Bounded config m) (k : α) :
    Bounded config (MultipleQueueCacheManager.remove subclass k m) :=
  ⟨h.toSound.remove k, (length_remove_le subclass k m a1Out).trans h.ghosts_le⟩

end Ghosts

end TwoQCacheManager

end CachePolicies
