import CachePolicies.AdaptiveReplacementInvariants
import CachePolicies.VisitHistories

/-!
# How full the adaptive manager keeps the cache

Without removals the manager fills the cache before it keeps any ghost, so a call
of `freeRoom` always finds a key to evict. A removal leaves ghosts beside free
room, and since only directory sizes are compared, a later visit may evict although
there is room.
-/

namespace CachePolicies.AdaptiveReplacementCacheManager

open MultipleQueueCacheManager ReplacementCacheManager ReplacementQueue

variable {α L : Type} [DecidableEq α]

/-! ## Where `freeRoom` is called -/

/-- `visit(k)` calls `freeRoom(hitList)` when the manager is in state `m'`. -/
inductive CallsFreeRoom (config : AdaptiveReplacementConfiguration) (k : α)
    (m : AdaptiveReplacementCacheManager α) :
    Option AdaptiveReplacementQueue → AdaptiveReplacementCacheManager α → Prop
  | ghostHit {s : AdaptiveReplacementQueue} {target : ℤ} (hs : s = b1 ∨ s = b2)
      (hk : m.currentLocations.lookup k = some s)
      (htarget : adaptedTarget config s m = .ok target) :
      CallsFreeRoom config k m (some s) { m with own := ⟨target⟩ }
  | sideFull {m' : AdaptiveReplacementCacheManager α}
      (hk : m.currentLocations.lookup k = none) (hside : leftSideSize m ≥ config.maxNodes.val)
      (ht1 : (m.queues t1).size < config.maxNodes.val) (hdrop : removeNode subclass b1 m = .ok m') :
      CallsFreeRoom config k m none m'
  | directoryFull {m' : AdaptiveReplacementCacheManager α}
      (hk : m.currentLocations.lookup k = none) (hside : leftSideSize m < config.maxNodes.val)
      (hcache : directorySize m ≥ config.maxNodes.val)
      (hdirectory : directorySize m ≥ directoryCapacity config)
      (hdrop : removeNode subclass b2 m = .ok m') : CallsFreeRoom config k m none m'
  | cacheFull (hk : m.currentLocations.lookup k = none) (hside : leftSideSize m < config.maxNodes.val)
      (hcache : directorySize m ≥ config.maxNodes.val)
      (hdirectory : directorySize m < directoryCapacity config) : CallsFreeRoom config k m none m

/-- The end of a visit, once room has been made: `moveNode` on a hit, `insertNode` on a miss. -/
def place (listeners : List (CacheManagerListener α (AdaptiveReplacementCacheManager α) L)) (k : α)
    (location : Option AdaptiveReplacementQueue) (w : AdaptiveReplacementCacheManager α × L) :
    Java (AdaptiveReplacementCacheManager α × L) :=
  match location with
  | some s => moveNode subclass listeners k s t2 w
  | none => insertNode subclass listeners k t1 w

section Calls

variable {config : AdaptiveReplacementConfiguration} {k x : α} {xs : List α}
  {s : AdaptiveReplacementQueue} {hitList : Option AdaptiveReplacementQueue}
  {m m' : AdaptiveReplacementCacheManager α}

/-- A visit that calls `freeRoom` does nothing else between the call and the placing of the key. -/
theorem CallsFreeRoom.visit_eq (h : CallsFreeRoom config k m hitList m')
    (listeners : List (CacheManagerListener α (AdaptiveReplacementCacheManager α) L)) (l : L) :
    (manager config).visit listeners k (m, l) =
      freeRoom listeners hitList (m', l) >>= place listeners k (m.currentLocations.lookup k) := by
  cases h with
  | @ghostHit s target hs hk htarget =>
    have hghost : ¬(s = t1 ∨ s = t2) := by
      rcases hs with rfl | rfl <;> simp
    simp only [manager, MultipleQueueCacheManager.visit, hk, onHit, if_neg hghost, htarget,
      Java.ok_bind]
    rfl
  | sideFull hk hside ht1 hdrop =>
    simp only [manager, MultipleQueueCacheManager.visit, hk, onMiss, if_pos hside, if_pos ht1,
      hdrop, Java.ok_bind]
    rfl
  | directoryFull hk hside hcache hdirectory hdrop =>
    simp only [manager, MultipleQueueCacheManager.visit, hk, onMiss, if_neg (not_le.mpr hside),
      if_pos hcache, if_pos hdirectory, hdrop, Java.ok_bind]
    rfl
  | cacheFull hk hside hcache hdirectory =>
    simp only [manager, MultipleQueueCacheManager.visit, hk, onMiss, if_neg (not_le.mpr hside),
      if_pos hcache, if_neg (not_le.mpr hdirectory), Java.ok_bind]
    rfl

theorem removeNode_eq_ok (h : removeNode subclass s m = .ok m') :
    ∃ x xs, (m.queues s).toList = x :: xs ∧ m' = forget subclass x s m := by
  cases hx : (m.queues s).toList with
  | nil =>
    rw [removeNode_empty (LinkedHashSet.ext hx)] at h
    cases h
  | cons x xs =>
    rw [removeNode_cons hx] at h
    cases h
    exact ⟨x, xs, rfl, rfl⟩

end Calls

/-! ## Runs of visits -/

section Visits

variable {config : AdaptiveReplacementConfiguration} {k : α} {s : AdaptiveReplacementQueue}
  {hitList : Option AdaptiveReplacementQueue} {m m' : AdaptiveReplacementCacheManager α}
  {history : History (AdaptiveReplacementCacheManager α) α}

/-- The invariant of the runs without removals. -/
structure Occupied (config : AdaptiveReplacementConfiguration)
    (history : History (AdaptiveReplacementCacheManager α) α)
    (m : AdaptiveReplacementCacheManager α) : Prop where
  sound : Sound config m
  full : 0 < (m.queues b1).length + (m.queues b2).length →
    (m.queues t1).length + (m.queues t2).length = config.maxNodes.val
  visited : resident m ⊆ visitedKeys history
  kept : (m.queues t1).length + (m.queues t2).length < config.maxNodes.val →
    visitedKeys history ⊆ resident m

/-- With no ghost about and room in the cache, a visit makes no room. -/
theorem Sound.visit_room (h : Sound config m)
    (hghosts : (m.queues b1).length + (m.queues b2).length = 0)
    (hroom : (m.queues t1).length + (m.queues t2).length < config.maxNodes.val)
    {events : List (Event α)}
    (hok : (manager config).perform m (.visit k) = .ok (m', events)) :
    m' = m.enqueue k t1 ∨ ∃ s, k ∈ m.queues s ∧ (s = t1 ∨ s = t2) ∧ m' = m.relocate k s t2 := by
  have hb1 := (m.queues b1).length_nonneg
  have hb2 := (m.queues b2).length_nonneg
  have ht2 := (m.queues t2).length_nonneg
  have hside := h.leftSideSize_eq
  have hcache := h.directorySize_eq
  rcases visit_cases config recorder_responds (.inl rfl) h.located k ([] : List (Event α))
    with ⟨m₁, l₁, hok₁, hv⟩ | ⟨herror, -⟩
  · cases hok₁.symm.trans hok
    cases hv with
    | @hit s hs hk => exact .inr ⟨s, (h.located k s).mp hk, hs, rfl⟩
    | ghostHit hs hk =>
      have hpos := LinkedHashSet.length_pos_of_mem ((h.located k _).mp hk)
      rcases hs with rfl | rfl <;> omega
    | sideFull => omega
    | t1Full => omega
    | directoryFull => omega
    | cacheFull => omega
    | room => exact .inl rfl
  · cases herror.symm.trans hok

theorem Occupied.target_fits (h : Occupied config history m)
    (hk : m.currentLocations.lookup k = some b1) :
    m.own.targetT1Size + max ((m.queues b2).length.tdiv (m.queues b1).length) 1 ≤ 2147483647 := by
  have hpos := LinkedHashSet.length_pos_of_mem ((h.sound.located k _).mp hk)
  have hb2 := (m.queues b2).length_nonneg
  have hratio : (m.queues b2).length.tdiv (m.queues b1).length ≤ (m.queues b2).length :=
    Int.tdiv_le_self _ hb2
  have hfull := h.full (by omega)
  have hd := h.sound.directory_le
  have hu := h.sound.unghosted
  have ht := h.sound.target_le
  omega

theorem Occupied.fits (h : Occupied config history m) {events : List (Event α)}
    (hok : (manager config).perform m (.visit k) = .ok (m', events)) :
    Fits config m (.visit k) :=
  ⟨h.sound.capacity_fits hok, h.target_fits⟩

/-- A visit to a full cache leaves it full. -/
theorem Occupied.visit_full (h : Occupied config history m) (hc : 1 ≤ config.maxNodes.val)
    (hfull : (m.queues t1).length + (m.queues t2).length = config.maxNodes.val)
    {events : List (Event α)} (hok : (manager config).perform m (.visit k) = .ok (m', events)) :
    (m'.queues t1).length + (m'.queues t2).length = config.maxNodes.val := by
  obtain ⟨m₁, l₁, hok₁, hsound, heffect⟩ :=
    h.sound.visit recorder_responds (.inl rfl) hc (l := []) (h.fits hok)
  cases hok₁.symm.trans hok
  have hcard := card_resident h.sound.located.filed
  have hcard' := card_resident hsound.located.filed
  have hgrown := heffect.card_le
  have hheld := hsound.held_le
  omega

theorem Occupied.visit (h : Occupied config history m) (hc : 1 ≤ config.maxNodes.val)
    {events : List (Event α)} (hok : (manager config).perform m (.visit k) = .ok (m', events)) :
    Occupied config (⟨m, .visit k, events, m'⟩ :: history) m' := by
  obtain ⟨m₁, l₁, hok₁, hsound, heffect⟩ :=
    h.sound.visit recorder_responds (.inl rfl) hc (l := []) (h.fits hok)
  cases hok₁.symm.trans hok
  have hvisited : resident m' ⊆ insert k (visitedKeys history) :=
    heffect.subset_insert.trans (Finset.insert_subset_insert k h.visited)
  by_cases hfull : (m.queues t1).length + (m.queues t2).length = config.maxNodes.val
  · have hfull' := h.visit_full hc hfull hok
    exact ⟨hsound, fun _ => hfull', hvisited, fun hlt => absurd hfull' hlt.ne⟩
  · have hb1 := (m.queues b1).length_nonneg
    have hb2 := (m.queues b2).length_nonneg
    have hheld := h.sound.held_le
    have hghosts : (m.queues b1).length + (m.queues b2).length = 0 := by
      have hf := h.full
      omega
    have hkept := h.kept (by omega)
    have hghosts' : (m'.queues b1).length + (m'.queues b2).length = 0 ∧
        insert k (resident m) ⊆ resident m' := by
      rcases h.sound.visit_room hghosts (by omega) hok with rfl | ⟨s, hmem, hs, rfl⟩
      · rw [queues_enqueue_of_ne (by simp), queues_enqueue_of_ne (by simp)]
        refine ⟨hghosts, ?_⟩
        intro y hy
        simp only [Finset.mem_insert, mem_resident, mem_enqueue] at hy ⊢
        grind
      · have hne : b1 ≠ s ∧ b2 ≠ s := by rcases hs with rfl | rfl <;> simp
        rw [queues_relocate_of_ne hne.1 (by simp), queues_relocate_of_ne hne.2 (by simp)]
        refine ⟨hghosts, ?_⟩
        intro y hy
        simp only [Finset.mem_insert, mem_resident, mem_relocate] at hy ⊢
        rcases hs with rfl | rfl <;> grind
    refine ⟨hsound, fun hpos => ?_, hvisited, fun _ => ?_⟩
    · omega
    · exact (Finset.insert_subset_insert k hkept).trans hghosts'.2

theorem occupied_initial (hc : 1 ≤ config.maxNodes.val) :
    Occupied config [] (initial (α := α)) := by
  refine ⟨sound_initial hc, fun hpos => ?_, ?_, fun _ => ?_⟩
  · simp [initial] at hpos
  · simp [initial, resident, LinkedHashSet.toFinset]
  · simp [visitedKeys]

theorem occupied_of_visits (hc : 1 ≤ config.maxNodes.val)
    (hrun : (manager config).Reaches history m)
    (hvisits : Meets (fun _ call => ∃ k, call = .visit k) history) : Occupied config history m := by
  induction hrun with
  | start => exact occupied_initial hc
  | call run hok ih =>
    obtain ⟨⟨k, rfl⟩, hrest⟩ := meets_cons.mp hvisits
    exact (ih hrest).visit hc hok

theorem Occupied.held_eq (h : Occupied config history m) :
    (m.queues t1).length + (m.queues t2).length =
      min config.maxNodes.val (visitedKeys history).card := by
  have hcard := card_resident h.sound.located.filed
  have hle := Finset.card_le_card h.visited
  have hheld := h.sound.held_le
  by_cases hlt : (m.queues t1).length + (m.queues t2).length < config.maxNodes.val
  · have hge := Finset.card_le_card (h.kept hlt)
    omega
  · omega

theorem CallsFreeRoom.kept (hm : m.Located) (h : CallsFreeRoom config k m hitList m') :
    m'.Located ∧ m'.queues t1 = m.queues t1 ∧ m'.queues t2 = m.queues t2 := by
  have hforget {s : AdaptiveReplacementQueue} (hs : s = b1 ∨ s = b2)
      (hdrop : removeNode subclass s m = .ok m') :
      m'.Located ∧ m'.queues t1 = m.queues t1 ∧ m'.queues t2 = m.queues t2 := by
    obtain ⟨x, xs, hx, rfl⟩ := removeNode_eq_ok hdrop
    have hmem : x ∈ m.queues s := LinkedHashSet.mem_of_toList_cons hx
    have hne : t1 ≠ s ∧ t2 ≠ s := by rcases hs with rfl | rfl <;> simp
    exact ⟨hm.forget (hm.only (hm.filed hmem)), queues_forget_of_ne hne.1,
      queues_forget_of_ne hne.2⟩
  cases h with
  | ghostHit => exact ⟨hm, rfl, rfl⟩
  | sideFull _ _ _ hdrop => exact hforget (.inl rfl) hdrop
  | directoryFull _ _ _ _ hdrop => exact hforget (.inr rfl) hdrop
  | cacheFull => exact ⟨hm, rfl, rfl⟩

/-- The call finds `t1` too large or a key in `t2`. -/
theorem Occupied.takes (h : Occupied config history m) (hc : 1 ≤ config.maxNodes.val)
    (hcall : CallsFreeRoom config k m hitList m') : TakesT1 hitList m' ∨ m'.queues t2 ≠ ∅ := by
  by_contra hneither
  obtain ⟨htake, hempty⟩ := not_or.mp hneither
  rw [not_not] at hempty
  obtain ⟨-, -, hsame⟩ := hcall.kept h.sound.located
  have ht2 : (m.queues t2).length = 0 := by
    rw [← hsame, hempty, LinkedHashSet.length_empty]
  have hb1 := (m.queues b1).length_nonneg
  have hb2 := (m.queues b2).length_nonneg
  have hfull := h.full
  have hside := h.sound.leftSideSize_eq
  have hcache := h.sound.directorySize_eq
  have hdropped {s : AdaptiveReplacementQueue} (hdrop : removeNode subclass s m = .ok m') :
      0 < (m.queues s).length := by
    obtain ⟨x, xs, hx, -⟩ := removeNode_eq_ok hdrop
    exact LinkedHashSet.length_pos_of_mem (LinkedHashSet.mem_of_toList_cons hx)
  cases hcall with
  | @ghostHit s target hs hk htarget =>
    have hmem := (h.sound.located k s).mp hk
    have hpos := LinkedHashSet.length_pos_of_mem hmem
    have hfits : Fits config m (.visit k) :=
      ⟨fun hnone => absurd (hk.symm.trans hnone) (by simp), h.target_fits⟩
    have hbounds := h.sound.target_bounds hs hk hfits htarget
    have hlt : (m.queues t1).length < config.maxNodes.val :=
      @Sound.ghostHit_room _ _ _ _ _ _ { m with own := ⟨target⟩ } h.sound hs hmem hc hbounds.2 rfl
        htake
    rcases hs with rfl | rfl <;> omega
  | sideFull _ _ ht1 hdrop =>
    have hpos := hdropped hdrop
    rw [LinkedHashSet.size_lt_val] at ht1
    omega
  | directoryFull _ _ _ _ hdrop =>
    have hpos := hdropped hdrop
    omega
  | cacheFull => omega

/-- Every call of `freeRoom` evicts exactly one key. -/
theorem Occupied.freeRoom (h : Occupied config history m) (hc : 1 ≤ config.maxNodes.val)
    (hcall : CallsFreeRoom config k m hitList m') :
    ∃ x ∈ resident m, ∃ m'', freeRoom [recorder] hitList (m', []) =
      .ok (m'', [.objectReadyForEviction x]) ∧ resident m'' = (resident m).erase x := by
  obtain ⟨hm', hsame₁, hsame₂⟩ := hcall.kept h.sound.located
  have hresident : resident m' = resident m := by rw [resident, resident, hsame₁, hsame₂]
  obtain ⟨m'', l, hfreed⟩ : ∃ m'' l, Freed (fun _ m => m) recordEviction hitList m' [] m'' l :=
    exists_freed _ _ _ _ _
  have hok := hfreed.freeRoom_eq recorder_responds
  have hafter := hfreed.after (.inl rfl) hm'
  have hcard := card_resident hm'.filed
  have hcard'' := card_resident hafter.located.filed
  have hroom := hafter.room
  have hheld := hafter.held
  generalize hr : resident m'' = r'' at hroom hcard''
  cases hroom with
  | kept =>
    rcases hheld with hless | ⟨-, htake, hempty⟩
    · omega
    · exact absurd (h.takes hc hcall) (not_or.mpr ⟨htake, not_not.mpr hempty⟩)
  | @evicted x hx =>
    rw [hresident] at hx hr
    exact ⟨x, hx, m'', hok, hr⟩

/-- In a run of visits alone the cache holds as many of the visited keys as it can, ghosts
are kept only beside a full cache, and `freeRoom` never fails to free anything. -/
theorem held_of_visits (config : AdaptiveReplacementConfiguration) (hc : 1 ≤ config.maxNodes.val)
    {history : History (AdaptiveReplacementCacheManager α) α}
    {m : AdaptiveReplacementCacheManager α} (hrun : (manager config).Reaches history m)
    (hvisits : Meets (fun _ call => ∃ k, call = .visit k) history) :
    (m.queues t1).length + (m.queues t2).length =
        min config.maxNodes.val (visitedKeys history).card ∧
      (m.queues b1 ≠ ∅ ∨ m.queues b2 ≠ ∅ →
        (m.queues t1).length + (m.queues t2).length = config.maxNodes.val) ∧
      ∀ k hitList m', CallsFreeRoom config k m hitList m' →
        (TakesT1 hitList m' ∨ m'.queues t2 ≠ ∅) ∧
        ∃ x ∈ resident m, ∃ m'', freeRoom [recorder] hitList (m', []) =
          .ok (m'', [.objectReadyForEviction x]) ∧ resident m'' = (resident m).erase x := by
  have h := occupied_of_visits hc hrun hvisits
  refine ⟨h.held_eq, ?_, fun k hitList m' hcall => ⟨h.takes hc hcall, h.freeRoom hc hcall⟩⟩
  intro hghost
  have hb1 := (m.queues b1).length_nonneg
  have hb2 := (m.queues b2).length_nonneg
  apply h.full
  rcases hghost with hne | hne
  · have hpos : ¬(m.queues b1).length ≤ 0 := fun hle => hne (LinkedHashSet.eq_empty_of_length hle)
    omega
  · have hpos : ¬(m.queues b2).length ≤ 0 := fun hle => hne (LinkedHashSet.eq_empty_of_length hle)
    omega

def ghostCalls : List (Call ℕ) := [.visit 1, .visit 1, .visit 2, .visit 3]

theorem held_of_visits_ghost :
    ∃ history m, (manager (α := ℕ) twoNodes).Reaches history m ∧
      (m.queues t1).length + (m.queues t2).length = 2 ∧ (visitedKeys history).card = 3 := by
  have hrun : (manager (α := ℕ) twoNodes).Reaches _ _ := run_of_replay ghostCalls rfl
  have h := held_of_visits twoNodes (by decide) hrun (by simp)
  exact ⟨_, _, hrun, h.2.1 (.inl (by decide)), rfl⟩

end Visits

/-! ## Evictions while there is room -/

section Evictions

variable {config : AdaptiveReplacementConfiguration} {k : α}
  {hitList : Option AdaptiveReplacementQueue} {m m' : AdaptiveReplacementCacheManager α}
  {l l' : List (Event α)}

/-- `freeRoom` finds no key to evict. -/
def FreesNothing (hitList : Option AdaptiveReplacementQueue)
    (m : AdaptiveReplacementCacheManager α) : Prop :=
  ¬TakesT1 hitList m ∧ m.queues t2 = ∅

/-- The cache is full, or the key is resident, or the directory has room for it, or
`freeRoom` finds nothing to evict. -/
def SparesRoom (config : AdaptiveReplacementConfiguration) (m : AdaptiveReplacementCacheManager α) :
    Call α → Prop
  | .visit k =>
    (m.queues t1).length + (m.queues t2).length = config.maxNodes.val ∨
    match m.currentLocations.lookup k with
    | none => leftSideSize m < config.maxNodes.val ∧ directorySize m < config.maxNodes.val ∨
        FreesNothing none m
    | some (.ghost g) => ∀ target, adaptedTarget config (.ghost g) m = .ok target →
        FreesNothing (some (.ghost g)) { m with own := ⟨target⟩ }
    | some _ => True
  | _ => True

theorem Freed.evictions_iff
    (h : Freed (fun _ m => m) recordEviction hitList m ([] : List (Event α)) m' l') :
    evictions (recordLoad k l') ≠ [] ↔ ¬FreesNothing hitList m := by
  cases h with
  | fromT1 htake => exact iff_of_true (by simp) (fun hnothing => hnothing.1 htake)
  | fromT2 htake hx =>
    refine iff_of_true (by simp) ?_
    rintro ⟨-, hempty⟩
    rw [hempty] at hx
    cases hx
  | nothing htake hempty => exact iff_of_false (by simp) (not_not.mpr ⟨htake, hempty⟩)

theorem freesNothing_forget {s : AdaptiveReplacementQueue} (hs : s = b1 ∨ s = b2) (x : α) :
    FreesNothing none (forget subclass x s m) ↔ FreesNothing none m := by
  have hne : t1 ≠ s ∧ t2 ≠ s := by rcases hs with rfl | rfl <;> simp
  rw [FreesNothing, FreesNothing, TakesT1, TakesT1, queues_forget_of_ne hne.1,
    queues_forget_of_ne hne.2, own_forget]
  rfl

/-- Whether a visit evicts although there is room is decided by the state before it. -/
theorem Sound.evicts_full_iff (h : Sound config m) {call : Call α} {events : List (Event α)}
    (hok : (manager config).perform m call = .ok (m', events)) :
    (evictions events ≠ [] → (m.queues t1).length + (m.queues t2).length = config.maxNodes.val) ↔
      SparesRoom config m call := by
  cases call with
  | remove k =>
    cases hok
    exact iff_of_true (fun hne => absurd rfl hne) trivial
  | clear =>
    cases hok
    exact iff_of_true (fun hne => absurd rfl hne) trivial
  | visit k =>
    rcases visit_cases config recorder_responds (.inl rfl) h.located k ([] : List (Event α))
      with ⟨m₁, l₁, hok₁, hv⟩ | ⟨herror, -⟩
    · cases hok₁.symm.trans hok
      rw [SparesRoom]
      cases hv with
      | hit hs hk =>
        refine iff_of_true (fun hne => absurd rfl hne) (.inr ?_)
        rw [hk]
        rcases hs with rfl | rfl <;> trivial
      | ghostHit hs hk htarget hf =>
        rw [hf.evictions_iff, hk]
        rcases hs with rfl | rfl <;> grind
      | sideFull hk hside ht1 hx hf =>
        rw [hf.evictions_iff, hk, freesNothing_forget (.inl rfl)]
        grind
      | t1Full hk hside ht1 hx =>
        have hheld := h.held_le
        have ht2 := (m.queues t2).length_nonneg
        exact iff_of_true (fun _ => by omega) (.inl (by omega))
      | directoryFull hk hside hcache hdirectory hx hf =>
        rw [hf.evictions_iff, hk, freesNothing_forget (.inr rfl)]
        grind
      | cacheFull hk hside hcache hdirectory hf =>
        rw [hf.evictions_iff, hk]
        grind
      | room hk hside hcache =>
        refine iff_of_true (fun hne => absurd rfl hne) (.inr ?_)
        rw [hk]
        exact .inl ⟨hside, hcache⟩
    · cases herror.symm.trans hok

/-- As long as no sum overflows, the evictions of a run all happen in a full cache exactly
when each of its visits spares the room there is. -/
theorem evicts_only_when_full_iff (config : AdaptiveReplacementConfiguration)
    (hc : 1 ≤ config.maxNodes.val) {history : History (AdaptiveReplacementCacheManager α) α}
    {m : AdaptiveReplacementCacheManager α} (hrun : (manager config).Reaches history m)
    (hfits : Meets (Fits config) history) :
    (∀ r ∈ history, evictions r.output ≠ [] →
      (r.before.queues t1).length + (r.before.queues t2).length = config.maxNodes.val) ↔
      Meets (SparesRoom config) history := by
  have hrecords : ∀ r ∈ history, ((evictions r.output ≠ [] →
      (r.before.queues t1).length + (r.before.queues t2).length = config.maxNodes.val) ↔
        SparesRoom config r.before r.call) := by
    refine Run.records (sound_initial hc) ?_ hrun hfits
    intro m call m' events h hfit hok
    obtain ⟨m₁, l₁, hok₁, hsound⟩ := Sound.perform hc h hfit
    cases hok₁.symm.trans hok
    exact ⟨hsound, Sound.evicts_full_iff h hok⟩
  exact forall₂_congr hrecords

theorem evicts_only_when_full_visits :
    ∃ history m, (manager (α := ℕ) twoNodes).Reaches history m ∧ history.length = 4 ∧
      Meets (SparesRoom twoNodes) history := by
  have hrun : (manager (α := ℕ) twoNodes).Reaches _ _ := run_of_replay ghostCalls rfl
  have h := evicts_only_when_full_iff twoNodes (by decide) hrun (by decide)
  exact ⟨_, _, hrun, rfl, h.mp (by decide)⟩

/-- Two residents and a ghost, from which a resident is removed: the next key is loaded at
the expense of the other resident, although there is room for both. -/
def removalCalls : List (Call ℕ) :=
  [.visit 1, .visit 2, .visit 1, .visit 3, .remove 1, .visit 4]

theorem not_evicts_only_when_full :
    ¬∀ (history : History (AdaptiveReplacementCacheManager ℕ) ℕ) (m),
      (manager twoNodes).Reaches history m → Meets (fun _ call => call ≠ .clear) history →
      ∀ r ∈ history, evictions r.output ≠ [] →
        (r.before.queues t1).length + (r.before.queues t2).length = 2 := by
  intro h
  have hrun := h _ _ (run_of_replay removalCalls rfl) (by simp) _ List.mem_cons_self
  exact absurd (hrun (by decide)) (by decide)

end Evictions

end CachePolicies.AdaptiveReplacementCacheManager
