import CachePolicies.AdaptiveReplacementVisits

/-!
# The invariant of the adaptive manager

`Sound` joins exact locations with the bounds on the four queues and on the target.
The bounds only hold together: which queue is known not to be empty in a branch of
`visit` follows from a different combination of them each time.
-/

namespace CachePolicies.AdaptiveReplacementCacheManager

open MultipleQueueCacheManager ReplacementCacheManager ReplacementQueue

variable {α L : Type} [DecidableEq α]

structure Sound (config : AdaptiveReplacementConfiguration) (m : AdaptiveReplacementCacheManager α) :
    Prop where
  located : m.Located
  left_le : (m.queues t1).length + (m.queues b1).length ≤ config.maxNodes.val
  held_le : (m.queues t1).length + (m.queues t2).length ≤ config.maxNodes.val
  directory_le : (m.queues t1).length + (m.queues t2).length + (m.queues b1).length + (m.queues b2).length ≤
    2 * config.maxNodes.val
  target_nonneg : 0 ≤ m.own.targetT1Size
  target_le : m.own.targetT1Size ≤ config.maxNodes.val
  /-- Where `maxNodes * 2` overflows, no key is ever kept as a ghost. -/
  unghosted : 2147483647 < 2 * config.maxNodes.val →
    (m.queues b1).length + (m.queues b2).length = 0

/-- The two sums which a visit may compute beyond the range of `int`: `maxNodes * 2`, when
a missed key finds the directory holding `maxNodes` keys, and the raised target. -/
def Fits (config : AdaptiveReplacementConfiguration) (m : AdaptiveReplacementCacheManager α) :
    Call α → Prop
  | .visit k =>
    (m.currentLocations.lookup k = none → leftSideSize m < config.maxNodes.val →
      directorySize m ≥ config.maxNodes.val → 2 * config.maxNodes.val ≤ 2147483647) ∧
    (m.currentLocations.lookup k = some b1 →
      m.own.targetT1Size + max ((m.queues b2).length.tdiv (m.queues b1).length) 1 ≤ 2147483647)
  | _ => True

instance (config : AdaptiveReplacementConfiguration) (m : AdaptiveReplacementCacheManager α) :
    (call : Call α) → Decidable (Fits config m call)
  | .visit _ => inferInstanceAs (Decidable (_ ∧ _))
  | .remove _ => .isTrue trivial
  | .clear => .isTrue trivial

section Freed

variable {settle : α → AdaptiveReplacementCacheManager α → AdaptiveReplacementCacheManager α}
  {onEvict onLoad : α → L → L} {hitList : Option AdaptiveReplacementQueue} {k x : α} {xs : List α}
  {m m' : AdaptiveReplacementCacheManager α} {l l' : L}

/-- What is true of the manager once `freeRoom` has run. -/
structure AfterFreeRoom (onEvict : α → L → L) (hitList : Option AdaptiveReplacementQueue)
    (m : AdaptiveReplacementCacheManager α) (l : L) (m' : AdaptiveReplacementCacheManager α)
    (l' : L) : Prop where
  located : m'.Located
  own : m'.own = m.own
  lookup : ∀ k ∉ resident m, m'.currentLocations.lookup k = m.currentLocations.lookup k
  room : RoomMade (resident m) onEvict l (resident m') l'
  left : (m'.queues t1).length + (m'.queues b1).length ≤ (m.queues t1).length + (m.queues b1).length
  directory : (m'.queues t1).length + (m'.queues t2).length + (m'.queues b1).length + (m'.queues b2).length ≤
    (m.queues t1).length + (m.queues t2).length + (m.queues b1).length + (m.queues b2).length
  held : (m'.queues t1).length + (m'.queues t2).length = (m.queues t1).length + (m.queues t2).length - 1 ∨
    m' = m ∧ ¬TakesT1 hitList m ∧ m.queues t2 = ∅

/-- Moving the head of a resident queue to its ghost queue, whatever the listeners then do. -/
theorem afterFreeRoom_demote (hs : Settles subclass settle) (hm : m.Located)
    {s g : AdaptiveReplacementQueue} (hsg : s = t1 ∧ g = b1 ∨ s = t2 ∧ g = b2)
    (hx : (m.queues s).toList = x :: xs) :
    AfterFreeRoom onEvict hitList m l (settle x (m.relocate x s g)) (onEvict x l) := by
  have hmem : x ∈ m.queues s := LinkedHashSet.mem_of_toList_cons hx
  have honly := hm.only (hm.filed hmem)
  have hmoved : (m.relocate x s g).currentLocations.lookup x = some g := by simp
  have hres : x ∈ resident m := by
    rw [mem_resident]
    rcases hsg with ⟨rfl, -⟩ | ⟨rfl, -⟩
    · exact .inl hmem
    · exact .inr hmem
  have hsize (q) := length_relocate (q := q) (d := g) hm.filed hmem
  have hle (q) := hs.length_le (m := m.relocate x s g) x q
  have hsame (q) (hq : q ≠ g) : (settle x (m.relocate x s g)).queues q = (m.relocate x s g).queues q :=
    hs.queues_of_ne hmoved hq
  have hghost : g ∉ ({t1, t2} : Finset AdaptiveReplacementQueue) := by
    rcases hsg with ⟨-, rfl⟩ | ⟨-, rfl⟩ <;> simp
  have hresident : resident (settle x (m.relocate x s g)) = (resident m).erase x := by
    rw [resident_eq_keysIn, hs.keysIn hmoved hghost, keysIn_demote honly hghost,
      ← resident_eq_keysIn]
  refine ⟨hs.located (hm.relocate honly) x, ?_, ?_, ?_, ?_, ?_, ?_⟩
  · rcases hs with rfl | rfl
    · rfl
    · rw [remove_of_lookup hmoved]
      rfl
  · intro k hk
    have hkx : k ≠ x := fun he => hk (he ▸ hres)
    rw [hs.lookup_of_ne hmoved hkx, lookup_relocate, if_neg hkx]
  · rw [hresident]
    exact .evicted hres
  · have h1 := hsize t1
    have h2 := hsize b1
    have h3 := hle t1
    have h4 := hle b1
    rcases hsg with ⟨rfl, rfl⟩ | ⟨rfl, rfl⟩ <;> simp at h1 h2 <;> omega
  · have h1 := hsize t1
    have h2 := hsize t2
    have h3 := hsize b1
    have h4 := hsize b2
    have h5 := hle t1
    have h6 := hle t2
    have h7 := hle b1
    have h8 := hle b2
    rcases hsg with ⟨rfl, rfl⟩ | ⟨rfl, rfl⟩ <;> simp at h1 h2 h3 h4 <;> omega
  · left
    have h1 := hsize t1
    have h2 := hsize t2
    rcases hsg with ⟨rfl, rfl⟩ | ⟨rfl, rfl⟩ <;>
      rw [hsame t1 (by simp), hsame t2 (by simp)] <;> simp at h1 h2 <;> omega

theorem Freed.after (hs : Settles subclass settle) (hm : m.Located)
    (h : Freed settle onEvict hitList m l m' l') : AfterFreeRoom onEvict hitList m l m' l' := by
  cases h with
  | fromT1 htake hx => exact afterFreeRoom_demote hs hm (.inl ⟨rfl, rfl⟩) hx
  | fromT2 htake hx => exact afterFreeRoom_demote hs hm (.inr ⟨rfl, rfl⟩) hx
  | nothing htake hempty =>
    exact ⟨hm, rfl, fun _ _ => rfl, .kept, le_refl _, le_refl _, .inr ⟨rfl, htake, hempty⟩⟩

end Freed

/-! ## One visit -/

section Visits

variable {config : AdaptiveReplacementConfiguration}
  {listeners : List (CacheManagerListener α (AdaptiveReplacementCacheManager α) L)}
  {settle : α → AdaptiveReplacementCacheManager α → AdaptiveReplacementCacheManager α}
  {onEvict onLoad : α → L → L} {k : α} {s : AdaptiveReplacementQueue}
  {m m' : AdaptiveReplacementCacheManager α} {l l' : L}

/-- No queue is longer than `size()` can tell. -/
theorem Sound.size_eq (h : Sound config m) (q : AdaptiveReplacementQueue) :
    (m.queues q).size = (m.queues q).length := by
  have ht := (m.queues t1).length_nonneg
  have ht' := (m.queues t2).length_nonneg
  have hb := (m.queues b1).length_nonneg
  have hb' := (m.queues b2).length_nonneg
  have hl := h.left_le
  have hh := h.held_le
  have hd := h.directory_le
  have hu := h.unghosted
  have hc := config.maxNodes.property
  unfold IsInt at hc
  apply LinkedHashSet.size_of_le
  match q with
  | t1 => omega
  | t2 => omega
  | ghost .b1 => exact (by omega : (m.queues b1).length ≤ 2147483647)
  | ghost .b2 => exact (by omega : (m.queues b2).length ≤ 2147483647)

theorem Sound.leftSideSize_eq (h : Sound config m) :
    leftSideSize m = (m.queues t1).length + (m.queues b1).length := by
  have ht := (m.queues t1).length_nonneg
  have hb := (m.queues b1).length_nonneg
  have hl := h.left_le
  have hc := config.maxNodes.property
  rw [leftSideSize, h.size_eq, h.size_eq, int32_of_isInt]
  unfold IsInt at hc ⊢
  omega

theorem Sound.directorySize_eq (h : Sound config m) :
    directorySize m =
      (m.queues t1).length + (m.queues b1).length + (m.queues t2).length + (m.queues b2).length := by
  have ht := (m.queues t1).length_nonneg
  have ht' := (m.queues t2).length_nonneg
  have hb := (m.queues b1).length_nonneg
  have hb' := (m.queues b2).length_nonneg
  have hh := h.held_le
  have hd := h.directory_le
  have hu := h.unghosted
  have hc := config.maxNodes.property
  rw [directorySize, h.size_eq, h.size_eq, h.size_eq, h.size_eq, int32_int32_add,
    add_assoc (int32 _), int32_int32_add, int32_of_isInt]
  · omega
  · unfold IsInt at hc ⊢
    omega

theorem Sound.adaptedTarget_b1 (h : Sound config m) (hpos : 0 < (m.queues b1).length) :
    adaptedTarget config b1 m = .ok (min (int32 (m.own.targetT1Size +
      max ((m.queues b2).length.tdiv (m.queues b1).length) 1)) config.maxNodes.val) := by
  rw [AdaptiveReplacementCacheManager.adaptedTarget_b1 hpos, h.size_eq, h.size_eq]

theorem Sound.adaptedTarget_b2 (h : Sound config m) (hpos : 0 < (m.queues b2).length) :
    adaptedTarget config b2 m = .ok (max (int32 (m.own.targetT1Size -
      max ((m.queues b1).length.tdiv (m.queues b2).length) 1)) 0) := by
  rw [AdaptiveReplacementCacheManager.adaptedTarget_b2 hpos, h.size_eq, h.size_eq]

theorem directoryCapacity_eq (h : 2 * config.maxNodes.val ≤ 2147483647)
    (hc : 1 ≤ config.maxNodes.val) : directoryCapacity config = 2 * config.maxNodes.val := by
  rw [directoryCapacity, int32_of_isInt, mul_comm]
  unfold IsInt
  omega

theorem sound_initial (hc : 1 ≤ config.maxNodes.val) : Sound config (initial (α := α)) := by
  refine ⟨located_empty, ?_, ?_, ?_, le_refl _, ?_, fun _ => rfl⟩
  all_goals simp [initial]; omega

theorem Sound.clear (h : Sound config m) (hc : 1 ≤ config.maxNodes.val) :
    Sound config (ReplacementCacheManager.clear m) := by
  refine ⟨located_empty, ?_, ?_, ?_, h.target_nonneg, h.target_le, fun _ => rfl⟩
  all_goals simp [ReplacementCacheManager.clear]; omega

theorem Sound.remove (h : Sound config m) (k : α) :
    Sound config (MultipleQueueCacheManager.remove subclass k m) := by
  have hle := length_remove_le subclass k m
  have h1 := hle t1
  have h2 := hle t2
  have h3 := hle b1
  have h4 := hle b2
  have hn1 := ((MultipleQueueCacheManager.remove subclass k m).queues b1).length_nonneg
  have hn2 := ((MultipleQueueCacheManager.remove subclass k m).queues b2).length_nonneg
  have hown : (MultipleQueueCacheManager.remove subclass k m).own = m.own := by
    rw [MultipleQueueCacheManager.remove]
    split <;> rfl
  have hl := h.left_le
  have hh := h.held_le
  have hd := h.directory_le
  have hu := h.unghosted
  refine ⟨h.located.remove k, by omega, by omega, by omega, ?_, ?_, by omega⟩
  · rw [hown]
    exact h.target_nonneg
  · rw [hown]
    exact h.target_le

/-- A hit within the cache moves the key to the tail of `t2`. -/
theorem Sound.hit (h : Sound config m) (hs : s = t1 ∨ s = t2)
    (hk : m.currentLocations.lookup k = some s) : Sound config (m.relocate k s t2) := by
  have hmem := (h.located k s).mp hk
  have hsize (q) := length_relocate (q := q) (d := t2) h.located.filed hmem
  have h1 := hsize t1
  have h2 := hsize t2
  have h3 := hsize b1
  have h4 := hsize b2
  have hl := h.left_le
  have hh := h.held_le
  have hd := h.directory_le
  have hu := h.unghosted
  refine ⟨h.located.relocate (h.located.only hk), ?_, ?_, ?_, h.target_nonneg, h.target_le, ?_⟩
  · rcases hs with rfl | rfl <;> simp at h1 h3 <;> omega
  · rcases hs with rfl | rfl <;> simp at h1 h2 <;> omega
  · rcases hs with rfl | rfl <;> simp at h1 h2 h3 h4 <;> omega
  · rcases hs with rfl | rfl <;> simp at h3 h4 <;> omega

/-- A key from a ghost queue joins `t2` once there is room for it. -/
theorem Sound.ghostHit (config : AdaptiveReplacementConfiguration) (hm : m.Located)
    (hs : s = b1 ∨ s = b2) (hk : m.currentLocations.lookup k = some s)
    (hleft : (m.queues t1).length + (m.queues b1).length ≤ config.maxNodes.val)
    (hheld : (m.queues t1).length + (m.queues t2).length + 1 ≤ config.maxNodes.val)
    (hdirectory : (m.queues t1).length + (m.queues t2).length + (m.queues b1).length +
      (m.queues b2).length ≤ 2 * config.maxNodes.val)
    (htarget : 0 ≤ m.own.targetT1Size ∧ m.own.targetT1Size ≤ config.maxNodes.val)
    (hfits : 2 * config.maxNodes.val ≤ 2147483647) : Sound config (m.relocate k s t2) := by
  have hmem := (hm k s).mp hk
  have hsize (q) := length_relocate (q := q) (d := t2) hm.filed hmem
  have h1 := hsize t1
  have h2 := hsize t2
  have h3 := hsize b1
  have h4 := hsize b2
  refine ⟨hm.relocate (hm.only hk), ?_, ?_, ?_, htarget.1, htarget.2, ?_⟩
  · rcases hs with rfl | rfl <;> simp at h1 h3 <;> omega
  · rcases hs with rfl | rfl <;> simp at h1 h2 <;> omega
  · rcases hs with rfl | rfl <;> simp at h1 h2 h3 h4 <;> omega
  · omega

/-- A missed key joins `t1` once there is room for it. -/
theorem Sound.accept (config : AdaptiveReplacementConfiguration) (hm : m.Located)
    (hk : m.currentLocations.lookup k = none)
    (hleft : (m.queues t1).length + (m.queues b1).length + 1 ≤ config.maxNodes.val)
    (hheld : (m.queues t1).length + (m.queues t2).length + 1 ≤ config.maxNodes.val)
    (hdirectory : (m.queues t1).length + (m.queues t2).length + (m.queues b1).length +
      (m.queues b2).length + 1 ≤ 2 * config.maxNodes.val)
    (htarget : 0 ≤ m.own.targetT1Size ∧ m.own.targetT1Size ≤ config.maxNodes.val)
    (hghosts : 2147483647 < 2 * config.maxNodes.val →
      (m.queues b1).length + (m.queues b2).length = 0) : Sound config (m.enqueue k t1) := by
  have hsize (q) := length_enqueue (q := q) (hm.filed.notMem_of_none hk t1)
  have h1 := hsize t1
  have h2 := hsize t2
  have h3 := hsize b1
  have h4 := hsize b2
  simp at h1 h2 h3 h4
  exact ⟨hm.enqueue hk, by omega, by omega, by omega, htarget.1, htarget.2, by omega⟩

theorem notMem_resident_of_ghost (h : m.Filed) (hk : m.currentLocations.lookup k = some s)
    (hs : s = b1 ∨ s = b2) : k ∉ resident m := by
  rw [resident_eq_keysIn]
  refine h.notMem_keysIn hk ?_
  rcases hs with rfl | rfl <;> simp

theorem Sound.target_bounds (h : Sound config m) (hs : s = b1 ∨ s = b2)
    (hk : m.currentLocations.lookup k = some s) (hfits : Fits config m (.visit k)) {target : ℤ}
    (htarget : adaptedTarget config s m = .ok target) :
    0 ≤ target ∧ target ≤ config.maxNodes.val := by
  have hpos := LinkedHashSet.length_pos_of_mem ((h.located k s).mp hk)
  have hn := h.target_nonneg
  have ht := h.target_le
  have hc := config.maxNodes.property
  unfold IsInt at hc
  rcases hs with rfl | rfl
  · have hsum := hfits.2 hk
    rw [h.adaptedTarget_b1 hpos, int32_of_isInt (by unfold IsInt; omega)] at htarget
    cases htarget
    omega
  · have hratio : (m.queues b1).length.tdiv (m.queues b2).length ≤ (m.queues b1).length :=
      Int.tdiv_le_self _ (LinkedHashSet.length_nonneg _)
    have hl := h.left_le
    have ht1 := (m.queues t1).length_nonneg
    rw [h.adaptedTarget_b2 hpos, int32_of_isInt (by unfold IsInt; omega)] at htarget
    cases htarget
    omega

/-- `freeRoom` leaves room for one more resident key. -/
theorem AfterFreeRoom.held_lt (config : AdaptiveReplacementConfiguration)
    {hitList : Option AdaptiveReplacementQueue}
    (h : AfterFreeRoom onEvict hitList m l m' l')
    (hheld : (m.queues t1).length + (m.queues t2).length ≤ config.maxNodes.val)
    (ht1 : ¬TakesT1 hitList m → (m.queues t1).length < config.maxNodes.val) :
    (m'.queues t1).length + (m'.queues t2).length + 1 ≤ config.maxNodes.val := by
  rcases h.held with hh | ⟨rfl, htake, hempty⟩
  · omega
  · have hlt := ht1 htake
    rw [hempty, LinkedHashSet.length_empty]
    omega

/-- What a missed key needs when `freeRoom` is called for it. -/
structure Roomy (config : AdaptiveReplacementConfiguration) (k : α)
    (m : AdaptiveReplacementCacheManager α) : Prop where
  located : m.Located
  missed : m.currentLocations.lookup k = none
  left_lt : (m.queues t1).length + (m.queues b1).length + 1 ≤ config.maxNodes.val
  held_le : (m.queues t1).length + (m.queues t2).length ≤ config.maxNodes.val
  directory_lt : (m.queues t1).length + (m.queues t2).length + (m.queues b1).length +
    (m.queues b2).length + 1 ≤ 2 * config.maxNodes.val
  target : 0 ≤ m.own.targetT1Size ∧ m.own.targetT1Size ≤ config.maxNodes.val
  small : 2 * config.maxNodes.val ≤ 2147483647

theorem Roomy.accept (h : Roomy config k m) (hs : Settles subclass settle)
    (hf : Freed settle onEvict none m l m' l') : Sound config (m'.enqueue k t1) := by
  have haf := hf.after hs h.located
  have hnot : k ∉ resident m := notMem_resident_of_none h.located.filed h.missed
  have hleft := haf.left
  have hdirectory := haf.directory
  have hl := h.left_lt
  have hd := h.directory_lt
  have hb := (m.queues b1).length_nonneg
  have hroom := haf.held_lt config h.held_le (fun _ => by omega)
  have hsmall := h.small
  exact Sound.accept config haf.located ((haf.lookup k hnot).trans h.missed) (by omega) hroom
    (by omega) (by rw [haf.own]; exact h.target) (by omega)

/-- Dropping the head of a ghost queue makes room in the directory. -/
theorem Sound.dropGhost (h : Sound config m) (hk : m.currentLocations.lookup k = none)
    (hs : s = b1 ∧ (m.queues t1).length < config.maxNodes.val ∨
      s = b2 ∧ (m.queues t1).length + (m.queues b1).length < config.maxNodes.val)
    {x : α} {xs : List α} (hx : (m.queues s).toList = x :: xs) :
    Roomy config k (forget subclass x s m) := by
  have hmem : x ∈ m.queues s := LinkedHashSet.mem_of_toList_cons hx
  have hxloc := h.located.filed hmem
  have hpos := LinkedHashSet.length_pos_of_mem hmem
  have hsize (q) := length_forget subclass (q := q) hmem
  have h1 := hsize t1
  have h2 := hsize t2
  have h3 := hsize b1
  have h4 := hsize b2
  have hl := h.left_le
  have hh := h.held_le
  have hd := h.directory_le
  have hu := h.unghosted
  have hn1 := (m.queues b1).length_nonneg
  have hn2 := (m.queues b2).length_nonneg
  refine ⟨h.located.forget (h.located.only hxloc), ?_, ?_, ?_, ?_,
    ⟨h.target_nonneg, h.target_le⟩, ?_⟩
  · rw [lookup_forget, hk, ite_self]
  · rcases hs with ⟨rfl, hside⟩ | ⟨rfl, hside⟩ <;> simp at h1 h3 <;> omega
  · rcases hs with ⟨rfl, hside⟩ | ⟨rfl, hside⟩ <;> simp at h1 h2 <;> omega
  · rcases hs with ⟨rfl, hside⟩ | ⟨rfl, hside⟩ <;> simp at h1 h2 h3 h4 <;> omega
  · rcases hs with ⟨rfl, hside⟩ | ⟨rfl, hside⟩ <;> omega

/-- A missed key takes the place of the head of `t1`. -/
theorem Sound.replace (h : Sound config m) (hk : m.currentLocations.lookup k = none) {x : α}
    {xs : List α} (hx : (m.queues t1).toList = x :: xs) :
    Sound config ((forget subclass x t1 m).enqueue k t1) := by
  have hmem : x ∈ m.queues t1 := LinkedHashSet.mem_of_toList_cons hx
  have honly := h.located.only (h.located.filed hmem)
  have hsize (q) := length_forget subclass (q := q) hmem
  have h1 := hsize t1
  have h2 := hsize t2
  have h3 := hsize b1
  have h4 := hsize b2
  simp at h1 h2 h3 h4
  have hl := h.left_le
  have hh := h.held_le
  have hd := h.directory_le
  have hu := h.unghosted
  have hnone : (forget subclass x t1 m).currentLocations.lookup k = none := by
    rw [lookup_forget, hk, ite_self]
  exact Sound.accept config (h.located.forget honly) hnone (by omega) (by omega) (by omega)
    ⟨h.target_nonneg, h.target_le⟩ (by omega)

/-- The target is lowered before `freeRoom` compares it with `t1` on a `b2` hit. -/
theorem Sound.ghostHit_room (h : Sound config m) (hs : s = b1 ∨ s = b2) (hmem : k ∈ m.queues s)
    (hc : 1 ≤ config.maxNodes.val) (htarget : m'.own.targetT1Size ≤ config.maxNodes.val)
    (hsame : m'.queues t1 = m.queues t1) (htake : ¬TakesT1 (some s) m') :
    (m'.queues t1).length < config.maxNodes.val := by
  rw [hsame]
  have hl := h.left_le
  have hpos := LinkedHashSet.length_pos_of_mem hmem
  rcases hs with rfl | rfl
  · omega
  · by_cases hempty : m.queues t1 = ∅
    · rw [hempty, LinkedHashSet.length_empty]
      omega
    · have hsize := h.size_eq t1
      have hne : (m.queues t1).isEmpty = false := by
        rw [← Bool.not_eq_true, LinkedHashSet.isEmpty_iff]
        exact hempty
      simp only [TakesT1, hsame, hne, Bool.not_false, true_and, and_true] at htake
      omega

/-- What is found in one of the resident queues stays resident when it moves to `t2`. -/
theorem resident_hit (hm : m.Located) (hs : s = t1 ∨ s = t2)
    (hk : m.currentLocations.lookup k = some s) :
    k ∈ resident m ∧ resident (m.relocate k s t2) = resident m := by
  have hmem := (hm k s).mp hk
  have hres : k ∈ resident m := by
    rw [mem_resident]
    rcases hs with rfl | rfl
    · exact .inl hmem
    · exact .inr hmem
  refine ⟨hres, ?_⟩
  rw [resident_promote (.inr rfl), Finset.insert_eq_of_mem hres]

/-- A dropped ghost was not resident. -/
theorem resident_dropGhost (hm : m.Located) (hs : s = b1 ∨ s = b2) {x : α} {xs : List α}
    (hx : (m.queues s).toList = x :: xs) :
    (forget subclass x s m).Located ∧ resident (forget subclass x s m) = resident m := by
  have hxloc := hm.filed (LinkedHashSet.mem_of_toList_cons hx)
  refine ⟨hm.forget (hm.only hxloc), ?_⟩
  rw [resident_forget subclass (hm.only hxloc),
    Finset.erase_eq_of_notMem (notMem_resident_of_ghost hm.filed hxloc hs)]

/-- A missed key is loaded into the room that `freeRoom` has made. -/
theorem AfterFreeRoom.effect (h : AfterFreeRoom onEvict none m l m' l')
    (hm : m.Located) (hk : m.currentLocations.lookup k = none) :
    (m'.enqueue k t1).Located ∧
      VisitEffect (resident m) k onEvict onLoad l (resident (m'.enqueue k t1)) (onLoad k l') := by
  have hnot : k ∉ resident m := notMem_resident_of_none hm.filed hk
  refine ⟨h.located.enqueue ((h.lookup k hnot).trans hk), ?_⟩
  rw [resident_enqueue (.inl rfl)]
  exact .miss hnot h.room

/-- Every branch of `visit` keeps the locations exact and follows the load and evict protocol,
whatever the sizes of the queues. -/
theorem Visited.effect (hs : Settles subclass settle) (hm : m.Located)
    (hv : Visited config settle onEvict onLoad k m l m' l') :
    m'.Located ∧ VisitEffect (resident m) k onEvict onLoad l (resident m') l' := by
  cases hv with
  | hit hq hk =>
    obtain ⟨hmem, hres⟩ := resident_hit hm hq hk
    refine ⟨hm.relocate (hm.only hk), ?_⟩
    rw [hres]
    exact .hit hmem
  | @ghostHit s target m' l' hq hk ht hf =>
    have hnot : k ∉ resident m := notMem_resident_of_ghost hm.filed hk hq
    have haf := hf.after (m := { m with own := ⟨target⟩ }) hs hm
    refine ⟨haf.located.relocate (haf.located.only ((haf.lookup k hnot).trans hk)), ?_⟩
    rw [resident_promote (.inr rfl)]
    exact .miss hnot haf.room
  | sideFull hk hside ht1 hx hf =>
    obtain ⟨hdropped, hres⟩ := resident_dropGhost hm (.inl rfl) hx
    exact hres ▸ (hf.after hs hdropped).effect hdropped (by rw [lookup_forget, hk, ite_self])
  | @t1Full x xs hk hside ht1 hx =>
    have hmem : x ∈ m.queues t1 := LinkedHashSet.mem_of_toList_cons hx
    have honly := hm.only (hm.filed hmem)
    refine ⟨(hm.forget honly).enqueue (by rw [lookup_forget, hk, ite_self]), ?_⟩
    rw [resident_enqueue (.inl rfl), resident_forget subclass honly]
    exact .miss (notMem_resident_of_none hm.filed hk) (.evicted (mem_resident.mpr (.inl hmem)))
  | directoryFull hk hside hcache hdirectory hx hf =>
    obtain ⟨hdropped, hres⟩ := resident_dropGhost hm (.inr rfl) hx
    exact hres ▸ (hf.after hs hdropped).effect hdropped (by rw [lookup_forget, hk, ite_self])
  | cacheFull hk hside hcache hdirectory hf => exact (hf.after hs hm).effect hm hk
  | room hk hside hcache =>
    refine ⟨hm.enqueue hk, ?_⟩
    rw [resident_enqueue (.inl rfl)]
    exact .miss (notMem_resident_of_none hm.filed hk) .kept

/-- Every branch of `visit` keeps the invariant. -/
theorem Visited.sound (hc : 1 ≤ config.maxNodes.val) (hs : Settles subclass settle)
    (h : Sound config m) (hfits : Fits config m (.visit k))
    (hv : Visited config settle onEvict onLoad k m l m' l') : Sound config m' := by
  have hl := h.left_le
  have hh := h.held_le
  have hd := h.directory_le
  have hu := h.unghosted
  have htarget := And.intro h.target_nonneg h.target_le
  have hnt := (m.queues t2).length_nonneg
  have hnb1 := (m.queues b1).length_nonneg
  have hnb2 := (m.queues b2).length_nonneg
  cases hv with
  | hit hq hk => exact h.hit hq hk
  | @ghostHit s target m' l' hq hk ht hf =>
    have hmem := (h.located k s).mp hk
    have hpos := LinkedHashSet.length_pos_of_mem hmem
    have hbounds := h.target_bounds hq hk hfits ht
    have hnot : k ∉ resident m := notMem_resident_of_ghost h.located.filed hk hq
    have haf := hf.after (m := { m with own := ⟨target⟩ }) hs h.located
    have hroom := haf.held_lt config hh
      (h.ghostHit_room hq hmem hc hbounds.2 rfl)
    have hown : m'.own = ⟨target⟩ := haf.own
    exact Sound.ghostHit config haf.located hq ((haf.lookup k hnot).trans hk) (haf.left.trans hl)
      hroom (haf.directory.trans hd) (by rw [hown]; exact hbounds)
      (by rcases hq with rfl | rfl <;> omega)
  | sideFull hk hside ht1 hx hf => exact (h.dropGhost hk (.inl ⟨rfl, ht1⟩) hx).accept hs hf
  | t1Full hk hside ht1 hx => exact h.replace hk hx
  | directoryFull hk hside hcache hdirectory hx hf =>
    rw [h.leftSideSize_eq] at hside
    exact (h.dropGhost hk (.inr ⟨rfl, hside⟩) hx).accept hs hf
  | cacheFull hk hside hcache hdirectory hf =>
    have hsmall := hfits.1 hk hside hcache
    rw [directoryCapacity_eq hsmall hc, h.directorySize_eq] at hdirectory
    rw [h.leftSideSize_eq] at hside
    exact Roomy.accept ⟨h.located, hk, by omega, hh, by omega, htarget, hsmall⟩ hs hf
  | room hk hside hcache =>
    rw [h.leftSideSize_eq] at hside
    rw [h.directorySize_eq] at hcache
    exact Sound.accept config h.located hk (by omega) (by omega) (by omega) htarget (by omega)

/-- No branch finds the queue empty from which it takes a head. -/
theorem Sound.not_starved (hc : 1 ≤ config.maxNodes.val) (h : Sound config m)
    (hfits : Fits config m (.visit k)) : ¬Starved config k m := by
  have hl := h.left_le
  have hh := h.held_le
  have hnt1 := (m.queues t1).length_nonneg
  have hnt2 := (m.queues t2).length_nonneg
  rintro (⟨hk, hside, ht1, hempty⟩ | ⟨hk, hside, ht1, hempty⟩ |
    ⟨hk, hside, hcache, hdirectory, hempty⟩)
  · rw [h.leftSideSize_eq, hempty, LinkedHashSet.length_empty] at hside
    omega
  · rw [hempty, LinkedHashSet.length_empty] at ht1
    omega
  · have hsmall := hfits.1 hk hside hcache
    rw [directoryCapacity_eq hsmall hc, h.directorySize_eq, hempty, LinkedHashSet.length_empty]
      at hdirectory
    rw [h.leftSideSize_eq] at hside
    omega

theorem Sound.visit (hr : Responds listeners settle onEvict onLoad) (hs : Settles subclass settle)
    (hc : 1 ≤ config.maxNodes.val) (h : Sound config m) (hfits : Fits config m (.visit k)) :
    ∃ m' l', (manager config).visit listeners k (m, l) = .ok (m', l') ∧ Sound config m' ∧
      VisitEffect (resident m) k onEvict onLoad l (resident m') l' := by
  rcases visit_cases config hr hs h.located k l with ⟨m', l', hok, hv⟩ | ⟨-, hstarved⟩
  · exact ⟨m', l', hok, hv.sound hc hs h hfits, (hv.effect hs h.located).2⟩
  · exact absurd hstarved (h.not_starved hc hfits)

end Visits

/-! ## Whole runs -/

/-- The bounds which `assertInvariants` logs and the consistency of queues and locations. -/
structure Bounded (config : AdaptiveReplacementConfiguration)
    (m : AdaptiveReplacementCacheManager α) : Prop where
  nodup : ∀ q, (m.queues q).toList.Nodup
  disjoint : ∀ q s, q ≠ s → List.Disjoint (m.queues q).toList (m.queues s).toList
  located : ∀ k q, m.currentLocations.lookup k = some q ↔ k ∈ (m.queues q).toList
  left_le : (m.queues t1).length + (m.queues b1).length ≤ config.maxNodes.val
  held_le : (m.queues t1).length + (m.queues t2).length ≤ config.maxNodes.val
  directory_le : (m.queues t1).length + (m.queues t2).length + (m.queues b1).length + (m.queues b2).length ≤
    2 * config.maxNodes.val
  target_nonneg : 0 ≤ m.own.targetT1Size
  target_le : m.own.targetT1Size ≤ config.maxNodes.val

section Runs

variable {config : AdaptiveReplacementConfiguration} {k : α}
  {m m' : AdaptiveReplacementCacheManager α}

theorem Sound.bounded (h : Sound config m) : Bounded config m where
  nodup q := (m.queues q).nodup
  disjoint _ _ hne _ hq hs := hne (h.located.filed.eq_of_mem hq hs)
  located := h.located
  left_le := h.left_le
  held_le := h.held_le
  directory_le := h.directory_le
  target_nonneg := h.target_nonneg
  target_le := h.target_le

theorem Sound.perform (hc : 1 ≤ config.maxNodes.val) (h : Sound config m) {call : Call α}
    (hfits : Fits config m call) :
    ∃ m' events, (manager config).perform m call = .ok (m', events) ∧ Sound config m' := by
  cases call with
  | visit k =>
    obtain ⟨m', events, hok, hsound, -⟩ := h.visit recorder_responds (.inl rfl) hc (l := []) hfits
    exact ⟨m', events, hok, hsound⟩
  | remove k => exact ⟨_, _, rfl, h.remove k⟩
  | clear => exact ⟨_, _, rfl, h.clear hc⟩

/-- Beyond the range of `int`, `maxNodes * 2` is negative and `b2` is asked for a head. -/
theorem Sound.capacity_fits (h : Sound config m) {events : List (Event α)}
    (hok : (manager config).perform m (.visit k) = .ok (m', events))
    (hk : m.currentLocations.lookup k = none) (hside : leftSideSize m < config.maxNodes.val)
    (hcache : directorySize m ≥ config.maxNodes.val) : 2 * config.maxNodes.val ≤ 2147483647 := by
  by_contra hbig
  have hb1 := (m.queues b1).length_nonneg
  have hempty : m.queues b2 = ∅ :=
    LinkedHashSet.eq_empty_of_length (by have hu := h.unghosted; omega)
  have hdirectory : directorySize m ≥ directoryCapacity config := by
    have hc := config.maxNodes.property
    unfold IsInt at hc
    unfold directoryCapacity int32
    omega
  rcases visit_cases config recorder_responds (.inl rfl) h.located k ([] : List (Event α))
    with ⟨m₁, l₁, -, hv⟩ | ⟨herror, -⟩
  · cases hv with
    | hit _ hk' => cases hk.symm.trans hk'
    | ghostHit _ hk' => cases hk.symm.trans hk'
    | sideFull _ hside' => omega
    | t1Full _ hside' => omega
    | directoryFull _ _ _ _ hx =>
      rw [hempty] at hx
      cases hx
    | cacheFull _ _ _ hdirectory' => omega
    | room _ _ hcache' => omega
  · cases herror.symm.trans hok

/-- A raised target beyond the range of `int` wraps to a negative one. -/
theorem Sound.target_fits (h : Sound config m) {events : List (Event α)}
    (hok : (manager config).perform m (.visit k) = .ok (m', events))
    (hk : m.currentLocations.lookup k = some b1) (hbounded : Bounded config m') :
    m.own.targetT1Size + max ((m.queues b2).length.tdiv (m.queues b1).length) 1 ≤ 2147483647 := by
  by_contra hbig
  have hmem := (h.located k b1).mp hk
  have hpos := LinkedHashSet.length_pos_of_mem hmem
  have hratio : (m.queues b2).length.tdiv (m.queues b1).length ≤ (m.queues b2).length :=
    Int.tdiv_le_self _ (LinkedHashSet.length_nonneg _)
  have ht1 := (m.queues t1).length_nonneg
  have ht2 := (m.queues t2).length_nonneg
  have hb2 := (m.queues b2).length_nonneg
  rcases visit_cases config recorder_responds (.inl rfl) h.located k ([] : List (Event α))
    with ⟨m₁, l₁, hok', hv⟩ | ⟨herror, -⟩
  · cases hok'.symm.trans hok
    cases hv with
    | hit hs hk' =>
      cases hk.symm.trans hk'
      simp at hs
    | @ghostHit s target m₂ l₂ hs hk' htarget hf =>
      cases hk.symm.trans hk'
      have haf := hf.after (m := { m with own := ⟨target⟩ }) (.inl rfl) h.located
      have hnonneg := hbounded.target_nonneg
      rw [own_relocate, haf.own] at hnonneg
      rw [h.adaptedTarget_b1 hpos] at htarget
      cases htarget
      have hu := h.unghosted
      have hd := h.directory_le
      have ht := h.target_le
      have hn := h.target_nonneg
      simp only [le_min_iff, int32] at hnonneg
      omega
    | sideFull hk' => cases hk.symm.trans hk'
    | t1Full hk' => cases hk.symm.trans hk'
    | directoryFull hk' => cases hk.symm.trans hk'
    | cacheFull hk' => cases hk.symm.trans hk'
    | room hk' => cases hk.symm.trans hk'
  · cases herror.symm.trans hok

/-- A sequence of calls keeps the manager bounded and never throws exactly when no visit
in it computes a sum beyond the range of `int`. -/
theorem bounded_throughout_iff_fits (config : AdaptiveReplacementConfiguration)
    (hc : 1 ≤ config.maxNodes.val) (calls : List (Call α)) :
    Throughout (manager config).perform (Bounded config) (manager config).initial calls ↔
      Admitted (manager config).perform (Fits config) (manager config).initial calls := by
  refine throughout_iff_admitted (fun m (h : Sound config m) => h.bounded) ?_ ?_
    (sound_initial hc)
  · intro m call h hfits
    exact h.perform hc hfits
  · intro m call m' events h hok hbounded
    cases call with
    | visit k => exact ⟨h.capacity_fits hok, fun hk => h.target_fits hok hk hbounded⟩
    | remove k => trivial
    | clear => trivial

/-- The configuration of the small runs on fixed keys. -/
def twoNodes : AdaptiveReplacementConfiguration := ⟨2⟩

theorem bounded_throughout_ghosts :
    Throughout (manager twoNodes).perform (Bounded twoNodes) (manager twoNodes).initial
      [.visit 1, .visit 1, .visit 2, .visit 3, .visit 2, .remove 1, .visit 4, .clear, .visit 5] :=
  (bounded_throughout_iff_fits twoNodes (by decide) _).mpr (by decide)

/-! ## A directory capacity beyond the range of `int` -/

theorem perform_room (config : AdaptiveReplacementConfiguration)
    (hk : m.currentLocations.lookup k = none)
    (hside : leftSideSize m < config.maxNodes.val) (hcache : directorySize m < config.maxNodes.val) :
    (manager config).perform m (.visit k) = .ok (m.enqueue k t1, [.objectLoaded k]) := by
  simp only [CacheManager.perform, manager, MultipleQueueCacheManager.visit, hk, onMiss,
    if_neg (not_le.mpr hside), if_neg (not_le.mpr hcache), Java.ok_bind,
    insertNode_ok recorder_responds]
  rfl

theorem perform_hit (hk : m.currentLocations.lookup k = some t1) :
    (manager config).perform m (.visit k) = .ok (m.relocate k t1 t2, []) := by
  simp only [CacheManager.perform, manager, MultipleQueueCacheManager.visit, hk, onHit, if_pos,
    true_or, moveNode_ok recorder_responds]
  rfl

/-- A manager which has only loaded `0, …, n - 1`. -/
structure Filled (n : ℕ) (m : AdaptiveReplacementCacheManager ℕ) : Prop where
  located : m.Located
  t1 : (m.queues t1).toList = List.range n
  rest : ∀ q ≠ ReplacementQueue.t1, m.queues q = ∅
  own : m.own = ⟨0⟩

theorem Filled.missed {n k : ℕ} {m : AdaptiveReplacementCacheManager ℕ} (h : Filled n m)
    (hk : n ≤ k) : m.currentLocations.lookup k = none := by
  rw [Option.eq_none_iff_forall_ne_some]
  intro q hq
  have hmem := (h.located k q).mp hq
  by_cases ht : q = ReplacementQueue.t1
  · subst ht
    rw [LinkedHashSet.mem_def, h.t1] at hmem
    exact absurd (List.mem_range.mp hmem) (not_lt.mpr hk)
  · rw [h.rest q ht] at hmem
    exact absurd hmem (LinkedHashSet.notMem_empty k)

theorem Filled.sizes {n : ℕ} {m : AdaptiveReplacementCacheManager ℕ} (h : Filled n m) :
    (m.queues ReplacementQueue.t1).length = n ∧ (m.queues t2).length = 0 ∧
      (m.queues b1).length = 0 ∧ (m.queues b2).length = 0 := by
  rw [h.rest t2 (by simp), h.rest b1 (by simp), h.rest b2 (by simp)]
  refine ⟨?_, rfl, rfl, rfl⟩
  rw [LinkedHashSet.length, h.t1, List.length_range]

theorem Filled.enqueue {n : ℕ} {m : AdaptiveReplacementCacheManager ℕ} (h : Filled n m) :
    Filled (n + 1) (m.enqueue n ReplacementQueue.t1) := by
  have hmissed := h.missed (le_refl n)
  refine ⟨h.located.enqueue hmissed, ?_, ?_, h.own⟩
  · rw [queues_enqueue_self, LinkedHashSet.toList_add, h.t1, List.range_succ]
    exact h.located.filed.notMem_of_none hmissed _
  · intro q hq
    rw [queues_enqueue_of_ne hq, h.rest q hq]

theorem Filled.sound {n : ℕ} {m : AdaptiveReplacementCacheManager ℕ} (h : Filled n m)
    (hn : (n : ℤ) ≤ config.maxNodes.val) : Sound config m := by
  obtain ⟨h1, h2, h3, h4⟩ := h.sizes
  refine ⟨h.located, by omega, by omega, by omega, ?_, ?_, by omega⟩
  · rw [h.own]
  · rw [h.own]
    show (0 : ℤ) ≤ _
    omega

theorem filled_of_range (config : AdaptiveReplacementConfiguration) {n : ℕ}
    (hn : (n : ℤ) ≤ config.maxNodes.val) :
    ∃ history m, replay (manager config).perform (manager config).initial
      ((List.range n).map Call.visit) = .ok (history, m) ∧ Filled n m := by
  induction n with
  | zero =>
    exact ⟨[], initial, rfl, located_empty, rfl, fun _ _ => rfl, rfl⟩
  | succ n ih =>
    obtain ⟨history, m, hreplay, hfilled⟩ := ih (by omega)
    obtain ⟨h1, h2, h3, h4⟩ := hfilled.sizes
    have hsound : Sound config m := hfilled.sound (by omega)
    have hside : leftSideSize m < config.maxNodes.val := by
      rw [hsound.leftSideSize_eq]
      omega
    have hcache : directorySize m < config.maxNodes.val := by
      rw [hsound.directorySize_eq]
      omega
    have hstep := perform_room config (hfilled.missed (le_refl n)) hside hcache
    refine ⟨⟨m, .visit n, [.objectLoaded n], m.enqueue n ReplacementQueue.t1⟩ :: history,
      m.enqueue n ReplacementQueue.t1, ?_, hfilled.enqueue⟩
    rw [List.range_succ, List.map_append, replay, replayFrom_append hreplay]
    simp only [List.map_cons, List.map_nil, replayFrom, hstep]

/-- Load `n` keys, hit the first of them and load two more. -/
def overflowCalls (n : ℕ) : List (Call ℕ) :=
  (List.range n).map Call.visit ++ [.visit 0, .visit n, .visit (n + 1)]

/-- With `n = c - 1` the last load finds the cache full without ghosts; where `c * 2`
overflows, it asks `b2` for a head. -/
theorem replay_overflow (hbig : 2147483647 < 2 * config.maxNodes.val) {n : ℕ}
    (hn : (n : ℤ) + 1 = config.maxNodes.val) :
    replay (manager config).perform (manager config).initial (overflowCalls n) =
      .error .noSuchElement := by
  obtain ⟨history, m, hreplay, hfilled⟩ := filled_of_range config (n := n) (by omega)
  obtain ⟨h1, h2, h3, h4⟩ := hfilled.sizes
  have hsound : Sound config m := hfilled.sound (by omega)
  have hloc : m.currentLocations.lookup 0 = some ReplacementQueue.t1 := by
    rw [hfilled.located, LinkedHashSet.mem_def, hfilled.t1, List.mem_range]
    omega
  have hmem := (hfilled.located _ _).mp hloc
  -- the hit leaves `n - 1` keys in `t1` and one in `t2`
  have hsound₁ := hsound.hit (.inl rfl) hloc
  have hsize₁ (q) := length_relocate (q := q) (d := t2) hfilled.located.filed hmem
  have h1₁ := hsize₁ ReplacementQueue.t1
  have h2₁ := hsize₁ t2
  have h3₁ := hsize₁ b1
  have h4₁ := hsize₁ b2
  simp at h1₁ h2₁ h3₁ h4₁
  -- loading `n` brings `t1` back to `n` keys, and the directory to `n + 1`
  have hmissed₁ {k : ℕ} (hk : n ≤ k) :
      (m.relocate 0 ReplacementQueue.t1 t2).currentLocations.lookup k = none := by
    rw [lookup_relocate, if_neg (by omega), hfilled.missed hk]
  have hstep₁ := perform_room config (hmissed₁ (le_refl n))
    (by rw [hsound₁.leftSideSize_eq]; omega) (by rw [hsound₁.directorySize_eq]; omega)
  have hsound₂ := Sound.accept config hsound₁.located (hmissed₁ (le_refl n)) (by omega)
    (by omega) (by omega) ⟨hsound₁.target_nonneg, hsound₁.target_le⟩ (by omega)
  have hsize₂ (q) := length_enqueue (q := q)
    (hsound₁.located.filed.notMem_of_none (hmissed₁ (le_refl n)) ReplacementQueue.t1)
  have h1₂ := hsize₂ ReplacementQueue.t1
  have h2₂ := hsize₂ t2
  have h3₂ := hsize₂ b1
  have h4₂ := hsize₂ b2
  simp at h1₂ h2₂ h3₂ h4₂
  have hmissed₂ : ((m.relocate 0 ReplacementQueue.t1 t2).enqueue n
      ReplacementQueue.t1).currentLocations.lookup (n + 1) = none := by
    rw [lookup_enqueue, if_neg (by omega), hmissed₁ (by omega)]
  have hstep₂ : (manager config).perform ((m.relocate 0 ReplacementQueue.t1 t2).enqueue n
      ReplacementQueue.t1) (.visit (n + 1)) = .error .noSuchElement := by
    rcases visit_cases config recorder_responds (.inl rfl) hsound₂.located (n + 1)
      ([] : List (Event ℕ)) with ⟨m', l', hok, -⟩ | ⟨herror, -⟩
    · have hsmall := hsound₂.capacity_fits hok hmissed₂
        (by rw [hsound₂.leftSideSize_eq]; omega) (by rw [hsound₂.directorySize_eq]; omega)
      omega
    · exact herror
  rw [overflowCalls, replay, replayFrom_append hreplay]
  simp only [replayFrom, perform_hit hloc, hstep₁, hstep₂]

theorem not_throughout_overflow (hbig : 2147483647 < 2 * config.maxNodes.val) {n : ℕ}
    (hn : (n : ℤ) + 1 = config.maxNodes.val) :
    ¬Throughout (manager config).perform (Bounded config) (manager config).initial
      (overflowCalls n) := by
  intro h
  obtain ⟨r, hr⟩ := h.replayFrom []
  cases (replay_overflow hbig hn).symm.trans hr

/-- With `maxNodes = 2^30`, the last of `2^30 + 2` visits throws. -/
theorem not_bounded_throughout :
    ¬Throughout (manager ⟨1073741824⟩).perform (Bounded ⟨1073741824⟩)
      (manager ⟨1073741824⟩).initial (overflowCalls 1073741823) :=
  not_throughout_overflow (by decide) (by decide)

end Runs

end CachePolicies.AdaptiveReplacementCacheManager
