import CachePolicies.AdaptiveReplacementDirectories
import CachePolicies.AdaptiveReplacementOccupancy
import CachePolicies.LruInclusions

/-!
# What the adaptive manager misses beyond LRU

As long as no key is visited that an LRU queue of `maxNodes` keys would miss, all visited keys are
among the same `maxNodes` keys, and all of these are in the directory. A miss then is a
hit on a ghost, which evicts a key from `t1`, or one of `t2` that is none of these keys, or
lowers the target while it lies above the size of `t1`. None of this can go on for long: the
reserve below is at most three times `maxNodes`, and a miss of LRU raises it
by `maxNodes + 2` at most.
-/

namespace CachePolicies.AdaptiveReplacementCacheManager

open MultipleQueueCacheManager ReplacementCacheManager ReplacementQueue

variable {α L : Type} [DecidableEq α]

/-- The target, as long as `t1` has keys that are none of `keys`. -/
def slack (keys : Finset α) (m : AdaptiveReplacementCacheManager α) : ℤ :=
  if (m.queues t1).toFinset ⊆ keys then 0 else m.own.targetT1Size

/-- What may still be missed while only the given keys are visited. -/
def reserve (keys : Finset α) (m : AdaptiveReplacementCacheManager α) : ℤ :=
  (m.queues t1).toFinset.card + ((m.queues t2).toFinset \ keys).card + slack keys m

section Reserves

variable {keys : Finset α} {m m' : AdaptiveReplacementCacheManager α}

theorem slack_nonneg (hm : 0 ≤ m.own.targetT1Size) : 0 ≤ slack keys m := by
  rw [slack]
  split
  · exact le_rfl
  · exact hm

theorem slack_le_target (hm : 0 ≤ m.own.targetT1Size) : slack keys m ≤ m.own.targetT1Size := by
  rw [slack]
  split
  · exact hm
  · exact le_rfl

theorem reserve_nonneg (hm : 0 ≤ m.own.targetT1Size) : 0 ≤ reserve keys m := by
  have hslack : 0 ≤ slack keys m := slack_nonneg hm
  rw [reserve]
  omega

theorem slack_mono (hm : 0 ≤ m.own.targetT1Size)
    (ht1 : (m'.queues t1).toFinset ⊆ (m.queues t1).toFinset)
    (htarget : ¬(m.queues t1).toFinset ⊆ keys → m'.own.targetT1Size ≤ m.own.targetT1Size) :
    slack keys m' ≤ slack keys m := by
  by_cases hkeys : (m.queues t1).toFinset ⊆ keys
  · rw [slack, slack, if_pos hkeys, if_pos (ht1.trans hkeys)]
  · rw [slack, slack, if_neg hkeys]
    split
    · exact hm
    · exact htarget hkeys

theorem reserve_mono (hm : 0 ≤ m.own.targetT1Size)
    (ht1 : (m'.queues t1).toFinset ⊆ (m.queues t1).toFinset)
    (ht2 : (m'.queues t2).toFinset \ keys ⊆ (m.queues t2).toFinset \ keys)
    (htarget : ¬(m.queues t1).toFinset ⊆ keys → m'.own.targetT1Size ≤ m.own.targetT1Size) :
    reserve keys m' ≤ reserve keys m := by
  have hslack := slack_mono hm ht1 htarget
  have hcard1 := Finset.card_le_card ht1
  have hcard2 := Finset.card_le_card ht2
  rw [reserve, reserve]
  omega

/-- A miss is paid for by one of the three parts of the reserve. -/
theorem reserve_lt (hm : 0 ≤ m.own.targetT1Size)
    (ht1 : (m'.queues t1).toFinset ⊆ (m.queues t1).toFinset)
    (ht2 : (m'.queues t2).toFinset \ keys ⊆ (m.queues t2).toFinset \ keys)
    (htarget : ¬(m.queues t1).toFinset ⊆ keys → m'.own.targetT1Size ≤ m.own.targetT1Size)
    (hpaid : (m'.queues t1).toFinset ⊂ (m.queues t1).toFinset ∨
      (m'.queues t2).toFinset \ keys ⊂ (m.queues t2).toFinset \ keys ∨
      slack keys m' < slack keys m) : reserve keys m' + 1 ≤ reserve keys m := by
  have hslack := slack_mono hm ht1 htarget
  have hcard1 := Finset.card_le_card ht1
  have hcard2 := Finset.card_le_card ht2
  rw [reserve, reserve]
  rcases hpaid with hless | hless | hless
  · have hlt := Finset.card_lt_card hless
    omega
  · have hlt := Finset.card_lt_card hless
    omega
  · omega

end Reserves

/-! ## Visits to keys that LRU holds -/

section Visits

variable {config : AdaptiveReplacementConfiguration} {onEvict onLoad : α → L → L} {k x : α}
  {s : AdaptiveReplacementQueue} {keys : Finset α} {n : ℕ}
  {m m' : AdaptiveReplacementCacheManager α} {l l' : L}
  {history : History (AdaptiveReplacementCacheManager α) α}

theorem reserve_relocate (hm : 0 ≤ m.own.targetT1Size) (hk : k ∈ keys) :
    reserve keys (m.relocate k s t2) ≤ reserve keys m := by
  apply reserve_mono hm
  · intro y hy
    simp only [LinkedHashSet.mem_toFinset, mem_relocate] at hy ⊢
    simp only [reduceCtorEq, false_and, or_false] at hy
    exact hy.1
  · intro y hy
    simp only [Finset.mem_sdiff, LinkedHashSet.mem_toFinset, mem_relocate] at hy ⊢
    rcases hy with ⟨hy | ⟨-, rfl⟩, hnot⟩
    · exact ⟨hy.1, hnot⟩
    · exact absurd hk hnot
  · exact fun _ => le_rfl

/-- The ghost that is visited takes the place of a key which leaves `t1`, or is none of `keys`,
or leaves `t2` because the target was lowered. -/
theorem reserve_ghostHit {q g : AdaptiveReplacementQueue} {target : ℤ}
    (hm : 0 ≤ m.own.targetT1Size) (hs : s = b1 ∨ s = b2)
    (hq : q = t1 ∧ g = b1 ∨ q = t2 ∧ g = b2) (hk : k ∈ keys) (hxk : x ≠ k) (hx : x ∈ m.queues q)
    (htarget : ¬(m.queues t1).toFinset ⊆ keys → target ≤ m.own.targetT1Size)
    (hpaid : q = t1 ∨ x ∉ keys ∨
      q = t2 ∧ ¬(m.queues t1).toFinset ⊆ keys ∧ target < m.own.targetT1Size) :
    reserve keys ((({ m with own := ⟨target⟩ } : AdaptiveReplacementCacheManager α).relocate x q
      g).relocate k s t2) + 1 ≤ reserve keys m := by
  generalize hm' : (({ m with own := ⟨target⟩ } : AdaptiveReplacementCacheManager α).relocate x q
    g).relocate k s t2 = m'
  have hown : m'.own = ⟨target⟩ := by
    rw [← hm']
    rfl
  have hqueue1 (y : α) : y ∈ m'.queues t1 ↔ y ∈ m.queues t1 ∧ (q = t1 → y ≠ x) := by
    rw [← hm']
    rcases hs with rfl | rfl <;> rcases hq with ⟨rfl, rfl⟩ | ⟨rfl, rfl⟩ <;> simp
  have hqueue2 (y : α) : y ∈ m'.queues t2 ↔ y ∈ m.queues t2 ∧ (q = t2 → y ≠ x) ∨ y = k := by
    rw [← hm']
    rcases hs with rfl | rfl <;> rcases hq with ⟨rfl, rfl⟩ | ⟨rfl, rfl⟩ <;> simp
  have hsub1 : (m'.queues t1).toFinset ⊆ (m.queues t1).toFinset := by
    intro y hy
    rw [LinkedHashSet.mem_toFinset, hqueue1] at hy
    exact LinkedHashSet.mem_toFinset.mpr hy.1
  have hsub2 : (m'.queues t2).toFinset \ keys ⊆ (m.queues t2).toFinset \ keys := by
    intro y hy
    rw [Finset.mem_sdiff, LinkedHashSet.mem_toFinset, hqueue2] at hy
    rcases hy with ⟨hy | rfl, hnew⟩
    · exact Finset.mem_sdiff.mpr ⟨LinkedHashSet.mem_toFinset.mpr hy.1, hnew⟩
    · exact absurd hk hnew
  apply reserve_lt hm hsub1 hsub2
  · rwa [hown]
  · rcases hq with ⟨rfl, rfl⟩ | ⟨rfl, rfl⟩
    · left
      rw [Finset.ssubset_iff_of_subset hsub1]
      exact ⟨x, LinkedHashSet.mem_toFinset.mpr hx, by simp [hqueue1]⟩
    · right
      rcases hpaid with himp | hother | ⟨-, hkeys, hlt⟩
      · cases himp
      · left
        rw [Finset.ssubset_iff_of_subset hsub2]
        refine ⟨x, ?_, ?_⟩
        · exact Finset.mem_sdiff.mpr ⟨LinkedHashSet.mem_toFinset.mpr hx, hother⟩
        · simp [hqueue2, hxk]
      · right
        have hsame : (m'.queues t1).toFinset = (m.queues t1).toFinset := by
          ext y
          simp [hqueue1]
        rw [slack, slack, if_neg hkeys, if_neg (by rwa [hsame]), hown]
        exact hlt

/-- If the head of a queue is among the keys visited last, all of the queue is. -/
theorem Recent.subset_recents (h : Recent history m) {q : AdaptiveReplacementQueue} {xs : List α}
    (hx : (m.queues q).toList = x :: xs) (hmem : x ∈ recents n history) :
    (m.queues q).toFinset ⊆ recents n history := by
  intro y hy
  exact mem_recents_of_le hmem (h.head_le hx y (LinkedHashSet.mem_toFinset.mp hy))

/-- All of `t1` was visited after the keys of `b1`. -/
theorem Recent.subset_recents_of_b1 (h : Recent history m) (hk : k ∈ m.queues b1)
    (hmem : k ∈ recents n history) : (m.queues t1).toFinset ⊆ recents n history := by
  intro y hy
  have hlt := (List.pairwise_append.mp h.increasingOnce).2.2 k hk y (LinkedHashSet.mem_toFinset.mp hy)
  exact mem_recents_of_le hmem hlt.le

theorem Sound.target_of_b2 (h : Sound config m) (hk : k ∈ m.queues b2) {target : ℤ}
    (htarget : adaptedTarget config b2 m = .ok target) :
    0 ≤ target ∧ target ≤ m.own.targetT1Size ∧ (0 < target → target < m.own.targetT1Size) := by
  have hpos := LinkedHashSet.length_pos_of_mem hk
  have hb1 := (m.queues b1).length_nonneg
  have ht1 := (m.queues t1).length_nonneg
  have hratio : (m.queues b1).length.tdiv (m.queues b2).length ≤ (m.queues b1).length :=
    Int.tdiv_le_self _ hb1
  have hl := h.left_le
  have hn := h.target_nonneg
  have ht := h.target_le
  have hc := config.maxNodes.property
  unfold IsInt at hc
  rw [h.adaptedTarget_b2 hpos, int32_of_isInt (by unfold IsInt; omega)] at htarget
  cases htarget
  omega

/-- While a visited key is missing, the full cache holds some key that is none of the `maxNodes`
keys visited last. -/
theorem Occupied.exists_other (h : Occupied config history m) (hk : k ∉ resident m)
    (hghost : 0 < (m.queues b1).length + (m.queues b2).length)
    (hmem : k ∈ recents config.maxNodes.val.toNat history)
    (ht1 : (m.queues t1).toFinset ⊆ recents config.maxNodes.val.toNat history) :
    ¬(m.queues t2).toFinset ⊆ recents config.maxNodes.val.toNat history := by
  intro ht2
  have hfull := h.full hghost
  have hcard := card_resident h.sound.located.filed
  have hsub : insert k (resident m) ⊆ recents config.maxNodes.val.toNat history :=
    Finset.insert_subset hmem (Finset.union_subset ht1 ht2)
  have hle := (Finset.card_le_card hsub).trans (card_recents_le _ _)
  rw [Finset.card_insert_of_notMem hk] at hle
  omega

/-- A ghost that LRU would still hold lowers the reserve when it is visited. -/
theorem Occupied.ghostHit_pays (h : Occupied config history m) (hr : Recent history m)
    (hc : 1 ≤ config.maxNodes.val) (hs : s = b1 ∨ s = b2)
    (hk : m.currentLocations.lookup k = some s)
    (hmem : k ∈ recents config.maxNodes.val.toNat history) {target : ℤ}
    (htarget : adaptedTarget config s m = .ok target)
    (hf : Freed (fun _ m => m) onEvict (some s) { m with own := ⟨target⟩ } l m' l') :
    reserve (recents config.maxNodes.val.toNat history) (m'.relocate k s t2) + 1 ≤
      reserve (recents config.maxNodes.val.toNat history) m := by
  have hks := (h.sound.located k s).mp hk
  have hpos := LinkedHashSet.length_pos_of_mem hks
  have hb1 := (m.queues b1).length_nonneg
  have hb2 := (m.queues b2).length_nonneg
  have hghost : 0 < (m.queues b1).length + (m.queues b2).length := by
    rcases hs with rfl | rfl <;> omega
  have hnot : k ∉ resident m := notMem_resident_of_ghost h.sound.located.filed hk hs
  have hother := h.exists_other hnot hghost hmem
  have hnn := h.sound.target_nonneg
  have hlower : ¬(m.queues t1).toFinset ⊆ recents config.maxNodes.val.toNat history →
      s = b2 ∧ target ≤ m.own.targetT1Size ∧ (0 < target → target < m.own.targetT1Size) := by
    intro hsub
    rcases hs with rfl | rfl
    · exact absurd (hr.subset_recents_of_b1 hks hmem) hsub
    · obtain ⟨-, hle, hlt⟩ := h.sound.target_of_b2 hks htarget
      exact ⟨rfl, hle, hlt⟩
  have hne {x : α} (hx : x ∈ resident m) : x ≠ k := fun he => hnot (he ▸ hx)
  cases hf with
  | @fromT1 x xs htake hx =>
    have hmemx : x ∈ m.queues t1 := LinkedHashSet.mem_of_toList_cons hx
    exact reserve_ghostHit hnn hs (.inl ⟨rfl, rfl⟩) hmem (hne (mem_resident.mpr (.inl hmemx))) hmemx
      (fun hsub => (hlower hsub).2.1) (.inl rfl)
  | @fromT2 x xs htake hx =>
    have hmemx : x ∈ m.queues t2 := LinkedHashSet.mem_of_toList_cons hx
    apply reserve_ghostHit hnn hs (.inr ⟨rfl, rfl⟩) hmem (hne (mem_resident.mpr (.inr hmemx))) hmemx
      (fun hsub => (hlower hsub).2.1)
    right
    by_cases hlast : x ∈ recents config.maxNodes.val.toNat history
    · -- all of `t2` was visited lately, so not all of `t1` was, and `t1` is below the new target
      right
      have hsub : ¬(m.queues t1).toFinset ⊆ recents config.maxNodes.val.toNat history :=
        fun hsub => hother hsub (hr.subset_recents hx hlast)
      obtain ⟨rfl, -, hlt⟩ := hlower hsub
      have hempty : (m.queues t1).isEmpty = false := by
        rw [← Bool.not_eq_true, LinkedHashSet.isEmpty_iff]
        intro hempty
        apply hsub
        rw [hempty]
        exact Finset.empty_subset _
      have hsize := h.sound.size_eq t1
      have hnonneg := (m.queues t1).length_nonneg
      have hbelow : (m.queues t1).length < target := by
        simp only [TakesT1, hempty, Bool.not_false, true_and, and_true] at htake
        omega
      exact ⟨rfl, hsub, hlt (by omega)⟩
    · exact .inl hlast
  | nothing htake hempty =>
    rcases h.takes hc (.ghostHit hs hk htarget) with hyes | hne
    · exact absurd hyes htake
    · exact absurd hempty hne

/-! ## Visits to other keys -/

theorem Freed.subset {hitList : Option AdaptiveReplacementQueue} {q : AdaptiveReplacementQueue}
    (hf : Freed (fun _ m => m) onEvict hitList m l m' l') (hq : q = t1 ∨ q = t2)
    (hx : x ∈ m'.queues q) : x ∈ m.queues q := by
  cases hf with
  | fromT1 => rcases hq with rfl | rfl <;> simp at hx <;> grind
  | fromT2 => rcases hq with rfl | rfl <;> simp at hx <;> grind
  | nothing => exact hx

/-- Only the visited key comes into a resident queue. -/
theorem Visited.subset {q : AdaptiveReplacementQueue}
    (hv : Visited config (fun _ m => m) onEvict onLoad k m l m' l') (hq : q = t1 ∨ q = t2)
    (hx : x ∈ m'.queues q) : x = k ∨ x ∈ m.queues q := by
  cases hv with
  | hit =>
    rcases mem_relocate.mp hx with ⟨hx, -⟩ | ⟨-, hx⟩
    · exact .inr hx
    · exact .inl hx
  | ghostHit hs hk htarget hf =>
    rcases mem_relocate.mp hx with ⟨hx, -⟩ | ⟨-, hx⟩
    · exact .inr (hf.subset hq hx)
    · exact .inl hx
  | sideFull hk hside ht1 hhead hf =>
    rcases mem_enqueue.mp hx with hx | ⟨-, hx⟩
    · exact .inr (mem_forget.mp (hf.subset hq hx)).1
    · exact .inl hx
  | t1Full =>
    rcases mem_enqueue.mp hx with hx | ⟨-, hx⟩
    · exact .inr (mem_forget.mp hx).1
    · exact .inl hx
  | directoryFull hk hside hcache hdirectory hhead hf =>
    rcases mem_enqueue.mp hx with hx | ⟨-, hx⟩
    · exact .inr (mem_forget.mp (hf.subset hq hx)).1
    · exact .inl hx
  | cacheFull hk hside hcache hdirectory hf =>
    rcases mem_enqueue.mp hx with hx | ⟨-, hx⟩
    · exact .inr (hf.subset hq hx)
    · exact .inl hx
  | room =>
    rcases mem_enqueue.mp hx with hx | ⟨-, hx⟩
    · exact .inr hx
    · exact .inl hx

/-- Any other visit raises the reserve by little more than the target can. -/
theorem Visited.reserve_le {keys' : Finset α}
    (hv : Visited config (fun _ m => m) onEvict onLoad k m l m' l') (h : Sound config m)
    (h' : Sound config m') (hk : k ∈ keys') (hkeys : (keys \ keys').card ≤ 1) :
    reserve keys' m' ≤ reserve keys m + config.maxNodes.val + 2 := by
  have hslack : 0 ≤ slack keys m := slack_nonneg h.target_nonneg
  have hslack' : slack keys' m' ≤ config.maxNodes.val :=
    (slack_le_target h'.target_nonneg).trans h'.target_le
  have hcard1 : (m'.queues t1).toFinset.card ≤ (m.queues t1).toFinset.card + 1 := by
    refine (Finset.card_le_card (t := insert k (m.queues t1).toFinset) ?_).trans
      (Finset.card_insert_le _ _)
    intro y hy
    rcases hv.subset (.inl rfl) (LinkedHashSet.mem_toFinset.mp hy) with rfl | hy
    · exact Finset.mem_insert_self _ _
    · exact Finset.mem_insert_of_mem (LinkedHashSet.mem_toFinset.mpr hy)
  have hcard2 : ((m'.queues t2).toFinset \ keys').card ≤
      ((m.queues t2).toFinset \ keys).card + 1 := by
    refine (Finset.card_le_card (t := ((m.queues t2).toFinset \ keys) ∪ (keys \ keys')) ?_).trans
      ((Finset.card_union_le _ _).trans (Nat.add_le_add_left hkeys _))
    intro y hy
    obtain ⟨hy, hnot⟩ := Finset.mem_sdiff.mp hy
    rcases hv.subset (.inr rfl) (LinkedHashSet.mem_toFinset.mp hy) with rfl | hy
    · exact absurd hk hnot
    · by_cases hold : y ∈ keys
      · exact Finset.mem_union_right _ (Finset.mem_sdiff.mpr ⟨hold, hnot⟩)
      · exact Finset.mem_union_left _ (Finset.mem_sdiff.mpr ⟨LinkedHashSet.mem_toFinset.mpr hy, hold⟩)
  rw [reserve, reserve]
  omega

end Visits

/-! ## Whole runs -/

section Runs

variable {config : AdaptiveReplacementConfiguration} {k : α}
  {m m' : AdaptiveReplacementCacheManager α}
  {history : History (AdaptiveReplacementCacheManager α) α} {events : List (Event α)}

/-- One visit costs a miss only if it lowers the reserve, or LRU misses as well. -/
theorem Occupied.amortized (h : Occupied config history m) (hr : Recent history m)
    (hrecalls : Recalls config history m) (hc : 1 ≤ config.maxNodes.val)
    (hvisits : Meets (fun _ call => ∃ k, call = .visit k) history)
    (hok : (manager config).perform m (.visit k) = .ok (m', events)) :
    reserve (recents config.maxNodes.val.toNat (⟨m, .visit k, events, m'⟩ :: history)) m' + 1 ≤
      reserve (recents config.maxNodes.val.toNat history) m + (if k ∈ resident m then 1 else 0) +
        if k ∈ recents config.maxNodes.val.toNat history then 0 else config.maxNodes.val + 3 := by
  obtain ⟨m₁, l₁, hok₁, hsound, heffect⟩ :=
    h.sound.visit recorder_responds (.inl rfl) hc (l := []) (h.fits hok)
  cases hok₁.symm.trans hok
  rcases visit_cases config recorder_responds (.inl rfl) h.sound.located k ([] : List (Event α))
    with ⟨m₂, l₂, hok₂, hv⟩ | ⟨herror, -⟩
  · cases hok₁.symm.trans hok₂
    by_cases hmem : k ∈ recents config.maxNodes.val.toNat history
    · rw [recents_visit_of_mem hmem, if_pos hmem]
      obtain ⟨hvisited, hsince⟩ := mem_recents.mp hmem
      have htracked := hrecalls k (remembered_of_visits hvisits hvisited) (by omega)
      have hmissed {P : Prop} (hk : m.currentLocations.lookup k = none) : P := by
        rw [tracked_of_none hk] at htracked
        cases htracked
      cases hv with
      | @hit s hs hk =>
        rw [if_pos (resident_hit h.sound.located hs hk).1]
        have hle := reserve_relocate (s := s) h.sound.target_nonneg hmem
        omega
      | ghostHit hs hk htarget hf =>
        rw [if_neg (notMem_resident_of_ghost h.sound.located.filed hk hs)]
        have hle := h.ghostHit_pays hr hc hs hk hmem htarget hf
        omega
      | sideFull hk => exact hmissed hk
      | t1Full hk => exact hmissed hk
      | directoryFull hk => exact hmissed hk
      | cacheFull hk => exact hmissed hk
      | room hk => exact hmissed hk
    · obtain ⟨hnew, hkeys⟩ :
          k ∈ recents config.maxNodes.val.toNat (⟨m, .visit k, events, m'⟩ :: history) ∧
            (recents config.maxNodes.val.toNat history \
              recents config.maxNodes.val.toNat (⟨m, .visit k, events, m'⟩ :: history)).card ≤ 1 :=
        recents_visit_of_notMem hmem (by omega)
      have hle := hv.reserve_le h.sound hsound hnew hkeys
      rw [if_neg hmem]
      split <;> omega
  · cases herror.symm.trans hok

theorem fits_of_visits (hc : 1 ≤ config.maxNodes.val) (hrun : (manager config).Reaches history m)
    (hvisits : Meets (fun _ call => ∃ k, call = .visit k) history) :
    Meets (Fits config) history := by
  induction hrun with
  | start => exact meets_nil
  | @call history m m' call events run hok ih =>
    obtain ⟨⟨k, rfl⟩, hrest⟩ := meets_cons.mp hvisits
    exact meets_cons.mpr ⟨(occupied_of_visits hc run hrest).fits hok, ih hrest⟩

theorem missed_le (hc : 1 ≤ config.maxNodes.val) (hrun : (manager config).Reaches history m)
    (hvisits : Meets (fun _ call => ∃ k, call = .visit k) history) :
    history.length + reserve (recents config.maxNodes.val.toNat history) m +
        (config.maxNodes.val + 3) * stackHits config.maxNodes.val.toNat (visits history) ≤
      (config.maxNodes.val + 3) * history.length + residentVisits (manager config) history := by
  induction hrun with
  | start => simp [reserve, slack, initial, LinkedHashSet.toFinset, stackHits, visits, residentVisits]
  | @call history m m' call events run hok ih =>
    obtain ⟨⟨k, rfl⟩, hrest⟩ := meets_cons.mp hvisits
    have hih := ih hrest
    have hstep := (occupied_of_visits hc run hrest).amortized (recent_of_reaches run)
      (recalls_of_reaches hc run (fits_of_visits hc run hrest)) hc hrest hok
    have hhit : k ∈ recents config.maxNodes.val.toNat history ↔ k ∈ visits history ∧
        (since k (visits history)).card < config.maxNodes.val.toNat := mem_recents
    rw [visits, stackHits, residentVisits, List.length_cons]
    by_cases hmem : k ∈ recents config.maxNodes.val.toNat history
    · rw [if_pos hmem] at hstep
      rw [if_pos (hhit.mp hmem)]
      push_cast
      linarith
    · rw [if_neg hmem] at hstep
      rw [if_neg (fun h => hmem (hhit.mpr h))]
      push_cast
      linarith

end Runs

/-! ## The simulator -/

section Simulators

open CacheHitSimulator

variable {config : AdaptiveReplacementConfiguration} {k : α} {fqnSource : List α}
  {showProgressEvery : JavaInt}

theorem Freed.elsewhere {L' : Type} {onEvict : α → L → L} {hitList : Option AdaptiveReplacementQueue}
    {m m' : AdaptiveReplacementCacheManager α} {l l' : L}
    (hf : Freed (fun _ m => m) onEvict hitList m l m' l') (onEvict' : α → L' → L') (r : L') :
    ∃ r', Freed (fun _ m => m) onEvict' hitList m r m' r' := by
  cases hf with
  | fromT1 htake hx => exact ⟨_, .fromT1 htake hx⟩
  | fromT2 htake hx => exact ⟨_, .fromT2 htake hx⟩
  | nothing htake hempty => exact ⟨_, .nothing htake hempty⟩

/-- What listeners remember makes no difference to the manager. -/
theorem Visited.elsewhere {L' : Type} {onEvict onLoad : α → L → L}
    {m m' : AdaptiveReplacementCacheManager α} {l l' : L}
    (hv : Visited config (fun _ m => m) onEvict onLoad k m l m' l') (onEvict' onLoad' : α → L' → L')
    (r : L') : ∃ r', Visited config (fun _ m => m) onEvict' onLoad' k m r m' r' := by
  cases hv with
  | hit hs hk => exact ⟨_, .hit hs hk⟩
  | ghostHit hs hk htarget hf =>
    obtain ⟨r', hf'⟩ := hf.elsewhere onEvict' r
    exact ⟨_, .ghostHit hs hk htarget hf'⟩
  | sideFull hk hside ht1 hx hf =>
    obtain ⟨r', hf'⟩ := hf.elsewhere onEvict' r
    exact ⟨_, .sideFull hk hside ht1 hx hf'⟩
  | t1Full hk hside ht1 hx => exact ⟨_, .t1Full hk hside ht1 hx⟩
  | directoryFull hk hside hcache hdirectory hx hf =>
    obtain ⟨r', hf'⟩ := hf.elsewhere onEvict' r
    exact ⟨_, .directoryFull hk hside hcache hdirectory hx hf'⟩
  | cacheFull hk hside hcache hdirectory hf =>
    obtain ⟨r', hf'⟩ := hf.elsewhere onEvict' r
    exact ⟨_, .cacheFull hk hside hcache hdirectory hf'⟩
  | room hk hside hcache => exact ⟨_, .room hk hside hcache⟩

/-- The rounds of the simulator are visits of a run with a recording listener. -/
theorem reaches_of_run
    {history : List (Record (Progress ((Policy.adaptiveReplacement config).simulator fqnSource
      showProgressEvery).policy) α Unit)}
    {s : Progress ((Policy.adaptiveReplacement config).simulator fqnSource showProgressEvery).policy}
    (hrun : Run (iterate ((Policy.adaptiveReplacement config).simulator fqnSource showProgressEvery))
      (CacheHitSimulator.start _) history s) :
    ∃ calls, (manager config).Reaches calls s.1.1 ∧
      Meets (fun _ call => ∃ k, call = .visit k) calls ∧
      visits calls = history.map Record.call ∧
      residentVisits (manager config) calls =
        residentRounds ((Policy.adaptiveReplacement config).simulator fqnSource
          showProgressEvery).policy history := by
  induction hrun with
  | start => exact ⟨[], .start, meets_nil, rfl, rfl⟩
  | @call history s s' fqn o run hok ih =>
    obtain ⟨calls, hreaches, hvisits, hcalls, hresident⟩ := ih
    have hlocated := (recent_of_reaches hreaches).located
    have hvisit := visit_of_iterate hok
    rcases visit_cases config countingListener_responds (.inl rfl) hlocated fqn s.1.2
      with ⟨m', l', hok', hv⟩ | ⟨herror, -⟩
    · have hsame : s'.1 = (m', l') := Except.ok.inj (hvisit.symm.trans hok')
      obtain ⟨events, hv'⟩ := hv.elsewhere recordEviction recordLoad []
      have hperform : (manager config).perform s.1.1 (.visit fqn) = .ok (m', events) :=
        hv'.visit_eq recorder_responds (.inl rfl) hlocated.filed
      rw [hsame]
      refine ⟨_, hreaches.call hperform, meets_cons.mpr ⟨⟨fqn, rfl⟩, hvisits⟩, ?_, ?_⟩
      · rw [visits, hcalls, List.map_cons]
      · rw [residentVisits, hresident, residentRounds]
        rfl
    · cases herror.symm.trans hvisit

theorem admitted_of_run (hc : 1 ≤ config.maxNodes.val)
    (hsmall : 2 * config.maxNodes.val ≤ 2147483647)
    {history : List (Record (Progress ((Policy.adaptiveReplacement config).simulator fqnSource
      showProgressEvery).policy) α Unit)}
    {s : Progress ((Policy.adaptiveReplacement config).simulator fqnSource showProgressEvery).policy}
    (hrun : Run (iterate ((Policy.adaptiveReplacement config).simulator fqnSource showProgressEvery))
      (CacheHitSimulator.start _) history s) (trace : List α) :
    Admitted (iterate ((Policy.adaptiveReplacement config).simulator fqnSource showProgressEvery))
      (fun s fqn => (Policy.adaptiveReplacement config).Fits s.1.1 (.visit fqn)) s trace := by
  induction trace generalizing history s with
  | nil => trivial
  | cons fqn trace ih =>
    obtain ⟨calls, hreaches, hvisits, -⟩ := reaches_of_run hrun
    have hoccupied := occupied_of_visits hc hreaches hvisits
    exact ⟨⟨fun _ _ _ => hsmall, hoccupied.target_fits⟩, fun s' o hok => ih (hrun.call hok)⟩

/-- For every trace the adaptive manager misses at most `maxNodes + 3` times as often as an LRU
manager of the same size, so what it misses is bounded by what any store has to load. -/
theorem misses_le_of_lru (config : AdaptiveReplacementConfiguration) (hc : 1 ≤ config.maxNodes.val)
    (hsmall : 2 * config.maxNodes.val ≤ 2147483647) (fqnSource : List α)
    (hlength : fqnSource.length ≤ 2147483647) (showProgressEvery : JavaInt)
    (hprogress : showProgressEvery.val ≠ 0) :
    ∃ report report',
      testPerformance ((Policy.adaptiveReplacement config).simulator fqnSource showProgressEvery) =
        .ok report ∧
      testPerformance ((Policy.lru ⟨config.maxNodes⟩).simulator fqnSource showProgressEvery) =
        .ok report' ∧
      report.misses ≤ (config.maxNodes.val + 3) * report'.misses ∧
      ∀ (h loads : ℕ) (final : Finset α), 1 ≤ h → h ≤ config.maxNodes.val →
        Serves h ∅ fqnSource loads final →
        (config.maxNodes.val - h + 1) * report.misses ≤ (config.maxNodes.val + 3) *
          (config.maxNodes.val * loads + (h - 1) * (config.maxNodes.val - h)) := by
  obtain ⟨history, s, report, hrun, -, hreport, hmisses, hrequests, -⟩ :=
    Policy.exists_report (p := Policy.adaptiveReplacement config) hc hprogress hlength
      (admitted_of_run hc hsmall .start fqnSource)
  obtain ⟨calls, hreaches, hvisits, hcalls, hresident⟩ := reaches_of_run hrun
  obtain ⟨history', s', report', hrun', hmeets', hreport', hmisses', hrequests'⟩ :=
    Policy.exists_report_of_evictsHead (p := Policy.lru ⟨config.maxNodes⟩) trivial hc hprogress
      hlength
  obtain ⟨report'', hreport'', hhits, hmissed⟩ := LruCacheManager.exists_report_stackHits
    ⟨config.maxNodes⟩ hc fqnSource hlength showProgressEvery hprogress
  obtain rfl : report'' = report' := Except.ok.inj (hreport''.symm.trans hreport')
  have hle : report.misses ≤ (config.maxNodes.val + 3) * report''.misses := by
    have hbound := missed_le hc hreaches hvisits
    have htarget := (occupied_of_visits hc hreaches hvisits).sound.target_nonneg
    have hnonneg : 0 ≤ reserve (recents config.maxNodes.val.toNat calls) s.1.1 :=
      reserve_nonneg htarget
    have hreverse := congrArg List.reverse hrequests
    rw [requests_marks, List.reverse_reverse] at hreverse
    have hsource : visits calls = fqnSource.reverse := hcalls.trans hreverse
    have hlengths : calls.length = fqnSource.length := by
      rw [← length_visits hvisits, hsource, List.length_reverse]
    have hrounds : history.length = fqnSource.length := by
      have hlength' := congrArg List.length hreverse
      rwa [List.length_map, List.length_reverse] at hlength'
    have hsum := misses_marks _ history
    have hhits' : report''.hits = stackHits config.maxNodes.val.toNat fqnSource.reverse := hhits
    rw [hsource, hlengths, hresident] at hbound
    rw [hmissed, hhits', hmisses, mul_sub]
    omega
  refine ⟨report, report'', hreport, hreport', hle, ?_⟩
  intro h loads final hh hlower hserves
  rw [← hrequests'] at hserves
  have hbound : (config.maxNodes.val - h + 1) * report''.misses ≤
      config.maxNodes.val * loads + (h - 1) * (config.maxNodes.val - h) := by
    rw [hmisses']
    exact Policy.misses_le_of_run (p := Policy.lru ⟨config.maxNodes⟩) trivial hc hrun' hmeets' hh
      hlower hserves
  calc (config.maxNodes.val - h + 1) * report.misses
      ≤ (config.maxNodes.val - h + 1) * ((config.maxNodes.val + 3) * report''.misses) :=
        mul_le_mul_of_nonneg_left hle (by omega)
    _ = (config.maxNodes.val + 3) * ((config.maxNodes.val - h + 1) * report''.misses) :=
        mul_left_comm _ _ _
    _ ≤ (config.maxNodes.val + 3) *
        (config.maxNodes.val * loads + (h - 1) * (config.maxNodes.val - h)) :=
        mul_le_mul_of_nonneg_left hbound (by omega)

theorem misses_le_of_lru_twoNodes : ∃ report report',
    testPerformance ((Policy.adaptiveReplacement (α := ℕ) twoNodes).simulator [1, 1, 2, 3, 2] 100) =
      .ok report ∧
    testPerformance ((Policy.lru (α := ℕ) ⟨2⟩).simulator [1, 1, 2, 3, 2] 100) = .ok report' ∧
    report.misses ≤ (2 + 3) * report'.misses ∧
    ∀ (h loads : ℕ) (final : Finset ℕ), 1 ≤ h → (h : ℤ) ≤ 2 →
      Serves h ∅ [1, 1, 2, 3, 2] loads final →
      (2 - h + 1) * report.misses ≤ (2 + 3) * (2 * loads + ((h : ℤ) - 1) * (2 - h)) :=
  misses_le_of_lru twoNodes (by decide) (by decide) [1, 1, 2, 3, 2] (by decide) 100 (by decide)

end Simulators

end CachePolicies.AdaptiveReplacementCacheManager
