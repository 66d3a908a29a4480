import CachePolicies.AdaptiveReplacementOccupancy
import CachePolicies.AdaptiveReplacementRecency
import CachePolicies.ScanRuns

/-!
# Scans of the adaptive manager

A scanned key enters `t1`. `freeRoom` makes room for it out of `t2` only while `t1` holds at
most as many keys as its target, and each such visit brings `t1` one key closer to that. Only
an empty `t1` is passed over whatever the target, which matters where the target is negative:
that is what an overflow of its sum makes of it.
-/

namespace CachePolicies.AdaptiveReplacementCacheManager

open MultipleQueueCacheManager ReplacementCacheManager ReplacementQueue

variable {α L : Type} [DecidableEq α]

/-- The keys of `t2`. -/
def frequent (m : AdaptiveReplacementCacheManager α) : Finset α := (m.queues t2).toFinset

/-- How many keys `t2` may still lose. -/
def potential (m : AdaptiveReplacementCacheManager α) : ℤ :=
  max 0 (m.own.targetT1Size + 1 - (m.queues t1).length)

/-- A missed key costs `t2` its head although the target is negative. -/
def Exposed (config : AdaptiveReplacementConfiguration) (m : AdaptiveReplacementCacheManager α) :
    Prop :=
  (∃ k m', CallsFreeRoom config k m none m') ∧ m.own.targetT1Size < 0 ∧ m.queues t1 = ∅ ∧
    m.queues t2 ≠ ∅

/-! ## What holds in every run -/

/-- The invariant of all runs, those where a sum overflows among them. -/
structure Listed (m : AdaptiveReplacementCacheManager α) : Prop where
  located : m.Located
  left_le : (m.queues t1).length + (m.queues b1).length ≤ 2147483647

section Runs

variable {config : AdaptiveReplacementConfiguration} {onEvict onLoad : α → L → L} {k : α}
  {m m' : AdaptiveReplacementCacheManager α} {l l' : L}
  {history : History (AdaptiveReplacementCacheManager α) α}

theorem Listed.size_t1 (h : Listed m) : (m.queues t1).size = (m.queues t1).length := by
  have hb1 := (m.queues b1).length_nonneg
  have hleft := h.left_le
  exact LinkedHashSet.size_of_le (by omega)

theorem Listed.leftSideSize_eq (h : Listed m) :
    leftSideSize m = (m.queues t1).length + (m.queues b1).length := by
  have ht1 := (m.queues t1).length_nonneg
  have hb1 := (m.queues b1).length_nonneg
  have hleft := h.left_le
  rw [leftSideSize, h.size_t1, LinkedHashSet.size_of_le (by omega), int32_of_isInt]
  unfold IsInt
  omega

theorem left_enqueue_le (k : α) (m : AdaptiveReplacementCacheManager α) :
    ((m.enqueue k t1).queues t1).length + ((m.enqueue k t1).queues b1).length ≤
      (m.queues t1).length + (m.queues b1).length + 1 := by
  have hadded := (m.queues t1).length_add_le k
  rw [queues_enqueue_self, queues_enqueue_of_ne (by simp)]
  omega

theorem left_relocate_le (k : α) (s : AdaptiveReplacementQueue)
    (m : AdaptiveReplacementCacheManager α) :
    ((m.relocate k s t2).queues t1).length + ((m.relocate k s t2).queues b1).length ≤
      (m.queues t1).length + (m.queues b1).length := by
  have hle (q) (hq : q ≠ t2) : ((m.relocate k s t2).queues q).length ≤ (m.queues q).length :=
    Int.ofNat_le.mpr (toList_relocate_sublist hq).length_le
  exact add_le_add (hle t1 (by simp)) (hle b1 (by simp))

/-- A key joins a full side of the directory only in the place of another one. -/
theorem Visited.listed (h : Listed m) (hv : Visited config (fun _ m => m) onEvict onLoad k m l m' l') :
    Listed m' := by
  have hm' := (hv.reordered h.located).1
  have hleft := h.left_le
  have hside := h.leftSideSize_eq
  have hc := config.maxNodes.property.2
  refine ⟨hm', ?_⟩
  cases hv with
  | @hit s hs hk => exact (left_relocate_le k s m).trans hleft
  | @ghostHit s target m₁ l₁ hs hk htarget hf =>
    have hfreed := (hf.after (m := { m with own := ⟨target⟩ }) (.inl rfl) h.located).left
    exact (left_relocate_le k s m₁).trans (hfreed.trans hleft)
  | @sideFull x xs m₁ l₁ hk hfull ht1 hx hf =>
    have hmem : x ∈ m.queues b1 := LinkedHashSet.mem_of_toList_cons hx
    have hdropped (q) := length_forget (q := q) subclass hmem
    have hfreed := (hf.after (.inl rfl) (h.located.forget (h.located.only (h.located.filed hmem)))).left
    have hentered := left_enqueue_le k m₁
    have h1 := hdropped t1
    have h3 := hdropped b1
    simp at h1 h3
    omega
  | @t1Full x xs hk hfull ht1 hx =>
    have hdropped (q) := length_forget (q := q) subclass (LinkedHashSet.mem_of_toList_cons hx)
    have hentered := left_enqueue_le k (forget subclass x t1 m)
    have h1 := hdropped t1
    have h3 := hdropped b1
    simp at h1 h3
    omega
  | @directoryFull x xs m₁ l₁ hk hroom hcache hdirectory hx hf =>
    have hmem : x ∈ m.queues b2 := LinkedHashSet.mem_of_toList_cons hx
    have hfreed := (hf.after (.inl rfl) (h.located.forget (h.located.only (h.located.filed hmem)))).left
    have hentered := left_enqueue_le k m₁
    rw [queues_forget_of_ne (by simp), queues_forget_of_ne (by simp)] at hfreed
    omega
  | @cacheFull m₁ l₁ hk hroom hcache hdirectory hf =>
    have hfreed := (hf.after (.inl rfl) h.located).left
    have hentered := left_enqueue_le k m₁
    omega
  | room hk hroom hcache =>
    have hentered := left_enqueue_le k m
    omega

theorem listed_empty (own : AdaptiveFields) :
    Listed (⟨fun _ => ∅, ∅, own⟩ : AdaptiveReplacementCacheManager α) := by
  refine ⟨located_empty, ?_⟩
  rw [LinkedHashSet.length_empty]
  decide

theorem Listed.perform (h : Listed m) {call : Call α} {events : List (Event α)}
    (hok : (manager config).perform m call = .ok (m', events)) : Listed m' := by
  cases call with
  | visit k =>
    rcases visit_cases config recorder_responds (.inl rfl) h.located k ([] : List (Event α))
      with ⟨m₁, l₁, hok₁, hv⟩ | ⟨herror, -⟩
    · cases hok₁.symm.trans hok
      exact hv.listed h
    · cases herror.symm.trans hok
  | remove k =>
    cases hok
    have hle := length_remove_le subclass k m
    exact ⟨h.located.remove k, (add_le_add (hle t1) (hle b1)).trans h.left_le⟩
  | clear =>
    cases hok
    exact listed_empty m.own

theorem listed_of_reaches (hrun : (manager config).Reaches history m) : Listed m := by
  induction hrun with
  | start => exact listed_empty ⟨0⟩
  | call _ hok ih => exact ih.perform hok

end Runs

/-! ## One visit of a scan -/

section Visits

variable {config : AdaptiveReplacementConfiguration}
  {settle : α → AdaptiveReplacementCacheManager α → AdaptiveReplacementCacheManager α}
  {onEvict onLoad : α → L → L} {k x : α} {hitList : Option AdaptiveReplacementQueue}
  {m m' : AdaptiveReplacementCacheManager α} {l l' : L}

/-- Which key is missed does not matter to the room that is made for it. -/
theorem CallsFreeRoom.for_key (h : CallsFreeRoom config x m none m')
    (hk : m.currentLocations.lookup k = none) : CallsFreeRoom config k m none m' := by
  cases h with
  | sideFull _ hside ht1 hdrop => exact .sideFull hk hside ht1 hdrop
  | directoryFull _ hside hcache hdirectory hdrop =>
    exact .directoryFull hk hside hcache hdirectory hdrop
  | cacheFull _ hside hcache hdirectory => exact .cacheFull hk hside hcache hdirectory

theorem CallsFreeRoom.missed (h : CallsFreeRoom config k m none m') :
    m'.currentLocations.lookup k = none := by
  have hgone {m' : AdaptiveReplacementCacheManager α} {s : AdaptiveReplacementQueue}
      (hk : m.currentLocations.lookup k = none) (hdrop : removeNode subclass s m = .ok m') :
      m'.currentLocations.lookup k = none := by
    obtain ⟨x, xs, -, rfl⟩ := removeNode_eq_ok hdrop
    rw [lookup_forget, hk, ite_self]
  cases h with
  | sideFull hk _ _ hdrop => exact hgone hk hdrop
  | directoryFull hk _ _ _ hdrop => exact hgone hk hdrop
  | cacheFull hk => exact hk

theorem CallsFreeRoom.own (h : CallsFreeRoom config k m none m') : m'.own = m.own := by
  cases h with
  | sideFull _ _ _ hdrop =>
    obtain ⟨x, xs, -, rfl⟩ := removeNode_eq_ok hdrop
    rfl
  | directoryFull _ _ _ _ hdrop =>
    obtain ⟨x, xs, -, rfl⟩ := removeNode_eq_ok hdrop
    rfl
  | cacheFull => rfl

/-- A missed key joins `t1` once `freeRoom` has made room for it. -/
theorem CallsFreeRoom.visited {m₁ : AdaptiveReplacementCacheManager α}
    (h : CallsFreeRoom config k m none m₁) (hf : Freed settle onEvict none m₁ l m' l') :
    Visited config settle onEvict onLoad k m l (m'.enqueue k t1) (onLoad k l') := by
  cases h with
  | sideFull hk hside ht1 hdrop =>
    obtain ⟨x, xs, hx, rfl⟩ := removeNode_eq_ok hdrop
    exact .sideFull hk hside (LinkedHashSet.size_lt_val.mp ht1) hx hf
  | directoryFull hk hside hcache hdirectory hdrop =>
    obtain ⟨x, xs, hx, rfl⟩ := removeNode_eq_ok hdrop
    exact .directoryFull hk hside hcache hdirectory hx hf
  | cacheFull hk hside hcache hdirectory => exact .cacheFull hk hside hcache hdirectory hf

/-- A visit to an untracked key calls `freeRoom`, replaces the head of `t1` or finds room. -/
theorem Visited.missed_cases (hk : m.currentLocations.lookup k = none)
    (hv : Visited config settle onEvict onLoad k m l m' l') :
    (∃ m₁ m₂ l₂, CallsFreeRoom config k m none m₁ ∧ Freed settle onEvict none m₁ l m₂ l₂ ∧
      m' = m₂.enqueue k t1) ∨
    (∃ x xs, (m.queues t1).toList = x :: xs ∧ m' = (forget subclass x t1 m).enqueue k t1) ∨
    m' = m.enqueue k t1 := by
  cases hv with
  | hit _ hlookup => cases hk.symm.trans hlookup
  | ghostHit _ hlookup => cases hk.symm.trans hlookup
  | sideFull hk hside ht1 hx hf =>
    have ht1 := LinkedHashSet.size_lt_val.mpr ht1
    exact .inl ⟨_, _, _, .sideFull hk hside ht1 (removeNode_cons hx), hf, rfl⟩
  | t1Full hk hside ht1 hx => exact .inr (.inl ⟨_, _, hx, rfl⟩)
  | directoryFull hk hside hcache hdirectory hx hf =>
    exact .inl ⟨_, _, _, .directoryFull hk hside hcache hdirectory (removeNode_cons hx), hf, rfl⟩
  | cacheFull hk hside hcache hdirectory hf =>
    exact .inl ⟨_, _, _, .cacheFull hk hside hcache hdirectory, hf, rfl⟩
  | room => exact .inr (.inr rfl)

/-- What `freeRoom` costs `t2`, if the missed key then joins `t1`. -/
theorem Freed.paid (hm : m.Located) (hsize : (m.queues t1).size = (m.queues t1).length)
    (h : Freed (fun _ m => m) onEvict none m l m' l')
    (hsafe : 0 ≤ m.own.targetT1Size ∨ m.queues t1 ≠ ∅ ∨ m.queues t2 = ∅) :
    ((frequent m \ frequent m').card : ℤ) +
      max 0 (m.own.targetT1Size + 1 - ((m'.queues t1).length + 1)) ≤ potential m := by
  cases h with
  | @fromT1 x xs htake hx =>
    have hmoved := length_relocate (q := t1) (d := b1) hm.filed (LinkedHashSet.mem_of_toList_cons hx)
    simp at hmoved
    rw [frequent, frequent, queues_relocate_of_ne (by simp) (by simp), Finset.sdiff_self,
      Finset.card_empty, potential, hmoved]
    omega
  | @fromT2 x xs htake hx =>
    have hone : (frequent m \ frequent (m.relocate x t2 b2)).card ≤ 1 := by
      refine card_sdiff_le_one (x := x) fun y hy hne => ?_
      rw [frequent, LinkedHashSet.mem_toFinset] at hy ⊢
      exact mem_relocate.mpr (.inl ⟨hy, fun _ => hne⟩)
    have hnonempty : m.queues t2 ≠ ∅ := by
      intro hempty
      rw [hempty] at hx
      cases hx
    have hle : (m.queues t1).length ≤ m.own.targetT1Size := by
      by_cases hempty : m.queues t1 = ∅
      · rw [hempty, LinkedHashSet.length_empty]
        exact hsafe.resolve_right (not_or.mpr ⟨not_not.mpr hempty, hnonempty⟩)
      · have hne : (m.queues t1).isEmpty = false := by
          rw [← Bool.not_eq_true, LinkedHashSet.isEmpty_iff]
          exact hempty
        simp only [TakesT1, hne, Bool.not_false, true_and, hsize] at htake
        omega
    rw [queues_relocate_of_ne (by simp) (by simp), potential]
    omega
  | nothing =>
    rw [Finset.sdiff_self, Finset.card_empty, potential]
    omega

/-- A scanned key joins `t1`, and `t2` pays for the room made for it. -/
theorem Visited.paid (hlisted : Listed m) (hsafe : ¬Exposed config m)
    (hk : m.currentLocations.lookup k = none)
    (hv : Visited config (fun _ m => m) onEvict onLoad k m l m' l') :
    m'.own = m.own ∧ k ∈ m'.queues t1 ∧
      ((frequent m \ frequent m').card : ℤ) + potential m' ≤ potential m := by
  have hm := hlisted.located
  have hentered {m₂ : AdaptiveReplacementCacheManager α}
      (hm₂ : m₂.Located) (hk₂ : m₂.currentLocations.lookup k = none) :
      k ∈ (m₂.enqueue k t1).queues t1 ∧ frequent (m₂.enqueue k t1) = frequent m₂ ∧
        ((m₂.enqueue k t1).queues t1).length = (m₂.queues t1).length + 1 := by
    refine ⟨mem_enqueue.mpr (.inr ⟨rfl, rfl⟩), ?_, ?_⟩
    · rw [frequent, queues_enqueue_of_ne (by simp), frequent]
    · rw [length_enqueue (hm₂.filed.notMem_of_none hk₂ t1), if_pos rfl]
  rcases hv.missed_cases hk with ⟨m₁, m₂, l₂, hcall, hf, rfl⟩ | ⟨x, xs, hx, rfl⟩ | rfl
  · obtain ⟨hm₁, hsame₁, hsame₂⟩ := hcall.kept hm
    have haf := hf.after (.inl rfl) hm₁
    have hk₁ : m₁.currentLocations.lookup k = none := hcall.missed
    have hk₂ := (haf.lookup k (notMem_resident_of_none hm₁.filed hk₁)).trans hk₁
    obtain ⟨hmem, hfrequent, hsize⟩ := hentered haf.located hk₂
    have hpaid := hf.paid hm₁ (by rw [hsame₁, hlisted.size_t1]) (by
      rw [hcall.own, hsame₁, hsame₂]
      by_contra hunsafe
      obtain ⟨htarget, hrest⟩ := not_or.mp hunsafe
      obtain ⟨hempty, hnonempty⟩ := not_or.mp hrest
      exact hsafe ⟨⟨k, m₁, hcall⟩, not_le.mp htarget, not_not.mp hempty, hnonempty⟩)
    refine ⟨haf.own.trans hcall.own, hmem, ?_⟩
    rw [frequent, potential, hsame₁, hsame₂, hcall.own, ← frequent, ← potential] at hpaid
    rw [hfrequent, potential, hsize, own_enqueue, haf.own, hcall.own]
    exact hpaid
  · have hhead : x ∈ m.queues t1 := LinkedHashSet.mem_of_toList_cons hx
    have hk₂ : (forget subclass x t1 m).currentLocations.lookup k = none := by
      rw [lookup_forget, hk, ite_self]
    obtain ⟨hmem, hfrequent, hsize⟩ := hentered (hm.forget (hm.only (hm.filed hhead))) hk₂
    have hleft : frequent (forget subclass x t1 m) = frequent m := by
      rw [frequent, queues_forget_of_ne (by simp), frequent]
    refine ⟨rfl, hmem, ?_⟩
    rw [hfrequent, hleft, Finset.sdiff_self, Finset.card_empty, potential, hsize,
      length_forget subclass hhead, if_pos rfl, potential, own_enqueue]
    show _ + max 0 (m.own.targetT1Size + 1 - _) ≤ _
    omega
  · obtain ⟨hmem, hfrequent, hsize⟩ := hentered hm hk
    refine ⟨rfl, hmem, ?_⟩
    rw [hfrequent, Finset.sdiff_self, Finset.card_empty, potential, hsize, potential, own_enqueue]
    omega

theorem Visited.scanStep (hlisted : Listed m) (hsafe : ¬Exposed config m) (hk : tracked m k = false)
    (hv : Visited config (fun _ m => m) onEvict onLoad k m l m' l') :
    (Listed m' ∧ m'.own = m.own ∧ ¬Exposed config m') ∧
      ScanStep (fun m k => tracked m k = false) frequent (fun m => (seenOften m).toFinset)
        potential k m m' := by
  have hm := hlisted.located
  have hnone : m.currentLocations.lookup k = none := by simpa [tracked] using hk
  obtain ⟨hown, hmem, hpaid⟩ := hv.paid hlisted hsafe hnone
  obtain ⟨hm', hreordered⟩ := hv.reordered hm
  refine ⟨⟨hv.listed hlisted, hown, fun hexposed => ?_⟩, ?_, ?_, hpaid⟩
  · rw [hexposed.2.2.1] at hmem
    exact LinkedHashSet.notMem_empty k hmem
  · intro y hne hy
    rw [← Bool.not_eq_true, tracked_iff hm] at hy
    rw [← Bool.not_eq_true, tracked_iff hm']
    cases hreordered with
    | missed _ honce hsub hoften =>
      rw [honce, List.mem_append, List.mem_singleton]
      rintro ((hmem | hmem) | hmem)
      · exact hy (.inl (hsub.subset hmem))
      · exact hne hmem
      · exact hy (.inr (hoften.subset hmem))
    | revisited htracked => cases hk.symm.trans htracked
  · intro y hy
    rw [List.mem_toFinset] at hy ⊢
    cases hreordered with
    | missed _ _ _ hoften => exact hoften.subset hy
    | revisited htracked => cases hk.symm.trans htracked

/-- The head of `t2` leaves it where the target is negative and `t1` is empty. -/
theorem Exposed.departs (h : Exposed config m) (hm : m.Located)
    (hk : m.currentLocations.lookup k = none) :
    potential m = 0 ∧ ∃ m' events, (manager config).perform m (.visit k) = .ok (m', events) ∧
      1 ≤ (frequent m \ frequent m').card := by
  obtain ⟨⟨y, m₁, hcall⟩, htarget, hempty, hnonempty⟩ := h
  refine ⟨?_, ?_⟩
  · rw [potential, hempty, LinkedHashSet.length_empty]
    omega
  · have hcall := hcall.for_key hk
    obtain ⟨hm₁, hsame₁, hsame₂⟩ := hcall.kept hm
    have htake : ¬TakesT1 none m₁ := by
      rintro ⟨hne, -⟩
      rw [hsame₁, hempty] at hne
      cases hne
    cases hx : (m₁.queues t2).toList with
    | nil => exact absurd (hsame₂.symm.trans (LinkedHashSet.ext hx)) hnonempty
    | cons x xs =>
      have hf : Freed (fun _ m => m) recordEviction none m₁ [] _ _ := .fromT2 htake hx
      have hv : Visited config (fun _ m => m) recordEviction recordLoad k m [] _ _ :=
        hcall.visited hf
      refine ⟨_, _, hv.visit_eq recorder_responds (.inl rfl) hm.filed, ?_⟩
      have hmem : x ∈ m.queues t2 := hsame₂ ▸ LinkedHashSet.mem_of_toList_cons hx
      refine Finset.card_pos.mpr ⟨x, Finset.mem_sdiff.mpr ⟨?_, ?_⟩⟩
      · exact LinkedHashSet.mem_toFinset.mpr hmem
      · rw [frequent, LinkedHashSet.mem_toFinset, queues_enqueue_of_ne (by simp),
          queues_relocate_source (by simp)]
        simp

end Visits

/-! ## Whole scans -/

section Scans

variable {config : AdaptiveReplacementConfiguration} {keys : List α}
  {m m' : AdaptiveReplacementCacheManager α} {history : History (AdaptiveReplacementCacheManager α) α}

/-- What a scan of `keys` from the state `m` may do. -/
structure ScanResisted (keys : List α) (m : AdaptiveReplacementCacheManager α)
    (scan : History (AdaptiveReplacementCacheManager α) α) (m' : AdaptiveReplacementCacheManager α) :
    Prop where
  target : m'.own.targetT1Size = m.own.targetT1Size
  departed : (departures (fun m => (m.queues t2).toFinset) scan : ℤ) ≤
    max 0 (m.own.targetT1Size + 1 - (m.queues t1).length)
  kept_out : ∀ r ∈ scan, ∀ k ∈ keys, k ∉ r.after.queues t2 ∧ k ∉ r.after.queues b2

/-- A scan that does not begin exposed costs `t2` no more than its potential. -/
theorem scanResisted (hlisted : Listed m) (hsafe : ¬Exposed config m) (hnodup : keys.Nodup)
    (huntracked : ∀ k ∈ keys, tracked m k = false) {start : List α} (hstart : start <+: keys)
    {scan : History (AdaptiveReplacementCacheManager α) α}
    (hreplay : replayFrom (manager config).perform [] m (start.map .visit) = .ok (scan, m')) :
    ScanResisted keys m scan m' := by
  have hstep (m₁ : AdaptiveReplacementCacheManager α) (k : α)
      (m₂ : AdaptiveReplacementCacheManager α) (events : List (Event α))
      (h : Listed m₁ ∧ m₁.own = m.own ∧ ¬Exposed config m₁) (hk : tracked m₁ k = false)
      (hok : (manager config).perform m₁ (.visit k) = .ok (m₂, events)) :
      (Listed m₂ ∧ m₂.own = m.own ∧ ¬Exposed config m₂) ∧
        ScanStep (fun m k => tracked m k = false) frequent (fun m => (seenOften m).toFinset)
          potential k m₁ m₂ := by
    obtain ⟨hlisted₁, hown, hsafe₁⟩ := h
    rcases visit_cases config recorder_responds (.inl rfl) hlisted₁.located k ([] : List (Event α))
      with ⟨m₃, l₃, hok₃, hv⟩ | ⟨herror, -⟩
    · cases hok₃.symm.trans hok
      obtain ⟨⟨hlisted₂, hsame, hsafe₂⟩, hscan⟩ := hv.scanStep hlisted₁ hsafe₁ hk
      exact ⟨⟨hlisted₂, hsame.trans hown, hsafe₂⟩, hscan⟩
    · cases herror.symm.trans hok
  obtain ⟨⟨-, hown, -⟩, hpaid, hguarded⟩ := scan_invariant hstep (seenOften m).toFinset
    ⟨hlisted, rfl, hsafe⟩ (hnodup.sublist hstart.sublist)
    (fun k hk => huntracked k (hstart.subset hk)) (Finset.Subset.refl _) (List.forall_mem_nil _)
    hreplay
  refine ⟨by rw [hown], ?_, ?_⟩
  · have hnonneg : 0 ≤ potential m' := le_max_left _ _
    have hbound : potential m = max 0 (m.own.targetT1Size + 1 - (m.queues t1).length) := rfl
    rw [← hbound]
    exact (le_add_of_nonneg_right hnonneg).trans (hpaid.trans (zero_add _).le)
  · intro r hr k hk
    have hout : k ∉ seenOften r.after := by
      intro hmem
      have hoften := List.mem_toFinset.mp (hguarded r hr (List.mem_toFinset.mpr hmem))
      have htracked := (tracked_iff hlisted.located).mpr (.inr hoften)
      cases (huntracked k hk).symm.trans htracked
    rw [mem_seenOften, not_or] at hout
    exact ⟨hout.2, hout.1⟩

/-- From an exposed state one visit is a scan that costs `t2` more than it may. -/
theorem Exposed.not_resisted {k : α} (h : Exposed config m) (hm : m.Located)
    (hk : m.currentLocations.lookup k = none) :
    ∃ m' events, (manager config).perform m (.visit k) = .ok (m', events) ∧
      ∀ keys, ¬ScanResisted keys m [⟨m, .visit k, events, m'⟩] m' := by
  obtain ⟨hzero, m', events, hok, hdeparts⟩ := h.departs hm hk
  refine ⟨m', events, hok, fun keys hresisted => ?_⟩
  have hdeparted := hresisted.departed
  change ((0 + (frequent m \ frequent m').card : ℕ) : ℤ) ≤ potential m at hdeparted
  omega

/-- A call returns unless it takes the head of an empty queue. -/
theorem returns_of_fed (hm : m.Located) {call : Call α}
    (hfed : ∀ k, call = .visit k → ¬Starved config k m) :
    ∃ m' events, (manager config).perform m call = .ok (m', events) ∧ m'.Located := by
  cases call with
  | visit k =>
    rcases visit_cases config recorder_responds (.inl rfl) hm k ([] : List (Event α))
      with ⟨m', l', hok, hv⟩ | ⟨-, hstarved⟩
    · exact ⟨m', l', hok, (hv.reordered hm).1⟩
    · exact absurd hstarved (hfed k rfl)
  | remove k => exact ⟨_, _, rfl, hm.remove k⟩
  | clear => exact ⟨_, _, rfl, located_empty⟩

theorem fed_of_returns {call : Call α} {events : List (Event α)}
    (hok : (manager config).perform m call = .ok (m', events)) :
    ∀ k, call = .visit k → ¬Starved config k m := by
  rintro k rfl hstarved
  cases (hstarved.visit_error []).symm.trans hok

/-- A scan resists as long as it does not begin with a visit that makes room out of `t2` for a
negative target, and it returns as long as no visit takes the head of an empty queue. -/
theorem scan_resisted_iff (config : AdaptiveReplacementConfiguration)
    {history : History (AdaptiveReplacementCacheManager α) α}
    {m : AdaptiveReplacementCacheManager α} (hrun : (manager config).Reaches history m)
    (keys : List α) (hnodup : keys.Nodup) (huntracked : ∀ k ∈ keys, tracked m k = false) :
    ((∀ start, start <+: keys → ∀ scan m',
        replayFrom (manager config).perform [] m (start.map .visit) = .ok (scan, m') →
          ScanResisted keys m scan m') ↔
      (keys ≠ [] → ¬Exposed config m)) ∧
    ((∃ r, replayFrom (manager config).perform [] m (keys.map .visit) = .ok r) ↔
      Admitted (manager config).perform (fun m call => ∀ k, call = .visit k → ¬Starved config k m)
        m (keys.map .visit)) := by
  have hlisted := listed_of_reaches hrun
  have hm := hlisted.located
  refine ⟨⟨?_, ?_⟩, ?_⟩
  · intro h hne hexposed
    obtain ⟨k, rest, rfl⟩ := List.exists_cons_of_ne_nil hne
    have hk := huntracked k List.mem_cons_self
    have hnone : m.currentLocations.lookup k = none := by simpa [tracked] using hk
    obtain ⟨m', events, hok, hnot⟩ := hexposed.not_resisted hm hnone
    exact hnot _ (h [k] ⟨rest, rfl⟩ _ m' (by rw [List.map_singleton, replayFrom, hok]; rfl))
  · intro hsafe start hstart scan m' hreplay
    cases keys with
    | nil =>
      cases List.prefix_nil.mp hstart
      cases hreplay
      exact ⟨rfl, le_max_left _ _, List.forall_mem_nil _⟩
    | cons k rest => exact scanResisted hlisted (hsafe (by simp)) hnodup huntracked hstart hreplay
  · exact returns_iff_admitted (fun m call h hfed => returns_of_fed h hfed)
      (fun m call m' events h hok => fed_of_returns hok) [] hm

/-- The scan of two keys after `t2` has filled takes one key out of it. -/
theorem scan_resisted_iff_twoNodes :
    ∃ history m, (manager (α := ℕ) twoNodes).Reaches history m ∧
      (∀ start, start <+: [7, 8] → ∀ scan m',
        replayFrom (manager twoNodes).perform [] m (start.map .visit) = .ok (scan, m') →
          ScanResisted [7, 8] m scan m') ∧
      ∃ r, replayFrom (manager twoNodes).perform [] m ([7, 8].map .visit) = .ok r := by
  have hrun : (manager (α := ℕ) twoNodes).Reaches _ _ :=
    run_of_replay [.visit 1, .visit 1, .visit 2, .visit 2, .visit 3] rfl
  obtain ⟨hresisted, hreturns⟩ := scan_resisted_iff twoNodes hrun [7, 8] (by decide) (by decide)
  exact ⟨_, _, hrun, hresisted.mpr fun _ h => absurd h.2.1 (by decide), _, rfl⟩

end Scans

/-! ## A target that overflows -/

section Overflow

variable {config : AdaptiveReplacementConfiguration} {n k x a b : ℕ} {xs ys : List ℕ} {target : ℤ}
  {m : AdaptiveReplacementCacheManager ℕ}

/-- `t1` and `b1` are `xs` and `ys`, `t2` and `b2` hold `a` and `b` keys, and the keys from `n` on
are untracked. -/
structure Staged (n : ℕ) (xs ys : List ℕ) (a b : ℕ) (target : ℤ)
    (m : AdaptiveReplacementCacheManager ℕ) : Prop where
  located : m.Located
  fresh : ∀ k, n ≤ k → m.currentLocations.lookup k = none
  recent : (m.queues t1).toList = xs
  dropped : (m.queues b1).toList = ys
  held : (m.queues t2).length = a
  gone : (m.queues b2).length = b
  own : m.own = ⟨target⟩

namespace Staged

theorem length_t1 (h : Staged n xs ys a b target m) : (m.queues t1).length = xs.length := by
  rw [LinkedHashSet.length, h.recent]

theorem length_b1 (h : Staged n xs ys a b target m) : (m.queues b1).length = ys.length := by
  rw [LinkedHashSet.length, h.dropped]

theorem leftSideSize_eq (h : Staged n xs ys a b target m)
    (hsmall : (xs.length : ℤ) + ys.length ≤ 2147483647) :
    leftSideSize m = xs.length + ys.length := by
  have ht1 := h.length_t1
  have hb1 := h.length_b1
  rw [leftSideSize, LinkedHashSet.size_of_le (by omega), LinkedHashSet.size_of_le (by omega),
    ht1, hb1, int32_of_isInt]
  unfold IsInt
  omega

theorem directorySize_eq (h : Staged n xs ys a b target m)
    (hsmall : (xs.length : ℤ) + ys.length + a + b ≤ 2147483647) :
    directorySize m = xs.length + ys.length + a + b := by
  have ht1 := h.length_t1
  have hb1 := h.length_b1
  have ht2 := h.held
  have hb2 := h.gone
  rw [directorySize, LinkedHashSet.size_of_le (by omega), LinkedHashSet.size_of_le (by omega),
    LinkedHashSet.size_of_le (by omega), LinkedHashSet.size_of_le (by omega), ht1, hb1, ht2, hb2]
  simp only [int32_int32_add, add_assoc]
  rw [int32_of_isInt]
  unfold IsInt
  omega

theorem enqueue (h : Staged n xs ys a b target m) :
    Staged (n + 1) (xs ++ [n]) ys a b target (m.enqueue n t1) := by
  have hnone := h.fresh n (le_refl n)
  refine ⟨h.located.enqueue hnone, ?_, ?_, ?_, ?_, ?_, h.own⟩
  · intro k hk
    exact lookup_enqueue_eq_none.mpr ⟨by omega, h.fresh k (by omega)⟩
  · rw [toList_enqueue (h.located.filed.notMem_of_none hnone t1), h.recent]
  · rw [queues_enqueue_of_ne (by simp), h.dropped]
  · rw [queues_enqueue_of_ne (by simp), h.held]
  · rw [queues_enqueue_of_ne (by simp), h.gone]

/-- A move between queues leaves the untracked keys untracked. -/
theorem fresh_relocate (h : Staged n xs ys a b target m) {s d : AdaptiveReplacementQueue}
    (hx : x ∈ m.queues s) :
    (m.relocate x s d).Located ∧
      ∀ k, n ≤ k → (m.relocate x s d).currentLocations.lookup k = none := by
  have htracked := h.located.filed hx
  refine ⟨h.located.relocate (h.located.only htracked), fun k hk => ?_⟩
  refine lookup_relocate_eq_none.mpr ⟨?_, h.fresh k hk⟩
  rintro rfl
  cases htracked.symm.trans (h.fresh k hk)

theorem fromT2 (h : Staged n xs ys (a + 1) b target m) (hx : x ∈ m.queues t2) :
    Staged n xs ys a (b + 1) target (m.relocate x t2 b2) := by
  obtain ⟨hm, hfresh⟩ := h.fresh_relocate (d := b2) hx
  have hsize (q) := length_relocate (q := q) (d := b2) h.located.filed hx
  have h2 := hsize t2
  have h4 := hsize b2
  have hheld := h.held
  have hgone := h.gone
  simp at h2 h4
  refine ⟨hm, hfresh, ?_, ?_, ?_, ?_, h.own⟩
  · rw [queues_relocate_of_ne (by simp) (by simp), h.recent]
  · rw [queues_relocate_of_ne (by simp) (by simp), h.dropped]
  · omega
  · omega

theorem fromT1 (h : Staged n (x :: xs) ys a b target m) :
    Staged n xs (ys ++ [x]) a b target (m.relocate x t1 b1) := by
  have hx : x ∈ m.queues t1 := LinkedHashSet.mem_of_toList_cons h.recent
  have hnot : x ∉ m.queues b1 := h.located.filed.notMem_of_lookup (h.located.filed hx) (by simp)
  obtain ⟨hm, hfresh⟩ := h.fresh_relocate (d := b1) hx
  refine ⟨hm, hfresh, ?_, ?_, ?_, ?_, h.own⟩
  · rw [toList_relocate_source (by simp), h.recent, List.erase_cons_head]
  · rw [toList_relocate_destination (by simp) hnot, h.dropped]
  · rw [queues_relocate_of_ne (by simp) (by simp), h.held]
  · rw [queues_relocate_of_ne (by simp) (by simp), h.gone]

/-- The head of `t1` or of `b1` joins `t2`. -/
theorem revive (h : Staged n xs ys a b target m) {xs' ys' : List ℕ} {s : AdaptiveReplacementQueue}
    (hs : s = t1 ∧ xs = x :: xs' ∧ ys = ys' ∨ s = b1 ∧ xs = xs' ∧ ys = x :: ys') :
    Staged n xs' ys' (a + 1) b target (m.relocate x s t2) := by
  have hx : x ∈ m.queues s := by
    rcases hs with ⟨rfl, rfl, -⟩ | ⟨rfl, -, rfl⟩
    · exact LinkedHashSet.mem_of_toList_cons h.recent
    · exact LinkedHashSet.mem_of_toList_cons h.dropped
  obtain ⟨hm, hfresh⟩ := h.fresh_relocate (d := t2) hx
  have hsize := length_relocate (q := t2) (d := t2) h.located.filed hx
  have hheld := h.held
  refine ⟨hm, hfresh, ?_, ?_, ?_, ?_, h.own⟩
  · rcases hs with ⟨rfl, rfl, -⟩ | ⟨rfl, rfl, -⟩
    · rw [toList_relocate_source (by simp), h.recent, List.erase_cons_head]
    · rw [queues_relocate_of_ne (by simp) (by simp), h.recent]
  · rcases hs with ⟨rfl, -, rfl⟩ | ⟨rfl, -, rfl⟩
    · rw [queues_relocate_of_ne (by simp) (by simp), h.dropped]
    · rw [toList_relocate_source (by simp), h.dropped, List.erase_cons_head]
  · have hne : t2 ≠ s := by rcases hs with ⟨rfl, -⟩ | ⟨rfl, -⟩ <;> simp
    rw [if_pos rfl, if_neg hne] at hsize
    push_cast
    omega
  · have hne : b2 ≠ s := by rcases hs with ⟨rfl, -⟩ | ⟨rfl, -⟩ <;> simp
    rw [queues_relocate_of_ne hne (by simp), h.gone]

theorem forget (h : Staged n [k] ys a b target m) :
    Staged n [] ys a b target (MultipleQueueCacheManager.forget subclass k t1 m) := by
  have hk : k ∈ m.queues t1 := LinkedHashSet.mem_of_toList_cons h.recent
  refine ⟨h.located.forget (h.located.only (h.located.filed hk)), ?_, ?_, ?_, ?_, ?_, h.own⟩
  · intro y hy
    rw [lookup_forget, h.fresh y hy, ite_self]
  · rw [toList_forget, h.recent, List.erase_cons_head]
  · rw [queues_forget_of_ne (by simp), h.dropped]
  · rw [queues_forget_of_ne (by simp), h.held]
  · rw [queues_forget_of_ne (by simp), h.gone]

/-- A visit which calls `freeRoom` for a missed key. -/
theorem visit_missed {m' : AdaptiveReplacementCacheManager ℕ} {l' : List (Event ℕ)}
    (h : Staged n xs ys a b target m) (hsmall : 2 * config.maxNodes.val ≤ 2147483647)
    (hside : (xs.length : ℤ) + ys.length < config.maxNodes.val)
    (hcache : config.maxNodes.val ≤ xs.length + ys.length + a + b)
    (hdirectory : (xs.length : ℤ) + ys.length + a + b < 2 * config.maxNodes.val)
    (hf : Freed (fun _ m => m) recordEviction none m [] m' l') :
    (manager config).perform m (.visit n) = .ok (m'.enqueue n t1, recordLoad n l') := by
  have hside' := h.leftSideSize_eq (by omega)
  have hdirectory' := h.directorySize_eq (by omega)
  have hcapacity := directoryCapacity_eq hsmall (by omega)
  have hcall : CallsFreeRoom config n m none m :=
    .cacheFull (h.fresh n (le_refl n)) (by omega) (by omega) (by omega)
  have hv : Visited config (fun _ m => m) recordEviction recordLoad n m [] _ _ := hcall.visited hf
  exact hv.visit_eq recorder_responds (.inl rfl) h.located.filed

theorem visit_room (h : Staged n xs ys a b target m)
    (hroom : (xs.length : ℤ) + ys.length + a + b < config.maxNodes.val) :
    ∃ m' events, (manager config).perform m (.visit n) = .ok (m', events) ∧
      Staged (n + 1) (xs ++ [n]) ys a b target m' := by
  have hc := config.maxNodes.property
  unfold IsInt at hc
  have hside := h.leftSideSize_eq (by omega)
  have hdirectory := h.directorySize_eq (by omega)
  exact ⟨_, _, perform_room config (h.fresh n (le_refl n)) (by omega) (by omega), h.enqueue⟩

/-- With `t1` empty the head of `t2` makes room. -/
theorem visit_full (h : Staged n [] ys (a + 1) b target m)
    (hsmall : 2 * config.maxNodes.val ≤ 2147483647) (hside : (ys.length : ℤ) < config.maxNodes.val)
    (hcache : config.maxNodes.val ≤ ys.length + (a + 1) + b)
    (hdirectory : (ys.length : ℤ) + (a + 1) + b < 2 * config.maxNodes.val) :
    ∃ m' events, (manager config).perform m (.visit n) = .ok (m', events) ∧
      Staged (n + 1) [n] ys a (b + 1) target m' := by
  have hpos : 0 < (m.queues t2).length := by
    rw [h.held]
    omega
  obtain ⟨x, rest, hx⟩ := LinkedHashSet.exists_cons_of_length_pos hpos
  have htake : ¬TakesT1 none m := by
    rintro ⟨hne, -⟩
    rw [LinkedHashSet.isEmpty, h.recent] at hne
    cases hne
  have hok := h.visit_missed hsmall (by simpa using hside) (by simpa using hcache)
    (by simpa using hdirectory) (.fromT2 htake hx)
  exact ⟨_, _, hok, (h.fromT2 (LinkedHashSet.mem_of_toList_cons hx)).enqueue⟩

/-- With `t1` beyond its target the head of `t1` makes room. -/
theorem visit_shift (h : Staged n (x :: xs) ys a b target m)
    (hsmall : 2 * config.maxNodes.val ≤ 2147483647) (htarget : target < xs.length + 1)
    (hside : (xs.length : ℤ) + 1 + ys.length < config.maxNodes.val)
    (hcache : config.maxNodes.val ≤ xs.length + 1 + ys.length + a + b)
    (hdirectory : (xs.length : ℤ) + 1 + ys.length + a + b < 2 * config.maxNodes.val) :
    ∃ m' events, (manager config).perform m (.visit n) = .ok (m', events) ∧
      Staged (n + 1) (xs ++ [n]) (ys ++ [x]) a b target m' := by
  have htake : TakesT1 none m := by
    refine ⟨?_, .inl ?_⟩
    · rw [LinkedHashSet.isEmpty, h.recent]
      rfl
    · have ht1 := h.length_t1
      rw [List.length_cons] at ht1
      rw [LinkedHashSet.size_of_le (by omega), ht1, h.own]
      simpa using htarget
  have hok := h.visit_missed hsmall (by simpa using hside) (by simpa using hcache)
    (by simpa using hdirectory) (.fromT1 htake h.recent)
  exact ⟨_, _, hok, h.fromT1.enqueue⟩

theorem visit_again (config : AdaptiveReplacementConfiguration)
    (h : Staged n [k] ys a b target m) :
    ∃ m' events, (manager config).perform m (.visit k) = .ok (m', events) ∧
      Staged n [] ys (a + 1) b target m' := by
  have hk := h.located.filed (LinkedHashSet.mem_of_toList_cons h.recent)
  exact ⟨_, _, perform_hit hk, h.revive (.inl ⟨rfl, rfl, rfl⟩)⟩

theorem remove_last (config : AdaptiveReplacementConfiguration)
    (h : Staged n [k] ys a b target m) :
    ∃ m' events, (manager config).perform m (.remove k) = .ok (m', events) ∧
      Staged n [] ys a b target m' := by
  have hk := h.located.filed (LinkedHashSet.mem_of_toList_cons h.recent)
  refine ⟨_, _, rfl, ?_⟩
  rw [remove_of_lookup hk]
  exact h.forget

/-- A hit on the head of `b1` raises the target and takes the head of `t2`. -/
theorem visit_ghost (config : AdaptiveReplacementConfiguration)
    (h : Staged n [] (k :: ys) (a + 1) b target m) (hys : (ys.length : ℤ) + 1 ≤ 2147483647)
    (hb : (b : ℤ) ≤ 2147483647) :
    ∃ m' events, (manager config).perform m (.visit k) = .ok (m', events) ∧
      Staged n [] ys (a + 1) (b + 1) (min (int32 (target +
        max ((b : ℤ).tdiv (ys.length + 1)) 1)) config.maxNodes.val) m' := by
  have hk := h.located.filed (LinkedHashSet.mem_of_toList_cons h.dropped)
  have hsize : (m.queues b1).length = ys.length + 1 := by
    rw [h.length_b1, List.length_cons]
    push_cast
    rfl
  have hgone := h.gone
  have htarget : adaptedTarget config b1 m = .ok (min (int32 (target +
      max ((b : ℤ).tdiv (ys.length + 1)) 1)) config.maxNodes.val) := by
    rw [adaptedTarget_b1 (by omega), LinkedHashSet.size_of_le (by omega),
      LinkedHashSet.size_of_le (by omega), hsize, hgone, h.own]
  generalize min (int32 (target + max ((b : ℤ).tdiv (ys.length + 1)) 1)) config.maxNodes.val =
    raised at htarget ⊢
  have hraised : Staged n [] (k :: ys) (a + 1) b raised { m with own := ⟨raised⟩ } :=
    ⟨h.located, h.fresh, h.recent, h.dropped, h.held, h.gone, rfl⟩
  have hpos : 0 < (m.queues t2).length := by
    rw [h.held]
    omega
  obtain ⟨x, rest, hx⟩ := LinkedHashSet.exists_cons_of_length_pos hpos
  have htake : ¬TakesT1 (some b1) { m with own := ⟨raised⟩ } := by
    rintro ⟨hne, -⟩
    rw [LinkedHashSet.isEmpty, h.recent] at hne
    cases hne
  have hv : Visited config (fun _ m => m) recordEviction recordLoad k m [] _ _ :=
    .ghostHit (.inl rfl) hk htarget (.fromT2 htake hx)
  refine ⟨_, _, hv.visit_eq recorder_responds (.inl rfl) h.located.filed, ?_⟩
  exact (hraised.fromT2 (LinkedHashSet.mem_of_toList_cons hx)).revive (.inr ⟨rfl, rfl, rfl⟩)

/-- A key that comes and is visited again leaves `t2` or the directory one key larger. -/
theorem twice_room (h : Staged n [] [] a 0 target m) (hroom : (a : ℤ) + 1 ≤ config.maxNodes.val) :
    LeadsTo (manager config).perform (Staged (n + 1) [] [] (a + 1) 0 target) m
      [.visit n, .visit n] := by
  have hlisted : (([] : List ℕ).length : ℤ) + ([] : List ℕ).length + a + (0 : ℕ) <
      config.maxNodes.val := by
    simp
    omega
  obtain ⟨m₁, events₁, hok₁, h₁⟩ := h.visit_room hlisted
  obtain ⟨m₂, events₂, hok₂, h₂⟩ := h₁.visit_again config
  exact ⟨m₁, events₁, hok₁, m₂, events₂, hok₂, h₂⟩

theorem twice_full (h : Staged n [] ys (a + 1) b target m)
    (hsmall : 2 * config.maxNodes.val ≤ 2147483647) (hside : (ys.length : ℤ) < config.maxNodes.val)
    (hcache : config.maxNodes.val ≤ ys.length + (a + 1) + b)
    (hdirectory : (ys.length : ℤ) + (a + 1) + b < 2 * config.maxNodes.val) :
    LeadsTo (manager config).perform (Staged (n + 1) [] ys (a + 1) (b + 1) target) m
      [.visit n, .visit n] := by
  obtain ⟨m₁, events₁, hok₁, h₁⟩ := h.visit_full hsmall hside hcache hdirectory
  obtain ⟨m₂, events₂, hok₂, h₂⟩ := h₁.visit_again config
  exact ⟨m₁, events₁, hok₁, m₂, events₂, hok₂, h₂⟩

/-- A key that comes and is removed leaves a key of `t2` in `b2`. -/
theorem once_full (h : Staged n [] ys (a + 1) b target m)
    (hsmall : 2 * config.maxNodes.val ≤ 2147483647) (hside : (ys.length : ℤ) < config.maxNodes.val)
    (hcache : config.maxNodes.val ≤ ys.length + (a + 1) + b)
    (hdirectory : (ys.length : ℤ) + (a + 1) + b < 2 * config.maxNodes.val) :
    LeadsTo (manager config).perform (Staged (n + 1) [] ys a (b + 1) target) m
      [.visit n, .remove n] := by
  obtain ⟨m₁, events₁, hok₁, h₁⟩ := h.visit_full hsmall hside hcache hdirectory
  obtain ⟨m₂, events₂, hok₂, h₂⟩ := h₁.remove_last config
  exact ⟨m₁, events₁, hok₁, m₂, events₂, hok₂, h₂⟩

/-- Three keys that come one after the other leave the first two in `b1`. -/
theorem thrice_full (h : Staged n [] [] (a + 1) b 0 m)
    (hsmall : 2 * config.maxNodes.val ≤ 2147483647)
    (hcache : config.maxNodes.val ≤ (a + 1) + b)
    (hdirectory : ((a : ℤ) + 1) + b + 3 < 2 * config.maxNodes.val)
    (hthree : 3 < config.maxNodes.val) :
    LeadsTo (manager config).perform (Staged (n + 3) [] [n, n + 1] a (b + 1) 0) m
      [.visit n, .visit (n + 1), .visit (n + 2), .remove (n + 2)] := by
  obtain ⟨m₁, events₁, hok₁, h₁⟩ := h.visit_full hsmall (by simp; omega) (by simp; omega)
    (by simp; omega)
  obtain ⟨m₂, events₂, hok₂, h₂⟩ := h₁.visit_shift hsmall (by simp) (by simp; omega)
    (by simp; omega) (by simp; omega)
  obtain ⟨m₃, events₃, hok₃, h₃⟩ := h₂.visit_shift hsmall (by simp) (by simp; omega)
    (by simp; omega) (by simp; omega)
  obtain ⟨m₄, events₄, hok₄, h₄⟩ := h₃.remove_last config
  exact ⟨m₁, events₁, hok₁, m₂, events₂, hok₂, m₃, events₃, hok₃, m₄, events₄, hok₄, h₄⟩

/-- Hits on two ghosts beside many keys in `b2` make the target negative. -/
theorem overflows (h : Staged n [] [k, x] 1 b 0 m) {c : ℕ} (hc : config.maxNodes.val = c)
    (hb : b + 3 = 2 * c) (hsmall : 2 * (c : ℤ) ≤ 2147483647) (hbig : 2147483651 < 3 * (c : ℤ)) :
    LeadsTo (manager config).perform
      (fun m => ∃ target < 0, Staged n [] [] 1 (2 * c - 1) target m) m [.visit k, .visit x] := by
  obtain ⟨m₁, events₁, hok₁, h₁⟩ := h.visit_ghost config (by simp) (by omega)
  obtain ⟨m₂, events₂, hok₂, h₂⟩ := h₁.visit_ghost config (by simp) (by omega)
  have hhalf : (0 : ℤ) + max ((b : ℤ).tdiv (([x] : List ℕ).length + 1)) 1 = c - 2 := by
    rw [List.length_singleton, Int.tdiv_eq_ediv_of_nonneg (by omega)]
    omega
  have hraised : min (int32 (c - 2)) config.maxNodes.val = c - 2 := by
    rw [hc, int32_of_isInt]
    · omega
    · unfold IsInt
      omega
  rw [hhalf, hraised] at h₂
  have hwhole : (c : ℤ) - 2 + max (((b + 1 : ℕ) : ℤ).tdiv ((([] : List ℕ).length : ℤ) + 1)) 1 =
      3 * c - 4 := by
    simp
    omega
  have hwrapped : min (int32 (3 * c - 4)) config.maxNodes.val < 0 := by
    have hquotient : ((3 : ℤ) * c - 4 + 2147483648) / 4294967296 = 1 :=
      Int.ediv_eq_iff_of_pos (by omega) |>.mpr ⟨by omega, by omega⟩
    rw [int32, Int.emod_def, hquotient]
    omega
  rw [hwhole] at h₂
  have hbs : b + 1 + 1 = 2 * c - 1 := by omega
  rw [hbs] at h₂
  exact ⟨m₁, events₁, hok₁, m₂, events₂, hok₂, _, hwrapped, h₂⟩

/-- A drained state with a negative target is exposed. -/
theorem exposed (h : Staged n [] [] 1 b target m) (hsmall : 2 * config.maxNodes.val ≤ 2147483647)
    (hb : (b : ℤ) + 1 = 2 * config.maxNodes.val) (hpos : 1 ≤ config.maxNodes.val)
    (htarget : target < 0) : Exposed config m := by
  have hside := h.leftSideSize_eq (by simp)
  have hdirectory := h.directorySize_eq (by simp; omega)
  have hcapacity := directoryCapacity_eq hsmall hpos
  simp at hside hdirectory
  obtain ⟨x, rest, hx⟩ := LinkedHashSet.exists_cons_of_length_pos (q := m.queues b2)
    (by rw [h.gone]; omega)
  refine ⟨⟨n, _, .directoryFull (h.fresh n (le_refl n)) ?_ ?_ ?_ (removeNode_cons hx)⟩, ?_, ?_, ?_⟩
  · omega
  · omega
  · omega
  · rw [h.own]
    exact htarget
  · exact LinkedHashSet.ext h.recent
  · intro hempty
    have hheld := h.held
    rw [hempty, LinkedHashSet.length_empty] at hheld
    omega

end Staged

/-- Fill `t2` with `c` keys, drop two keys into `b1`, drain `t2` into `b2`, fill up `b2` and hit
the two keys in `b1`. -/
def overflowingVisits (c : ℕ) : List (Call ℕ) :=
  (List.range c).flatMap (fun i => [Call.visit i, Call.visit i]) ++
    ([Call.visit c, Call.visit (c + 1), Call.visit (c + 2), Call.remove (c + 2)] ++
      ((List.range (c - 2)).flatMap (fun i => [Call.visit (c + 3 + i), Call.remove (c + 3 + i)]) ++
        ((List.range (c - 2)).flatMap
            (fun i => [Call.visit (2 * c + 1 + i), Call.visit (2 * c + 1 + i)]) ++
          [Call.visit c, Call.visit (c + 1)])))

theorem staged_initial : Staged 0 [] [] 0 0 0 (initial (α := ℕ)) :=
  ⟨located_empty, fun _ _ => rfl, rfl, rfl, rfl, rfl, rfl⟩

theorem leadsTo_overflow {c : ℕ} (hc : config.maxNodes.val = c)
    (hsmall : 2 * (c : ℤ) ≤ 2147483647) (hbig : 2147483651 < 3 * (c : ℤ)) :
    LeadsTo (manager config).perform
      (fun m => ∃ target < 0, Staged (3 * c - 1) [] [] 1 (2 * c - 1) target m) initial
      (overflowingVisits c) := by
  have hsmall' : 2 * config.maxNodes.val ≤ 2147483647 := by rw [hc]; exact hsmall
  have hfills (i : ℕ) (hi : i < c) (m : AdaptiveReplacementCacheManager ℕ)
      (h : Staged i [] [] i 0 0 m) :
      LeadsTo (manager config).perform (Staged (i + 1) [] [] (i + 1) 0 0) m
        [.visit i, .visit i] :=
    h.twice_room (by omega)
  have hfill := LeadsTo.stages hfills staged_initial
  have hghosts (m : AdaptiveReplacementCacheManager ℕ) (h : Staged c [] [] c 0 0 m) :
      LeadsTo (manager config).perform (Staged (c + 3) [] [c, c + 1] (c - 1) 1 0) m
        [.visit c, .visit (c + 1), .visit (c + 2), .remove (c + 2)] := by
    have hsplit : c = c - 1 + 1 := by omega
    rw [hsplit] at h
    have hthrice := h.thrice_full hsmall' (by omega) (by omega) (by omega)
    rwa [← hsplit] at hthrice
  have hdrains (i : ℕ) (hi : i < c - 2) (m : AdaptiveReplacementCacheManager ℕ)
      (h : Staged (c + 3 + i) [] [c, c + 1] (c - 1 - i) (1 + i) 0 m) :
      LeadsTo (manager config).perform
        (Staged (c + 3 + (i + 1)) [] [c, c + 1] (c - 1 - (i + 1)) (1 + (i + 1)) 0) m
        [.visit (c + 3 + i), .remove (c + 3 + i)] := by
    have hsplit : c - 1 - i = c - 1 - (i + 1) + 1 := by omega
    rw [hsplit] at h
    rw [← add_assoc, ← add_assoc]
    exact h.once_full hsmall' (by simp; omega) (by simp; omega) (by simp; omega)
  have hdrain (m : AdaptiveReplacementCacheManager ℕ)
      (h : Staged (c + 3) [] [c, c + 1] (c - 1) 1 0 m) :
      LeadsTo (manager config).perform (Staged (2 * c + 1) [] [c, c + 1] 1 (c - 1) 0) m
        ((List.range (c - 2)).flatMap fun i => [.visit (c + 3 + i), .remove (c + 3 + i)]) := by
    have hstages := LeadsTo.stages hdrains h
    have h₁ : c + 3 + (c - 2) = 2 * c + 1 := by omega
    have h₂ : c - 1 - (c - 2) = 1 := by omega
    have h₃ : 1 + (c - 2) = c - 1 := by omega
    rwa [h₁, h₂, h₃] at hstages
  have hgrows (i : ℕ) (hi : i < c - 2) (m : AdaptiveReplacementCacheManager ℕ)
      (h : Staged (2 * c + 1 + i) [] [c, c + 1] 1 (c - 1 + i) 0 m) :
      LeadsTo (manager config).perform
        (Staged (2 * c + 1 + (i + 1)) [] [c, c + 1] 1 (c - 1 + (i + 1)) 0) m
        [.visit (2 * c + 1 + i), .visit (2 * c + 1 + i)] := by
    rw [← add_assoc, ← add_assoc]
    exact h.twice_full hsmall' (by simp; omega) (by simp; omega) (by simp; omega)
  have hgrow (m : AdaptiveReplacementCacheManager ℕ)
      (h : Staged (2 * c + 1) [] [c, c + 1] 1 (c - 1) 0 m) :
      LeadsTo (manager config).perform (Staged (3 * c - 1) [] [c, c + 1] 1 (2 * c - 3) 0) m
        ((List.range (c - 2)).flatMap fun i =>
          [.visit (2 * c + 1 + i), .visit (2 * c + 1 + i)]) := by
    have hstages := LeadsTo.stages hgrows h
    have h₁ : 2 * c + 1 + (c - 2) = 3 * c - 1 := by omega
    have h₂ : c - 1 + (c - 2) = 2 * c - 3 := by omega
    rwa [h₁, h₂] at hstages
  exact hfill.append fun m h => (hghosts m h).append fun m h => (hdrain m h).append fun m h =>
    (hgrow m h).append fun m h => h.overflows hc (by omega) hsmall hbig

/-- After an overflow of the target the first key of a scan drives a key out of `t2`. -/
theorem not_scanResisted_overflow {c : ℕ} (hc : config.maxNodes.val = c)
    (hsmall : 2 * (c : ℤ) ≤ 2147483647) (hbig : 2147483651 < 3 * (c : ℤ)) :
    ∃ history m, replay (manager config).perform initial (overflowingVisits c) =
        .ok (history, m) ∧ tracked m (3 * c - 1) = false ∧
      ∃ scan m', replayFrom (manager config).perform [] m [.visit (3 * c - 1)] = .ok (scan, m') ∧
        ¬ScanResisted [3 * c - 1] m scan m' := by
  obtain ⟨history, m, hreplay, target, htarget, hstaged⟩ :=
    (leadsTo_overflow hc hsmall hbig).replayFrom []
  have hexposed : Exposed config m :=
    hstaged.exposed (by omega) (by omega) (by omega) htarget
  have hnone := hstaged.fresh (3 * c - 1) (le_refl _)
  obtain ⟨m', events, hok, hnot⟩ := hexposed.not_resisted hstaged.located hnone
  refine ⟨history, m, hreplay, tracked_of_none hnone, [⟨m, .visit _, events, m'⟩], m', ?_, hnot _⟩
  rw [replayFrom, hok]
  rfl

/-- With `maxNodes = 2^30 - 1`, removals let `b2` grow until the target overflows. -/
theorem not_scan_resisted :
    ∃ history m, replay (manager ⟨1073741823⟩).perform (manager ⟨1073741823⟩).initial
        (overflowingVisits 1073741823) = .ok (history, m) ∧ tracked m 3221225468 = false ∧
      ∃ scan m', replayFrom (manager ⟨1073741823⟩).perform [] m [.visit 3221225468] =
          .ok (scan, m') ∧ ¬ScanResisted [3221225468] m scan m' :=
  not_scanResisted_overflow (c := 1073741823) (by decide) (by decide) (by decide)

end Overflow

end CachePolicies.AdaptiveReplacementCacheManager
