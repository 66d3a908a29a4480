import CachePolicies.ArcCacheCalls

/-!
# The integrity of `ArcCache`

`getIntegrityState` compares sizes that the cache keeps in several places. They agree after every
run of the calls that the base class makes, and no candidate is ever the head of a list.
-/

namespace CachePolicies

open ListHead

namespace ArcCache

variable {K : Type} [DecidableEq K] {base : BaseCache K} {maxSize : JavaInt}
  {elements : base.Links → ArcLists K} {entries : base.Hash → List (ArcEntry K)}
  {s s' : ArcCache base} {lists lists' : ArcLists K} {e : ArcEntry K} {h : ListHead}

/-! ## Candidates -/

/-- The ghost of an entry. -/
def ghostOf (objects : ℕ) (e : ArcEntry K) : ArcEntry K := ⟨objects, e.key, e.hashCode⟩

/-- Where a candidate comes from: `t1` when it is larger than the target, or as large after a hit
in `b2`, and also when `t2` is empty. -/
def TakesT1 (s : ArcCache base) (lists : ArcLists K) : Prop :=
  (if s.b2HitPreferenceForEviction then
      s.arcP ≤ lists.count t1Head ∧ 0 < lists.count t1Head
    else s.arcP < lists.count t1Head) ∨
  lists.count t2Head = 0

instance (s : ArcCache base) (lists : ArcLists K) : Decidable (TakesT1 s lists) :=
  inferInstanceAs (Decidable (_ ∨ _))

/-- A candidate is the last of its list and leaves a ghost, for which others may go. -/
inductive Candidate (maxSize : JavaInt) (objects : ℕ) (lists : ArcLists K) (fromT1 : Bool) :
    ArcEntry K → ArcLists K → Prop
  | room {e : ArcEntry K} (hlast : (lists (if fromT1 then t1Head else t2Head)).getLast? = some e)
      (hroom : lists.count b1Head + lists.count b2Head < maxSize.val) :
      Candidate maxSize objects lists fromT1 e
        (lists.pushed (if fromT1 then b1Head else b2Head) (ghostOf objects e))
  | full {e : ArcEntry K} {lists' : ArcLists K}
      (hlast : (lists (if fromT1 then t1Head else t2Head)).getLast? = some e)
      (hforgets : Forgets maxSize
        (lists.pushed (if fromT1 then b1Head else b2Head) (ghostOf objects e)) lists') :
      Candidate maxSize objects lists fromT1 e lists'

/-- What a call leaves to others: the main hash table, the target and the counters of hits. -/
structure Kept (s s' : ArcCache base) : Prop where
  cached : s'.cached = s.cached
  arcP : s'.arcP = s.arcP
  t1Hit : s'.t1Hit = s.t1Hit
  t2Hit : s'.t2Hit = s.t2Hit

omit [DecidableEq K] in
theorem count_ghost_pushed (lists : ArcLists K) (fromT1 : Bool) (e : ArcEntry K) :
    (lists.pushed (if fromT1 then b1Head else b2Head) e).count b1Head +
        (lists.pushed (if fromT1 then b1Head else b2Head) e).count b2Head =
      lists.count b1Head + lists.count b2Head + 1 := by
  cases fromT1 with
  | true =>
    rw [if_pos rfl, ArcLists.count_pushed_self, ArcLists.count_pushed_of_ne (by decide)]
    omega
  | false =>
    rw [if_neg Bool.false_ne_true, ArcLists.count_pushed_self,
      ArcLists.count_pushed_of_ne (by decide)]
    omega

omit [DecidableEq K] in
theorem ghost_pushed_of_resident (lists : ArcLists K) (fromT1 : Bool) (e : ArcEntry K)
    (hresident : h = t1Head ∨ h = t2Head) :
    lists.pushed (if fromT1 then b1Head else b2Head) e h = lists h := by
  apply ArcLists.pushed_of_ne
  cases fromT1 <;> rcases hresident with rfl | rfl <;> decide

theorem replaceFrom_eq (hbase : base.Represents elements entries)
    (hlinked : Linked elements entries s lists) {fromT1 : Bool}
    (hlast : (lists (if fromT1 then t1Head else t2Head)).getLast? = some e) :
    ∃ s', s.replaceFrom fromT1 = .ok (e, s') ∧ Kept s s' ∧
      Linked elements entries s'
        (lists.pushed (if fromT1 then b1Head else b2Head) (ghostOf s.objects e)) := by
  have he := List.mem_of_getLast? hlast
  have hfresh : ∀ h, ghostOf s.objects e ∉ lists h := hlinked.made.fresh e.key e.hashCode
  have hinsert (h : ListHead) : elements (base.insertInList h (ghostOf s.objects e) s.links) =
      lists.pushed h (ghostOf s.objects e) := by
    have hfree := hfresh
    rw [← hlinked.links] at hfree ⊢
    exact hbase.insertInList hfree
  have hflagged (h : ListHead) (hghost : h = b1Head ∨ h = b2Head) :
      Flagged (Function.update s.withinT2 (ghostOf s.objects e) false)
        (lists.pushed h (ghostOf s.objects e)) := by
    apply (hlinked.flagged.update hfresh false).pushed
    · exact fun _ => Function.update_self _ _ _
    · rintro rfl
      rcases hghost with hghost | hghost <;> cases hghost
  have hmade (h : ListHead) : Made base (s.objects + 1) (lists.pushed h (ghostOf s.objects e)) :=
    hlinked.made.pushed (Nat.le_succ _) (Nat.lt_succ_self _) (hlinked.made.hashed _ e he)
  cases fromT1 with
  | true =>
    have hok : s.last t1Head = .ok e := hlinked.last_eq hbase hlast
    refine ⟨{ (s.newEntry e.key e.hashCode).2 with
      links := base.insertInList b1Head (ghostOf s.objects e) s.links
      b1Hash := base.insert (ghostOf s.objects e) s.b1Hash }, ?_, ⟨rfl, rfl, rfl, rfl⟩, ?_⟩
    · rw [replaceFrom, if_pos rfl, hok, Java.ok_bind]
      rfl
    · exact ⟨hinsert b1Head, hlinked.apart.pushed hfresh,
        (hbase.insert _ _).trans (hlinked.b1Hash.cons _), hlinked.b2Hash, hlinked.t1Size,
        hflagged b1Head (.inl rfl), hmade b1Head⟩
  | false =>
    have hok : s.last t2Head = .ok e := hlinked.last_eq hbase hlast
    refine ⟨{ (s.newEntry e.key e.hashCode).2 with
      links := base.insertInList b2Head (ghostOf s.objects e) s.links
      b2Hash := base.insert (ghostOf s.objects e) s.b2Hash }, ?_, ⟨rfl, rfl, rfl, rfl⟩, ?_⟩
    · rw [replaceFrom, if_neg Bool.false_ne_true, hok, Java.ok_bind]
      rfl
    · exact ⟨hinsert b2Head, hlinked.apart.pushed hfresh, hlinked.b1Hash,
        (hbase.insert _ _).trans (hlinked.b2Hash.cons _), hlinked.t1Size,
        hflagged b2Head (.inr rfl), hmade b2Head⟩

/-! ## Calls -/

/-- The four lists account for all that the cache keeps. -/
structure Sound (elements : base.Links → ArcLists K) (entries : base.Hash → List (ArcEntry K))
    (maxSize : JavaInt) (s : ArcCache base) (lists : ArcLists K) : Prop where
  linked : Linked elements entries s lists
  nodup : s.cached.Nodup
  mem_cached (e : ArcEntry K) : e ∈ s.cached ↔ e ∈ lists t1Head ∨ e ∈ lists t2Head
  ghosts : lists.count b1Head + lists.count b2Head ≤ maxSize.val
  zero_le : 0 ≤ s.arcP
  le_maxSize : s.arcP ≤ maxSize.val
  resident : s.cached.length + maxSize.val ≤ 2147483646

namespace Sound

omit [DecidableEq K] in
theorem count_resident (hsound : Sound elements entries maxSize s lists) :
    (s.cached.length : ℤ) = lists.count t1Head + lists.count t2Head := by
  have hapart := hsound.linked.apart
  have hdisjoint : List.Disjoint (lists t1Head) (lists t2Head) := by
    intro x hx hx'
    cases hapart.apart hx hx'
  have hperm : s.cached.Perm (lists t1Head ++ lists t2Head) := by
    apply (List.perm_ext_iff_of_nodup hsound.nodup
      ((hapart.nodup t1Head).append (hapart.nodup t2Head) hdisjoint)).mpr
    intro x
    rw [hsound.mem_cached, List.mem_append]
  rw [hperm.length_eq, List.length_append, ArcLists.count, ArcLists.count]
  exact Int.natCast_add _ _

omit [DecidableEq K] in
theorem inRange (hsound : Sound elements entries maxSize s lists) (hpos : 1 ≤ maxSize.val)
    (hhalf : 2 * maxSize.val ≤ 2147483647) : InRange maxSize lists := by
  have hresident := hsound.resident
  have hghosts := hsound.ghosts
  rw [hsound.count_resident] at hresident
  exact ⟨hpos, hhalf, hresident, by omega⟩

omit [DecidableEq K] in
theorem getT2Size_eq (hsound : Sound elements entries maxSize s lists) (hpos : 1 ≤ maxSize.val) :
    s.getT2Size = lists.count t2Head := by
  have hcount := hsound.count_resident
  have hresident := hsound.resident
  have ht2 := lists.count_nonneg t2Head
  have ht1 := lists.count_nonneg t1Head
  rw [getT2Size, getLocalSize, hsound.linked.t1Size, hcount, Int.add_comm, Int.add_sub_cancel]
  apply int32_of_isInt
  unfold IsInt
  omega

omit [DecidableEq K] in
theorem exists_last (hsound : Sound elements entries maxSize s lists) (hsome : s.cached ≠ []) :
    ∃ e, (lists (if TakesT1 s lists then t1Head else t2Head)).getLast? = some e := by
  have hcount := hsound.count_resident
  have hpos : 0 < s.cached.length := List.length_pos_of_ne_nil hsome
  have hzero := hsound.zero_le
  have ht2 := lists.count_nonneg t2Head
  apply ArcLists.exists_getLast_of_count_pos
  split_ifs with htakes
  · rcases htakes with htarget | hnone
    · split_ifs at htarget
      · exact htarget.2
      · omega
    · omega
  · have hnone : lists.count t2Head ≠ 0 := fun hnone => htakes (.inr hnone)
    omega

/-- The candidate for eviction is an entry of the cache, the last of its list. -/
theorem findEvictionCandidate_eq (hbase : base.Represents elements entries)
    (hsound : Sound elements entries maxSize s lists) (hpos : 1 ≤ maxSize.val)
    (hhalf : 2 * maxSize.val ≤ 2147483647) (hsome : s.cached ≠ []) :
    ∃ e s' lists', s.findEvictionCandidate maxSize = .ok (e, s') ∧ Kept s s' ∧
      Linked elements entries s' lists' ∧
      Candidate maxSize s.objects lists (TakesT1 s lists) e lists' := by
  obtain ⟨e, hlast⟩ := hsound.exists_last hsome
  have hlast' : (lists (if decide (TakesT1 s lists) then t1Head else t2Head)).getLast? = some e := by
    simpa using hlast
  obtain ⟨s₁, hok, hkept, hlinked⟩ := replaceFrom_eq hbase hsound.linked hlast'
  have hchoice : (if s.b2HitPreferenceForEviction then s.replaceB2Hit else s.replace) =
      .ok (e, s₁) := by
    rw [← hok]
    unfold replaceB2Hit replace TakesT1
    rw [hsound.getT2Size_eq hpos, hsound.linked.t1Size]
    split_ifs <;> rfl
  generalize hchosen : decide (TakesT1 s lists) = fromT1 at hlast' hlinked ⊢
  have hsum := count_ghost_pushed lists fromT1 (ghostOf s.objects e)
  have hghosts := hsound.ghosts
  have hb1 := lists.count_nonneg b1Head
  have hb2 := lists.count_nonneg b2Head
  have hsize : int32 (base.size s₁.b1Hash + base.size s₁.b2Hash) =
      lists.count b1Head + lists.count b2Head + 1 := by
    rw [hlinked.size_b1 hbase, hlinked.size_b2 hbase, hsum]
    apply int32_of_isInt
    unfold IsInt
    omega
  have hfind : s.findEvictionCandidate maxSize =
      if lists.count b1Head + lists.count b2Head + 1 > maxSize then do
        let s ← s₁.allMissEvictGhosts maxSize
        .ok (e, s)
      else .ok (e, s₁) := by
    rw [findEvictionCandidate, ← hsize]
    cases hprefers : s.b2HitPreferenceForEviction with
    | true =>
      rw [hprefers, if_pos rfl] at hchoice
      rw [if_pos rfl, hchoice]
      rfl
    | false =>
      rw [hprefers, if_neg Bool.false_ne_true] at hchoice
      rw [if_neg Bool.false_ne_true, hchoice]
      rfl
  rw [hfind]
  split_ifs with hfull
  · have hrange : InRange maxSize
        (lists.pushed (if fromT1 then b1Head else b2Head) (ghostOf s.objects e)) := by
      refine ⟨hpos, hhalf, ?_, ?_⟩
      · rw [ArcLists.count, ghost_pushed_of_resident lists fromT1 _ (.inl rfl), ArcLists.count,
          ghost_pushed_of_resident lists fromT1 _ (.inr rfl)]
        exact (hsound.inRange hpos hhalf).resident
      · omega
    obtain ⟨links, b1Hash, b2Hash, lists', hok', hlinked', hforgets⟩ :=
      forgot_allMissEvictGhosts hbase hlinked hrange
    rw [hok', Java.ok_bind]
    exact ⟨e, _, lists', rfl, ⟨hkept.cached, hkept.arcP, hkept.t1Hit, hkept.t2Hit⟩, hlinked',
      .full hlast' hforgets⟩
  · exact ⟨e, s₁, _, rfl, hkept, hlinked, .room hlast' (by omega)⟩

end Sound

/-- What the calls do to the four lists. -/
inductive Performed (base : BaseCache K) (maxSize : JavaInt) (s : ArcCache base)
    (lists : ArcLists K) : ArcCall K → ArcEntry K → ArcLists K → Prop
  | hit {e : ArcEntry K} (he : e ∈ lists t1Head ∨ e ∈ lists t2Head) :
      Performed base maxSize s lists (.hit e) e ((lists.erased e).pushed t2Head e)
  | ghost {h : ListHead} {key : K} {e : ArcEntry K} (hghost : h = b1Head ∨ h = b2Head)
      (he : e ∈ lists h) (hkey : e.key = key) :
      Performed base maxSize s lists (.miss key) e ((lists.erased e).pushed t2Head e)
  | new {key : K} {lists' : ArcLists K}
      (habsent : ∀ h, h = b1Head ∨ h = b2Head → ∀ e ∈ lists h, e.key ≠ key)
      (hforgets : Forgets maxSize lists lists') :
      Performed base maxSize s lists (.miss key) ⟨s.objects, key, base.modifiedHash key⟩
        (lists'.pushed t1Head ⟨s.objects, key, base.modifiedHash key⟩)
  | candidate {e : ArcEntry K} {lists' : ArcLists K}
      (hcandidate : Candidate maxSize s.objects lists (TakesT1 s lists) e lists') :
      Performed base maxSize s lists .candidate e lists'
  | evict {e : ArcEntry K} {lists' : ArcLists K}
      (hcandidate : Candidate maxSize s.objects lists (TakesT1 s lists) e lists') :
      Performed base maxSize s lists .evict e (lists'.erased e)
  | remove {e : ArcEntry K} (he : e ∈ lists t1Head ∨ e ∈ lists t2Head) :
      Performed base maxSize s lists (.remove e) e (lists.erased e)

theorem Forgets.resident (hforgets : Forgets maxSize lists lists') (hapart : lists.Apart)
    (hresident : h = t1Head ∨ h = t2Head) : lists' h = lists h := by
  cases hforgets with
  | kept => rfl
  | dropped hghosts hlast =>
    apply hapart.erased_of_ne (List.mem_of_getLast? hlast)
    rintro rfl
    rcases hghosts with rfl | rfl <;> rcases hresident with hresident | hresident <;> cases hresident

/-- Ghosts never become more where some had to go, and the one too many goes. -/
theorem Forgets.count_ghosts (hforgets : Forgets maxSize lists lists') (hapart : lists.Apart)
    (hghosts : lists.count b1Head + lists.count b2Head ≤ maxSize.val + 1) :
    lists'.count b1Head + lists'.count b2Head ≤ maxSize.val := by
  cases hforgets with
  | kept hfew => exact hfew.le
  | dropped hlists hlast =>
    have he := List.mem_of_getLast? hlast
    rcases hlists with rfl | rfl
    · rw [ArcLists.count_erased_self he, hapart.count_erased_of_ne he (by decide)]
      omega
    · rw [ArcLists.count_erased_self he, hapart.count_erased_of_ne he (by decide)]
      omega

theorem Candidate.mem {objects : ℕ} {fromT1 : Bool}
    (hcandidate : Candidate maxSize objects lists fromT1 e lists') :
    e ∈ lists (if fromT1 then t1Head else t2Head) := by
  cases hcandidate with
  | room hlast => exact List.mem_of_getLast? hlast
  | full hlast => exact List.mem_of_getLast? hlast

theorem Candidate.resident {objects : ℕ} {fromT1 : Bool}
    (hcandidate : Candidate maxSize objects lists fromT1 e lists') (hapart : lists.Apart)
    (hfresh : ∀ h, ghostOf objects e ∉ lists h) (hresident : h = t1Head ∨ h = t2Head) :
    lists' h = lists h := by
  have hpushed := ghost_pushed_of_resident lists fromT1 (ghostOf objects e) hresident
  cases hcandidate with
  | room => exact hpushed
  | full hlast hforgets => rw [hforgets.resident (hapart.pushed hfresh) hresident, hpushed]

theorem Candidate.count_ghosts {objects : ℕ} {fromT1 : Bool}
    (hcandidate : Candidate maxSize objects lists fromT1 e lists') (hapart : lists.Apart)
    (hfresh : ∀ h, ghostOf objects e ∉ lists h)
    (hghosts : lists.count b1Head + lists.count b2Head ≤ maxSize.val) :
    lists'.count b1Head + lists'.count b2Head ≤ maxSize.val := by
  have hsum := count_ghost_pushed lists fromT1 (ghostOf objects e)
  cases hcandidate with
  | room hlast hroom => omega
  | full hlast hforgets => exact hforgets.count_ghosts (hapart.pushed hfresh) (by omega)

namespace Sound

theorem initial (hbase : base.Represents elements entries) (hpos : 1 ≤ maxSize.val)
    (hhalf : 2 * maxSize.val ≤ 2147483647) :
    Sound elements entries maxSize (initializeHeapCache base) fun _ => [] where
  linked := {
    links := funext fun h => hbase.shortCircuit h
    apart := ⟨fun _ => List.nodup_nil, fun he => absurd he (List.not_mem_nil)⟩
    b1Hash := by
      show (entries base.init).Perm []
      rw [hbase.init]
    b2Hash := by
      show (entries base.init).Perm []
      rw [hbase.init]
    t1Size := rfl
    flagged := ⟨by simp, by simp⟩
    made := ⟨by simp, by simp⟩ }
  nodup := List.nodup_nil
  mem_cached e := by simp [initializeHeapCache]
  ghosts := by
    show (0 : ℤ) + 0 ≤ _
    omega
  zero_le := le_rfl
  le_maxSize := by
    show (0 : ℤ) ≤ _
    omega
  resident := by
    show (0 : ℤ) + _ ≤ _
    omega

/-- An entry is taken out of the cache. -/
theorem removed (hbase : base.Represents elements entries) (hpos : 1 ≤ maxSize.val)
    (hhalf : 2 * maxSize.val ≤ 2147483647) (hsound : Sound elements entries maxSize s lists)
    (he : e ∈ s.cached) : Sound elements entries maxSize (s.removed e) (lists.erased e) := by
  have hlisted := (hsound.mem_cached e).mp he
  have hlinked := hsound.linked.removeEntryFromReplacementList hbase (hsound.inRange hpos hhalf)
    hlisted
  obtain ⟨hb1, hb2⟩ := hsound.linked.apart.erased_ghosts hlisted
  have hresident := hsound.resident
  have hlength := List.length_erase_of_mem he
  refine ⟨⟨hlinked.links, hlinked.apart, hlinked.b1Hash, hlinked.b2Hash, hlinked.t1Size,
    hlinked.flagged, hlinked.made⟩, ?_, ?_, ?_, ?_, ?_, ?_⟩
  · rw [removed_cached]
    exact hsound.nodup.erase e
  · intro x
    rw [removed_cached, hsound.nodup.mem_erase_iff, hsound.mem_cached,
      hsound.linked.apart.mem_erased, hsound.linked.apart.mem_erased]
    exact and_or_left
  · rw [ArcLists.count, hb1, ArcLists.count, hb2]
    exact hsound.ghosts
  · rw [removed_arcP]
    exact hsound.zero_le
  · rw [removed_arcP]
    exact hsound.le_maxSize
  · rw [removed_cached]
    omega

theorem hit (hbase : base.Represents elements entries) (hpos : 1 ≤ maxSize.val)
    (hhalf : 2 * maxSize.val ≤ 2147483647) (hsound : Sound elements entries maxSize s lists)
    (he : e ∈ s.cached) :
    Sound elements entries maxSize (s.recordHit e) ((lists.erased e).pushed t2Head e) := by
  have hlisted := (hsound.mem_cached e).mp he
  obtain ⟨hb1, hb2⟩ := hsound.linked.apart.erased_ghosts hlisted
  refine ⟨hsound.linked.recordHit hbase (hsound.inRange hpos hhalf) hlisted, ?_, ?_, ?_, ?_, ?_, ?_⟩
  · rw [recordHit_cached]
    exact hsound.nodup
  · intro x
    rw [recordHit_cached, hsound.mem_cached, hsound.linked.apart.mem_moved]
    constructor
    · exact Or.inr
    · rintro (rfl | hx)
      · exact hlisted
      · exact hx
  · rw [ArcLists.count_pushed_of_ne (by decide), ArcLists.count_pushed_of_ne (by decide),
      ArcLists.count, hb1, ArcLists.count, hb2]
    exact hsound.ghosts
  · rw [recordHit_arcP]
    exact hsound.zero_le
  · rw [recordHit_arcP]
    exact hsound.le_maxSize
  · rw [recordHit_cached]
    exact hsound.resident

/-- A key that is missed is cached afterwards, from its ghost or as a new entry. -/
theorem miss (hbase : base.Represents elements entries) (hpos : 1 ≤ maxSize.val)
    (hhalf : 2 * maxSize.val ≤ 2147483647) (hsound : Sound elements entries maxSize s lists)
    (key : K) (hroom : s.cached.length + maxSize.val < 2147483646) :
    ∃ s' e lists', s.perform maxSize (.miss key) = .ok (s', e) ∧
      Performed base maxSize s lists (.miss key) e lists' ∧
      Sound elements entries maxSize s' lists' ∧
      s'.t1Hit = s.t1Hit ∧ s'.t2Hit = s.t2Hit := by
  have hapart := hsound.linked.apart
  obtain ⟨found, s₁, lists₁, hok, hlooked⟩ := checkForGhost_looked hbase hsound.linked
    (hsound.inRange hpos hhalf) hsound.ghosts hsound.zero_le hsound.le_maxSize key
  cases hlooked with
  | @ghost h e s₁ hghost he hkey hlinked hcached hobjects hhits htarget =>
    have hnew : e ∉ s.cached := by
      intro hmem
      rcases (hsound.mem_cached e).mp hmem with hmem | hmem <;> rcases hghost with rfl | rfl <;>
        cases hapart.apart he hmem
    refine ⟨s₁.put e, e, _, ?_, .ghost hghost he hkey, ?_, hhits.1, hhits.2⟩
    · rw [perform, hok]
      rfl
    · refine ⟨⟨hlinked.links, hlinked.apart, hlinked.b1Hash, hlinked.b2Hash, hlinked.t1Size,
        hlinked.flagged, hlinked.made⟩, ?_, ?_, ?_, htarget.1, htarget.2, ?_⟩
      · show (e :: s₁.cached).Nodup
        rw [hcached]
        exact List.nodup_cons.mpr ⟨hnew, hsound.nodup⟩
      · intro x
        show x ∈ e :: s₁.cached ↔ _
        rw [hcached, hapart.mem_moved, List.mem_cons, hsound.mem_cached]
      · have hghosts := hsound.ghosts
        rw [ArcLists.count_pushed_of_ne (by decide), ArcLists.count_pushed_of_ne (by decide)]
        rcases hghost with rfl | rfl
        · rw [ArcLists.count_erased_self he, hapart.count_erased_of_ne he (by decide)]
          omega
        · rw [ArcLists.count_erased_self he, hapart.count_erased_of_ne he (by decide)]
          omega
      · show ((e :: s₁.cached).length : ℤ) + _ ≤ _
        rw [hcached, List.length_cons]
        push_cast
        omega
  | @none links b1Hash b2Hash lists₁ habsent hlinked hforgets =>
    have hfresh := hlinked.made.fresh key (base.modifiedHash key)
    have hrange : InRange maxSize lists₁ := by
      have hghosts := hforgets.count_ghosts hapart (hsound.ghosts.trans (by omega))
      refine ⟨hpos, hhalf, ?_, by omega⟩
      rw [ArcLists.count, hforgets.resident hapart (.inl rfl), ArcLists.count,
        hforgets.resident hapart (.inr rfl)]
      exact (hsound.inRange hpos hhalf).resident
    have hinserted := hlinked.insertNew hbase hrange key
    have hnew : (⟨s.objects, key, base.modifiedHash key⟩ : ArcEntry K) ∉ s.cached := by
      intro hmem
      have hold := hsound.linked.made.fresh key (base.modifiedHash key)
      rcases (hsound.mem_cached _).mp hmem with hmem | hmem
      · exact hold t1Head hmem
      · exact hold t2Head hmem
    have hperform : s.perform maxSize (.miss key) = .ok
        (put ⟨s.objects, key, base.modifiedHash key⟩
          (insertIntoReplacementList ⟨s.objects, key, base.modifiedHash key⟩
            (newEntry key (base.modifiedHash key)
              { s with links := links, b1Hash := b1Hash, b2Hash := b2Hash }).2),
          ⟨s.objects, key, base.modifiedHash key⟩) := by
      rw [perform, hok]
      rfl
    refine ⟨_, _, _, hperform, .new habsent hforgets, ?_, rfl, rfl⟩
    refine ⟨⟨hinserted.links, hinserted.apart, hinserted.b1Hash, hinserted.b2Hash,
      hinserted.t1Size, hinserted.flagged, hinserted.made⟩, ?_, ?_, ?_, hsound.zero_le,
      hsound.le_maxSize, ?_⟩
    · exact List.nodup_cons.mpr ⟨hnew, hsound.nodup⟩
    · intro x
      show x ∈ _ :: s.cached ↔ _
      rw [List.mem_cons, hsound.mem_cached, ArcLists.pushed_self, List.mem_cons,
        ArcLists.pushed_of_ne (by decide), hforgets.resident hapart (.inl rfl),
        hforgets.resident hapart (.inr rfl), or_assoc]
    · rw [ArcLists.count_pushed_of_ne (by decide), ArcLists.count_pushed_of_ne (by decide)]
      exact hforgets.count_ghosts hapart (hsound.ghosts.trans (by omega))
    · show ((_ :: s.cached).length : ℤ) + _ ≤ _
      rw [List.length_cons]
      push_cast
      omega

theorem candidate (hbase : base.Represents elements entries) (hpos : 1 ≤ maxSize.val)
    (hhalf : 2 * maxSize.val ≤ 2147483647) (hsound : Sound elements entries maxSize s lists)
    (hsome : s.cached ≠ []) :
    ∃ e s' lists', s.findEvictionCandidate maxSize = .ok (e, s') ∧ Kept s s' ∧ e ∈ s.cached ∧
      Candidate maxSize s.objects lists (TakesT1 s lists) e lists' ∧
      Sound elements entries maxSize s' lists' := by
  obtain ⟨e, s', lists', hok, hkept, hlinked, hcandidate⟩ :=
    hsound.findEvictionCandidate_eq hbase hpos hhalf hsome
  have hmem := hcandidate.mem
  have hfresh : ∀ h, ghostOf s.objects e ∉ lists h :=
    hsound.linked.made.fresh e.key e.hashCode
  have he : e ∈ s.cached := by
    rw [hsound.mem_cached]
    split_ifs at hmem
    · exact .inl hmem
    · exact .inr hmem
  refine ⟨e, s', lists', hok, hkept, he, hcandidate, hlinked, ?_, ?_, ?_, ?_, ?_, ?_⟩
  · rw [hkept.cached]
    exact hsound.nodup
  · intro x
    rw [hkept.cached, hsound.mem_cached,
      hcandidate.resident hsound.linked.apart hfresh (.inl rfl),
      hcandidate.resident hsound.linked.apart hfresh (.inr rfl)]
  · exact hcandidate.count_ghosts hsound.linked.apart hfresh hsound.ghosts
  · rw [hkept.arcP]
    exact hsound.zero_le
  · rw [hkept.arcP]
    exact hsound.le_maxSize
  · rw [hkept.cached]
    exact hsound.resident

/-- Every call that the base class may make returns and leaves the cache sound. -/
theorem perform (hbase : base.Represents elements entries) (hpos : 1 ≤ maxSize.val)
    (hhalf : 2 * maxSize.val ≤ 2147483647) (hsound : Sound elements entries maxSize s lists)
    {call : ArcCall K} (hpermits : s.Permits maxSize call) :
    ∃ s' e lists', s.perform maxSize call = .ok (s', e) ∧
      Performed base maxSize s lists call e lists' ∧
      Sound elements entries maxSize s' lists' ∧
      s'.getHitCnt = (if call.isHit then int64 (s.getHitCnt + 1) else s.getHitCnt) ∧
      (call = .candidate ∨ call = .evict → e ∈ s.cached) := by
  cases call with
  | hit e =>
    exact ⟨_, e, _, rfl, .hit ((hsound.mem_cached e).mp hpermits),
      hsound.hit hbase hpos hhalf hpermits, recordHit_getHitCnt e s, nofun⟩
  | miss key =>
    obtain ⟨s', e, lists', hok, hperformed, hsound', ht1Hit, ht2Hit⟩ :=
      hsound.miss hbase hpos hhalf key hpermits.2
    refine ⟨s', e, lists', hok, hperformed, hsound', ?_, nofun⟩
    rw [getHitCnt, ht1Hit, ht2Hit]
    rfl
  | candidate =>
    obtain ⟨e, s', lists', hok, hkept, he, hcandidate, hsound'⟩ :=
      hsound.candidate hbase hpos hhalf hpermits
    refine ⟨s', e, lists', ?_, .candidate hcandidate, hsound', ?_, fun _ => he⟩
    · rw [ArcCache.perform, hok]
      rfl
    · rw [getHitCnt, hkept.t1Hit, hkept.t2Hit]
      rfl
  | evict =>
    obtain ⟨e, s', lists', hok, hkept, he, hcandidate, hsound'⟩ :=
      hsound.candidate hbase hpos hhalf hpermits
    have hcached : e ∈ s'.cached := by
      rw [hkept.cached]
      exact he
    refine ⟨s'.removed e, e, _, ?_, .evict hcandidate,
      hsound'.removed hbase hpos hhalf hcached, ?_, fun _ => he⟩
    · rw [ArcCache.perform, hok]
      rfl
    · rw [removed_getHitCnt, getHitCnt, hkept.t1Hit, hkept.t2Hit]
      rfl
  | remove e =>
    refine ⟨_, e, _, rfl, .remove ((hsound.mem_cached e).mp hpermits),
      hsound.removed hbase hpos hhalf hpermits, ?_, nofun⟩
    exact removed_getHitCnt e s

theorem getIntegrityState_eq_true (hbase : base.Represents elements entries)
    (hpos : 1 ≤ maxSize.val) (hhalf : 2 * maxSize.val ≤ 2147483647)
    (hsound : Sound elements entries maxSize s lists) :
    ∀ check ∈ s.getIntegrityState maxSize, check.2 = true := by
  have hcount (h : ListHead) : base.getListEntryCount h s.links = lists.count h := by
    rw [hbase.getListEntryCount, hsound.linked.links, ArcLists.count]
  have hlocal : s.getLocalSize = lists.count t1Head + lists.count t2Head := hsound.count_resident
  have hlists : int32 (lists.count t1Head + lists.count t2Head) =
      lists.count t1Head + lists.count t2Head := by
    have hresident := hsound.resident
    rw [hsound.count_resident] at hresident
    apply int32_of_isInt
    have ht1 := lists.count_nonneg t1Head
    have ht2 := lists.count_nonneg t2Head
    unfold IsInt
    omega
  have hghosts : int32 (lists.count b1Head + lists.count b2Head) =
      lists.count b1Head + lists.count b2Head := by
    apply int32_of_isInt
    have hmax := hsound.ghosts
    have hb1 := lists.count_nonneg b1Head
    have hb2 := lists.count_nonneg b2Head
    unfold IsInt
    omega
  have hsecond : int32 (s.getLocalSize - s.t1Size) = lists.count t2Head := hsound.getT2Size_eq hpos
  have hfew := hsound.ghosts
  intro check hcheck
  simp only [getIntegrityState, List.mem_cons, List.not_mem_nil, or_false, hcount,
    hsound.linked.size_b1 hbase, hsound.linked.size_b2 hbase] at hcheck
  rcases hcheck with rfl | rfl | rfl | rfl | rfl | rfl
  · simp only [hlocal, hlists, decide_true]
  · simp only [hsound.linked.t1Size, decide_true]
  · simp only [hsecond, decide_true]
  · simp only [hghosts, hfew, decide_true]
  · rfl
  · rfl

end Sound

/-- After any calls that the base class may make, in any order, the sizes agree that the integrity
check compares, the target lies between zero and the size of the cache, hits are counted, and the
next call returns; a candidate is an entry of the cache. -/
theorem integrity_of_run (hbase : base.Represents elements entries) (hpos : 1 ≤ maxSize.val)
    (hhalf : 2 * maxSize.val ≤ 2147483647)
    {history : List (Record (ArcCache base) (ArcCall K) (ArcEntry K))}
    (hrun : Run (perform maxSize) (initializeHeapCache base) history s)
    (hmeets : Meets (Permits maxSize) history) :
    (∀ check ∈ s.getIntegrityState maxSize, check.2 = true) ∧
    0 ≤ s.arcP ∧ s.arcP ≤ maxSize.val ∧
    s.getHitCnt = int64 (history.countP fun r => r.call.isHit) ∧
    ∀ call, s.Permits maxSize call → ∃ s' e, s.perform maxSize call = .ok (s', e) ∧
      (call = .candidate ∨ call = .evict → e ∈ s.cached) := by
  have hinv : (∃ lists, Sound elements entries maxSize s lists) ∧
      s.getHitCnt = int64 (history.countP fun r => r.call.isHit) := by
    induction hrun with
    | start => exact ⟨⟨_, Sound.initial hbase hpos hhalf⟩, rfl⟩
    | @call history s s' c e run hok ih =>
      obtain ⟨⟨lists, hsound⟩, hhits⟩ := ih fun r hr => hmeets r (List.mem_cons_of_mem _ hr)
      obtain ⟨s₁, e₁, lists₁, hok₁, -, hsound₁, hhits₁, -⟩ :=
        hsound.perform hbase hpos hhalf (hmeets _ (List.mem_cons_self ..))
      cases hok.symm.trans hok₁
      refine ⟨⟨lists₁, hsound₁⟩, ?_⟩
      rw [hhits₁, List.countP_cons, hhits]
      split_ifs
      · push_cast
        unfold int64
        omega
      · rfl
  obtain ⟨⟨lists, hsound⟩, hhits⟩ := hinv
  refine ⟨hsound.getIntegrityState_eq_true hbase hpos hhalf, hsound.zero_le, hsound.le_maxSize,
    hhits, ?_⟩
  intro call hpermits
  obtain ⟨s', e, lists', hok, -, -, -, hcached⟩ := hsound.perform hbase hpos hhalf hpermits
  exact ⟨s', e, hok, hcached⟩

/-- The second key leaves a ghost, which is hit, so that the next candidate comes from `t2`. -/
def ghostCalls : List (ArcCall ℕ) :=
  [.miss 5, .miss 6, .hit ⟨0, 5, 5⟩, .miss 7, .evict, .miss 6, .candidate, .remove ⟨2, 7, 7⟩]

theorem integrity_of_run_ghostCalls : ∃ history s,
    replay (perform 2) (initializeHeapCache (BaseCache.plain fun k : ℕ => (k : ℤ))) ghostCalls =
      .ok (history, s) ∧
    (∀ check ∈ s.getIntegrityState 2, check.2 = true) ∧ 0 ≤ s.arcP ∧ s.arcP ≤ 2 ∧
    s.getHitCnt = int64 (history.countP fun r => r.call.isHit) ∧
    ∀ call, s.Permits 2 call → ∃ s' e, s.perform 2 call = .ok (s', e) ∧
      (call = .candidate ∨ call = .evict → e ∈ s.cached) := by
  have hrun : Run (perform 2) (initializeHeapCache (BaseCache.plain fun k : ℕ => (k : ℤ))) _ _ :=
    run_of_replay ghostCalls rfl
  exact ⟨_, _, rfl, integrity_of_run (BaseCache.plain_represents _) (by decide) (by decide) hrun
    (by decide)⟩

end ArcCache

end CachePolicies
