import CachePolicies.ArcCacheLists

/-!
# What a call to `ArcCache` does

An entry that is hit, in the cache or as a ghost, goes to the front of `t2`; a new one to the front
of `t1`, after ghosts made room. A candidate is the last entry of `t1` or of `t2`, and leaves a
ghost.
-/

namespace CachePolicies

open ListHead

namespace ArcCache

variable {K : Type} [DecidableEq K] {base : BaseCache K} {maxSize : JavaInt}
  {elements : base.Links → ArcLists K} {entries : base.Hash → List (ArcEntry K)}
  {s : ArcCache base} {lists : ArcLists K} {e : ArcEntry K} {h : ListHead}

/-- A hit in the cache. -/
theorem Linked.recordHit (hbase : base.Represents elements entries)
    (hlinked : Linked elements entries s lists) (hrange : InRange maxSize lists)
    (he : e ∈ lists t1Head ∨ e ∈ lists t2Head) :
    Linked elements entries (s.recordHit e) ((lists.erased e).pushed t2Head e) := by
  have hlinks {h : ListHead} (hlisted : e ∈ lists h) :
      elements (base.moveToFront t2Head e s.links) = (lists.erased e).pushed t2Head e := by
    rw [← hlinked.links] at hlisted ⊢
    exact hbase.moveToFront hlisted
  have hmade {h : ListHead} (hlisted : e ∈ lists h) :
      Made base s.objects ((lists.erased e).pushed t2Head e) :=
    (hlinked.made.erased e).pushed le_rfl (hlinked.made.object h e hlisted)
      (hlinked.made.hashed h e hlisted)
  obtain ⟨hb1, hb2⟩ := hlinked.apart.erased_ghosts he
  have hb1' : (entries s.b1Hash).Perm ((lists.erased e).pushed t2Head e b1Head) := by
    rw [ArcLists.pushed_of_ne (by decide), hb1]
    exact hlinked.b1Hash
  have hb2' : (entries s.b2Hash).Perm ((lists.erased e).pushed t2Head e b2Head) := by
    rw [ArcLists.pushed_of_ne (by decide), hb2]
    exact hlinked.b2Hash
  have hcount := ArcLists.count_pushed_of_ne (show t1Head ≠ t2Head by decide) e (lists.erased e)
  have hflagged := hlinked.flagged.moved hlinked.apart e
  rcases he with he | he
  · have hflag : s.withinT2 e = false := hlinked.flagged.t1 e he
    rw [ArcCache.recordHit]
    simp only [hflag, Bool.false_eq_true, if_false]
    exact ⟨hlinks he, hlinked.apart.moved _ e, hb1', hb2',
      (hlinked.t1Size_pred hrange he).trans hcount.symm, hflagged, hmade he⟩
  · have hflag : s.withinT2 e = true := hlinked.flagged.t2 e he
    have hsame : Function.update s.withinT2 e true = s.withinT2 := by
      rw [← hflag, Function.update_eq_self]
    rw [hsame] at hflagged
    rw [hlinked.apart.count_erased_of_ne he (show t1Head ≠ t2Head by decide)] at hcount
    rw [ArcCache.recordHit]
    simp only [hflag, if_true]
    refine ⟨hlinks he, hlinked.apart.moved _ e, hb1', hb2', ?_, hflagged, hmade he⟩
    rw [hcount]
    exact hlinked.t1Size

/-- An entry leaves the replacement list. -/
theorem Linked.removeEntryFromReplacementList (hbase : base.Represents elements entries)
    (hlinked : Linked elements entries s lists) (hrange : InRange maxSize lists)
    (he : e ∈ lists t1Head ∨ e ∈ lists t2Head) :
    Linked elements entries (s.removeEntryFromReplacementList e) (lists.erased e) := by
  have hlinks {h : ListHead} (hlisted : e ∈ lists h) :
      elements (base.removeEntryFromReplacementList e s.links) = lists.erased e := by
    rw [← hlinked.links] at hlisted ⊢
    exact hbase.removeEntryFromReplacementList hlisted
  obtain ⟨hb1, hb2⟩ := hlinked.apart.erased_ghosts he
  have hflagged : Flagged (Function.update s.withinT2 e false) (lists.erased e) :=
    (hlinked.flagged.erased e).update (hlinked.apart.not_mem_erased e) false
  rcases he with he | he
  · have hflag : s.withinT2 e = false := hlinked.flagged.t1 e he
    rw [ArcCache.removeEntryFromReplacementList]
    simp only [hflag, Bool.false_eq_true, if_false]
    exact ⟨hlinks he, hlinked.apart.erased e, hb1 ▸ hlinked.b1Hash, hb2 ▸ hlinked.b2Hash,
      hlinked.t1Size_pred hrange he, hflagged, hlinked.made.erased e⟩
  · have hflag : s.withinT2 e = true := hlinked.flagged.t2 e he
    have hcount := hlinked.apart.count_erased_of_ne he (show t1Head ≠ t2Head by decide)
    rw [ArcCache.removeEntryFromReplacementList]
    simp only [hflag, if_true]
    exact ⟨hlinks he, hlinked.apart.erased e, hb1 ▸ hlinked.b1Hash, hb2 ▸ hlinked.b2Hash,
      hlinked.t1Size.trans hcount.symm, hflagged, hlinked.made.erased e⟩

/-- A new entry enters the cache. -/
theorem Linked.insertNew (hbase : base.Represents elements entries)
    (hlinked : Linked elements entries s lists) (hrange : InRange maxSize lists) (key : K) :
    Linked elements entries
      ((s.newEntry key (base.modifiedHash key)).2.insertIntoReplacementList
        (s.newEntry key (base.modifiedHash key)).1)
      (lists.pushed t1Head ⟨s.objects, key, base.modifiedHash key⟩) := by
  have hfresh := hlinked.made.fresh key (base.modifiedHash key)
  refine ⟨?_, hlinked.apart.pushed hfresh, hlinked.b1Hash, hlinked.b2Hash, ?_, ?_, ?_⟩
  · have hfree := hfresh
    rw [← hlinked.links] at hfree ⊢
    exact hbase.insertInList hfree
  · show int32 (s.t1Size + 1) = _
    rw [ArcLists.count_pushed_self, hlinked.t1Size]
    apply int32_of_isInt
    have hresident := hrange.resident
    have hmax := hrange.pos
    have ht1 := lists.count_nonneg t1Head
    have ht2 := lists.count_nonneg t2Head
    unfold IsInt
    omega
  · exact (hlinked.flagged.update hfresh false).pushed (fun _ => Function.update_self _ _ _)
      fun h => nomatch h
  · exact hlinked.made.pushed (Nat.le_succ _) (Nat.lt_succ_self _) rfl

/-! ## Ghosts -/

/-- The target moves by one at least and by no more than the size of a list. -/
theorem delta_bounds {hitSize otherSize : ℤ} (hhit : 1 ≤ hitSize) (hother : otherSize ≤ maxSize.val)
    (hpos : 1 ≤ maxSize.val) : ∃ d, delta hitSize otherSize = .ok d ∧ 1 ≤ d ∧ d ≤ maxSize.val := by
  rw [delta]
  split_ifs with hge
  · exact ⟨1, rfl, le_rfl, hpos⟩
  · rw [divide_of_pos (by omega), Int.tdiv_eq_ediv_of_nonneg (by omega)]
    refine ⟨_, rfl, ?_, ?_⟩
    · rw [Int.le_ediv_iff_mul_le (by omega)]
      omega
    · exact (Int.ediv_le_self _ (by omega)).trans hother

/-- The sizes of the tables, when a ghost has just been taken out of one. -/
structure GhostSizes (base : BaseCache K) (maxSize : JavaInt) (hit other : base.Hash) : Prop where
  nonneg : 0 ≤ base.size hit
  hit_le : base.size hit + 1 ≤ maxSize.val
  other_le : base.size other ≤ maxSize.val

omit [DecidableEq K] in
theorem b1HitAdaption_eq (hsizes : GhostSizes base maxSize s.b1Hash s.b2Hash)
    (hhalf : 2 * maxSize.val ≤ 2147483647) (hzero : 0 ≤ s.arcP) (htarget : s.arcP ≤ maxSize.val) :
    ∃ target, s.b1HitAdaption maxSize =
        .ok { s with arcP := target, b2HitPreferenceForEviction := false } ∧
      0 ≤ target ∧ target ≤ maxSize.val := by
  obtain ⟨hhit, hsum, hother⟩ := hsizes
  have hsize : int32 (base.size s.b1Hash + 1) = base.size s.b1Hash + 1 := by
    apply int32_of_isInt
    unfold IsInt
    omega
  obtain ⟨d, hd, hone, hmax⟩ := delta_bounds (show 1 ≤ base.size s.b1Hash + 1 by omega) hother
    (by omega)
  have hadd : int32 (s.arcP + d) = s.arcP + d := by
    apply int32_of_isInt
    unfold IsInt
    omega
  refine ⟨min (s.arcP + d) maxSize, ?_, ?_, min_le_right _ _⟩
  · rw [b1HitAdaption, hsize, hd, Java.ok_bind, hadd]
  · exact le_min (by omega) (by omega)

omit [DecidableEq K] in
theorem b2HitAdaption_eq (hsizes : GhostSizes base maxSize s.b2Hash s.b1Hash)
    (hhalf : 2 * maxSize.val ≤ 2147483647) (hzero : 0 ≤ s.arcP) (htarget : s.arcP ≤ maxSize.val) :
    ∃ target, s.b2HitAdaption =
        .ok { s with arcP := target, b2HitPreferenceForEviction := true } ∧
      0 ≤ target ∧ target ≤ maxSize.val := by
  obtain ⟨hhit, hsum, hother⟩ := hsizes
  have hsize : int32 (base.size s.b2Hash + 1) = base.size s.b2Hash + 1 := by
    apply int32_of_isInt
    unfold IsInt
    omega
  obtain ⟨d, hd, hone, hmax⟩ := delta_bounds (show 1 ≤ base.size s.b2Hash + 1 by omega) hother
    (by omega)
  have hsub : int32 (s.arcP - d) = s.arcP - d := by
    apply int32_of_isInt
    unfold IsInt
    omega
  refine ⟨max (s.arcP - d) 0, ?_, le_max_right _ _, ?_⟩
  · rw [b2HitAdaption, hsize, hd, Java.ok_bind, hsub]
  · exact max_le (by omega) (by omega)

/-- A ghost that is hit becomes an entry of `t2`. -/
theorem Linked.insertT2 (hbase : base.Represents elements entries)
    (hlinked : Linked elements entries s lists) (he : e ∈ lists h)
    (hghost : h = b1Head ∨ h = b2Head) {b1Hash b2Hash : base.Hash}
    (hb1 : (entries b1Hash).Perm (lists.erased e b1Head))
    (hb2 : (entries b2Hash).Perm (lists.erased e b2Head)) (target : ℤ) (prefers : Bool) :
    Linked elements entries
      (ArcCache.insertT2 e { s with
        b1Hash := b1Hash, b2Hash := b2Hash, links := base.removeFromList e s.links,
        arcP := target, b2HitPreferenceForEviction := prefers })
      ((lists.erased e).pushed t2Head e) := by
  have hremoved : elements (base.removeFromList e s.links) = lists.erased e := by
    have hlisted := he
    rw [← hlinked.links] at hlisted ⊢
    exact hbase.removeFromList hlisted
  have hfree := hlinked.apart.not_mem_erased e
  have ht1 : lists.erased e t1Head = lists t1Head := by
    apply hlinked.apart.erased_of_ne he
    rcases hghost with rfl | rfl <;> decide
  refine ⟨?_, hlinked.apart.moved _ e, ?_, ?_, ?_, hlinked.flagged.moved hlinked.apart e, ?_⟩
  · rw [← hremoved] at hfree ⊢
    exact hbase.insertInList hfree
  · rw [ArcLists.pushed_of_ne (by decide)]
    exact hb1
  · rw [ArcLists.pushed_of_ne (by decide)]
    exact hb2
  · rw [ArcLists.count_pushed_of_ne (by decide), ArcLists.count, ht1]
    exact hlinked.t1Size
  · exact (hlinked.made.erased e).pushed le_rfl (hlinked.made.object h e he)
      (hlinked.made.hashed h e he)

/-- What looking for a ghost comes to: the key has a ghost, which goes to `t2` while the target
moves, or none, and ghosts may go. -/
inductive Looked (elements : base.Links → ArcLists K) (entries : base.Hash → List (ArcEntry K))
    (maxSize : JavaInt) (s : ArcCache base) (lists : ArcLists K) (key : K) :
    Option (ArcEntry K) → ArcCache base → ArcLists K → Prop
  | ghost {h : ListHead} {e : ArcEntry K} {s' : ArcCache base} (hghost : h = b1Head ∨ h = b2Head)
      (he : e ∈ lists h) (hkey : e.key = key)
      (hlinked : Linked elements entries s' ((lists.erased e).pushed t2Head e))
      (hcached : s'.cached = s.cached) (hobjects : s'.objects = s.objects)
      (hhits : s'.t1Hit = s.t1Hit ∧ s'.t2Hit = s.t2Hit)
      (htarget : 0 ≤ s'.arcP ∧ s'.arcP ≤ maxSize.val) :
      Looked elements entries maxSize s lists key (some e) s' ((lists.erased e).pushed t2Head e)
  | none {links : base.Links} {b1Hash b2Hash : base.Hash} {lists' : ArcLists K}
      (habsent : ∀ h, h = b1Head ∨ h = b2Head → ∀ e ∈ lists h, e.key ≠ key)
      (hlinked : Linked elements entries
        { s with links := links, b1Hash := b1Hash, b2Hash := b2Hash } lists')
      (hforgets : Forgets maxSize lists lists') :
      Looked elements entries maxSize s lists key none
        { s with links := links, b1Hash := b1Hash, b2Hash := b2Hash } lists'

theorem checkForGhost_looked (hbase : base.Represents elements entries)
    (hlinked : Linked elements entries s lists) (hrange : InRange maxSize lists)
    (hghosts : lists.count b1Head + lists.count b2Head ≤ maxSize.val)
    (hzero : 0 ≤ s.arcP) (htarget : s.arcP ≤ maxSize.val) (key : K) :
    ∃ found s' lists', s.checkForGhost maxSize key (base.modifiedHash key) = .ok (found, s') ∧
      Looked elements entries maxSize s lists key found s' lists' := by
  have hb1 := lists.count_nonneg b1Head
  have hb2 := lists.count_nonneg b2Head
  have habsent {t t' : base.Hash} {h : ListHead} (hperm : (entries t).Perm (lists h))
      (hmissing : base.removeKey key (base.modifiedHash key) t = (none, t')) :
      ∀ e ∈ lists h, e.key ≠ key := by
    intro e he hkey
    obtain ⟨hnone, -⟩ := hbase.removeKey_none hmissing
    exact hnone e (hperm.mem_iff.mpr he) hkey (hkey ▸ hlinked.made.hashed h e he)
  rw [checkForGhost]
  rcases hfound1 : base.removeKey key (base.modifiedHash key) s.b1Hash with ⟨found | e, b1Hash⟩
  · obtain ⟨-, hsame1⟩ := hbase.removeKey_none hfound1
    rcases hfound2 : base.removeKey key (base.modifiedHash key) s.b2Hash with ⟨found | e, b2Hash⟩
    · obtain ⟨-, hsame2⟩ := hbase.removeKey_none hfound2
      have hlinked' : Linked elements entries { s with b1Hash := b1Hash, b2Hash := b2Hash } lists :=
        ⟨hlinked.links, hlinked.apart, hsame1.symm.trans hlinked.b1Hash,
          hsame2.symm.trans hlinked.b2Hash, hlinked.t1Size, hlinked.flagged, hlinked.made⟩
      obtain ⟨links, b1Hash', b2Hash', lists', hok, hlinked'', hforgets⟩ :=
        forgot_allMissEvictGhosts hbase hlinked' hrange
      simp only [hfound2, hok, Java.ok_bind]
      refine ⟨none, _, lists', rfl, .none ?_ hlinked'' hforgets⟩
      rintro h (rfl | rfl)
      · exact habsent hlinked.b1Hash hfound1
      · exact habsent hlinked.b2Hash hfound2
    · obtain ⟨hkey, -, hperm⟩ := hbase.removeKey_some hfound2
      have hentries := hperm.symm.trans hlinked.b2Hash
      have he : e ∈ lists b2Head := hentries.mem_iff.mp (List.mem_cons_self ..)
      have hsize : base.size b2Hash + 1 = lists.count b2Head := by
        rw [hbase.size, ← ArcLists.count_eq_of_perm hentries]
        simp
      have hother : base.size b1Hash = lists.count b1Head := by
        rw [hbase.size, ArcLists.count_eq_of_perm (hsame1.symm.trans hlinked.b1Hash)]
      have hnonneg : 0 ≤ base.size b2Hash := by
        rw [hbase.size]
        exact Int.natCast_nonneg _
      have hsizes : GhostSizes base maxSize b2Hash b1Hash := ⟨hnonneg, by omega, by omega⟩
      obtain ⟨target, hok, hbounds⟩ := b2HitAdaption_eq (s := { s with
        b1Hash := b1Hash, b2Hash := b2Hash, links := base.removeFromList e s.links })
        hsizes hrange.half hzero htarget
      simp only [hfound2, hok, Java.ok_bind]
      refine ⟨some e, _, _, rfl, .ghost (.inr rfl) he hkey ?_ rfl rfl ⟨rfl, rfl⟩ hbounds⟩
      apply hlinked.insertT2 hbase he (.inr rfl)
      · rw [hlinked.apart.erased_of_ne he (by decide)]
        exact hsame1.symm.trans hlinked.b1Hash
      · exact (List.cons_perm_iff_perm_erase.mp hentries).2
  · obtain ⟨hkey, -, hperm⟩ := hbase.removeKey_some hfound1
    have hentries := hperm.symm.trans hlinked.b1Hash
    have he : e ∈ lists b1Head := hentries.mem_iff.mp (List.mem_cons_self ..)
    have hsize : base.size b1Hash + 1 = lists.count b1Head := by
      rw [hbase.size, ← ArcLists.count_eq_of_perm hentries]
      simp
    have hother : base.size s.b2Hash = lists.count b2Head := hlinked.size_b2 hbase
    have hnonneg : 0 ≤ base.size b1Hash := by
      rw [hbase.size]
      exact Int.natCast_nonneg _
    have hsizes : GhostSizes base maxSize b1Hash s.b2Hash := ⟨hnonneg, by omega, by omega⟩
    obtain ⟨target, hok, hbounds⟩ := b1HitAdaption_eq (s := { s with
      b1Hash := b1Hash, links := base.removeFromList e s.links })
      hsizes hrange.half hzero htarget
    simp only [hok, Java.ok_bind]
    refine ⟨some e, _, _, rfl, .ghost (.inl rfl) he hkey ?_ rfl rfl ⟨rfl, rfl⟩ hbounds⟩
    apply hlinked.insertT2 hbase he (.inl rfl)
    · exact (List.cons_perm_iff_perm_erase.mp hentries).2
    · rw [hlinked.apart.erased_of_ne he (by decide)]
      exact hlinked.b2Hash

end ArcCache

end CachePolicies
