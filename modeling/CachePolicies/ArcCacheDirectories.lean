import CachePolicies.ArcCacheIntegrity
import CachePolicies.RecencyLists

/-!
# The directory of `ArcCache`

Where the base class evicts every candidate it asks for, no key is listed twice, `t1` and `t2` are
in order of the last access, and what is evicted was accessed least recently in its list.
-/

namespace CachePolicies

open ListHead

namespace ArcCache

variable {K : Type} {base : BaseCache K} {maxSize : JavaInt}
  {elements : base.Links → ArcLists K} {entries : base.Hash → List (ArcEntry K)}
  {s : ArcCache base} {lists lists' : ArcLists K} {e x : ArcEntry K} {h : ListHead}
  {history : List (Record (ArcCache base) (ArcCall K) (ArcEntry K))}

/-- The calls that look a key up. -/
def accesses : ArcCall K → Bool
  | .hit _ | .miss _ => true
  | _ => false

section

variable [DecidableEq K]

/-- The number of the last call that accessed the entry. -/
def lastAccess : List (Record (ArcCache base) (ArcCall K) (ArcEntry K)) → ArcEntry K → ℕ
  | [], _ => 0
  | r :: earlier, e =>
    if accesses r.call ∧ r.output = e then earlier.length + 1 else lastAccess earlier e

theorem lastAccess_le (history : List (Record (ArcCache base) (ArcCall K) (ArcEntry K)))
    (e : ArcEntry K) : lastAccess history e ≤ history.length := by
  induction history with
  | nil => exact le_rfl
  | cons r earlier ih =>
    rw [lastAccess, List.length_cons]
    split_ifs
    · exact le_rfl
    · exact ih.trans (Nat.le_succ _)

end

/-- Entries listed have different keys. -/
def Distinct (lists : ArcLists K) : Prop :=
  ∀ ⦃h h' : ListHead⦄ ⦃e e' : ArcEntry K⦄, e ∈ lists h → e' ∈ lists h' → e.key = e'.key → e = e'

theorem Distinct.of_subset (hdistinct : Distinct lists)
    (hsub : ∀ h, ∀ e ∈ lists' h, ∃ h', e ∈ lists h') : Distinct lists' := by
  intro h h' e e' he he' hkey
  obtain ⟨i, he⟩ := hsub h e he
  obtain ⟨j, he'⟩ := hsub h' e' he'
  exact hdistinct he he' hkey

/-- An entry whose key is not listed may be listed. -/
theorem Distinct.pushed (hdistinct : Distinct lists)
    (hnew : ∀ h', ∀ e' ∈ lists h', e'.key ≠ e.key) : Distinct (lists.pushed h e) := by
  intro i j a b ha hb hkey
  rcases ArcLists.mem_pushed.mp ha with ⟨-, hae⟩ | hold
  · rcases ArcLists.mem_pushed.mp hb with ⟨-, hbe⟩ | hold'
    · exact hae.trans hbe.symm
    · exact absurd (hkey.symm.trans (congrArg ArcEntry.key hae)) (hnew j b hold')
  · rcases ArcLists.mem_pushed.mp hb with ⟨-, hbe⟩ | hold'
    · exact absurd (hkey.trans (congrArg ArcEntry.key hbe)) (hnew i a hold)
    · exact hdistinct hold hold' hkey

theorem Distinct.nodup_keys (hdistinct : Distinct lists) (hapart : lists.Apart) :
    ((lists t1Head ++ lists t2Head ++ lists b1Head ++ lists b2Head).map ArcEntry.key).Nodup := by
  have hlisted : ∀ e ∈ lists t1Head ++ lists t2Head ++ lists b1Head ++ lists b2Head,
      ∃ h, e ∈ lists h := by
    intro e he
    simp only [List.mem_append] at he
    rcases he with ((he | he) | he) | he
    · exact ⟨_, he⟩
    · exact ⟨_, he⟩
    · exact ⟨_, he⟩
    · exact ⟨_, he⟩
  apply List.Nodup.map_on
  · intro a ha b hb hkey
    obtain ⟨i, ha⟩ := hlisted a ha
    obtain ⟨j, hb⟩ := hlisted b hb
    exact hdistinct ha hb hkey
  · have hdisjoint {i j : ListHead} (hne : i ≠ j) : ∀ e ∈ lists i, e ∉ lists j :=
      fun e hi hj => hne (hapart.apart hi hj)
    simp only [List.nodup_append', hapart.nodup, true_and, List.disjoint_append_left]
    exact ⟨⟨hdisjoint (by decide), hdisjoint (by decide), hdisjoint (by decide)⟩,
      ⟨hdisjoint (by decide), hdisjoint (by decide)⟩, hdisjoint (by decide)⟩

variable [DecidableEq K]

theorem Forgets.mem_of_mem (hforgets : Forgets maxSize lists lists') (hx : x ∈ lists' h) :
    x ∈ lists h := by
  cases hforgets with
  | kept => exact hx
  | dropped => exact ArcLists.mem_of_mem_erased hx

theorem Forgets.apart (hforgets : Forgets maxSize lists lists') (hapart : lists.Apart) :
    lists'.Apart := by
  cases hforgets with
  | kept => exact hapart
  | dropped => exact hapart.erased _

theorem Candidate.apart {objects : ℕ} {fromT1 : Bool}
    (hcandidate : Candidate maxSize objects lists fromT1 e lists') (hapart : lists.Apart)
    (hfresh : ∀ h, ghostOf objects e ∉ lists h) : lists'.Apart := by
  cases hcandidate with
  | room => exact hapart.pushed hfresh
  | full hlast hforgets => exact hforgets.apart (hapart.pushed hfresh)

theorem Candidate.last {objects : ℕ} {fromT1 : Bool}
    (hcandidate : Candidate maxSize objects lists fromT1 e lists') :
    (lists (if fromT1 then t1Head else t2Head)).getLast? = some e := by
  cases hcandidate with
  | room hlast => exact hlast
  | full hlast => exact hlast

theorem Candidate.mem_of_mem {objects : ℕ} {fromT1 : Bool}
    (hcandidate : Candidate maxSize objects lists fromT1 e lists') (hx : x ∈ lists' h) :
    x = ghostOf objects e ∨ x ∈ lists h := by
  cases hcandidate with
  | room =>
    rcases ArcLists.mem_pushed.mp hx with ⟨-, rfl⟩ | hx
    · exact .inl rfl
    · exact .inr hx
  | full hlast hforgets =>
    rcases ArcLists.mem_pushed.mp (hforgets.mem_of_mem hx) with ⟨-, rfl⟩ | hx
    · exact .inl rfl
    · exact .inr hx

/-- The keys stay different, as the entry evicted goes when its ghost comes. -/
theorem Performed.distinct {call : ArcCall K}
    (hperformed : Performed base maxSize s lists call e lists')
    (hsound : Sound elements entries maxSize s lists) (hpermits : s.Permits maxSize call)
    (hevicted : call ≠ .candidate) (hdistinct : Distinct lists) : Distinct lists' := by
  have hapart := hsound.linked.apart
  have hmoved {e : ArcEntry K} {h : ListHead} (he : e ∈ lists h) :
      Distinct ((lists.erased e).pushed t2Head e) := by
    apply hdistinct.of_subset
    intro i x hx
    rcases ArcLists.mem_pushed.mp hx with ⟨-, rfl⟩ | hx
    · exact ⟨h, he⟩
    · exact ⟨i, ArcLists.mem_of_mem_erased hx⟩
  cases hperformed with
  | hit he =>
    rcases he with he | he
    · exact hmoved he
    · exact hmoved he
  | ghost hghost he hkey => exact hmoved he
  | new habsent hforgets =>
    apply Distinct.pushed
    · exact hdistinct.of_subset fun i x hx => ⟨i, hforgets.mem_of_mem hx⟩
    · intro i x hx
      have hlisted := hforgets.mem_of_mem hx
      cases i with
      | t1Head => exact hpermits.1 x ((hsound.mem_cached x).mpr (.inl hlisted))
      | t2Head => exact hpermits.1 x ((hsound.mem_cached x).mpr (.inr hlisted))
      | b1Head => exact habsent b1Head (.inl rfl) x hlisted
      | b2Head => exact habsent b2Head (.inr rfl) x hlisted
  | candidate => exact absurd rfl hevicted
  | evict hcandidate =>
    have hfresh : ∀ h, ghostOf s.objects e ∉ lists h :=
      hsound.linked.made.fresh e.key e.hashCode
    have hrest : Distinct ((lists.erased e).pushed b1Head (ghostOf s.objects e)) := by
      apply Distinct.pushed
      · exact hdistinct.of_subset fun i x hx => ⟨i, ArcLists.mem_of_mem_erased hx⟩
      · intro i x hx hkey
        obtain ⟨hne, hx⟩ := hapart.mem_erased.mp hx
        exact hne (hdistinct hx hcandidate.mem hkey)
    apply hrest.of_subset
    intro i x hx
    have hlisted := ArcLists.mem_of_mem_erased hx
    rcases hcandidate.mem_of_mem hlisted with rfl | hold
    · exact ⟨b1Head, ArcLists.mem_pushed.mpr (.inl ⟨rfl, rfl⟩)⟩
    · refine ⟨i, ArcLists.mem_pushed.mpr (.inr (hapart.mem_erased.mpr ⟨?_, hold⟩))⟩
      intro hxe
      exact (hcandidate.apart hapart hfresh).not_mem_erased e i (hxe ▸ hx)
  | remove he => exact hdistinct.of_subset fun i x hx => ⟨i, ArcLists.mem_of_mem_erased hx⟩

/-! ## Recency -/

theorem lastAccess_cons_self {r : Record (ArcCache base) (ArcCall K) (ArcEntry K)}
    (haccess : accesses r.call = true) (houtput : r.output = e) :
    lastAccess (r :: history) e = history.length + 1 := by
  rw [lastAccess, if_pos ⟨haccess, houtput⟩]

theorem lastAccess_cons_of_ne {r : Record (ArcCache base) (ArcCall K) (ArcEntry K)}
    (hne : x ≠ r.output) : lastAccess (r :: history) x = lastAccess history x := by
  rw [lastAccess, if_neg fun h => hne h.2.symm]

theorem lastAccess_cons_of_not_accesses {r : Record (ArcCache base) (ArcCall K) (ArcEntry K)}
    (haccess : accesses r.call = false) : lastAccess (r :: history) x = lastAccess history x := by
  rw [lastAccess, if_neg fun h => Bool.false_ne_true (haccess.symm.trans h.1)]

/-- The entries of the cache are in order of their last access, the latest at the front. -/
def InOrder (history : List (Record (ArcCache base) (ArcCall K) (ArcEntry K)))
    (lists : ArcLists K) : Prop :=
  ∀ h, h = t1Head ∨ h = t2Head → Increasing (lastAccess history) (lists h).reverse

/-- An entry accessed goes to the front of a list. -/
theorem InOrder.accessed (hordered : InOrder history lists) {r : Record _ _ (ArcEntry K)}
    (haccess : accesses r.call = true) (houtput : r.output = e) (hfree : ∀ h, e ∉ lists' h)
    (hsub : ∀ h, h = t1Head ∨ h = t2Head → (lists' h).Sublist (lists h)) (h : ListHead) :
    InOrder (r :: history) (lists'.pushed h e) := by
  have hother (i : ListHead) (hi : i = t1Head ∨ i = t2Head) :
      Increasing (lastAccess history) (lists' i).reverse :=
    (hordered i hi).sublist (hsub i hi).reverse
  have hstamp (i : ListHead) :
      ∀ x ∈ (lists' i).reverse, lastAccess (r :: history) x = lastAccess history x := by
    intro x hx
    apply lastAccess_cons_of_ne
    rintro rfl
    exact hfree i (houtput ▸ List.mem_reverse.mp hx)
  intro i hi
  by_cases hih : i = h
  · subst hih
    rw [ArcLists.pushed_self, List.reverse_cons]
    apply (hother i hi).touch (hstamp i)
    intro x hx
    rw [lastAccess_cons_self haccess houtput]
    exact Nat.lt_succ_of_le (lastAccess_le history x)
  · rw [ArcLists.pushed_of_ne hih]
    exact (hother i hi).congr (hstamp i)

/-- Entries that go leave the others in order. -/
theorem InOrder.unaccessed (hordered : InOrder history lists) {r : Record _ _ (ArcEntry K)}
    (haccess : accesses r.call = false)
    (hsub : ∀ h, h = t1Head ∨ h = t2Head → (lists' h).Sublist (lists h)) :
    InOrder (r :: history) lists' := by
  intro i hi
  apply ((hordered i hi).sublist (hsub i hi).reverse).congr
  intro x _
  exact lastAccess_cons_of_not_accesses haccess

theorem Performed.inOrder {call : ArcCall K} {s' : ArcCache base}
    (hperformed : Performed base maxSize s lists call e lists')
    (hsound : Sound elements entries maxSize s lists) (hordered : InOrder history lists) :
    InOrder (⟨s, call, e, s'⟩ :: history) lists' := by
  have hapart := hsound.linked.apart
  have hmade := hsound.linked.made
  cases hperformed with
  | hit he =>
    exact hordered.accessed rfl rfl (hapart.not_mem_erased e)
      (fun h _ => ArcLists.erased_sublist e lists h) t2Head
  | ghost hghost he hkey =>
    exact hordered.accessed rfl rfl (hapart.not_mem_erased e)
      (fun h _ => ArcLists.erased_sublist e lists h) t2Head
  | @new key lists₁ habsent hforgets =>
    apply hordered.accessed rfl rfl
    · intro h hmem
      exact hmade.fresh key (base.modifiedHash key) h (hforgets.mem_of_mem hmem)
    · intro h hresident
      rw [hforgets.resident hapart hresident]
  | candidate hcandidate =>
    apply hordered.unaccessed rfl
    intro h hresident
    rw [hcandidate.resident hapart (hmade.fresh e.key e.hashCode) hresident]
  | @evict e lists₁ hcandidate =>
    apply hordered.unaccessed rfl
    intro h hresident
    rw [← hcandidate.resident hapart (hmade.fresh e.key e.hashCode) hresident]
    exact ArcLists.erased_sublist e lists₁ h
  | remove he => exact hordered.unaccessed rfl fun h _ => ArcLists.erased_sublist e lists h

/-- The last of a list is the one accessed least recently. -/
theorem InOrder.last_le (hordered : InOrder history lists) (hh : h = t1Head ∨ h = t2Head)
    (hlast : (lists h).getLast? = some e) :
    e ∈ lists h ∧ ∀ x ∈ lists h, lastAccess history e ≤ lastAccess history x := by
  refine ⟨List.mem_of_getLast? hlast, ?_⟩
  have hincreasing := hordered h hh
  obtain ⟨rest, hreverse⟩ : ∃ rest, (lists h).reverse = e :: rest := by
    rw [← List.head?_reverse] at hlast
    exact ⟨_, (List.cons_head?_tail hlast).symm⟩
  intro x hx
  rw [hreverse] at hincreasing
  apply hincreasing.head_le
  rw [← hreverse]
  exact List.mem_reverse.mpr hx

/-- Where candidates are evicted, the keys of the entries and the ghosts stay different, `t1` and
`t2` are in order of the last access, and what is evicted next is the entry of one of them that
was accessed least recently: of `t1` if that is larger than the target. -/
theorem directory_of_run (hbase : base.Represents elements entries) (hpos : 1 ≤ maxSize.val)
    (hhalf : 2 * maxSize.val ≤ 2147483647)
    (hrun : Run (perform maxSize) (initializeHeapCache base) history s)
    (hmeets : Meets (fun s call => s.Permits maxSize call ∧ call ≠ .candidate) history) :
    ((elements s.links t1Head ++ elements s.links t2Head ++ elements s.links b1Head ++
      elements s.links b2Head).map ArcEntry.key).Nodup ∧
    (∀ e, e ∈ s.cached ↔ e ∈ elements s.links t1Head ∨ e ∈ elements s.links t2Head) ∧
    InOrder history (elements s.links) ∧
    (s.cached ≠ [] → ∃ s' e, s.perform maxSize .evict = .ok (s', e) ∧
      let evicted := if TakesT1 s (elements s.links) then t1Head else t2Head
      e ∈ elements s.links evicted ∧
        ∀ x ∈ elements s.links evicted, lastAccess history e ≤ lastAccess history x) := by
  have hinv : ∃ lists, Sound elements entries maxSize s lists ∧ Distinct lists ∧
      InOrder history lists := by
    induction hrun with
    | start =>
      refine ⟨_, Sound.initial hbase hpos hhalf, ?_, ?_⟩
      · intro h h' e e' he
        exact absurd he List.not_mem_nil
      · intro h _
        exact Increasing.nil
    | @call history s s' c e run hok ih =>
      obtain ⟨lists, hsound, hdistinct, hordered⟩ := ih fun r hr => hmeets r (List.mem_cons_of_mem _ hr)
      obtain ⟨hpermits, hevicted⟩ := hmeets _ (List.mem_cons_self ..)
      obtain ⟨s₁, e₁, lists₁, hok₁, hperformed, hsound₁, -⟩ :=
        hsound.perform hbase hpos hhalf hpermits
      cases hok.symm.trans hok₁
      exact ⟨lists₁, hsound₁, hperformed.distinct hsound hpermits hevicted hdistinct,
        hperformed.inOrder hsound hordered⟩
  obtain ⟨lists, hsound, hdistinct, hordered⟩ := hinv
  rw [hsound.linked.links]
  refine ⟨hdistinct.nodup_keys hsound.linked.apart, hsound.mem_cached, hordered, ?_⟩
  intro hsome
  have hpermits : s.Permits maxSize .evict := hsome
  obtain ⟨s', e, lists', hok, hperformed, -⟩ := hsound.perform hbase hpos hhalf hpermits
  refine ⟨s', e, hok, ?_⟩
  cases hperformed with
  | evict hcandidate =>
    have hlast := hcandidate.last
    simp only [decide_eq_true_eq] at hlast
    apply hordered.last_le _ hlast
    split_ifs
    · exact .inl rfl
    · exact .inr rfl

/-- After a hit in `b1` the target is one, and what is evicted next comes from `t2`. -/
def evictedCalls : List (ArcCall ℕ) := [.miss 5, .miss 6, .hit ⟨0, 5, 5⟩, .miss 7, .evict, .miss 6]

theorem directory_of_run_evictedCalls : ∃ history s, ∃ lists : ArcLists ℕ,
    replay (perform 2) (initializeHeapCache (BaseCache.plain fun k : ℕ => (k : ℤ))) evictedCalls =
      .ok (history, s) ∧
    s.links = lists ∧ InOrder history lists ∧ ∃ s' e, s.perform 2 .evict = .ok (s', e) ∧
      let evicted := if TakesT1 s lists then t1Head else t2Head
      e ∈ lists evicted ∧ ∀ x ∈ lists evicted, lastAccess history e ≤ lastAccess history x := by
  have hrun : Run (perform 2) (initializeHeapCache (BaseCache.plain fun k : ℕ => (k : ℤ))) _ _ :=
    run_of_replay evictedCalls rfl
  obtain ⟨-, -, hordered, hevicted⟩ := directory_of_run (BaseCache.plain_represents _) (by decide)
    (by decide) hrun (by decide)
  exact ⟨_, _, _, rfl, rfl, hordered, hevicted (by decide)⟩

end ArcCache

end CachePolicies
