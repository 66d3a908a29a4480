import CachePolicies.ARCMemoryAccesses
import CachePolicies.PartialRuns

/-!
# The coherence of an adaptive replacement memory cache

The gets are counted beside the cache. Its map and lists always agree and nothing throws,
but the sum for the target and the counters of hits and misses are `int`s and can overflow.
-/

namespace CachePolicies

namespace ARCMemoryCache

open ListNum

variable {K V : Type} [DecidableEq K]

/-- The number of gets, after one more call. -/
def gets (count : ℕ) : MemoryCall K V → ℕ
  | .update _ => count
  | .get _ => count + 1
  | .remove _ => count
  | .removeAll => count

/-- One call, beside which the gets are counted. -/
def counting (t : ARCMemoryCache K V × ℕ) (call : MemoryCall K V) :
    Java ((ARCMemoryCache K V × ℕ) × Option (CacheElement K V)) := do
  let (cache, o) ← perform t.1 call
  .ok ((cache, gets t.2 call), o)

/-- Each key has its descriptor once, in the list it names, and each list holds the descriptors
of its kind which the map has. Nothing has been thrown, and every get has been counted once. -/
structure Consistent (t : ARCMemoryCache K V × ℕ) : Prop where
  filed : ∀ key r, t.1.map.lookup key = some r → ∃ d, t.1.descriptors.lookup r = some d ∧
    d.key = key ∧ ∀ n, (t.1.lists n).count r = if n = d.listNum then 1 else 0
  held : ∀ n r, r ∈ t.1.lists n → ∃ d, t.1.descriptors.lookup r = some d ∧
    t.1.map.lookup d.key = some r ∧ (d.ce.isSome ↔ n = T1 ∨ n = T2)
  target : 0 ≤ t.1.target_T1 ∧ t.1.target_T1 ≤ t.1.maxSize.val
  quiet : t.1.errors = []
  counts : t.1.hitCnt + t.1.missCnt = t.2

/-- Where the key is in `B1`, the sum for the target does not overflow. -/
def KeepsTarget (s : ARCMemoryCache K V) (key : K) : Prop :=
  ∀ r ∈ s.map.lookup key, r ∈ s.lists B1 →
    0 ≤ int32 (s.target_T1 + max ((s.size B2).tdiv (s.size B1)) 1)

/-- The key is in one of the lists of elements. -/
def IsHit (s : ARCMemoryCache K V) (key : K) : Prop :=
  ∃ r ∈ s.map.lookup key, r ∈ s.lists T1 ∨ r ∈ s.lists T2

/-- An access keeps the target, and a get the counter it advances, in the range of an `int`. -/
def StaysInRange (t : ARCMemoryCache K V × ℕ) : MemoryCall K V → Prop
  | .update ce => KeepsTarget t.1 ce.key
  | .get key => KeepsTarget t.1 key ∧ (IsHit t.1 key → t.1.hitCnt < 2147483647) ∧
      (¬IsHit t.1 key → t.1.missCnt < 2147483647)
  | .remove _ => True
  | .removeAll => True

/-- What a run keeps as long as its calls stay in range. -/
structure Sound (t : ARCMemoryCache K V × ℕ) : Prop where
  coherent : Coherent t.1
  target : 0 ≤ t.1.target_T1 ∧ t.1.target_T1 ≤ t.1.maxSize.val
  quiet : t.1.errors = []
  hits : IsInt t.1.hitCnt
  misses : IsInt t.1.missCnt
  counts : t.1.hitCnt + t.1.missCnt = t.2

variable {s s' : ARCMemoryCache K V} {ce : CacheElement K V} {key : K} {r : Ref}
  {o : Option (CacheElement K V)}

theorem Sound.consistent {t : ARCMemoryCache K V × ℕ} (h : Sound t) : Consistent t where
  filed key r hr := by
    obtain ⟨d, hd, hkey, hlist⟩ := h.coherent.found hr
    refine ⟨d, hd, hkey, fun n => ?_⟩
    split
    · next hn =>
      rw [hn]
      exact List.count_eq_one_of_mem (h.coherent.linked.nodup _) hlist
    · next hn =>
      exact List.count_eq_zero.mpr fun hmem => hn (h.coherent.linked.same_list hmem hlist)
  held n r hr := by
    obtain ⟨d, hd, rfl, hmap, hwf⟩ := h.coherent.linked.held n r hr
    exact ⟨d, hd, hmap, hwf.resident⟩
  target := h.target
  quiet := h.quiet
  counts := h.counts

/-! ## The target -/

theorem raised_nonneg_iff (h : Coherent s) :
    0 ≤ s.raised ↔ 0 ≤ int32 (s.target_T1 + max ((s.size B2).tdiv (s.size B1)) 1) := by
  have hpositive := h.positive
  rw [raised]
  omega

omit [DecidableEq K] in
theorem raised_le (s : ARCMemoryCache K V) : s.raised ≤ s.maxSize.val := min_le_right _ _

omit [DecidableEq K] in
theorem lowered_nonneg (s : ARCMemoryCache K V) : 0 ≤ s.lowered := le_max_right _ _

/-- Lowering the target does not overflow. -/
theorem lowered_le (h : Coherent s) (htarget : 0 ≤ s.target_T1 ∧ s.target_T1 ≤ s.maxSize.val) :
    s.lowered ≤ s.maxSize.val := by
  have hB1 := size_nonneg B1 s
  have hT1 := size_nonneg T1 s
  have hfits := h.fits
  have hmax := s.maxSize.property.2
  have hratio : (s.size B1).tdiv (s.size B2) ≤ s.size B1 := Int.tdiv_le_self _ hB1
  have hratio' : 0 ≤ (s.size B1).tdiv (s.size B2) := Int.tdiv_nonneg hB1 (size_nonneg B2 s)
  rw [lowered, int32_of_isInt ⟨by omega, by omega⟩]
  omega

theorem keepsTarget_of_found {n : ListNum} (h : Coherent s) (hmap : s.map.lookup key = some r)
    (hr : r ∈ s.lists n) (hn : n ≠ B1) : KeepsTarget s key := by
  intro r' hr' hB1
  cases hmap.symm.trans hr'
  exact absurd (h.linked.same_list hr hB1) hn

theorem keepsTarget_of_absent (hmap : s.map.lookup key = none) : KeepsTarget s key := by
  intro r hr
  rw [hmap] at hr
  cases hr

theorem keepsTarget_iff (h : Coherent s) (hmap : s.map.lookup key = some r)
    (hr : r ∈ s.lists B1) : KeepsTarget s key ↔ 0 ≤ s.raised := by
  rw [raised_nonneg_iff h]
  constructor
  · exact fun hkeeps => hkeeps r hmap hr
  · exact fun hraised _ _ _ => hraised

theorem Updated.target (hupdated : Updated ce s s') (h : Coherent s)
    (htarget : 0 ≤ s.target_T1 ∧ s.target_T1 ≤ s.maxSize.val) :
    s'.target_T1 ≤ s.maxSize.val ∧ (0 ≤ s'.target_T1 ↔ KeepsTarget s ce.key) := by
  cases hupdated with
  | top hn hmap hr hd =>
    refine ⟨htarget.2, iff_of_true htarget.1 (keepsTarget_of_found h hmap hr ?_)⟩
    rintro rfl
    rcases hn with hn | hn
    · cases hn
    · cases hn
  | @fromB1 r s₁ hmap hr hreplaced =>
    have hraised : s₁.target_T1 = s.raised := hreplaced.target_T1
    show s₁.target_T1 ≤ _ ∧ (0 ≤ s₁.target_T1 ↔ _)
    rw [hraised, keepsTarget_iff h hmap hr]
    exact ⟨raised_le s, Iff.rfl⟩
  | @fromB2 r s₁ s₂ hmap hr hreplaced hagain =>
    have hlowered : s'.target_T1 = s.lowered := hagain.target_T1.trans hreplaced.target_T1
    rw [hlowered]
    exact ⟨lowered_le h htarget,
      iff_of_true (lowered_nonneg s) (keepsTarget_of_found h hmap hr (by decide))⟩
  | @new s₁ hmap hchecked =>
    have hsame : s₁.target_T1 = s.target_T1 := by rw [hchecked.rest]
    show s₁.target_T1 ≤ _ ∧ (0 ≤ s₁.target_T1 ↔ _)
    rw [hsame]
    exact ⟨htarget.2, iff_of_true htarget.1 (keepsTarget_of_absent hmap)⟩

theorem Got.target (hgot : Got key s s' o) (h : Coherent s)
    (htarget : 0 ≤ s.target_T1 ∧ s.target_T1 ≤ s.maxSize.val) :
    s'.target_T1 ≤ s.maxSize.val ∧ (0 ≤ s'.target_T1 ↔ KeepsTarget s key) := by
  cases hgot with
  | top hn hmap hr hd =>
    refine ⟨htarget.2, iff_of_true htarget.1 (keepsTarget_of_found h hmap hr ?_)⟩
    rintro rfl
    rcases hn with hn | hn
    · cases hn
    · cases hn
  | fromB1 hmap hr => exact ⟨raised_le s, (keepsTarget_iff h hmap hr).symm⟩
  | fromB2 hmap hr =>
    exact ⟨lowered_le h htarget,
      iff_of_true (lowered_nonneg s) (keepsTarget_of_found h hmap hr (by decide))⟩
  | absent hmap => exact ⟨htarget.2, iff_of_true htarget.1 (keepsTarget_of_absent hmap)⟩

/-! ## The counters -/

/-- An update counts neither as a hit nor as a miss. -/
theorem Updated.rest (hupdated : Updated ce s s') : s' =
    { s with
      lists := s'.lists, descriptors := s'.descriptors, map := s'.map, next := s'.next,
      target_T1 := s'.target_T1 } := by
  cases hupdated with
  | top hn hmap hr hd => rfl
  | fromB1 hmap hr hreplaced => rw [hreplaced.rest]; rfl
  | fromB2 hmap hr hreplaced hagain => rw [hagain.rest, hreplaced.rest]; rfl
  | new hmap hchecked => rw [hchecked.rest]; rfl

theorem not_isHit {n : ListNum} (h : Coherent s) (hmap : s.map.lookup key = some r)
    (hr : r ∈ s.lists n) (hn : ¬(n = T1 ∨ n = T2)) : ¬IsHit s key := by
  rintro ⟨r', hr', htop⟩
  cases hmap.symm.trans hr'
  exact hn (htop.imp (h.linked.same_list hr) (h.linked.same_list hr))

/-- A counter that is advanced stays exact just below the largest `int`. -/
theorem int32_add_one_iff {n : ℤ} (h : IsInt n) : int32 (n + 1) = n + 1 ↔ n < 2147483647 := by
  have hlow := h.1
  have hhigh := (isInt_int32 (n + 1)).2
  constructor
  · intro heq
    omega
  · intro hlt
    exact int32_of_isInt ⟨by omega, by omega⟩

theorem Got.rest (hgot : Got key s s' o) : s'.errors = s.errors ∧ s'.maxSize = s.maxSize := by
  cases hgot with
  | top hn hmap hr hd => exact ⟨rfl, rfl⟩
  | fromB1 hmap hr => exact ⟨rfl, rfl⟩
  | fromB2 hmap hr => exact ⟨rfl, rfl⟩
  | absent hmap => exact ⟨rfl, rfl⟩

/-- A get counts either as a hit or as a miss. -/
theorem Got.counters (hgot : Got key s s' o) (h : Coherent s) (hhits : IsInt s.hitCnt) :
    IsHit s key ∧ s'.hitCnt = int32 (s.hitCnt + 1) ∧ s'.missCnt = s.missCnt ∨
      ¬IsHit s key ∧ s'.hitCnt = s.hitCnt ∧ s'.missCnt = int32 (s.missCnt + 1) := by
  have hback : int32 (int32 (s.hitCnt + 1) - 1) = s.hitCnt := by
    rw [sub_eq_add_neg, int32_int32_add, add_neg_cancel_right, int32_of_isInt hhits]
  cases hgot with
  | top hn hmap hr hd =>
    refine .inl ⟨⟨_, hmap, ?_⟩, rfl, rfl⟩
    rcases hn with rfl | rfl
    · exact .inl hr
    · exact .inr hr
  | fromB1 hmap hr => exact .inr ⟨not_isHit h hmap hr (by decide), hback, rfl⟩
  | fromB2 hmap hr => exact .inr ⟨not_isHit h hmap hr (by decide), hback, rfl⟩
  | absent hmap =>
    refine .inr ⟨?_, rfl, rfl⟩
    rintro ⟨r, hr, -⟩
    cases hmap.symm.trans hr

theorem Got.counts (hgot : Got key s s' o) (h : Coherent s) (hhits : IsInt s.hitCnt)
    (hmisses : IsInt s.missCnt) : IsInt s'.hitCnt ∧ IsInt s'.missCnt ∧
      (s'.hitCnt + s'.missCnt = s.hitCnt + s.missCnt + 1 ↔
        (IsHit s key → s.hitCnt < 2147483647) ∧ (¬IsHit s key → s.missCnt < 2147483647)) := by
  rcases hgot.counters h hhits with ⟨hhit, hhits', hmisses'⟩ | ⟨hmiss, hhits', hmisses'⟩
  · rw [hhits', hmisses', ← int32_add_one_iff hhits]
    refine ⟨isInt_int32 _, hmisses, ?_⟩
    constructor
    · intro hsum
      exact ⟨fun _ => by omega, fun hmiss => absurd hhit hmiss⟩
    · rintro ⟨hlt, -⟩
      rw [hlt hhit]
      omega
  · rw [hhits', hmisses', ← int32_add_one_iff hmisses]
    refine ⟨hhits, isInt_int32 _, ?_⟩
    constructor
    · intro hsum
      exact ⟨fun hhit => absurd hhit hmiss, fun _ => by omega⟩
    · rintro ⟨-, hlt⟩
      rw [hlt hmiss]
      omega

/-! ## Runs -/

/-- From a sound state, a call leads to a sound one just if it stays in range. -/
theorem Sound.perform {t : ARCMemoryCache K V × ℕ} (h : Sound t) {call : MemoryCall K V}
    (hperformed : Performed t.1 call s' o) :
    (StaysInRange t call → Sound (s', gets t.2 call)) ∧
      (Consistent (s', gets t.2 call) → StaysInRange t call) := by
  have hcoherent := hperformed.coherent h.coherent
  cases hperformed with
  | update hupdated =>
    obtain ⟨hmax, hnonneg⟩ := hupdated.target (h.coherent.counted false) h.target
    have hsize : s'.maxSize = t.1.maxSize := by
      rw [hupdated.rest]
      rfl
    have hquiet : s'.errors = [] := by
      rw [hupdated.rest]
      exact h.quiet
    have hhits : s'.hitCnt = t.1.hitCnt := by
      rw [hupdated.rest]
      rfl
    have hmisses : s'.missCnt = t.1.missCnt := by
      rw [hupdated.rest]
      rfl
    constructor
    · intro hkeeps
      refine ⟨hcoherent, ⟨hnonneg.mpr hkeeps, ?_⟩, hquiet, ?_, ?_, ?_⟩
      · rw [hsize]
        exact hmax
      · rw [hhits]
        exact h.hits
      · rw [hmisses]
        exact h.misses
      · rw [hhits, hmisses]
        exact h.counts
    · exact fun hconsistent => hnonneg.mp hconsistent.target.1
  | get hgot =>
    have hcounted := h.coherent.counted true
    obtain ⟨hmax, hnonneg⟩ := hgot.target hcounted h.target
    obtain ⟨herrors, hsize⟩ := hgot.rest
    obtain ⟨hhits, hmisses, hcounts⟩ := hgot.counts hcounted h.hits h.misses
    have hbefore : (t.1.counted true).hitCnt + (t.1.counted true).missCnt = t.2 := h.counts
    rw [hbefore, ← Int.natCast_succ] at hcounts
    constructor
    · rintro ⟨hkeeps, hrange⟩
      refine ⟨hcoherent, ⟨hnonneg.mpr hkeeps, ?_⟩, herrors.trans h.quiet, hhits, hmisses,
        hcounts.mpr hrange⟩
      rw [hsize]
      exact hmax
    · intro hconsistent
      exact ⟨hnonneg.mp hconsistent.target.1, hcounts.mp hconsistent.counts⟩
  | remove hremoved =>
    refine ⟨fun _ => ?_, fun _ => trivial⟩
    cases hremoved with
    | held hmap hd hkey hr =>
      exact ⟨hcoherent, h.target, h.quiet, h.hits, h.misses, h.counts⟩
    | absent hmap => exact h
  | removeAll =>
    refine ⟨fun _ => ?_, fun _ => trivial⟩
    exact ⟨hcoherent, h.target, h.quiet, h.hits, h.misses, h.counts⟩

theorem sound_initialized {maxObjects : JavaInt} (h : 1 ≤ maxObjects.val) :
    Sound ((initialized maxObjects : ARCMemoryCache K V), 0) where
  coherent := coherent_initialized h
  target := ⟨Int.tdiv_nonneg (zero_le_one.trans h) (by decide),
    Int.tdiv_le_self _ (zero_le_one.trans h)⟩
  quiet := rfl
  hits := (by decide : IsInt 0)
  misses := (by decide : IsInt 0)
  counts := rfl

theorem counting_ok {t t' : ARCMemoryCache K V × ℕ} {call : MemoryCall K V}
    (hok : counting t call = .ok (t', o)) :
    perform t.1 call = .ok (t'.1, o) ∧ t'.2 = gets t.2 call := by
  obtain ⟨⟨cache, o'⟩, hperform, ht'⟩ := Java.bind_eq_ok.mp hok
  cases ht'
  exact ⟨hperform, rfl⟩

/-- The map and the lists agree, nothing throws, the target is in its bounds and every get is
counted after every call exactly when the sums for the target and the counters stay in range. -/
theorem consistent_iff_staysInRange {maxObjects : JavaInt} (h : 1 ≤ maxObjects.val)
    (calls : List (MemoryCall K V)) :
    Throughout counting Consistent (initialized maxObjects, 0) calls ↔
      Admitted counting StaysInRange (initialized maxObjects, 0) calls := by
  refine throughout_iff_admitted (fun t h => h.consistent) ?_ ?_ (sound_initialized h)
  · intro t call h hrange
    obtain ⟨s', o, hok, hperformed⟩ := perform_cases h.coherent call
    refine ⟨(s', gets t.2 call), o, ?_, (h.perform hperformed).1 hrange⟩
    rw [counting, hok]
    rfl
  · rintro t call ⟨s', count⟩ o h hok hconsistent
    obtain ⟨hperform, rfl⟩ := counting_ok hok
    exact (h.perform (performed h.coherent hperform)).2 hconsistent

instance (s : ARCMemoryCache K V) (key : K) : Decidable (KeepsTarget s key) :=
  inferInstanceAs (Decidable (∀ r ∈ s.map.lookup key, _))

instance (s : ARCMemoryCache K V) (key : K) : Decidable (IsHit s key) :=
  inferInstanceAs (Decidable (∃ r ∈ s.map.lookup key, _))

instance (t : ARCMemoryCache K V × ℕ) : (call : MemoryCall K V) → Decidable (StaysInRange t call)
  | .update ce => inferInstanceAs (Decidable (KeepsTarget t.1 ce.key))
  | .get key => inferInstanceAs (Decidable (KeepsTarget t.1 key ∧ _ ∧ _))
  | .remove _ => .isTrue trivial
  | .removeAll => .isTrue trivial

/-- A hit and a miss, and a key in `B1` which is got and then updated. -/
theorem consistent_twoElements :
    Throughout counting Consistent ((initialized 2 : ARCMemoryCache ℕ ℕ), 0)
      [.update ⟨1, some 10⟩, .get 1, .update ⟨2, some 20⟩, .update ⟨3, some 30⟩, .get 4,
        .update ⟨4, some 40⟩, .get 3, .update ⟨3, some 31⟩, .remove 4, .removeAll, .get 3] :=
  (consistent_iff_staysInRange (by decide) _).mpr (by decide)

/-- Gets of a key which is not in the cache advance the counter of misses. -/
theorem missCnt_of_throughout {t : ARCMemoryCache K V × ℕ} {count : ℕ} (h : Coherent t.1)
    (hmisses : IsInt t.1.missCnt) (hmap : t.1.map.lookup key = none)
    (hthrough : Throughout counting Consistent t (List.replicate count (.get key))) :
    t.1.missCnt + count ≤ 2147483647 := by
  induction count generalizing t with
  | zero =>
    rw [Int.natCast_zero, add_zero]
    exact hmisses.2
  | succ count ih =>
    obtain ⟨hconsistent, ⟨s', gets'⟩, o, hok, hrest⟩ := hthrough
    obtain ⟨hperform, rfl⟩ := counting_ok hok
    have hperformed := performed h hperform
    have hcoherent := hperformed.coherent h
    have hbefore := hconsistent.counts
    have hafter := hrest.head.counts
    have hmiss : s' = (t.1.counted true).missed := by
      cases hperformed with
      | get hgot =>
        cases hgot with
        | top hn hmap' hr hd => cases hmap.symm.trans hmap'
        | fromB1 hmap' hr => cases hmap.symm.trans hmap'
        | fromB2 hmap' hr => cases hmap.symm.trans hmap'
        | absent hmap' => rfl
    subst hmiss
    have hlast := ih hcoherent (isInt_int32 _) hmap hrest
    have hsum : t.1.hitCnt + int32 (t.1.missCnt + 1) = ((t.2 + 1 : ℕ) : ℤ) := hafter
    have hnext : int32 (t.1.missCnt + 1) + count ≤ 2147483647 := hlast
    rw [Int.natCast_succ] at hsum ⊢
    omega

/-- A key which is never updated is got until the counter of misses overflows. -/
theorem not_consistent_missed :
    ¬∀ calls : List (MemoryCall ℕ ℕ), Throughout counting Consistent (initialized 1, 0) calls := by
  intro h
  have hbound := missCnt_of_throughout (coherent_initialized (by decide)) (by decide : IsInt 0) rfl
    (h (List.replicate 2147483648 (.get 1)))
  have hstart : (initialized 1 : ARCMemoryCache ℕ ℕ).missCnt = 0 := rfl
  rw [hstart] at hbound
  omega

end ARCMemoryCache

end CachePolicies
