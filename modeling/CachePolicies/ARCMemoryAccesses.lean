import CachePolicies.ARCMemoryReplacements

/-!
# What a call does

From a coherent cache no call throws. `Performed` lists what each of them can do.
-/

namespace CachePolicies

namespace ARCMemoryCache

open ListNum

variable {K V : Type}

/-- The counting of an access. -/
def counted (isGet : Bool) (s : ARCMemoryCache K V) : ARCMemoryCache K V :=
  { s with
    cnt := int32 (s.cnt + 1)
    putCnt := if isGet then s.putCnt else int32 (s.putCnt + 1) }

/-- The target after a hit in `B1`. -/
def raised (s : ARCMemoryCache K V) : ℤ :=
  min (int32 (s.target_T1 + max ((s.size B2).tdiv (s.size B1)) 1)) s.maxSize.val

/-- The target after a hit in `B2`. -/
def lowered (s : ARCMemoryCache K V) : ℤ :=
  max (int32 (s.target_T1 - max ((s.size B1).tdiv (s.size B2)) 1)) 0

def retargeted (target : ℤ) (s : ARCMemoryCache K V) : ARCMemoryCache K V :=
  { s with target_T1 := target }

def hit (s : ARCMemoryCache K V) : ARCMemoryCache K V :=
  { s with hitCnt := int32 (s.hitCnt + 1) }

def missed (s : ARCMemoryCache K V) : ARCMemoryCache K V :=
  { s with missCnt := int32 (s.missCnt + 1) }

/-- A get that finds a key without its element. -/
def hitMissed (s : ARCMemoryCache K V) : ARCMemoryCache K V :=
  { s with
    hitCnt := int32 (int32 (s.hitCnt + 1) - 1)
    missCnt := int32 (s.missCnt + 1) }

variable [DecidableEq K]

/-- The outcomes of the size checks. -/
inductive Checked (s : ARCMemoryCache K V) : ARCMemoryCache K V → Prop
  | fromB1 {r : Ref} {d : ElementDescriptor K V} {s' : ARCMemoryCache K V}
      (hfull : s.maxSize.val ≤ s.size T1 + s.size B1) (hroom : s.size T1 < s.maxSize.val)
      (hr : r ∈ s.lists B1) (hd : s.descriptors.lookup r = some d)
      (hreplaced : Replaced ((s.detached B1 r).untracked d.key) s') : Checked s s'
  | fromT1 {r : Ref} {d : ElementDescriptor K V} {s' : ARCMemoryCache K V}
      (hfull : s.maxSize.val ≤ s.size T1)
      (hr : r ∈ s.lists T1) (hd : s.descriptors.lookup r = some d)
      (hreplaced : Replaced ((s.detached T1 r).untracked d.key) s') : Checked s s'
  | fromB2 {r : Ref} {d : ElementDescriptor K V} {s' : ARCMemoryCache K V}
      (hroom : s.size T1 + s.size B1 < s.maxSize.val) (hfull : s.maxSize.val ≤ s.totalSize)
      (hr : r ∈ s.lists B2) (hd : s.descriptors.lookup r = some d)
      (hreplaced : Replaced ((s.detached B2 r).untracked d.key) s') : Checked s s'
  | full {s' : ARCMemoryCache K V}
      (hroom : s.size T1 + s.size B1 < s.maxSize.val) (hfull : s.maxSize.val ≤ s.totalSize)
      (hreplaced : Replaced s s') : Checked s s'
  | roomy (hroom : s.size T1 + s.size B1 < s.maxSize.val) (hfew : s.totalSize < s.maxSize.val) :
      Checked s s

/-- The outcomes of an update, after its counting. -/
inductive Updated (ce : CacheElement K V) (s : ARCMemoryCache K V) : ARCMemoryCache K V → Prop
  | top {n : ListNum} {r : Ref} {d : ElementDescriptor K V} (hn : n = T1 ∨ n = T2)
      (hmap : s.map.lookup ce.key = some r) (hr : r ∈ s.lists n)
      (hd : s.descriptors.lookup r = some d) :
      Updated ce s (s.moved n r { d with listNum := T2 })
  | fromB1 {r : Ref} {s' : ARCMemoryCache K V} (hmap : s.map.lookup ce.key = some r)
      (hr : r ∈ s.lists B1)
      (hreplaced : Replaced ((s.retargeted s.raised).detached B1 r) s') :
      Updated ce s (s'.attached r ⟨T2, ce.key, some ce⟩)
  | fromB2 {r : Ref} {s' s'' : ARCMemoryCache K V} (hmap : s.map.lookup ce.key = some r)
      (hr : r ∈ s.lists B2)
      (hreplaced : Replaced ((s.retargeted s.lowered).detached B2 r) s')
      (hagain : Replaced (s'.attached r ⟨T2, ce.key, some ce⟩) s'') : Updated ce s s''
  | new {s' : ARCMemoryCache K V} (hmap : s.map.lookup ce.key = none) (hchecked : Checked s s') :
      Updated ce s (s'.tracked ce)

/-- The outcomes of a get, after its counting, with the element it returns. -/
inductive Got (key : K) (s : ARCMemoryCache K V) :
    ARCMemoryCache K V → Option (CacheElement K V) → Prop
  | top {n : ListNum} {r : Ref} {d : ElementDescriptor K V} (hn : n = T1 ∨ n = T2)
      (hmap : s.map.lookup key = some r) (hr : r ∈ s.lists n)
      (hd : s.descriptors.lookup r = some d) :
      Got key s (s.hit.moved n r { d with listNum := T2 }) d.ce
  | fromB1 {r : Ref} (hmap : s.map.lookup key = some r) (hr : r ∈ s.lists B1) :
      Got key s (s.hitMissed.retargeted s.raised) none
  | fromB2 {r : Ref} (hmap : s.map.lookup key = some r) (hr : r ∈ s.lists B2) :
      Got key s (s.hitMissed.retargeted s.lowered) none
  | absent (hmap : s.map.lookup key = none) :
      Got key s s.missed none

/-- The outcomes of a removal. -/
inductive Removed (key : K) (s : ARCMemoryCache K V) : ARCMemoryCache K V → Prop
  | held {r : Ref} {d : ElementDescriptor K V} (hmap : s.map.lookup key = some r)
      (hd : s.descriptors.lookup r = some d) (hkey : d.key = key) (hr : r ∈ s.lists d.listNum) :
      Removed key s ((s.detached d.listNum r).untracked key)
  | absent (hmap : s.map.lookup key = none) : Removed key s s

inductive Performed (s : ARCMemoryCache K V) :
    MemoryCall K V → ARCMemoryCache K V → Option (CacheElement K V) → Prop
  | update {ce : CacheElement K V} {s' : ARCMemoryCache K V}
      (h : Updated ce (s.counted false) s') : Performed s (.update ce) s' none
  | get {key : K} {s' : ARCMemoryCache K V} {o : Option (CacheElement K V)}
      (h : Got key (s.counted true) s' o) : Performed s (.get key) s' o
  | remove {key : K} {s' : ARCMemoryCache K V} (h : Removed key s s') :
      Performed s (.remove key) s' none
  | removeAll : Performed s .removeAll { s with map := ∅, lists := fun _ => [] } none

/-- The links are sound between two calls, and `T1` and `B1` together fit into the size. -/
structure Coherent (s : ARCMemoryCache K V) : Prop where
  linked : Linked ∅ s
  positive : 1 ≤ s.maxSize.val
  fits : s.size T1 + s.size B1 ≤ s.maxSize.val

variable {s s' : ARCMemoryCache K V} {n : ListNum} {r : Ref} {d : ElementDescriptor K V}
  {ce : CacheElement K V} {key : K}

namespace Coherent

theorem counted (h : Coherent s) (isGet : Bool) : Coherent (s.counted isGet) :=
  ⟨h.linked.congr rfl rfl rfl rfl, h.positive, h.fits⟩

theorem retargeted (h : Coherent s) (target : ℤ) : Coherent (s.retargeted target) :=
  ⟨h.linked.congr rfl rfl rfl rfl, h.positive, h.fits⟩

theorem size_T1_le (h : Coherent s) : s.size T1 ≤ s.maxSize.val :=
  (le_add_of_nonneg_right (size_nonneg B1 s)).trans h.fits

/-- A descriptor found in the map is in the list it names. -/
theorem found (h : Coherent s) (hmap : s.map.lookup key = some r) :
    ∃ d, s.descriptors.lookup r = some d ∧ d.key = key ∧ r ∈ s.lists d.listNum := by
  obtain ⟨d, hd, hkey, hout | hr⟩ := h.linked.filed key r hmap
  · cases hout
  · exact ⟨d, hd, hkey, hr⟩

end Coherent

omit [DecidableEq K] in
theorem handleFoundInT1_ok (hd : s.descriptors.lookup r = some d) :
    handleFoundInT1 r s = .ok () (s.moved T1 r { d with listNum := T2 }) := by
  have hd' : (s.detached T1 r).descriptors.lookup r = some d := hd
  rw [handleFoundInT1, bind_ok (unlink_ok T1 r s), bind_ok (assign_ok hd' _)]
  rfl

omit [DecidableEq K] in
theorem handleFoundInT2_ok (hd : s.descriptors.lookup r = some d) :
    handleFoundInT2 r s = .ok () (s.moved T2 r { d with listNum := T2 }) := by
  rw [handleFoundInT2, bind_ok (assign_ok hd _)]
  exact congrArg (EStateM.Result.ok ()) (moved_same_list r { d with listNum := T2 } s).symm

/-- What `replace` asks of the descriptor it is given. -/
theorem outside (hd : s.descriptors.lookup r = some d)
    (hmap : ∀ r' ∈ s.lists T1, s.map.lookup d.key ≠ some r') (o : Ref) (ho : some r = some o) :
    ∃ original, s.descriptors.lookup o = some original ∧
      ∀ r' ∈ s.lists T1, s.map.lookup original.key ≠ some r' := by
  cases ho
  exact ⟨d, hd, hmap⟩

/-- A descriptor leaves a list other than `T1`, there is a replacement, and it enters `T2` with
an element. -/
theorem Coherent.refill (h : Coherent s) (hmap : s.map.lookup ce.key = some r)
    (hr : r ∈ s.lists n) (hn : T1 ≠ n) : ∃ s', Replaced (s.detached n r) s' ∧
      ∀ {β : Type} (rest : PUnit → Method K V β), (do
        unlink n r
        replace (some r)
        assign (some r) fun d => { d with listNum := T2, ce := some ce }
        let u ← addFirst T2 r
        rest u : Method K V β) s = rest () (s'.attached r ⟨T2, ce.key, some ce⟩) := by
  have hlinked := h.linked.detach hr
  obtain ⟨d, hd, hkey, -⟩ := h.found hmap
  have hsize : (s.detached n r).size T1 = s.size T1 := by
    rw [size_detached hr, if_neg hn, sub_zero]
  obtain ⟨s', hreplace, hreplaced⟩ := replace_cases hlinked (hsize.trans_le h.size_T1_le)
    (outside hd fun r' hr' hlookup => by
      rw [hkey] at hlookup
      cases hlookup.symm.trans hmap
      exact hlinked.absent r (Set.mem_insert r ∅) T1 hr')
  obtain ⟨d', hd', hkey', -⟩ := hreplaced.lookup hd
  refine ⟨s', hreplaced, fun rest => ?_⟩
  rw [bind_ok (unlink_ok n r s), bind_ok hreplace, bind_ok (assign_ok hd' _), hkey', hkey]
  rfl

theorem Coherent.refilled (h : Coherent s) (hmap : s.map.lookup ce.key = some r)
    (hr : r ∈ s.lists n) (hreplaced : Replaced (s.detached n r) s') :
    Coherent (s'.attached r ⟨T2, ce.key, some ce⟩) where
  linked := by
    have hlinked := hreplaced.linked (h.linked.detach hr)
    refine hlinked.attach (Set.notMem_empty r) ?_ ⟨iff_of_true rfl (.inr rfl), ?_⟩
    · rw [hreplaced.map]
      exact hmap
    · intro ce' hce'
      cases hce'
      rfl
  positive := by
    show 1 ≤ s'.maxSize.val
    rw [hreplaced.maxSize]
    exact h.positive
  fits := by
    have hsizes := hreplaced.size_T1_B1
    have hfits := h.fits
    rw [size_detached hr, size_detached hr] at hsizes
    show _ ≤ s'.maxSize.val
    rw [hreplaced.maxSize, size_attached, size_attached, if_neg (show T1 ≠ T2 by decide),
      if_neg (show B1 ≠ T2 by decide)]
    show _ ≤ s.maxSize.val
    split at hsizes <;> split at hsizes <;> omega

theorem handleFoundInB1_update (h : Coherent s) (hmap : s.map.lookup ce.key = some r)
    (hr : r ∈ s.lists B1) : ∃ s', Replaced ((s.retargeted s.raised).detached B1 r) s' ∧
      handleFoundInB1 ce false r s = .ok (some r) (s'.attached r ⟨T2, ce.key, some ce⟩) := by
  have hratio : calculate (divide (s.size B2) (s.size B1)) s =
      .ok ((s.size B2).tdiv (s.size B1)) s := by
    rw [divide_of_pos (size_pos hr)]
    rfl
  obtain ⟨s', hreplaced, hrun⟩ := (h.retargeted s.raised).refill hmap hr (by decide)
  refine ⟨s', hreplaced, ?_⟩
  rw [handleFoundInB1, get_bind, bind_ok hratio]
  exact hrun fun _ => pure (some r)

theorem handleFoundInB2_update (h : Coherent s) (hmap : s.map.lookup ce.key = some r)
    (hr : r ∈ s.lists B2) : ∃ s' s'', Replaced ((s.retargeted s.lowered).detached B2 r) s' ∧
      Replaced (s'.attached r ⟨T2, ce.key, some ce⟩) s'' ∧
      handleFoundInB2 ce false r s = .ok (some r) s'' := by
  have hratio : calculate (divide (s.size B1) (s.size B2)) s =
      .ok ((s.size B1).tdiv (s.size B2)) s := by
    rw [divide_of_pos (size_pos hr)]
    rfl
  obtain ⟨s', hreplaced, hrun⟩ := (h.retargeted s.lowered).refill hmap hr (by decide)
  have hcoherent := (h.retargeted s.lowered).refilled hmap hr hreplaced
  have hmap' : (s'.attached r ⟨T2, ce.key, some ce⟩).map.lookup ce.key = some r := by
    show s'.map.lookup ce.key = some r
    rw [hreplaced.map]
    exact hmap
  have hT2 : r ∈ (s'.attached r ⟨T2, ce.key, some ce⟩).lists T2 :=
    mem_attached.mpr (.inl ⟨rfl, rfl⟩)
  obtain ⟨s'', hagain, hreplaced'⟩ := replace_cases hcoherent.linked hcoherent.size_T1_le
    (outside (attached_descriptors.trans (if_pos rfl)) fun r' hr' hlookup => by
      cases hlookup.symm.trans hmap'
      cases hcoherent.linked.same_list hr' hT2)
  refine ⟨s', s'', hreplaced, hreplaced', ?_⟩
  rw [handleFoundInB2, get_bind, bind_ok hratio]
  have hrest := hrun fun _ => do
    replace (some r)
    pure (some r)
  rw [bind_ok hagain] at hrest
  exact hrest

/-! ## The size checks -/

theorem forget_ok (hd : s.descriptors.lookup r = some d) :
    forget (some r) s = .ok () (s.untracked d.key) := by
  rw [forget, if_pos Option.isSome_some, bind_ok (descriptor_ok hd)]
  rfl

/-- A descriptor leaves the cache for good before a replacement. -/
theorem Coherent.discard (h : Coherent s) (hr : r ∈ s.lists n)
    (hd : s.descriptors.lookup r = some d) :
    Linked ∅ ((s.detached n r).untracked d.key) ∧
      ∃ s', replace (some r) ((s.detached n r).untracked d.key) = .ok () s' ∧
        Replaced ((s.detached n r).untracked d.key) s' := by
  have hlinked : Linked ∅ ((s.detached n r).untracked d.key) :=
    (h.linked.detach hr).untrack hd (h.linked.held_by hr hd).2.1
  have hsize : ((s.detached n r).untracked d.key).size T1 ≤ s.maxSize.val := by
    have hT1 : ((s.detached n r).untracked d.key).size T1 = _ := size_detached hr
    have hle := h.size_T1_le
    rw [hT1]
    split <;> omega
  refine ⟨hlinked, replace_cases hlinked hsize (outside (d := d) hd fun r' hr' hlookup => ?_)⟩
  rw [untracked, HashMap.lookup_erase_eq, if_pos rfl] at hlookup
  cases hlookup

theorem checkSizes_cases (h : Coherent s) : ∃ s', checkSizes s = .ok () s' ∧ Checked s s' := by
  have hT1 := size_nonneg T1 s
  have hB1 := size_nonneg B1 s
  have hfits := h.fits
  have hmax := s.maxSize.property
  have hint : int32 (s.size T1 + s.size B1) = s.size T1 + s.size B1 :=
    int32_of_isInt ⟨by omega, hfits.trans hmax.2⟩
  by_cases hfull : s.size T1 + s.size B1 ≥ s.maxSize.val
  · by_cases hroom : s.size T1 < s.maxSize.val
    · obtain ⟨r, hlast⟩ := exists_last (n := B1) (s := s) (by omega)
      have hr := List.mem_of_getLast? hlast
      obtain ⟨d, hd, -⟩ := h.linked.held B1 r hr
      have hd' : (s.detached B1 r).descriptors.lookup r = some d := hd
      obtain ⟨-, s', hreplace, hreplaced⟩ := h.discard hr hd
      refine ⟨s', ?_, .fromB1 hfull hroom hr hd hreplaced⟩
      rw [checkSizes, get_bind, hint, if_pos hfull, if_pos hroom,
        bind_ok (removeLast_ok (h.linked.nodup B1) hlast), bind_ok (forget_ok hd')]
      exact hreplace
    · obtain ⟨r, hlast⟩ := exists_last (n := T1) (s := s) (by have := h.positive; omega)
      have hr := List.mem_of_getLast? hlast
      obtain ⟨d, hd, hn, -, hwf⟩ := h.linked.held T1 r hr
      have hd' : (s.detached T1 r).descriptors.lookup r = some d := hd
      obtain ⟨ce, hce⟩ := Option.isSome_iff_exists.mp (hwf.resident.mpr (.inl hn))
      obtain ⟨-, s', hreplace, hreplaced⟩ := h.discard hr hd
      refine ⟨s', ?_, .fromT1 (not_lt.mp hroom) hr hd hreplaced⟩
      rw [checkSizes, get_bind, hint, if_pos hfull, if_neg hroom,
        bind_ok (removeLast_ok (h.linked.nodup T1) hlast), bind_ok (descriptor_ok hd')]
      dsimp only
      rw [hce]
      dsimp only
      rw [modify_bind, hwf.key ce hce]
      exact hreplace
  · have hroom := not_le.mp hfull
    by_cases hmany : s.totalSize ≥ s.maxSize.val
    · have hnone : ∃ s', replace none s = .ok () s' ∧ Replaced s s' :=
        replace_cases h.linked h.size_T1_le fun o ho => nomatch ho
      obtain ⟨s₀, hreplace₀, hreplaced₀⟩ := hnone
      by_cases htwice : s.totalSize ≥ int32 (2 * s.maxSize.val)
      · rcases hlast : (s.lists B2).getLast? with - | r
        · refine ⟨s₀, ?_, .full hroom hmany hreplaced₀⟩
          rw [checkSizes, get_bind, hint, if_neg hfull, if_pos hmany, if_pos htwice,
            bind_ok (removeLast_empty (List.getLast?_eq_none_iff.mp hlast))]
          exact hreplace₀
        · have hr := List.mem_of_getLast? hlast
          obtain ⟨d, hd, -⟩ := h.linked.held B2 r hr
          have hd' : (s.detached B2 r).descriptors.lookup r = some d := hd
          obtain ⟨-, s', hreplace, hreplaced⟩ := h.discard hr hd
          refine ⟨s', ?_, .fromB2 hroom hmany hr hd hreplaced⟩
          rw [checkSizes, get_bind, hint, if_neg hfull, if_pos hmany, if_pos htwice,
            bind_ok (removeLast_ok (h.linked.nodup B2) hlast), bind_ok (forget_ok hd')]
          exact hreplace
      · refine ⟨s₀, ?_, .full hroom hmany hreplaced₀⟩
        rw [checkSizes, get_bind, hint, if_neg hfull, if_pos hmany, if_neg htwice]
        exact hreplace₀
    · refine ⟨s, ?_, .roomy hroom (not_le.mp hmany)⟩
      rw [checkSizes, get_bind, hint, if_neg hfull, if_neg hmany]
      rfl

/-- After the size checks there is room for one more descriptor in `T1`. -/
theorem Checked.coherent (hchecked : Checked s s') (h : Coherent s) :
    Linked ∅ s' ∧ s'.size T1 + s'.size B1 < s.maxSize.val ∧ s'.maxSize = s.maxSize := by
  have hfits := h.fits
  have hdiscard {r : Ref} {d : ElementDescriptor K V} {n : ListNum} (hr : r ∈ s.lists n)
      (hd : s.descriptors.lookup r = some d)
      (hreplaced : Replaced ((s.detached n r).untracked d.key) s')
      (hsum : (s.detached n r).size T1 + (s.detached n r).size B1 < s.maxSize.val) :
      Linked ∅ s' ∧ s'.size T1 + s'.size B1 < s.maxSize.val ∧ s'.maxSize = s.maxSize :=
    ⟨hreplaced.linked (h.discard hr hd).1, hreplaced.size_T1_B1.trans_lt hsum, hreplaced.maxSize⟩
  cases hchecked with
  | fromB1 hfull hroom hr hd hreplaced =>
    refine hdiscard hr hd hreplaced ?_
    rw [size_detached hr, size_detached hr, if_neg (by decide), if_pos rfl]
    omega
  | fromT1 hfull hr hd hreplaced =>
    refine hdiscard hr hd hreplaced ?_
    rw [size_detached hr, size_detached hr, if_pos rfl, if_neg (by decide)]
    omega
  | fromB2 hroom hfull hr hd hreplaced =>
    refine hdiscard hr hd hreplaced ?_
    rw [size_detached hr, size_detached hr, if_neg (by decide), if_neg (by decide)]
    omega
  | full hroom hfull hreplaced =>
    exact ⟨hreplaced.linked h.linked, hreplaced.size_T1_B1.trans_lt hroom, hreplaced.maxSize⟩
  | roomy hroom hfew => exact ⟨h.linked, hroom, rfl⟩

theorem Checked.rest (hchecked : Checked s s') : s' =
    { s with lists := s'.lists, descriptors := s'.descriptors, map := s'.map } := by
  cases hchecked with
  | fromB1 hfull hroom hr hd hreplaced => rw [hreplaced.rest]; rfl
  | fromT1 hfull hr hd hreplaced => rw [hreplaced.rest]; rfl
  | fromB2 hroom hfull hr hd hreplaced => rw [hreplaced.rest]; rfl
  | full hroom hfull hreplaced => rw [hreplaced.rest]
  | roomy hroom hfew => rfl

/-- The size checks add nothing to the map. -/
theorem Checked.lookup_eq_none (hchecked : Checked s s') (hnone : s.map.lookup key = none) :
    s'.map.lookup key = none := by
  have hdiscard {r : Ref} {d : ElementDescriptor K V} {n : ListNum}
      (hreplaced : Replaced ((s.detached n r).untracked d.key) s') : s'.map.lookup key = none := by
    rw [hreplaced.map, untracked, HashMap.lookup_erase_eq]
    split
    · rfl
    · exact hnone
  cases hchecked with
  | fromB1 hfull hroom hr hd hreplaced => exact hdiscard hreplaced
  | fromT1 hfull hr hd hreplaced => exact hdiscard hreplaced
  | fromB2 hroom hfull hr hd hreplaced => exact hdiscard hreplaced
  | full hroom hfull hreplaced =>
    rw [hreplaced.map]
    exact hnone
  | roomy hroom hfew => exact hnone

/-! ## Whole calls -/

omit [DecidableEq K] in
theorem element_none (s : ARCMemoryCache K V) : element none s = .ok none s := rfl

omit [DecidableEq K] in
theorem element_some (hd : s.descriptors.lookup r = some d) : element (some r) s = .ok d.ce s := by
  rw [element, bind_ok (descriptor_ok hd)]
  rfl

theorem ARC_update (ce : CacheElement K V) (s : ARCMemoryCache K V) :
    ARC ce false s = (match s.map.lookup ce.key with
      | some temp => handleFound ce false temp >>= element
      | none => do
        checkSizes
        element (some (← addNew ce)) : Method K V _) (s.counted false) := rfl

theorem ARC_get (ce : CacheElement K V) (s : ARCMemoryCache K V) :
    ARC ce true s = (match s.map.lookup ce.key with
      | some temp => fun s => (handleFound ce true temp >>= element) s.hit
      | none => fun s => .ok none s.missed : Method K V _) (s.counted true) := rfl

theorem handleFound_top (ce : CacheElement K V) (isGet : Bool)
    (hd : s.descriptors.lookup r = some d) (hn : d.listNum = T1 ∨ d.listNum = T2) :
    handleFound ce isGet r s = .ok (some r) (s.moved d.listNum r { d with listNum := T2 }) := by
  rw [handleFound, bind_ok (descriptor_ok hd)]
  dsimp only
  rcases hn with hn | hn
  · rw [hn]
    dsimp only
    rw [bind_ok (handleFoundInT1_ok hd)]
    rfl
  · rw [hn]
    dsimp only
    rw [bind_ok (handleFoundInT2_ok hd)]
    rfl

/-- A put of a new element, once there is room for it. -/
theorem addNew_ok (ce : CacheElement K V) (s : ARCMemoryCache K V) :
    addNew ce s = .ok s.next (s.tracked ce) := rfl

theorem update_found (hmap : s.map.lookup ce.key = some r)
    (hfound : handleFound ce false r (s.counted false) = .ok (some r) s')
    (hd : s'.descriptors.lookup r = some d) : update ce s = .ok () s' := by
  have hok : ARC ce false s = .ok d.ce s' := by
    rw [ARC_update, hmap]
    dsimp only
    rw [bind_ok hfound]
    exact element_some hd
  exact logging_ok (bind_ok hok)

theorem update_new (hmap : s.map.lookup ce.key = none)
    (hcheck : checkSizes (s.counted false) = .ok () s') : update ce s = .ok () (s'.tracked ce) := by
  have hok : ARC ce false s = .ok (some ce) (s'.tracked ce) := by
    rw [ARC_update, hmap]
    dsimp only
    have hd : (s'.tracked ce).descriptors.lookup s'.next = some ⟨T1, ce.key, some ce⟩ :=
      Finmap.lookup_insert _
    rw [bind_ok hcheck, bind_ok (addNew_ok ce s')]
    exact element_some hd
  exact logging_ok (bind_ok hok)

theorem update_cases (h : Coherent s) (ce : CacheElement K V) :
    ∃ s', update ce s = .ok () s' ∧ Updated ce (s.counted false) s' := by
  have hcounted := h.counted false
  cases hmap : s.map.lookup ce.key with
  | none =>
    obtain ⟨s', hcheck, hchecked⟩ := checkSizes_cases hcounted
    exact ⟨_, update_new hmap hcheck, .new hmap hchecked⟩
  | some r =>
    have hmap' : (s.counted false).map.lookup ce.key = some r := hmap
    obtain ⟨d, hd, -, hr⟩ := hcounted.found hmap'
    cases hn : d.listNum with
    | T1 =>
      have hfound := handleFound_top ce false hd (.inl hn)
      exact ⟨_, update_found hmap hfound (Finmap.lookup_insert _), .top (.inl hn) hmap' hr hd⟩
    | T2 =>
      have hfound := handleFound_top ce false hd (.inr hn)
      exact ⟨_, update_found hmap hfound (Finmap.lookup_insert _), .top (.inr hn) hmap' hr hd⟩
    | B1 =>
      rw [hn] at hr
      obtain ⟨s', hreplaced, hB1⟩ := handleFoundInB1_update hcounted hmap' hr
      refine ⟨_, update_found hmap ?_ (Finmap.lookup_insert _), .fromB1 hmap' hr hreplaced⟩
      rw [handleFound, bind_ok (descriptor_ok hd)]
      dsimp only
      rw [hn]
      exact hB1
    | B2 =>
      rw [hn] at hr
      obtain ⟨s', s'', hreplaced, hagain, hB2⟩ := handleFoundInB2_update hcounted hmap' hr
      obtain ⟨d', hd', -⟩ := hagain.lookup (Finmap.lookup_insert _)
      refine ⟨_, update_found hmap ?_ hd', .fromB2 hmap' hr hreplaced hagain⟩
      rw [handleFound, bind_ok (descriptor_ok hd)]
      dsimp only
      rw [hn]
      exact hB2

theorem handleFoundInB1_get (hr : r ∈ s.lists B1) :
    handleFoundInB1 ce true r s.hit = .ok none (s.hitMissed.retargeted s.raised) := by
  have hratio : calculate (divide (s.hit.size B2) (s.hit.size B1)) s.hit =
      .ok ((s.size B2).tdiv (s.size B1)) s.hit := by
    rw [divide_of_pos (size_pos (s := s.hit) hr)]
    rfl
  rw [handleFoundInB1, get_bind, bind_ok hratio]
  rfl

theorem handleFoundInB2_get (hr : r ∈ s.lists B2) :
    handleFoundInB2 ce true r s.hit = .ok none (s.hitMissed.retargeted s.lowered) := by
  have hratio : calculate (divide (s.hit.size B1) (s.hit.size B2)) s.hit =
      .ok ((s.size B1).tdiv (s.size B2)) s.hit := by
    rw [divide_of_pos (size_pos (s := s.hit) hr)]
    rfl
  rw [handleFoundInB2, get_bind, bind_ok hratio]
  rfl

theorem get_found {key : K} {o : Option (CacheElement K V)} {temp : Option Ref}
    {s₁ : ARCMemoryCache K V} (hmap : s.map.lookup key = some r)
    (hfound : handleFound ⟨key, none⟩ true r (s.counted true).hit = .ok temp s₁)
    (helement : element temp s₁ = .ok o s') : get key s = .ok o s' := by
  have hok : ARC ⟨key, none⟩ true s = .ok o s' := by
    rw [ARC_get, hmap]
    dsimp only
    rw [bind_ok hfound]
    exact helement
  exact logging_ok hok

theorem get_cases (h : Coherent s) (key : K) :
    ∃ s' o, get key s = .ok o s' ∧ Got key (s.counted true) s' o := by
  cases hmap : s.map.lookup key with
  | none =>
    have hok : ARC ⟨key, none⟩ true s = .ok none (s.counted true).missed := by
      rw [ARC_get, hmap]
    exact ⟨_, _, logging_ok hok, .absent hmap⟩
  | some r =>
    have hmap' : (s.counted true).map.lookup key = some r := hmap
    obtain ⟨d, hd, -, hr⟩ := (h.counted true).found hmap'
    have hd' : (s.counted true).hit.descriptors.lookup r = some d := hd
    cases hn : d.listNum with
    | T1 =>
      have hfound := handleFound_top ⟨key, none⟩ true hd' (.inl hn)
      exact ⟨_, _, get_found hmap hfound (element_some (Finmap.lookup_insert _)),
        .top (.inl hn) hmap' hr hd⟩
    | T2 =>
      have hfound := handleFound_top ⟨key, none⟩ true hd' (.inr hn)
      exact ⟨_, _, get_found hmap hfound (element_some (Finmap.lookup_insert _)),
        .top (.inr hn) hmap' hr hd⟩
    | B1 =>
      rw [hn] at hr
      refine ⟨_, _, get_found hmap ?_ (element_none _), .fromB1 hmap' hr⟩
      rw [handleFound, bind_ok (descriptor_ok hd')]
      dsimp only
      rw [hn]
      exact handleFoundInB1_get hr
    | B2 =>
      rw [hn] at hr
      refine ⟨_, _, get_found hmap ?_ (element_none _), .fromB2 hmap' hr⟩
      rw [handleFound, bind_ok (descriptor_ok hd')]
      dsimp only
      rw [hn]
      exact handleFoundInB2_get hr

theorem remove_eq (key : K) (s : ARCMemoryCache K V) :
    remove key s = (if (s.map.lookup key).isSome then do
        let (r, d) ← descriptor (s.map.lookup key)
        unlink d.listNum r
        return true
      else return true : Method K V Bool) (s.untracked key) := rfl

theorem remove_cases (h : Coherent s) (key : K) :
    ∃ s', remove key s = .ok true s' ∧ Removed key s s' := by
  cases hmap : s.map.lookup key with
  | none =>
    have hsame : s.untracked key = s := by
      rw [untracked, HashMap.erase_of_notMem (Finmap.lookup_eq_none.mp hmap)]
    refine ⟨s, ?_, .absent hmap⟩
    rw [remove_eq, hmap, hsame]
    rfl
  | some r =>
    obtain ⟨d, hd, hkey, hr⟩ := h.found hmap
    have hd' : (s.untracked key).descriptors.lookup r = some d := hd
    refine ⟨_, ?_, .held hmap hd hkey hr⟩
    rw [remove_eq, hmap, if_pos Option.isSome_some, bind_ok (descriptor_ok hd')]
    rfl

omit [DecidableEq K] in
theorem run_ok {β : Type} {method : Method K V β} {a : β} (h : method s = .ok a s') :
    run method s = .ok (s', a) := by
  rw [run, h]

/-- No call throws. -/
theorem perform_cases (h : Coherent s) (call : MemoryCall K V) :
    ∃ s' o, perform s call = .ok (s', o) ∧ Performed s call s' o := by
  cases call with
  | update ce =>
    obtain ⟨s', hok, hupdated⟩ := update_cases h ce
    refine ⟨s', none, ?_, .update hupdated⟩
    rw [perform, run_ok hok]
    rfl
  | get key =>
    obtain ⟨s', o, hok, hgot⟩ := get_cases h key
    exact ⟨s', o, run_ok hok, .get hgot⟩
  | remove key =>
    obtain ⟨s', hok, hremoved⟩ := remove_cases h key
    refine ⟨s', none, ?_, .remove hremoved⟩
    rw [perform, run_ok hok]
    rfl
  | removeAll => exact ⟨_, none, rfl, .removeAll⟩

/-- The calls which succeed are the ones listed. -/
theorem performed (h : Coherent s) {call : MemoryCall K V} {o : Option (CacheElement K V)}
    (hok : perform s call = .ok (s', o)) : Performed s call s' o := by
  obtain ⟨s₁, o₁, hok₁, hperformed⟩ := perform_cases h call
  cases hok.symm.trans hok₁
  exact hperformed

/-! ## What every call keeps -/

theorem Coherent.move (h : Coherent s) (hn : n = T1 ∨ n = T2) (hr : r ∈ s.lists n)
    (hd : s.descriptors.lookup r = some d) : Coherent (s.moved n r { d with listNum := T2 }) := by
  obtain ⟨hlist, -, hwf⟩ := h.linked.held_by hr hd
  refine ⟨h.linked.move hr hd rfl ?_, h.positive, ?_⟩
  · rw [← hlist] at hn
    exact .inT2 (hwf.resident.mpr hn) hwf.key
  · have hfits := h.fits
    rw [size_moved hr, size_moved hr, if_neg (show T1 ≠ T2 by decide),
      if_neg (show B1 ≠ T2 by decide)]
    show _ ≤ s.maxSize.val
    split <;> split <;> omega

theorem Updated.coherent (hupdated : Updated ce s s') (h : Coherent s) : Coherent s' := by
  cases hupdated with
  | top hn hmap hr hd => exact h.move hn hr hd
  | fromB1 hmap hr hreplaced => exact (h.retargeted s.raised).refilled hmap hr hreplaced
  | fromB2 hmap hr hreplaced hagain =>
    have hcoherent := (h.retargeted s.lowered).refilled hmap hr hreplaced
    refine ⟨hagain.linked hcoherent.linked, ?_, ?_⟩
    · rw [hagain.maxSize]
      exact hcoherent.positive
    · rw [hagain.size_T1_B1, hagain.maxSize]
      exact hcoherent.fits
  | @new s₁ hmap hchecked =>
    obtain ⟨hlinked, hroom, hmax⟩ := hchecked.coherent h
    refine ⟨hlinked.track (Set.notMem_empty _) ce ?_, ?_, ?_⟩
    · exact hchecked.lookup_eq_none hmap
    · show 1 ≤ s₁.maxSize.val
      rw [hmax]
      exact h.positive
    · show _ ≤ s₁.maxSize.val
      rw [hmax, size_tracked, size_tracked, if_pos rfl, if_neg (by decide)]
      omega

theorem Got.coherent {o : Option (CacheElement K V)} (hgot : Got key s s' o) (h : Coherent s) :
    Coherent s' := by
  cases hgot with
  | top hn hmap hr hd =>
    have hhit : Coherent s.hit := ⟨h.linked.congr rfl rfl rfl rfl, h.positive, h.fits⟩
    exact hhit.move hn hr hd
  | fromB1 hmap hr => exact ⟨h.linked.congr rfl rfl rfl rfl, h.positive, h.fits⟩
  | fromB2 hmap hr => exact ⟨h.linked.congr rfl rfl rfl rfl, h.positive, h.fits⟩
  | absent hmap => exact ⟨h.linked.congr rfl rfl rfl rfl, h.positive, h.fits⟩

theorem Removed.coherent (hremoved : Removed key s s') (h : Coherent s) : Coherent s' := by
  cases hremoved with
  | @held r d hmap hd hkey hr =>
    have hlinked := (h.linked.detach hr).untrack hd (hkey ▸ hmap)
    rw [hkey] at hlinked
    refine ⟨hlinked, h.positive, ?_⟩
    have hfits := h.fits
    have hT1 : ((s.detached d.listNum r).untracked key).size T1 = _ := size_detached hr
    have hB1 : ((s.detached d.listNum r).untracked key).size B1 = _ := size_detached hr
    show _ ≤ s.maxSize.val
    rw [hT1, hB1]
    split <;> split <;> omega
  | absent hmap => exact h

/-- A cache without descriptors in its map and lists is coherent. -/
theorem Coherent.empty (hfresh : ∀ r ∈ s.descriptors, r < s.next) (hpositive : 1 ≤ s.maxSize.val)
    (hmap : s.map = ∅) (hlists : s.lists = fun _ => []) : Coherent s where
  linked := by
    constructor
    · intro n
      rw [hlists]
      exact List.nodup_nil
    · intro n r hr
      rw [hlists] at hr
      cases hr
    · intro k r hr
      rw [hmap] at hr
      cases hr
    · intro r hr
      cases hr
    · exact hfresh
  positive := hpositive
  fits := by
    rw [size, size, hlists]
    exact zero_le_one.trans hpositive

theorem Performed.coherent {call : MemoryCall K V} {o : Option (CacheElement K V)}
    (hperformed : Performed s call s' o) (h : Coherent s) : Coherent s' := by
  cases hperformed with
  | update hupdated => exact hupdated.coherent (h.counted false)
  | get hgot => exact hgot.coherent (h.counted true)
  | remove hremoved => exact hremoved.coherent h
  | removeAll => exact .empty h.linked.fresh h.positive rfl rfl

theorem coherent_initialized {maxObjects : JavaInt} (h : 1 ≤ maxObjects.val) :
    Coherent (initialized maxObjects : ARCMemoryCache K V) :=
  .empty (fun _ hr => absurd hr Finmap.notMem_empty) h rfl rfl

end ARCMemoryCache

end CachePolicies
