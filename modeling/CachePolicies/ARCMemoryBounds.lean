import CachePolicies.ARCMemoryAccesses
import CachePolicies.PartialRuns

/-!
# The bounds of an adaptive replacement memory cache

A replacement frees a place when `T1` has reached its target or the residents exceed the
size, so a cache which is just full and whose `T1` is short of its target takes in one element
too many. As long as that does not happen, `B2` stays empty and the documented bounds hold.
-/

namespace CachePolicies

namespace ARCMemoryCache

open ListNum

variable {K V : Type}

/-- The bounds on the lists which the documentation of `ARC` states. -/
structure Bounded (s : ARCMemoryCache K V) : Prop where
  recent : s.size T1 ≤ s.maxSize.val
  resident : s.size T1 + s.size T2 ≤ s.maxSize.val
  total : s.size T1 + s.size T2 + s.size B1 + s.size B2 ≤ 2 * s.maxSize.val

variable [DecidableEq K]

/-- An update which stores an element that was not resident finds a free place, or frees one:
`T1` has reached its target, which a hit in `B1` raises first, and a replacement takes place. -/
def FreesPlace (s : ARCMemoryCache K V) : MemoryCall K V → Prop
  | .update ce =>
    (s.map.lookup ce.key = none → s.size T1 + s.size T2 < s.maxSize.val ∨
      max 1 s.target_T1 ≤ s.size T1 ∧
        (s.maxSize.val ≤ s.size T1 + s.size B1 ∨ s.maxSize.val ≤ s.totalSize)) ∧
    ∀ r ∈ s.map.lookup ce.key, r ∈ s.lists B1 → s.size T1 + s.size T2 < s.maxSize.val ∨
      max 1 (int32 (s.target_T1 + 1)) ≤ s.size T1
  | .get _ => True
  | .remove _ => True
  | .removeAll => True

instance (s : ARCMemoryCache K V) : (call : MemoryCall K V) → Decidable (FreesPlace s call)
  | .update _ => inferInstanceAs (Decidable (_ ∧ ∀ r ∈ _, _))
  | .get _ => .isTrue trivial
  | .remove _ => .isTrue trivial
  | .removeAll => .isTrue trivial

/-- The residents fit into the cache, and none has been pushed out of `T2`. -/
structure Fitting (s : ARCMemoryCache K V) : Prop where
  coherent : Coherent s
  resident : s.size T1 + s.size T2 ≤ s.maxSize.val
  noneInB2 : s.size B2 = 0
  target : s.target_T1 ≤ s.maxSize.val

variable {s s' : ARCMemoryCache K V} {n : ListNum} {r : Ref} {d : ElementDescriptor K V}
  {ce : CacheElement K V} {key : K}

namespace Fitting

theorem counted (h : Fitting s) (isGet : Bool) : Fitting (s.counted isGet) :=
  ⟨h.coherent.counted isGet, h.resident, h.noneInB2, h.target⟩

theorem bounded (h : Fitting s) : Bounded s := by
  have hresident := h.resident
  have hfits := h.coherent.fits
  have hnone := h.noneInB2
  have hT1 := size_nonneg T1 s
  have hT2 := size_nonneg T2 s
  constructor <;> omega

theorem notMem_B2 (h : Fitting s) : r ∉ s.lists B2 := by
  intro hr
  exact (size_pos hr).ne' h.noneInB2

end Fitting

omit [DecidableEq K] in
/-- Where the residents fit, a replacement can only push an element out of `T1`. -/
theorem Replaced.sizes (hreplaced : Replaced s s')
    (hresident : s.size T1 + s.size T2 ≤ s.maxSize.val) :
    s'.size B2 = s.size B2 ∧
      (max 1 s.target_T1 ≤ s.size T1 ∧ s'.size T1 + s'.size T2 + 1 = s.size T1 + s.size T2 ∨
        s.size T1 < max 1 s.target_T1 ∧ s'.size T1 + s'.size T2 = s.size T1 + s.size T2) := by
  cases hreplaced with
  | fromT1 hbig hr hd =>
    refine ⟨?_, .inl ⟨hbig, ?_⟩⟩
    · rw [size_moved hr]
      simp
    · rw [size_moved hr, size_moved hr]
      simp
      omega
  | fromT2 hfull hr hd =>
    have hT1 := size_nonneg T1 s
    have hT2 := size_nonneg T2 s
    have hmax := s.maxSize.property
    rw [int32_of_isInt ⟨by omega, by have := hmax.2; omega⟩] at hfull
    omega
  | kept hsmall => exact ⟨rfl, .inr ⟨hsmall, rfl⟩⟩

/-- A hit in `B1` raises the target by one while `B2` is empty. -/
theorem Fitting.raised (h : Fitting s) :
    s.raised = min (int32 (s.target_T1 + 1)) s.maxSize.val := by
  rw [ARCMemoryCache.raised, h.noneInB2, Int.zero_tdiv]
  rfl

/-- After an update of a key in `B1` the residents fit just if there was a place, or
one has been freed. -/
theorem Fitting.fromB1 (h : Fitting s) (hr : r ∈ s.lists B1)
    (hreplaced : Replaced ((s.retargeted s.raised).detached B1 r) s') :
    s'.size B2 = 0 ∧ (s'.size T1 + s'.size T2 < s.maxSize.val ↔
      s.size T1 + s.size T2 < s.maxSize.val ∨ max 1 (int32 (s.target_T1 + 1)) ≤ s.size T1) := by
  have hsize {m : ListNum} (hm : m ≠ B1) :
      ((s.retargeted s.raised).detached B1 r).size m = s.size m := by
    rw [size_detached (s := s.retargeted s.raised) hr, if_neg hm, sub_zero]
    rfl
  have hT1 := hsize (show T1 ≠ B1 by decide)
  have hT2 := hsize (show T2 ≠ B1 by decide)
  have hB2 := hsize (show B2 ≠ B1 by decide)
  have hresident := h.resident
  have hfits := h.coherent.fits
  have hB1 := size_pos hr
  obtain ⟨hnone, hplaces⟩ := hreplaced.sizes (by
    rw [hT1, hT2]
    exact hresident)
  have htarget : ((s.retargeted s.raised).detached B1 r).target_T1 = s.raised := rfl
  rw [hT1, hT2, htarget, h.raised] at hplaces
  refine ⟨hnone.trans (hB2.trans h.noneInB2), ?_⟩
  omega

/-- After the size checks there is a place just if there was one, or one has been freed. -/
theorem Fitting.checked (h : Fitting s) (hchecked : Checked s s') :
    s'.size B2 = 0 ∧ (s'.size T1 + s'.size T2 < s.maxSize.val ↔
      s.size T1 + s.size T2 < s.maxSize.val ∨ max 1 s.target_T1 ≤ s.size T1 ∧
        (s.maxSize.val ≤ s.size T1 + s.size B1 ∨ s.maxSize.val ≤ s.totalSize)) := by
  have hresident := h.resident
  cases hchecked with
  | @fromB1 r d s' hfull hroom hr hd hreplaced =>
    have hsize {m : ListNum} (hm : m ≠ B1) :
        ((s.detached B1 r).untracked d.key).size m = s.size m := by
      have hdetached : ((s.detached B1 r).untracked d.key).size m = _ := size_detached hr
      rw [hdetached, if_neg hm, sub_zero]
    have hT1 := hsize (show T1 ≠ B1 by decide)
    have hT2 := hsize (show T2 ≠ B1 by decide)
    have hB2 := hsize (show B2 ≠ B1 by decide)
    obtain ⟨hnone, hplaces⟩ := hreplaced.sizes (by
      rw [hT1, hT2]
      exact hresident)
    have htarget : ((s.detached B1 r).untracked d.key).target_T1 = s.target_T1 := rfl
    rw [hT1, hT2, htarget] at hplaces
    refine ⟨hnone.trans (hB2.trans h.noneInB2), ?_⟩
    omega
  | @fromT1 r d s' hfull hr hd hreplaced =>
    have hsize (m : ListNum) : ((s.detached T1 r).untracked d.key).size m = _ := size_detached hr
    have hT1 := hsize T1
    have hT2 := hsize T2
    have hB2 := hsize B2
    rw [if_pos rfl] at hT1
    rw [if_neg (by decide), sub_zero] at hT2 hB2
    obtain ⟨hnone, hplaces⟩ := hreplaced.sizes (by
      show _ ≤ s.maxSize.val
      omega)
    rw [hT1, hT2] at hplaces
    have htarget := h.target
    have hpositive := h.coherent.positive
    have hB1 := size_nonneg B1 s
    refine ⟨hnone.trans (hB2.trans h.noneInB2), ?_⟩
    omega
  | fromB2 hroom hfull hr hd hreplaced => exact absurd hr h.notMem_B2
  | full hroom hfull hreplaced =>
    obtain ⟨hnone, hplaces⟩ := hreplaced.sizes hresident
    refine ⟨hnone.trans h.noneInB2, ?_⟩
    omega
  | roomy hroom hfew =>
    refine ⟨h.noneInB2, ?_⟩
    omega

omit [DecidableEq K] in
/-- Moving a descriptor to the front of `T2` leaves the number of residents as it is. -/
theorem residents_moved (hn : n = T1 ∨ n = T2) (hr : r ∈ s.lists n) (hd : d.listNum = T2) :
    (s.moved n r d).size B2 = s.size B2 ∧
      (s.moved n r d).size T1 + (s.moved n r d).size T2 = s.size T1 + s.size T2 := by
  rw [size_moved hr, size_moved hr, size_moved hr, hd]
  rcases hn with rfl | rfl
  · simp
  · simp

omit [DecidableEq K] in
theorem residents_attached (hd : d.listNum = T2) : (s.attached r d).size B2 = s.size B2 ∧
    (s.attached r d).size T1 + (s.attached r d).size T2 = s.size T1 + s.size T2 + 1 := by
  rw [size_attached, size_attached, size_attached, hd]
  simp
  omega

theorem residents_tracked (ce : CacheElement K V) (s : ARCMemoryCache K V) :
    (s.tracked ce).size B2 = s.size B2 ∧
    (s.tracked ce).size T1 + (s.tracked ce).size T2 = s.size T1 + s.size T2 + 1 := by
  rw [size_tracked, size_tracked, size_tracked]
  simp
  omega

/-- An update keeps `B2` empty, and the residents fit after it just if it frees a place. -/
theorem Fitting.update (h : Fitting s) (hupdated : Updated ce s s') :
    s'.size B2 = 0 ∧ s'.target_T1 ≤ s.maxSize.val ∧ s'.maxSize = s.maxSize ∧
      (s'.size T1 + s'.size T2 ≤ s.maxSize.val ↔ FreesPlace s (.update ce)) := by
  have hresident := h.resident
  cases hupdated with
  | @top n r d hn hmap hr hd =>
    obtain ⟨hnone, hsum⟩ := residents_moved (d := { d with listNum := T2 }) hn hr rfl
    refine ⟨hnone.trans h.noneInB2, h.target, rfl, iff_of_true (hsum.trans_le hresident) ?_⟩
    rw [FreesPlace, hmap]
    refine ⟨nofun, fun r' hr' hB1 => ?_⟩
    cases hr'
    rcases hn with rfl | rfl
    · cases h.coherent.linked.same_list hr hB1
    · cases h.coherent.linked.same_list hr hB1
  | @fromB1 r s₁ hmap hr hreplaced =>
    obtain ⟨hnone, hplace⟩ := h.fromB1 hr hreplaced
    obtain ⟨hB2, hsum⟩ := residents_attached (s := s₁) (r := r) (d := ⟨T2, ce.key, some ce⟩) rfl
    refine ⟨hB2.trans hnone, ?_, hreplaced.maxSize, ?_⟩
    · exact hreplaced.target_T1.trans_le (min_le_right _ _)
    · rw [hsum, Int.add_one_le_iff, hplace, FreesPlace, hmap]
      simp [hr]
  | fromB2 hmap hr hreplaced hagain => exact absurd hr h.notMem_B2
  | @new s₁ hmap hchecked =>
    obtain ⟨hnone, hplace⟩ := h.checked hchecked
    obtain ⟨hB2, hsum⟩ := residents_tracked ce s₁
    have htarget : s₁.target_T1 = s.target_T1 := by rw [hchecked.rest]
    refine ⟨hB2.trans hnone, htarget.trans_le h.target, (hchecked.coherent h.coherent).2.2, ?_⟩
    · rw [hsum, Int.add_one_le_iff, hplace, FreesPlace, hmap]
      simp

/-- A get keeps the residents, a hit in `B1` raises the target. -/
theorem Fitting.get (h : Fitting s) {o : Option (CacheElement K V)} (hgot : Got key s s' o) :
    Fitting s' := by
  have hcoherent := hgot.coherent h.coherent
  cases hgot with
  | @top n r d hn hmap hr hd =>
    obtain ⟨hnone, hsum⟩ := residents_moved (s := s.hit) (d := { d with listNum := T2 }) hn hr rfl
    exact ⟨hcoherent, hsum.trans_le h.resident, hnone.trans h.noneInB2, h.target⟩
  | fromB1 hmap hr => exact ⟨hcoherent, h.resident, h.noneInB2, min_le_right _ _⟩
  | fromB2 hmap hr => exact absurd hr h.notMem_B2
  | absent hmap => exact ⟨hcoherent, h.resident, h.noneInB2, h.target⟩

theorem Fitting.remove (h : Fitting s) (hremoved : Removed key s s') : Fitting s' := by
  have hcoherent := hremoved.coherent h.coherent
  cases hremoved with
  | @held r d hmap hd hkey hr =>
    have hsize (m : ListNum) : ((s.detached d.listNum r).untracked key).size m ≤ s.size m := by
      have hdetached : ((s.detached d.listNum r).untracked key).size m = _ := size_detached hr
      rw [hdetached]
      split <;> omega
    have hT1 := hsize T1
    have hT2 := hsize T2
    have hB2 := (hsize B2).trans_eq h.noneInB2
    refine ⟨hcoherent, ?_, le_antisymm hB2 (size_nonneg _ _), h.target⟩
    exact (add_le_add hT1 hT2).trans h.resident
  | absent hmap => exact h

/-- From a fitting cache, a call leads to a fitting one just if it frees the place it needs. -/
theorem Fitting.perform (h : Fitting s) {call : MemoryCall K V} {o : Option (CacheElement K V)}
    (hperformed : Performed s call s' o) :
    (FreesPlace s call → Fitting s') ∧ (Bounded s' → FreesPlace s call) := by
  have hcoherent := hperformed.coherent h.coherent
  cases hperformed with
  | update hupdated =>
    obtain ⟨hnone, htarget, hmax, hplace⟩ := (h.counted false).update hupdated
    have hmax' : s'.maxSize = s.maxSize := hmax
    constructor
    · intro hfrees
      have hfits := hplace.mpr hfrees
      rw [← hmax] at hfits htarget
      exact ⟨hcoherent, hfits, hnone, htarget⟩
    · intro hbounded
      have hresident := hbounded.resident
      rw [hmax'] at hresident
      exact hplace.mp hresident
  | get hgot => exact ⟨fun _ => (h.counted true).get hgot, fun _ => trivial⟩
  | remove hremoved => exact ⟨fun _ => h.remove hremoved, fun _ => trivial⟩
  | removeAll =>
    have hM : 0 ≤ s.maxSize.val := zero_le_one.trans h.coherent.positive
    exact ⟨fun _ => ⟨hcoherent, hM, rfl, h.target⟩, fun _ => trivial⟩

theorem fitting_initialized {maxObjects : JavaInt} (h : 1 ≤ maxObjects.val) :
    Fitting (initialized maxObjects : ARCMemoryCache K V) where
  coherent := coherent_initialized h
  resident := zero_le_one.trans h
  noneInB2 := rfl
  target := Int.tdiv_le_self _ (zero_le_one.trans h)

/-- The documented bounds hold after every call exactly when each update that makes an
element resident finds or frees a place for it. -/
theorem bounded_iff_freesPlace {maxObjects : JavaInt} (h : 1 ≤ maxObjects.val)
    (calls : List (MemoryCall K V)) :
    Throughout perform Bounded (initialized maxObjects) calls ↔
      Admitted perform FreesPlace (initialized maxObjects) calls := by
  refine throughout_iff_admitted (fun s h => h.bounded) ?_ ?_ (fitting_initialized h)
  · intro s call h hfrees
    obtain ⟨s', o, hok, hperformed⟩ := perform_cases h.coherent call
    exact ⟨s', o, hok, (h.perform hperformed).1 hfrees⟩
  · intro s call s' o h hok hbounded
    exact (h.perform (performed h.coherent hok)).2 hbounded

/-- An element pushed out to `B1` comes back once another one has been removed. -/
theorem bounded_twoElements :
    Throughout perform Bounded (initialized 2 : ARCMemoryCache ℕ ℕ)
      [.update ⟨1, some 10⟩, .get 1, .update ⟨2, some 20⟩, .update ⟨3, some 30⟩, .remove 1,
        .update ⟨2, some 21⟩, .get 3, .removeAll, .update ⟨4, some 40⟩] :=
  (bounded_iff_freesPlace (by decide) _).mpr (by decide)

/-- A full cache of one element in `T2` takes in a second one. -/
theorem not_bounded_oneElement :
    ¬∀ calls : List (MemoryCall ℕ ℕ), Throughout perform Bounded (initialized 1) calls := by
  intro h
  obtain ⟨-, s₁, o₁, h₁, -, s₂, o₂, h₂, -, s₃, o₃, h₃, hbounded⟩ :=
    h [.update ⟨1, some 10⟩, .get 1, .update ⟨2, some 20⟩]
  cases h₁
  cases h₂
  cases h₃
  exact absurd hbounded.resident (by decide)

end ARCMemoryCache

end CachePolicies
