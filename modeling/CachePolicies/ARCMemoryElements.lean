import CachePolicies.ARCMemoryAccesses
import CachePolicies.PartialRuns

/-!
# The elements an adaptive replacement memory cache holds

The latest element of every key is noted beside the cache. An update whose key is found in
`T1` or `T2` does not store its element, so the cache keeps to the latest elements exactly as
long as such an update passes the element already held.
-/

namespace CachePolicies

namespace ARCMemoryCache

open ListNum

variable {K V : Type} [DecidableEq K]

/-- The element which the descriptor of a key holds. -/
def heldElement (s : ARCMemoryCache K V) (key : K) : Option (CacheElement K V) := do
  let r ← s.map.lookup key
  let d ← s.descriptors.lookup r
  d.ce

/-- The element of the latest update of each key, after one more call. -/
def latest (updates : HashMap K (CacheElement K V)) : MemoryCall K V → HashMap K (CacheElement K V)
  | .update ce => updates.insert ce.key ce
  | .get _ => updates
  | .remove _ => updates
  | .removeAll => updates

/-- One call, beside which the latest elements are noted. -/
def noting (s : ARCMemoryCache K V × HashMap K (CacheElement K V)) (call : MemoryCall K V) :
    Java ((ARCMemoryCache K V × HashMap K (CacheElement K V)) × Option (CacheElement K V)) := do
  let (cache, o) ← perform s.1 call
  .ok ((cache, latest s.2 call), o)

/-- A get returns the latest element of its key if any, and an update leaves no other element of
its key in the cache. -/
def ReturnsLatest (record : Record (ARCMemoryCache K V × HashMap K (CacheElement K V))
    (MemoryCall K V) (Option (CacheElement K V))) : Prop :=
  match record.call with
  | .update ce => ∀ held ∈ record.after.1.heldElement ce.key, held = ce
  | .get key => ∀ ce ∈ record.output, record.before.2.lookup key = some ce
  | .remove _ => True
  | .removeAll => True

/-- An update of a key whose element is held passes that element. -/
def PassesHeld (s : ARCMemoryCache K V × HashMap K (CacheElement K V)) : MemoryCall K V → Prop
  | .update ce => ∀ held ∈ s.1.heldElement ce.key, held = ce
  | .get _ => True
  | .remove _ => True
  | .removeAll => True

instance [DecidableEq V] (s : ARCMemoryCache K V × HashMap K (CacheElement K V)) :
    (call : MemoryCall K V) → Decidable (PassesHeld s call)
  | .update ce => inferInstanceAs (Decidable (∀ held ∈ s.1.heldElement ce.key, held = ce))
  | .get _ => .isTrue trivial
  | .remove _ => .isTrue trivial
  | .removeAll => .isTrue trivial

/-- Every element held is the latest one of its key. -/
structure HoldsLatest (s : ARCMemoryCache K V × HashMap K (CacheElement K V)) : Prop where
  coherent : Coherent s.1
  latest : ∀ key ce, s.1.heldElement key = some ce → s.2.lookup key = some ce

variable {s s' s₁ : ARCMemoryCache K V} {n : ListNum} {r : Ref} {d : ElementDescriptor K V}
  {ce ce' : CacheElement K V} {key key' : K} {out : Set Ref}

/-! ## Elements after one change -/

theorem heldElement_of (hmap : s.map.lookup key = some r) (hd : s.descriptors.lookup r = some d) :
    s.heldElement key = d.ce := by
  rw [heldElement, hmap, Option.bind_eq_bind, Option.bind_some, hd, Option.bind_eq_bind,
    Option.bind_some]

theorem heldElement_absent (hmap : s.map.lookup key = none) : s.heldElement key = none := by
  rw [heldElement, hmap]
  rfl

theorem Linked.heldElement_attached (h : Linked out s) (hmap : s.map.lookup d.key = some r) :
    (s.attached r d).heldElement key = if key = d.key then d.ce else s.heldElement key := by
  split
  · next hkey =>
    subst hkey
    exact heldElement_of hmap (attached_descriptors.trans (if_pos rfl))
  · next hkey =>
    cases hlookup : s.map.lookup key with
    | none =>
      have hmap' : (s.attached r d).map.lookup key = none := hlookup
      rw [heldElement_absent hmap', heldElement_absent hlookup]
    | some r' =>
      obtain ⟨d', hd', hkey', -⟩ := h.filed key r' hlookup
      have hne : r' ≠ r := by
        rintro rfl
        obtain ⟨d'', hd'', hkey'', -⟩ := h.filed d.key r' hmap
        cases hd'.symm.trans hd''
        exact hkey (hkey'.symm.trans hkey'')
      rw [heldElement_of hlookup hd']
      exact heldElement_of hlookup (attached_descriptors.trans ((if_neg hne).trans hd'))

theorem Linked.heldElement_tracked (h : Linked out s) :
    (s.tracked ce).heldElement key = if key = ce.key then some ce else s.heldElement key := by
  split
  · next hkey =>
    subst hkey
    have hd : (s.tracked ce).descriptors.lookup s.next = some ⟨T1, ce.key, some ce⟩ :=
      Finmap.lookup_insert _
    exact heldElement_of (Finmap.lookup_insert _) hd
  · next hkey =>
    have hmap : (s.tracked ce).map.lookup key = s.map.lookup key :=
      Finmap.lookup_insert_of_ne _ hkey
    cases hlookup : s.map.lookup key with
    | none =>
      rw [heldElement_absent hlookup]
      exact heldElement_absent (hmap.trans hlookup)
    | some r' =>
      obtain ⟨d', hd', -⟩ := h.filed key r' hlookup
      have hne : r' ≠ s.next := (h.fresh r' (Finmap.mem_of_lookup_eq_some hd')).ne
      rw [heldElement_of hlookup hd']
      exact heldElement_of (hmap.trans hlookup) ((Finmap.lookup_insert_of_ne _ hne).trans hd')

/-- Moving a descriptor with its element changes no element. -/
theorem Linked.heldElement_moved (h : Linked out s) (hr : r ∈ s.lists n)
    (hd : s.descriptors.lookup r = some d) :
    (s.moved n r { d with listNum := T2 }).heldElement key = s.heldElement key := by
  have hmap := (h.held_by hr hd).2.1
  have hlinked := h.detach hr
  refine (hlinked.heldElement_attached (d := { d with listNum := T2 }) hmap).trans ?_
  split
  · next hkey =>
    rw [hkey]
    exact (heldElement_of hmap hd).symm
  · rfl

/-- A replacement stores no element. -/
theorem Replaced.heldElement (hreplaced : Replaced s s') (h : Linked out s)
    (hheld : s'.heldElement key = some ce) : s.heldElement key = some ce := by
  cases hlookup : s.map.lookup key with
  | none =>
    rw [heldElement_absent (hreplaced.map.symm ▸ hlookup)] at hheld
    cases hheld
  | some r =>
    obtain ⟨d, hd, -⟩ := h.filed key r hlookup
    obtain ⟨d', hd', -, hkept⟩ := hreplaced.lookup hd
    rw [heldElement_of (hreplaced.map.symm ▸ hlookup) hd'] at hheld
    rw [heldElement_of hlookup hd]
    rcases hkept with rfl | hnone
    · exact hheld
    · rw [hnone] at hheld
      cases hheld

theorem heldElement_untracked (hheld : (s.untracked key').heldElement key = some ce) :
    s.heldElement key = some ce := by
  have hmap : (s.untracked key').map.lookup key = if key = key' then none else s.map.lookup key :=
    HashMap.lookup_erase_eq _ _ _
  split at hmap
  · rw [heldElement_absent hmap] at hheld
    cases hheld
  · rw [← hheld, heldElement, heldElement, hmap]
    rfl

theorem Checked.heldElement (hchecked : Checked s s') (h : Coherent s)
    (hheld : s'.heldElement key = some ce) : s.heldElement key = some ce := by
  cases hchecked with
  | fromB1 hfull hroom hr hd hreplaced =>
    exact heldElement_untracked (hreplaced.heldElement (h.discard hr hd).1 hheld)
  | fromT1 hfull hr hd hreplaced =>
    exact heldElement_untracked (hreplaced.heldElement (h.discard hr hd).1 hheld)
  | fromB2 hroom hfull hr hd hreplaced =>
    exact heldElement_untracked (hreplaced.heldElement (h.discard hr hd).1 hheld)
  | full hroom hfull hreplaced => exact hreplaced.heldElement h.linked hheld
  | roomy hroom hfew => exact hheld

/-! ## Elements after one call -/

/-- The element found after a refill is the one it put there, or was held before. -/
theorem Coherent.heldElement_refilled (h : Coherent s) (hmap : s.map.lookup ce.key = some r)
    (hr : r ∈ s.lists n) (hreplaced : Replaced (s.detached n r) s')
    (hheld : (s'.attached r ⟨T2, ce.key, some ce⟩).heldElement key = some ce') :
    key = ce.key ∧ ce' = ce ∨ s.heldElement key = some ce' := by
  have hlinked := h.linked.detach hr
  have hmap' : s'.map.lookup ce.key = some r := hreplaced.map.symm ▸ hmap
  rw [(hreplaced.linked hlinked).heldElement_attached hmap'] at hheld
  split at hheld
  · next hkey =>
    cases hheld
    exact .inl ⟨hkey, rfl⟩
  · exact .inr (hreplaced.heldElement hlinked hheld)

theorem Updated.heldElement (hupdated : Updated ce s s') (h : Coherent s)
    (hheld : s'.heldElement key = some ce') :
    key = ce.key ∧ ce' = ce ∨ s.heldElement key = some ce' := by
  cases hupdated with
  | top hn hmap hr hd =>
    rw [h.linked.heldElement_moved hr hd] at hheld
    exact .inr hheld
  | fromB1 hmap hr hreplaced =>
    exact (h.retargeted s.raised).heldElement_refilled hmap hr hreplaced hheld
  | fromB2 hmap hr hreplaced hagain =>
    have hcoherent := (h.retargeted s.lowered).refilled hmap hr hreplaced
    exact (h.retargeted s.lowered).heldElement_refilled hmap hr hreplaced
      (hagain.heldElement hcoherent.linked hheld)
  | new hmap hchecked =>
    rw [(hchecked.coherent h).1.heldElement_tracked] at hheld
    split at hheld
    · next hkey =>
      cases hheld
      exact .inl ⟨hkey, rfl⟩
    · exact .inr (hchecked.heldElement h hheld)

/-- A key whose element is held is found in `T1` or `T2`. -/
theorem Coherent.resident (h : Coherent s) (hmap : s.map.lookup key = some r)
    (hr : r ∈ s.lists n) (hheld : s.heldElement key = some ce) : n = T1 ∨ n = T2 := by
  obtain ⟨d, hd, -⟩ := h.found hmap
  obtain ⟨rfl, -, hwf⟩ := h.linked.held_by hr hd
  rw [heldElement_of hmap hd] at hheld
  exact hwf.resident.mp (Option.isSome_of_mem hheld)

/-- An update of a key whose element is held leaves that element there. -/
theorem Updated.heldElement_kept (hupdated : Updated ce s s') (h : Coherent s)
    (hheld : s.heldElement ce.key = some ce') : s'.heldElement ce.key = some ce' := by
  cases hupdated with
  | top hn hmap hr hd =>
    rw [h.linked.heldElement_moved hr hd]
    exact hheld
  | fromB1 hmap hr hreplaced =>
    rcases h.resident hmap hr hheld with hn | hn
    · cases hn
    · cases hn
  | fromB2 hmap hr hreplaced hagain =>
    rcases h.resident hmap hr hheld with hn | hn
    · cases hn
    · cases hn
  | new hmap hchecked =>
    rw [heldElement_absent hmap] at hheld
    cases hheld

/-- A get changes no element, and returns the one it finds. -/
theorem Got.heldElement {o : Option (CacheElement K V)} (hgot : Got key s s' o)
    (h : Coherent s) : (∀ key', s'.heldElement key' = s.heldElement key') ∧
      ∀ ce ∈ o, s.heldElement key = some ce := by
  cases hgot with
  | top hn hmap hr hd =>
    have hhit : Linked ∅ s.hit := h.linked.congr rfl rfl rfl rfl
    refine ⟨fun key' => hhit.heldElement_moved hr hd, fun ce hce => ?_⟩
    rw [heldElement_of hmap hd]
    exact hce
  | fromB1 hmap hr => exact ⟨fun _ => rfl, fun _ hce => nomatch hce⟩
  | fromB2 hmap hr => exact ⟨fun _ => rfl, fun _ hce => nomatch hce⟩
  | absent hmap => exact ⟨fun _ => rfl, fun _ hce => nomatch hce⟩

theorem Removed.heldElement (hremoved : Removed key s s')
    (hheld : s'.heldElement key' = some ce) : s.heldElement key' = some ce := by
  cases hremoved with
  | held hmap hd hkey hr => exact heldElement_untracked hheld
  | absent hmap => exact hheld

/-! ## Runs -/

variable {t t' : ARCMemoryCache K V × HashMap K (CacheElement K V)} {call : MemoryCall K V}
  {o : Option (CacheElement K V)}

theorem noting_ok (hok : noting t call = .ok (t', o)) :
    perform t.1 call = .ok (t'.1, o) ∧ t'.2 = latest t.2 call := by
  obtain ⟨⟨cache, o'⟩, hperform, ht'⟩ := Java.bind_eq_ok.mp hok
  cases ht'
  exact ⟨hperform, rfl⟩

theorem HoldsLatest.noting (h : HoldsLatest t) (hpasses : PassesHeld t call) :
    ∃ t' o, noting t call = .ok (t', o) ∧ HoldsLatest t' ∧ ReturnsLatest ⟨t, call, o, t'⟩ := by
  obtain ⟨s', o, hok, hperformed⟩ := perform_cases h.coherent call
  have hcoherent := hperformed.coherent h.coherent
  refine ⟨(s', ARCMemoryCache.latest t.2 call), o, ?_, ⟨hcoherent, ?_⟩, ?_⟩
  · rw [ARCMemoryCache.noting, hok]
    rfl
  · intro key ce' hheld
    cases hperformed with
    | @update ce s' hupdated =>
      rw [ARCMemoryCache.latest, HashMap.lookup_insert_eq]
      rcases hupdated.heldElement (h.coherent.counted false) hheld with ⟨hkey, rfl⟩ | hbefore
      · rw [if_pos hkey]
      · split
        · next hkey =>
          rw [hkey] at hbefore
          rw [hpasses ce' hbefore]
        · exact h.latest key ce' hbefore
    | get hgot =>
      rw [(hgot.heldElement (h.coherent.counted true)).1] at hheld
      exact h.latest key ce' hheld
    | remove hremoved => exact h.latest key ce' (hremoved.heldElement hheld)
    | removeAll => cases hheld
  · cases hperformed with
    | update hupdated =>
      intro ce' hheld
      rcases hupdated.heldElement (h.coherent.counted false) hheld with ⟨-, hce⟩ | hbefore
      · exact hce
      · exact hpasses ce' hbefore
    | get hgot =>
      exact fun ce hce => h.latest _ ce ((hgot.heldElement (h.coherent.counted true)).2 ce hce)
    | remove hremoved => trivial
    | removeAll => trivial

theorem HoldsLatest.passesHeld (h : HoldsLatest t)
    (hok : ARCMemoryCache.noting t call = .ok (t', o))
    (hreturns : ReturnsLatest ⟨t, call, o, t'⟩) : PassesHeld t call := by
  have hperformed := performed h.coherent (noting_ok hok).1
  obtain ⟨s', updates⟩ := t'
  cases hperformed with
  | update hupdated =>
    intro held hheld
    exact hreturns held (hupdated.heldElement_kept (h.coherent.counted false) hheld)
  | get hgot => trivial
  | remove hremoved => trivial
  | removeAll => trivial

/-- Every get returns the latest element of its key, and no update leaves an older one, exactly
when each update of a key whose element is held passes that element. -/
theorem returnsLatest_iff_passesHeld {maxObjects : JavaInt} (h : 1 ≤ maxObjects.val)
    (calls : List (MemoryCall K V)) :
    Succeeds noting ReturnsLatest (initialized maxObjects, ∅) calls ↔
      Admitted noting PassesHeld (initialized maxObjects, ∅) calls := by
  have hinitial : HoldsLatest (K := K) (V := V) (initialized maxObjects, ∅) :=
    ⟨coherent_initialized h, fun _ _ hheld => nomatch hheld⟩
  exact succeeds_iff_admitted (fun t call h => h.noting)
    (fun t call t' o h hok hreturns => h.passesHeld hok hreturns) hinitial

/-- Two keys in a cache for one element, updated, found, removed and found again. -/
theorem returnsLatest_oneElement :
    Succeeds noting ReturnsLatest (initialized 1, (∅ : HashMap ℕ (CacheElement ℕ ℕ)))
      [.update ⟨1, some 10⟩, .get 1, .update ⟨1, some 10⟩, .update ⟨2, some 20⟩, .get 1,
        .remove 1, .update ⟨1, some 11⟩, .get 1, .removeAll, .update ⟨2, some 21⟩, .get 2] :=
  (returnsLatest_iff_passesHeld (by decide) _).mpr (by decide)

/-- An update of a key in `T1` is lost: the next get returns the element of the first update. -/
theorem not_returnsLatest_updated :
    ¬∀ calls : List (MemoryCall ℕ ℕ),
      Succeeds noting ReturnsLatest (initialized 1, ∅) calls := by
  intro h
  obtain ⟨t₁, o₁, h₁, -, t₂, o₂, h₂, -, t₃, o₃, h₃, hreturns, -⟩ :=
    h [.update ⟨1, some 10⟩, .update ⟨1, some 11⟩, .get 1]
  cases h₁
  cases h₂
  cases h₃
  have hlatest := hreturns ⟨1, some 10⟩ (by decide)
  exact absurd hlatest (by decide)

end ARCMemoryCache

end CachePolicies
