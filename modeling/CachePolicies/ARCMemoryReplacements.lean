import CachePolicies.ARCMemoryLinks

/-!
# What a replacement does

`Replaced` lists what `replace` can do to a cache of which `T1` is no longer than its size: the
last descriptor of `T1` or `T2` gives up its element, or nothing happens.
-/

namespace CachePolicies

/-- In a list without repetitions the last element can be removed by its value. -/
theorem dropLast_eq_erase {α : Type} [DecidableEq α] {l : List α} {a : α} (hnodup : l.Nodup)
    (hlast : l.getLast? = some a) : l.dropLast = l.erase a := by
  obtain ⟨front, rfl⟩ := List.getLast?_eq_some_iff.mp hlast
  have hfresh : a ∉ front := by
    intro ha
    exact (List.nodup_append.mp hnodup).2.2 a ha a (List.mem_singleton_self a) rfl
  rw [List.dropLast_concat, List.erase_append_right _ hfresh, List.erase_cons_head, List.append_nil]

namespace ARCMemoryCache

open ListNum

variable {K V : Type} {s s' : ARCMemoryCache K V} {n m : ListNum} {r : Ref}
  {d : ElementDescriptor K V}

/-! ## Running a method -/

theorem bind_ok {β γ : Type} {x : Method K V β} {f : β → Method K V γ} {a : β}
    (h : x s = .ok a s') : (x >>= f) s = f a s' := by
  show EStateM.bind x f s = f a s'
  rw [EStateM.bind, h]

theorem modify_bind {β : Type} (f : ARCMemoryCache K V → ARCMemoryCache K V)
    (g : PUnit → Method K V β) : (modify f >>= g) s = g () (f s) := rfl

theorem get_bind {β : Type} (f : ARCMemoryCache K V → Method K V β) :
    (MonadState.get >>= f) s = f s s := rfl

theorem descriptor_ok (hd : s.descriptors.lookup r = some d) :
    descriptor (some r) s = .ok (r, d) s := by
  rw [descriptor, get_bind, hd]
  rfl

theorem assign_ok (hd : s.descriptors.lookup r = some d)
    (f : ElementDescriptor K V → ElementDescriptor K V) :
    assign (some r) f s = .ok () (s.setDescriptor r (f d)) := by
  rw [assign, bind_ok (descriptor_ok hd)]
  rfl

theorem unlink_ok (n : ListNum) (r : Ref) (s : ARCMemoryCache K V) :
    unlink n r s = .ok () (s.detached n r) := rfl

theorem getLast_ok (hlast : (s.lists n).getLast? = some r) : getLast n s = .ok (some r) s := by
  rw [← hlast]
  rfl

theorem removeLast_ok (hnodup : (s.lists n).Nodup) (hlast : (s.lists n).getLast? = some r) :
    removeLast n s = .ok (some r) (s.detached n r) := by
  rw [detached, ← dropLast_eq_erase hnodup hlast, ← hlast]
  rfl

theorem removeLast_empty (hempty : s.lists n = []) : removeLast n s = .ok none s := by
  have hsame : s.setList n (s.lists n).dropLast = s := by
    rw [setList, hempty, List.dropLast_nil, ← hempty, Function.update_eq_self]
  show EStateM.Result.ok (s.lists n).getLast? (s.setList n (s.lists n).dropLast) = .ok none s
  rw [hsame, hempty]
  rfl

theorem logging_ok {β : Type} {result a : β} {body : Method K V β} (h : body s = .ok a s') :
    logging result body s = .ok a s' := by
  rw [logging, h]

/-! ## Sizes -/

theorem size_nonneg (n : ListNum) (s : ARCMemoryCache K V) : 0 ≤ s.size n := Int.natCast_nonneg _

theorem size_pos_iff : 0 < s.size n ↔ s.lists n ≠ [] := by
  rw [size, Int.natCast_pos, List.length_pos_iff]

theorem exists_last (h : 0 < s.size n) : ∃ r, (s.lists n).getLast? = some r := by
  have hne := size_pos_iff.mp h
  exact ⟨_, List.getLast?_eq_some_getLast hne⟩

theorem size_pos (hr : r ∈ s.lists n) : 0 < s.size n :=
  size_pos_iff.mpr (List.ne_nil_of_mem hr)

theorem size_detached (hr : r ∈ s.lists n) :
    (s.detached n r).size m = s.size m - if m = n then 1 else 0 := by
  have hpos := size_pos hr
  rw [size, detached, setList_lists]
  split
  · next hm =>
    subst hm
    rw [List.length_erase_of_mem hr]
    rw [size] at hpos ⊢
    omega
  · rw [size, sub_zero]

theorem size_attached :
    (s.attached r d).size m = s.size m + if m = d.listNum then 1 else 0 := by
  rw [size, attached, setList_lists]
  split
  · next hm =>
    rw [hm, List.length_cons, Int.natCast_add, Int.natCast_one]
    rfl
  · rw [add_zero]
    rfl

theorem size_tracked [DecidableEq K] {ce : CacheElement K V} :
    (s.tracked ce).size m = s.size m + if m = T1 then 1 else 0 :=
  size_attached

theorem size_moved (hr : r ∈ s.lists n) :
    (s.moved n r d).size m =
      s.size m - (if m = n then 1 else 0) + if m = d.listNum then 1 else 0 := by
  rw [moved, size_attached, size_detached hr]

/-! ## Replacement -/

/-- The outcomes of a replacement, with what decides between them. -/
inductive Replaced (s : ARCMemoryCache K V) : ARCMemoryCache K V → Prop
  | fromT1 {r : Ref} {d : ElementDescriptor K V}
      (hbig : max 1 s.target_T1 ≤ s.size T1) (hr : r ∈ s.lists T1)
      (hd : s.descriptors.lookup r = some d) :
      Replaced s (s.moved T1 r { d with ce := none, listNum := B1 })
  | fromT2 {r : Ref} {d : ElementDescriptor K V}
      (hfull : s.maxSize.val < int32 (s.size T2 + s.size T1)) (hr : r ∈ s.lists T2)
      (hd : s.descriptors.lookup r = some d) :
      Replaced s (s.moved T2 r { d with ce := none, listNum := B2 })
  | kept (hsmall : s.size T1 < max 1 s.target_T1) : Replaced s s

namespace Replaced

/-- A replacement changes nothing but the lists and one descriptor. -/
theorem rest (h : Replaced s s') : s' =
    { s with lists := s'.lists, descriptors := s'.descriptors } := by
  cases h <;> rfl

theorem map (h : Replaced s s') : s'.map = s.map := by rw [h.rest]

theorem maxSize (h : Replaced s s') : s'.maxSize = s.maxSize := by rw [h.rest]

theorem target_T1 (h : Replaced s s') : s'.target_T1 = s.target_T1 := by rw [h.rest]

theorem size_T1_B1 (h : Replaced s s') : s'.size T1 + s'.size B1 = s.size T1 + s.size B1 := by
  cases h with
  | fromT1 hbig hr hd =>
    rw [size_moved hr, size_moved hr]
    simp
  | fromT2 hfull hr hd =>
    rw [size_moved hr, size_moved hr]
    simp
  | kept hsmall => rfl

/-- The element of a descriptor stays or is given up. -/
theorem lookup (h : Replaced s s') {r : Ref} {d : ElementDescriptor K V}
    (hd : s.descriptors.lookup r = some d) : ∃ d', s'.descriptors.lookup r = some d' ∧
      d'.key = d.key ∧ (d' = d ∨ d'.ce = none) := by
  cases h with
  | @fromT1 r' d' hbig hr hd' =>
    rw [moved, attached_descriptors]
    split
    · next heq =>
      subst heq
      cases hd.symm.trans hd'
      exact ⟨_, rfl, rfl, .inr rfl⟩
    · exact ⟨d, hd, rfl, .inl rfl⟩
  | @fromT2 r' d' hfull hr hd' =>
    rw [moved, attached_descriptors]
    split
    · next heq =>
      subst heq
      cases hd.symm.trans hd'
      exact ⟨_, rfl, rfl, .inr rfl⟩
    · exact ⟨d, hd, rfl, .inl rfl⟩
  | kept hsmall => exact ⟨d, hd, rfl, .inl rfl⟩

end Replaced

variable [DecidableEq K] {out : Set Ref} {orig : Option Ref}

theorem Replaced.linked (h : Replaced s s') (hlinked : Linked out s) : Linked out s' := by
  cases h with
  | fromT1 hbig hr hd => exact hlinked.move hr hd rfl (.ghost _ (by simp))
  | fromT2 hfull hr hd => exact hlinked.move hr hd rfl (.ghost _ (by simp))
  | kept hsmall => exact hlinked

theorem nullifyLast_ok {source : ListNum} (destination : ListNum) (hlinked : Linked out s)
    (hlast : (s.lists source).getLast? = some r) (hd : s.descriptors.lookup r = some d) :
    nullifyLast source destination s =
      .ok () (s.moved source r { d with ce := none, listNum := destination }) := by
  have hd' : (s.detached source r).descriptors.lookup r = some d := hd
  rw [nullifyLast, bind_ok (removeLast_ok (hlinked.nodup source) hlast), bind_ok (assign_ok hd' _),
    bind_ok (descriptor_ok (Finmap.lookup_insert _))]
  rfl

theorem pushOut_moves {source : ListNum} (destination : ListNum) (hlinked : Linked out s)
    (hlast : (s.lists source).getLast? = some r) (hd : s.descriptors.lookup r = some d)
    (horig : ∀ o, orig = some o → ∃ original, s.descriptors.lookup o = some original ∧
      original.key ≠ d.key) :
    pushOut source destination orig s =
      .ok () (s.moved source r { d with ce := none, listNum := destination }) := by
  rw [pushOut, bind_ok (getLast_ok hlast)]
  have hrest := nullifyLast_ok destination hlinked hlast hd
  cases orig with
  | none => exact hrest
  | some o =>
    obtain ⟨original, horiginal, hkey⟩ := horig o rfl
    dsimp only
    rw [bind_ok (descriptor_ok horiginal)]
    dsimp only
    rw [bind_ok (descriptor_ok hd), decide_eq_false hkey]
    exact hrest

theorem pushOut_keeps {source destination : ListNum} {o : Ref} {original : ElementDescriptor K V}
    (hlast : (s.lists source).getLast? = some r) (hd : s.descriptors.lookup r = some d)
    (horiginal : s.descriptors.lookup o = some original) (hkey : original.key = d.key) :
    pushOut source destination (some o) s = .ok () s := by
  rw [pushOut, bind_ok (getLast_ok hlast)]
  dsimp only
  rw [bind_ok (descriptor_ok horiginal)]
  dsimp only
  rw [bind_ok (descriptor_ok hd), decide_eq_true hkey]
  rfl

/-- A descriptor which is not in `T1` can be given to `replace`, and nothing throws. -/
theorem replace_cases (hlinked : Linked out s) (hT1 : s.size T1 ≤ s.maxSize.val)
    (horig : ∀ o, orig = some o → ∃ original, s.descriptors.lookup o = some original ∧
      ∀ r ∈ s.lists T1, s.map.lookup original.key ≠ some r) :
    ∃ s', replace orig s = .ok () s' ∧ Replaced s s' := by
  rw [replace]
  by_cases hbig : s.size T1 ≥ max 1 s.target_T1
  · obtain ⟨r, hlast⟩ := exists_last (lt_of_lt_of_le one_pos ((le_max_left _ _).trans hbig))
    have hr := List.mem_of_getLast? hlast
    obtain ⟨d, hd, -, hmap, -⟩ := hlinked.held T1 r hr
    have hmoves := pushOut_moves B1 hlinked hlast hd fun o ho => by
      obtain ⟨original, horiginal, hnot⟩ := horig o ho
      exact ⟨original, horiginal, fun hkey => hnot r hr (hkey ▸ hmap)⟩
    refine ⟨_, logging_ok ?_, .fromT1 hbig hr hd⟩
    rw [replaceBody, get_bind, if_pos hbig]
    exact hmoves
  · have hsmall := not_le.mp hbig
    by_cases hfull : int32 (s.size T2 + s.size T1) > s.maxSize.val
    · have hT2 : 0 < s.size T2 := by
        have hnonneg := size_nonneg T2 s
        have hT1nonneg := size_nonneg T1 s
        have hmax := s.maxSize.property
        by_contra hempty
        have hzero : s.size T2 = 0 := by omega
        rw [hzero, zero_add, int32_of_isInt ⟨by omega, hT1.trans hmax.2⟩] at hfull
        omega
      obtain ⟨r, hlast⟩ := exists_last hT2
      have hr := List.mem_of_getLast? hlast
      obtain ⟨d, hd, -, hmap, -⟩ := hlinked.held T2 r hr
      have hbody (x : Method K V Unit) (h : pushOut T2 B2 orig s = x s) :
          replaceBody orig s = x s := by
        rw [replaceBody, get_bind, if_neg hbig, if_pos hfull]
        exact h
      by_cases hsame : ∃ o original, orig = some o ∧ s.descriptors.lookup o = some original ∧
          original.key = d.key
      · -- the entry that has just been put into `T2` is the only one there
        obtain ⟨o, original, rfl, horiginal, hkey⟩ := hsame
        exact ⟨s, logging_ok (hbody (pure ()) (pushOut_keeps hlast hd horiginal hkey)),
          .kept hsmall⟩
      · refine ⟨_, logging_ok ?_, .fromT2 hfull hr hd⟩
        rw [hbody _ rfl]
        refine pushOut_moves B2 hlinked hlast hd fun o ho => ?_
        obtain ⟨original, horiginal, -⟩ := horig o ho
        exact ⟨original, horiginal, fun hkey => hsame ⟨o, original, ho, horiginal, hkey⟩⟩
    · refine ⟨s, logging_ok ?_, .kept hsmall⟩
      rw [replaceBody, get_bind, if_neg hbig, if_neg hfull]
      rfl

end ARCMemoryCache

end CachePolicies
