import CachePolicies.ARCMemoryCaches

/-!
# Links between the map and the lists

`Linked out` relates the map, the lists and the descriptors while the descriptors of `out` are
on their way from one list to another. Each elementary change of the cache keeps it, or takes
one descriptor out and puts it back.
-/

namespace CachePolicies

variable {K V : Type}

/-- Just the descriptors of `T1` and `T2` hold an element, which is one of their key. -/
structure ElementDescriptor.WellFormed (d : ElementDescriptor K V) : Prop where
  resident : d.ce.isSome ↔ d.listNum = .T1 ∨ d.listNum = .T2
  key : ∀ ce, d.ce = some ce → ce.key = d.key

theorem ElementDescriptor.WellFormed.ghost (d : ElementDescriptor K V) {n : ListNum}
    (hn : ¬(n = .T1 ∨ n = .T2)) :
    ({ d with ce := none, listNum := n } : ElementDescriptor K V).WellFormed :=
  ⟨iff_of_false (by simp) hn, by simp⟩

theorem ElementDescriptor.WellFormed.inT2 {d : ElementDescriptor K V}
    (hce : d.ce.isSome) (hkey : ∀ ce, d.ce = some ce → ce.key = d.key) :
    ({ d with listNum := .T2 } : ElementDescriptor K V).WellFormed :=
  ⟨iff_of_true hce (.inr rfl), hkey⟩

namespace ARCMemoryCache

open ListNum

variable {s s' : ARCMemoryCache K V} {n m : ListNum} {r r' : Ref} {out : Set Ref}

@[simp] theorem setList_lists (n m : ListNum) (l : List Ref) (s : ARCMemoryCache K V) :
    (s.setList n l).lists m = if m = n then l else s.lists m :=
  Function.update_apply s.lists n l m

/-- The descriptor of `r` is taken from its list. -/
def detached (n : ListNum) (r : Ref) (s : ARCMemoryCache K V) : ARCMemoryCache K V :=
  s.setList n ((s.lists n).erase r)

/-- The descriptor of `r` becomes `d` and the first one of its list. -/
def attached (r : Ref) (d : ElementDescriptor K V) (s : ARCMemoryCache K V) :
    ARCMemoryCache K V :=
  (s.setDescriptor r d).setList d.listNum (r :: s.lists d.listNum)

def moved (n : ListNum) (r : Ref) (d : ElementDescriptor K V) (s : ARCMemoryCache K V) :
    ARCMemoryCache K V :=
  (s.detached n r).attached r d

/-- A descriptor that stays in its list becomes the first one there. -/
theorem moved_same_list (r : Ref) (d : ElementDescriptor K V) (s : ARCMemoryCache K V) :
    s.moved d.listNum r d =
      (s.setDescriptor r d).setList d.listNum (r :: (s.lists d.listNum).erase r) := by
  have htwice (l l' : List Ref) (s : ARCMemoryCache K V) :
      (s.setList d.listNum l).setList d.listNum l' = s.setList d.listNum l' := by
    rw [setList, setList, setList, Function.update_idem]
  rw [moved, attached, detached]
  rw [setList_lists, if_pos rfl]
  exact htwice _ _ (s.setDescriptor r d)

section Maps

variable [DecidableEq K]

def untracked (k : K) (s : ARCMemoryCache K V) : ARCMemoryCache K V :=
  { s with map := s.map.erase k }

/-- A new descriptor for `ce` is the first one of `T1`. -/
def tracked (ce : CacheElement K V) (s : ARCMemoryCache K V) : ARCMemoryCache K V :=
  { (s.attached s.next ⟨T1, ce.key, some ce⟩) with
    next := s.next + 1, map := s.map.insert ce.key s.next }

end Maps

theorem mem_attached {d : ElementDescriptor K V} :
    r' ∈ (s.attached r d).lists m ↔ m = d.listNum ∧ r' = r ∨ r' ∈ s.lists m := by
  rw [attached, setList_lists]
  split
  · next h =>
    subst h
    rw [List.mem_cons, and_iff_right rfl]
  · next h =>
    constructor
    · exact .inr
    · rintro (⟨hm, -⟩ | hr')
      · exact absurd hm h
      · exact hr'

@[simp] theorem attached_descriptors {d : ElementDescriptor K V} :
    (s.attached r d).descriptors.lookup r' =
      if r' = r then some d else s.descriptors.lookup r' :=
  HashMap.lookup_insert_eq _ _ _ _

theorem mem_tracked [DecidableEq K] {ce : CacheElement K V} :
    r' ∈ (s.tracked ce).lists m ↔ m = T1 ∧ r' = s.next ∨ r' ∈ s.lists m :=
  mem_attached

/-! ## The invariant -/

structure Linked [DecidableEq K] (out : Set Ref) (s : ARCMemoryCache K V) : Prop where
  nodup : ∀ n, (s.lists n).Nodup
  held : ∀ n r, r ∈ s.lists n → ∃ d, s.descriptors.lookup r = some d ∧ d.listNum = n ∧
    s.map.lookup d.key = some r ∧ d.WellFormed
  filed : ∀ k r, s.map.lookup k = some r → ∃ d, s.descriptors.lookup r = some d ∧ d.key = k ∧
    (r ∈ out ∨ r ∈ s.lists d.listNum)
  absent : ∀ r ∈ out, ∀ n, r ∉ s.lists n
  fresh : ∀ r ∈ s.descriptors, r < s.next

namespace Linked

variable [DecidableEq K] {d d' : ElementDescriptor K V}

/-- The counters, the target and the log have no part in the links. -/
theorem congr (h : Linked out s) (hlists : s'.lists = s.lists) (hmap : s'.map = s.map)
    (hdescriptors : s'.descriptors = s.descriptors) (hnext : s'.next = s.next) :
    Linked out s' := by
  constructor
  · rw [hlists]
    exact h.nodup
  · rw [hlists, hmap, hdescriptors]
    exact h.held
  · rw [hlists, hmap, hdescriptors]
    exact h.filed
  · rw [hlists]
    exact h.absent
  · rw [hdescriptors, hnext]
    exact h.fresh

theorem held_by (h : Linked out s) (hr : r ∈ s.lists n) (hd : s.descriptors.lookup r = some d) :
    d.listNum = n ∧ s.map.lookup d.key = some r ∧ d.WellFormed := by
  obtain ⟨d', hd', hheld⟩ := h.held n r hr
  cases hd.symm.trans hd'
  exact hheld

/-- No descriptor is in two lists. -/
theorem same_list (h : Linked out s) (hn : r ∈ s.lists n) (hm : r ∈ s.lists m) : n = m := by
  obtain ⟨d, hd, rfl, -⟩ := h.held n r hn
  exact (h.held_by hm hd).1

theorem mem_detached (h : Linked out s) (hr : r ∈ s.lists n) :
    r' ∈ (s.detached n r).lists m ↔ r' ∈ s.lists m ∧ r' ≠ r := by
  rw [detached, setList_lists]
  split
  · next hmn =>
    subst hmn
    rw [(h.nodup m).mem_erase_iff, and_comm]
  · next hmn =>
    refine ⟨fun hr' => ⟨hr', ?_⟩, And.left⟩
    rintro rfl
    exact hmn (h.same_list hr' hr)

theorem detach (h : Linked out s) (hr : r ∈ s.lists n) :
    Linked (insert r out) (s.detached n r) where
  nodup m := by
    rw [detached, setList_lists]
    split
    · exact (h.nodup n).erase r
    · exact h.nodup m
  held m r' hr' := h.held m r' ((h.mem_detached hr).mp hr').1
  filed k r' hr' := by
    obtain ⟨d, hd, hkey, hplace⟩ := h.filed k r' hr'
    refine ⟨d, hd, hkey, ?_⟩
    rcases eq_or_ne r' r with rfl | hne
    · exact .inl (Set.mem_insert r' out)
    · rcases hplace with hout | hlist
      · exact .inl (Set.mem_insert_of_mem r hout)
      · exact .inr ((h.mem_detached hr).mpr ⟨hlist, hne⟩)
  absent r' hr' m hm := by
    obtain ⟨hm, hne⟩ := (h.mem_detached hr).mp hm
    rcases Set.mem_insert_iff.mp hr' with heq | hout
    · exact hne heq
    · exact h.absent r' hout m hm
  fresh := h.fresh

/-- A descriptor on its way is put into a list. -/
theorem attach (h : Linked (insert r out) s) (hout : r ∉ out)
    (hmap : s.map.lookup d.key = some r) (hd : d.WellFormed) : Linked out (s.attached r d) where
  nodup m := by
    rw [attached, setList_lists]
    split
    · exact List.nodup_cons.mpr ⟨h.absent r (Set.mem_insert r out) _, h.nodup d.listNum⟩
    · exact h.nodup m
  held m r' hr' := by
    rw [attached_descriptors]
    rcases mem_attached.mp hr' with ⟨hm, rfl⟩ | hold
    · exact ⟨d, if_pos rfl, hm.symm, hmap, hd⟩
    · have hne : r' ≠ r := by
        rintro rfl
        exact h.absent r' (Set.mem_insert r' out) m hold
      rw [if_neg hne]
      exact h.held m r' hold
  filed k r' hr' := by
    rw [attached_descriptors]
    obtain ⟨d', hd', hkey, hplace⟩ := h.filed k r' hr'
    split
    · next heq =>
      subst heq
      refine ⟨d, rfl, ?_, .inr (mem_attached.mpr (.inl ⟨rfl, rfl⟩))⟩
      obtain ⟨d'', hd'', hkey', -⟩ := h.filed d.key r' hmap
      cases hd'.symm.trans hd''
      exact hkey'.symm.trans hkey
    · next hne =>
      refine ⟨d', hd', hkey, ?_⟩
      rcases hplace with hout' | hlist
      · exact .inl (Set.mem_of_mem_insert_of_ne hout' hne)
      · exact .inr (mem_attached.mpr (.inr hlist))
  absent r' hr' m hm := by
    rcases mem_attached.mp hm with ⟨-, rfl⟩ | hm
    · exact hout hr'
    · exact h.absent r' (Set.mem_insert_of_mem r hr') m hm
  fresh r' hr' := by
    rcases Finmap.mem_insert.mp hr' with rfl | hr'
    · obtain ⟨d', hd', -⟩ := h.filed d.key r' hmap
      exact h.fresh r' (Finmap.mem_of_lookup_eq_some hd')
    · exact h.fresh r' hr'

/-- A descriptor on its way is forgotten. -/
theorem untrack (h : Linked (insert r out) s) (hd : s.descriptors.lookup r = some d)
    (hmap : s.map.lookup d.key = some r) : Linked out (s.untracked d.key) where
  nodup := h.nodup
  held m r' hr' := by
    obtain ⟨d', hd', hm, hmap', hwf⟩ := h.held m r' hr'
    have hkey : d'.key ≠ d.key := by
      intro hkey
      rw [hkey, hmap] at hmap'
      cases hmap'
      exact h.absent r (Set.mem_insert r out) m hr'
    exact ⟨d', hd', hm, (Finmap.lookup_erase_ne hkey).trans hmap', hwf⟩
  filed k r' hr' := by
    rw [untracked, HashMap.lookup_erase_eq] at hr'
    split at hr'
    · cases hr'
    · next hk =>
      obtain ⟨d', hd', rfl, hplace⟩ := h.filed k r' hr'
      refine ⟨d', hd', rfl, hplace.imp_left fun hout => ?_⟩
      refine Set.mem_of_mem_insert_of_ne hout ?_
      rintro rfl
      cases hd.symm.trans hd'
      exact hk rfl
  absent r' hr' := h.absent r' (Set.mem_insert_of_mem r hr')
  fresh := h.fresh

theorem track (h : Linked out s) (hout : s.next ∉ out) (ce : CacheElement K V)
    (hnew : s.map.lookup ce.key = none) : Linked out (s.tracked ce) := by
  have hunknown : s.descriptors.lookup s.next = none :=
    Finmap.lookup_eq_none.mpr fun hmem => (h.fresh _ hmem).false
  have hnotMem (m : ListNum) : s.next ∉ s.lists m := by
    intro hm
    obtain ⟨d, hd, -⟩ := h.held m _ hm
    rw [hunknown] at hd
    cases hd
  have hold (r' : Ref) (d : ElementDescriptor K V) (hd : s.descriptors.lookup r' = some d) :
      (s.tracked ce).descriptors.lookup r' = some d := by
    refine (Finmap.lookup_insert_of_ne _ ?_).trans hd
    rintro rfl
    rw [hunknown] at hd
    cases hd
  constructor
  · intro m
    show ((s.attached _ _).lists m).Nodup
    rw [attached, setList_lists]
    split
    · exact List.nodup_cons.mpr ⟨hnotMem T1, h.nodup T1⟩
    · exact h.nodup m
  · intro m r' hr'
    rcases mem_tracked.mp hr' with ⟨hm, rfl⟩ | hr'
    · refine ⟨⟨T1, ce.key, some ce⟩, Finmap.lookup_insert _, hm.symm, Finmap.lookup_insert _,
        ?_, ?_⟩
      · exact iff_of_true rfl (.inl rfl)
      · intro ce' hce'
        cases hce'
        rfl
    · obtain ⟨d, hd, hm, hmap, hwf⟩ := h.held m r' hr'
      refine ⟨d, hold r' d hd, hm, (Finmap.lookup_insert_of_ne _ ?_).trans hmap, hwf⟩
      intro hkey
      rw [hkey, hnew] at hmap
      cases hmap
  · intro k r' hr'
    change (s.map.insert ce.key s.next).lookup k = some r' at hr'
    rw [HashMap.lookup_insert_eq] at hr'
    split at hr'
    · next hk =>
      cases hr'
      exact ⟨_, Finmap.lookup_insert _, hk.symm, .inr (mem_tracked.mpr (.inl ⟨rfl, rfl⟩))⟩
    · obtain ⟨d, hd, hkey, hplace⟩ := h.filed k r' hr'
      exact ⟨d, hold r' d hd, hkey, hplace.imp_right fun hlist => mem_tracked.mpr (.inr hlist)⟩
  · intro r' hr' m hm
    rcases mem_tracked.mp hm with ⟨-, rfl⟩ | hm
    · exact hout hr'
    · exact h.absent r' hr' m hm
  · intro r' hr'
    rcases Finmap.mem_insert.mp hr' with rfl | hr'
    · exact Nat.lt_succ_self _
    · exact Nat.lt_succ_of_lt (h.fresh r' hr')

/-- Moving a descriptor within or between lists keeps the links. -/
theorem move (h : Linked out s) (hr : r ∈ s.lists n) (hd : s.descriptors.lookup r = some d)
    (hkey : d'.key = d.key) (hd' : d'.WellFormed) : Linked out (s.moved n r d') := by
  refine (h.detach hr).attach (fun hout => h.absent r hout n hr) ?_ hd'
  rw [hkey]
  exact (h.held_by hr hd).2.1

end Linked

end ARCMemoryCache

end CachePolicies
