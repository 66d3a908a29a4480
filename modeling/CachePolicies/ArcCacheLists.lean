import CachePolicies.ArcCaches
import Mathlib.Data.List.Perm.Basic
import Mathlib.Data.List.Nodup
import Mathlib.Tactic.Push

/-!
# The lists of `ArcCache`

Links, hash tables, counters and flags of the cache all tell of four lists. Every call is followed
by what it does to them.
-/

namespace CachePolicies

open ListHead

namespace ArcLists

variable {K : Type}

/-- No entry stands twice, neither in one list nor in two. -/
structure Apart (lists : ArcLists K) : Prop where
  nodup (h : ListHead) : (lists h).Nodup
  apart {h h' : ListHead} {e : ArcEntry K} (he : e ∈ lists h) (he' : e ∈ lists h') : h = h'

/-- The number of entries of a list, as the cache counts them. -/
def count (lists : ArcLists K) (h : ListHead) : ℤ := (lists h).length

theorem count_nonneg (lists : ArcLists K) (h : ListHead) : 0 ≤ lists.count h := Int.natCast_nonneg _

theorem count_eq_of_perm {lists : ArcLists K} {h : ListHead} {l : List (ArcEntry K)}
    (hperm : l.Perm (lists h)) : (l.length : ℤ) = lists.count h := by
  rw [count, hperm.length_eq]

theorem count_pos_of_mem {lists : ArcLists K} {h : ListHead} {e : ArcEntry K} (he : e ∈ lists h) :
    0 < lists.count h := Int.natCast_pos.mpr (List.length_pos_of_mem he)

theorem exists_getLast_of_count_pos {lists : ArcLists K} {h : ListHead} (hpos : 0 < lists.count h) :
    ∃ e, (lists h).getLast? = some e := by
  cases hlist : lists h with
  | nil => simp [count, hlist] at hpos
  | cons x xs => exact ⟨_, List.getLast?_eq_some_getLast (List.cons_ne_nil x xs)⟩

@[simp] theorem pushed_self (h : ListHead) (e : ArcEntry K) (lists : ArcLists K) :
    lists.pushed h e h = e :: lists h := by simp [pushed]

@[simp] theorem pushed_of_ne {h h' : ListHead} (hne : h' ≠ h) (e : ArcEntry K)
    (lists : ArcLists K) : lists.pushed h e h' = lists h' := by simp [pushed, hne]

theorem mem_pushed {h h' : ListHead} {e x : ArcEntry K} {lists : ArcLists K} :
    x ∈ lists.pushed h e h' ↔ h' = h ∧ x = e ∨ x ∈ lists h' := by
  by_cases hne : h' = h
  · subst hne
    simp
  · simp [hne]

theorem count_pushed_self (h : ListHead) (e : ArcEntry K) (lists : ArcLists K) :
    (lists.pushed h e).count h = lists.count h + 1 := by simp [count]

theorem count_pushed_of_ne {h h' : ListHead} (hne : h' ≠ h) (e : ArcEntry K) (lists : ArcLists K) :
    (lists.pushed h e).count h' = lists.count h' := by simp [count, hne]

variable [DecidableEq K]

theorem erased_sublist (e : ArcEntry K) (lists : ArcLists K) (h : ListHead) :
    (lists.erased e h).Sublist (lists h) := List.erase_sublist

theorem mem_of_mem_erased {h : ListHead} {e x : ArcEntry K} {lists : ArcLists K}
    (hx : x ∈ lists.erased e h) : x ∈ lists h := List.mem_of_mem_erase hx

theorem count_erased_self {h : ListHead} {e : ArcEntry K} {lists : ArcLists K} (he : e ∈ lists h) :
    (lists.erased e).count h = lists.count h - 1 := by
  have hpos := List.length_pos_of_mem he
  rw [count, erased, List.length_erase_of_mem he, count]
  omega

namespace Apart

variable {lists : ArcLists K} {h h' : ListHead} {e : ArcEntry K}

theorem erased_of_ne (hapart : lists.Apart) (he : e ∈ lists h) (hne : h' ≠ h) :
    lists.erased e h' = lists h' :=
  List.erase_of_not_mem fun he' => hne (hapart.apart he' he)

theorem count_erased_of_ne (hapart : lists.Apart) (he : e ∈ lists h) (hne : h' ≠ h) :
    (lists.erased e).count h' = lists.count h' := by
  rw [count, hapart.erased_of_ne he hne, count]

theorem not_mem_erased (hapart : lists.Apart) (e : ArcEntry K) (h : ListHead) :
    e ∉ lists.erased e h := (hapart.nodup h).not_mem_erase

theorem mem_erased (hapart : lists.Apart) {x : ArcEntry K} :
    x ∈ lists.erased e h ↔ x ≠ e ∧ x ∈ lists h := (hapart.nodup h).mem_erase_iff

theorem erased (hapart : lists.Apart) (e : ArcEntry K) : (lists.erased e).Apart where
  nodup h := (hapart.nodup h).sublist (erased_sublist e lists h)
  apart he he' := hapart.apart (mem_of_mem_erased he) (mem_of_mem_erased he')

omit [DecidableEq K] in
theorem pushed (hapart : lists.Apart) (hfree : ∀ h', e ∉ lists h') : (lists.pushed h e).Apart where
  nodup h' := by
    by_cases hne : h' = h
    · subst hne
      rw [pushed_self]
      exact List.nodup_cons.mpr ⟨hfree h', hapart.nodup h'⟩
    · rw [pushed_of_ne hne]
      exact hapart.nodup h'
  apart {i j x} hi hj := by
    rcases mem_pushed.mp hi with ⟨hih, hx⟩ | hi
    · rcases mem_pushed.mp hj with ⟨hjh, -⟩ | hj
      · exact hih.trans hjh.symm
      · exact absurd hj (hx ▸ hfree j)
    · rcases mem_pushed.mp hj with ⟨-, hx⟩ | hj
      · exact absurd hi (hx ▸ hfree i)
      · exact hapart.apart hi hj

/-- An entry of the cache is no ghost. -/
theorem erased_ghosts (hapart : lists.Apart) (he : e ∈ lists t1Head ∨ e ∈ lists t2Head) :
    lists.erased e b1Head = lists b1Head ∧ lists.erased e b2Head = lists b2Head := by
  rcases he with he | he
  · exact ⟨hapart.erased_of_ne he (by decide), hapart.erased_of_ne he (by decide)⟩
  · exact ⟨hapart.erased_of_ne he (by decide), hapart.erased_of_ne he (by decide)⟩

/-- An entry is taken from its list to the front of a list. -/
theorem moved (hapart : lists.Apart) (h : ListHead) (e : ArcEntry K) :
    ((lists.erased e).pushed h e).Apart :=
  (hapart.erased e).pushed fun h' => hapart.not_mem_erased e h'

theorem mem_moved (hapart : lists.Apart) {x : ArcEntry K} :
    (x ∈ (lists.erased e).pushed t2Head e t1Head ∨ x ∈ (lists.erased e).pushed t2Head e t2Head) ↔
      x = e ∨ x ∈ lists t1Head ∨ x ∈ lists t2Head := by
  rw [pushed_of_ne (by decide), pushed_self, List.mem_cons, hapart.mem_erased, hapart.mem_erased]
  by_cases hx : x = e <;> simp [hx]

end Apart

end ArcLists

namespace ArcCache

variable {K : Type} [DecidableEq K] {base : BaseCache K} {maxSize : JavaInt}
  {elements : base.Links → ArcLists K} {entries : base.Hash → List (ArcEntry K)}
  {s s' : ArcCache base} {lists lists' : ArcLists K} {e : ArcEntry K} {h : ListHead}

/-- The entries listed are among the objects made, under the code of their key. -/
structure Made (base : BaseCache K) (objects : ℕ) (lists : ArcLists K) : Prop where
  object : ∀ h, ∀ e ∈ lists h, e.object < objects
  hashed : ∀ h, ∀ e ∈ lists h, e.hashCode = base.modifiedHash e.key

/-- The flag of an entry tells in which of the first two lists it is. -/
structure Flagged (withinT2 : ArcEntry K → Bool) (lists : ArcLists K) : Prop where
  t1 : ∀ e ∈ lists t1Head, withinT2 e = false
  t2 : ∀ e ∈ lists t2Head, withinT2 e = true

/-- Links, tables, flags and counters are those of the four lists. -/
structure Linked (elements : base.Links → ArcLists K) (entries : base.Hash → List (ArcEntry K))
    (s : ArcCache base) (lists : ArcLists K) : Prop where
  links : elements s.links = lists
  apart : lists.Apart
  b1Hash : (entries s.b1Hash).Perm (lists b1Head)
  b2Hash : (entries s.b2Hash).Perm (lists b2Head)
  t1Size : s.t1Size = lists.count t1Head
  flagged : Flagged s.withinT2 lists
  made : Made base s.objects lists

namespace Made

variable {objects objects' : ℕ}

theorem erased (hmade : Made base objects lists) (e : ArcEntry K) :
    Made base objects (lists.erased e) where
  object h x hx := hmade.object h x (ArcLists.mem_of_mem_erased hx)
  hashed h x hx := hmade.hashed h x (ArcLists.mem_of_mem_erased hx)

omit [DecidableEq K] in
theorem pushed (hmade : Made base objects lists) (hle : objects ≤ objects')
    (hobject : e.object < objects') (hhash : e.hashCode = base.modifiedHash e.key) :
    Made base objects' (lists.pushed h e) where
  object h' x hx := by
    rcases ArcLists.mem_pushed.mp hx with ⟨-, rfl⟩ | hx
    · exact hobject
    · exact (hmade.object h' x hx).trans_le hle
  hashed h' x hx := by
    rcases ArcLists.mem_pushed.mp hx with ⟨-, rfl⟩ | hx
    · exact hhash
    · exact hmade.hashed h' x hx

omit [DecidableEq K] in
theorem fresh (hmade : Made base objects lists) (key : K) (hc : ℤ) (h : ListHead) :
    (⟨objects, key, hc⟩ : ArcEntry K) ∉ lists h :=
  fun hmem => lt_irrefl _ (hmade.object h _ hmem)

end Made

namespace Flagged

variable {withinT2 withinT2' : ArcEntry K → Bool}

theorem erased (hflagged : Flagged withinT2 lists) (e : ArcEntry K) :
    Flagged withinT2 (lists.erased e) where
  t1 x hx := hflagged.t1 x (ArcLists.mem_of_mem_erased hx)
  t2 x hx := hflagged.t2 x (ArcLists.mem_of_mem_erased hx)

/-- The flag of an entry that is in none of the lists. -/
theorem update (hflagged : Flagged withinT2 lists) (hfree : ∀ h, e ∉ lists h) (b : Bool) :
    Flagged (Function.update withinT2 e b) lists where
  t1 x hx := by
    rw [Function.update_of_ne fun hxe => hfree _ (hxe ▸ hx)]
    exact hflagged.t1 x hx
  t2 x hx := by
    rw [Function.update_of_ne fun hxe => hfree _ (hxe ▸ hx)]
    exact hflagged.t2 x hx

omit [DecidableEq K] in
theorem pushed (hflagged : Flagged withinT2 lists) (ht1 : h = t1Head → withinT2 e = false)
    (ht2 : h = t2Head → withinT2 e = true) : Flagged withinT2 (lists.pushed h e) where
  t1 x hx := by
    rcases ArcLists.mem_pushed.mp hx with ⟨hh, rfl⟩ | hx
    · exact ht1 hh.symm
    · exact hflagged.t1 x hx
  t2 x hx := by
    rcases ArcLists.mem_pushed.mp hx with ⟨hh, rfl⟩ | hx
    · exact ht2 hh.symm
    · exact hflagged.t2 x hx

/-- An entry that goes to the front of `t2`. -/
theorem moved (hflagged : Flagged withinT2 lists) (hapart : lists.Apart) (e : ArcEntry K) :
    Flagged (Function.update withinT2 e true) ((lists.erased e).pushed t2Head e) :=
  ((hflagged.erased e).update (hapart.not_mem_erased e) true).pushed (fun h => nomatch h)
    fun _ => Function.update_self e true withinT2

end Flagged

/-- The counts that the cache adds up stay within `int`. -/
structure InRange (maxSize : JavaInt) (lists : ArcLists K) : Prop where
  pos : 1 ≤ maxSize.val
  half : 2 * maxSize.val ≤ 2147483647
  resident : lists.count t1Head + lists.count t2Head + maxSize.val ≤ 2147483646
  ghosts : lists.count b1Head + lists.count b2Head ≤ maxSize.val + 1

/-- What `allMissEvictGhosts` may do: the last ghost of a list goes, or there are few ghosts. -/
inductive Forgets (maxSize : JavaInt) (lists : ArcLists K) : ArcLists K → Prop
  | kept (hfew : lists.count b1Head + lists.count b2Head < maxSize.val) : Forgets maxSize lists lists
  | dropped {h : ListHead} {e : ArcEntry K} (hghosts : h = b1Head ∨ h = b2Head)
      (hlast : (lists h).getLast? = some e) : Forgets maxSize lists (lists.erased e)

section

variable (hbase : base.Represents elements entries)

include hbase

theorem Linked.size_b1 (hlinked : Linked elements entries s lists) :
    base.size s.b1Hash = lists.count b1Head := by
  rw [hbase.size, ArcLists.count_eq_of_perm hlinked.b1Hash]

theorem Linked.size_b2 (hlinked : Linked elements entries s lists) :
    base.size s.b2Hash = lists.count b2Head := by
  rw [hbase.size, ArcLists.count_eq_of_perm hlinked.b2Hash]

theorem Linked.last_eq (hlinked : Linked elements entries s lists)
    (hlast : (lists h).getLast? = some e) : s.last h = .ok e := by
  rw [last, hbase.prev, hlinked.links, hlast]

end

/-- The counter of `t1` where an entry leaves it. -/
theorem Linked.t1Size_pred (hlinked : Linked elements entries s lists)
    (hrange : InRange maxSize lists) (he : e ∈ lists t1Head) :
    int32 (s.t1Size - 1) = (lists.erased e).count t1Head := by
  rw [hlinked.t1Size, ArcLists.count_erased_self he]
  apply int32_of_isInt
  have hsome := ArcLists.count_pos_of_mem he
  have ht2 := lists.count_nonneg t2Head
  have hresident := hrange.resident
  have hpos := hrange.pos
  unfold IsInt
  omega

/-- Only links, ghosts and their tables change, and ghosts only go. -/
theorem Linked.of_erased (hlinked : Linked elements entries s lists) {links : base.Links}
    {b1Hash b2Hash : base.Hash} (hlinks : elements links = lists.erased e)
    (hresident : e ∉ lists t1Head) (hb1 : (entries b1Hash).Perm (lists.erased e b1Head))
    (hb2 : (entries b2Hash).Perm (lists.erased e b2Head)) :
    Linked elements entries { s with links := links, b1Hash := b1Hash, b2Hash := b2Hash }
      (lists.erased e) where
  links := hlinks
  apart := hlinked.apart.erased e
  b1Hash := hb1
  b2Hash := hb2
  t1Size := by
    rw [ArcLists.count, ArcLists.erased, List.erase_of_not_mem hresident]
    exact hlinked.t1Size
  flagged := hlinked.flagged.erased e
  made := hlinked.made.erased e

theorem dropB1_eq (hbase : base.Represents elements entries)
    (hlinked : Linked elements entries s lists) (hlast : (lists b1Head).getLast? = some e) :
    ∃ links b1Hash, s.dropB1 = .ok { s with links := links, b1Hash := b1Hash } ∧
      Linked elements entries { s with links := links, b1Hash := b1Hash } (lists.erased e) := by
  have he : e ∈ lists b1Head := List.mem_of_getLast? hlast
  have hmem : e ∈ entries s.b1Hash := hlinked.b1Hash.mem_iff.mpr he
  refine ⟨_, _, by rw [dropB1, hlinked.last_eq hbase hlast, Java.ok_bind], ?_⟩
  apply hlinked.of_erased
  · rw [← hlinked.links] at he ⊢
    exact hbase.removeFromList he
  · intro he'
    cases hlinked.apart.apart he he'
  · have hperm := (hbase.remove hmem).2.symm.trans hlinked.b1Hash
    exact (List.cons_perm_iff_perm_erase.mp hperm).2
  · rw [hlinked.apart.erased_of_ne he (by decide)]
    exact hlinked.b2Hash

theorem dropB2_eq (hbase : base.Represents elements entries)
    (hlinked : Linked elements entries s lists) (hlast : (lists b2Head).getLast? = some e) :
    ∃ links b2Hash, s.dropB2 = .ok { s with links := links, b2Hash := b2Hash } ∧
      Linked elements entries { s with links := links, b2Hash := b2Hash } (lists.erased e) := by
  have he : e ∈ lists b2Head := List.mem_of_getLast? hlast
  have hmem : e ∈ entries s.b2Hash := hlinked.b2Hash.mem_iff.mpr he
  refine ⟨_, _, by rw [dropB2, hlinked.last_eq hbase hlast, Java.ok_bind], ?_⟩
  apply hlinked.of_erased
  · rw [← hlinked.links] at he ⊢
    exact hbase.removeFromList he
  · intro he'
    cases hlinked.apart.apart he he'
  · rw [hlinked.apart.erased_of_ne he (by decide)]
    exact hlinked.b1Hash
  · have hperm := (hbase.remove hmem).2.symm.trans hlinked.b2Hash
    exact (List.cons_perm_iff_perm_erase.mp hperm).2

/-- The outcome of a method that may drop a ghost: links and tables follow the lists. -/
def Forgot (elements : base.Links → ArcLists K) (entries : base.Hash → List (ArcEntry K))
    (maxSize : JavaInt) (s : ArcCache base) (lists : ArcLists K) (outcome : Java (ArcCache base)) :
    Prop :=
  ∃ links b1Hash b2Hash lists',
    outcome = .ok { s with links := links, b1Hash := b1Hash, b2Hash := b2Hash } ∧
    Linked elements entries { s with links := links, b1Hash := b1Hash, b2Hash := b2Hash } lists' ∧
    Forgets maxSize lists lists'

theorem Linked.forgot_kept (hlinked : Linked elements entries s lists)
    (hfew : lists.count b1Head + lists.count b2Head < maxSize.val) :
    Forgot elements entries maxSize s lists (.ok s) :=
  ⟨s.links, s.b1Hash, s.b2Hash, lists, rfl, hlinked, .kept hfew⟩

theorem forgot_dropB1 (hbase : base.Represents elements entries)
    (hlinked : Linked elements entries s lists) (hsome : 0 < lists.count b1Head) :
    Forgot elements entries maxSize s lists s.dropB1 := by
  obtain ⟨e, hlast⟩ := ArcLists.exists_getLast_of_count_pos hsome
  obtain ⟨links, b1Hash, hok, hlinked'⟩ := dropB1_eq hbase hlinked hlast
  exact ⟨links, b1Hash, s.b2Hash, _, hok, hlinked', .dropped (.inl rfl) hlast⟩

theorem forgot_dropB2 (hbase : base.Represents elements entries)
    (hlinked : Linked elements entries s lists) (hsome : 0 < lists.count b2Head) :
    Forgot elements entries maxSize s lists s.dropB2 := by
  obtain ⟨e, hlast⟩ := ArcLists.exists_getLast_of_count_pos hsome
  obtain ⟨links, b2Hash, hok, hlinked'⟩ := dropB2_eq hbase hlinked hlast
  exact ⟨links, s.b1Hash, b2Hash, _, hok, hlinked', .dropped (.inr rfl) hlast⟩

/-- Ghosts go when they are too many, and the heads of the lists are never taken for ghosts. -/
theorem forgot_allMissEvictGhosts (hbase : base.Represents elements entries)
    (hlinked : Linked elements entries s lists) (hrange : InRange maxSize lists) :
    Forgot elements entries maxSize s lists (s.allMissEvictGhosts maxSize) := by
  have hb1 := lists.count_nonneg b1Head
  have hb2 := lists.count_nonneg b2Head
  have ht1 := lists.count_nonneg t1Head
  have ht2 := lists.count_nonneg t2Head
  obtain ⟨hpos, hhalf, hresident, hghosts⟩ := hrange
  have hleft : int32 (s.t1Size + lists.count b1Head) = lists.count t1Head + lists.count b1Head := by
    rw [hlinked.t1Size]
    apply int32_of_isInt
    unfold IsInt
    omega
  have hright : int32 (lists.count b1Head + lists.count b2Head) =
      lists.count b1Head + lists.count b2Head := by
    apply int32_of_isInt
    unfold IsInt
    omega
  rw [allMissEvictGhosts, hlinked.size_b1 hbase, hlinked.size_b2 hbase, hleft, hright]
  split_ifs with hfull hsome hmany hmany hnone
  · exact forgot_dropB1 hbase hlinked hsome
  · exact forgot_dropB2 hbase hlinked (by omega)
  · exact hlinked.forgot_kept (by omega)
  · exact forgot_dropB1 hbase hlinked (by omega)
  · exact forgot_dropB2 hbase hlinked (by omega)
  · exact hlinked.forgot_kept (by omega)

end ArcCache

end CachePolicies
