import CachePolicies.JavaIntegers
import Mathlib.Data.List.Basic

/-!
# What `ArcCache` rests on

The base class of `ArcCache` keeps circular lists that run through the entries and are reached by
their heads, and the ghosts stand in hash tables. Both are parameters here, with what the cache
relies on.
-/

namespace CachePolicies

/-- An object of the class `Entry`; a ghost is another object with the same key. -/
structure ArcEntry (K : Type) where
  object : ℕ
  key : K
  hashCode : ℤ
  deriving DecidableEq

/-- The heads of the lists. -/
inductive ListHead
  | t1Head | t2Head | b1Head | b2Head
  deriving DecidableEq

/-- The methods of the base class and of `Hash` that `ArcCache` calls. -/
structure BaseCache (K : Type) where
  /-- The fields `next` and `prev` of all entries. -/
  Links : Type
  /-- The links after `shortCircuit` of all heads. -/
  shortCircuit : Links
  /-- The field `prev` of a head, where `none` stands for the head itself. -/
  prev : ListHead → Links → Option (ArcEntry K)
  getListEntryCount : ListHead → Links → ℤ
  insertInList : ListHead → ArcEntry K → Links → Links
  moveToFront : ListHead → ArcEntry K → Links → Links
  removeFromList : ArcEntry K → Links → Links
  removeEntryFromReplacementList : ArcEntry K → Links → Links
  /-- A table with its control object. -/
  Hash : Type
  init : Hash
  size : Hash → ℤ
  insert : ArcEntry K → Hash → Hash
  removeKey : K → ℤ → Hash → Option (ArcEntry K) × Hash
  remove : ArcEntry K → Hash → Bool × Hash
  /-- The code under which a key is looked up. -/
  modifiedHash : K → ℤ

/-- The entries of each list, from the front to the back. -/
abbrev ArcLists (K : Type) := ListHead → List (ArcEntry K)

namespace ArcLists

variable {K : Type} [DecidableEq K]

/-- An entry put at the front of a list. -/
def pushed (h : ListHead) (e : ArcEntry K) (lists : ArcLists K) : ArcLists K :=
  Function.update lists h (e :: lists h)

/-- An entry taken out of its list. -/
def erased (e : ArcEntry K) (lists : ArcLists K) : ArcLists K := fun h => (lists h).erase e

end ArcLists

namespace BaseCache

variable {K : Type} [DecidableEq K]

/-- The links are circular lists of the given elements, and the tables hold the given entries. -/
structure Represents (base : BaseCache K) (elements : base.Links → ArcLists K)
    (entries : base.Hash → List (ArcEntry K)) : Prop where
  shortCircuit (h : ListHead) : elements base.shortCircuit h = []
  prev (h : ListHead) (l : base.Links) : base.prev h l = (elements l h).getLast?
  getListEntryCount (h : ListHead) (l : base.Links) :
    base.getListEntryCount h l = (elements l h).length
  insertInList {h : ListHead} {e : ArcEntry K} {l : base.Links} (hfree : ∀ h', e ∉ elements l h') :
    elements (base.insertInList h e l) = (elements l).pushed h e
  moveToFront {h h' : ListHead} {e : ArcEntry K} {l : base.Links} (hlisted : e ∈ elements l h') :
    elements (base.moveToFront h e l) = ((elements l).erased e).pushed h e
  removeFromList {h : ListHead} {e : ArcEntry K} {l : base.Links} (hlisted : e ∈ elements l h) :
    elements (base.removeFromList e l) = (elements l).erased e
  removeEntryFromReplacementList {h : ListHead} {e : ArcEntry K} {l : base.Links}
    (hlisted : e ∈ elements l h) :
    elements (base.removeEntryFromReplacementList e l) = (elements l).erased e
  init : entries base.init = []
  size (t : base.Hash) : base.size t = (entries t).length
  insert (e : ArcEntry K) (t : base.Hash) : (entries (base.insert e t)).Perm (e :: entries t)
  removeKey_some {key : K} {code : ℤ} {t t' : base.Hash} {e : ArcEntry K}
    (hfound : base.removeKey key code t = (some e, t')) :
    e.key = key ∧ e.hashCode = code ∧ (entries t).Perm (e :: entries t')
  removeKey_none {key : K} {code : ℤ} {t t' : base.Hash}
    (hmissing : base.removeKey key code t = (none, t')) :
    (∀ e ∈ entries t, e.key = key → e.hashCode ≠ code) ∧ (entries t).Perm (entries t')
  remove {e : ArcEntry K} {t : base.Hash} (hmem : e ∈ entries t) :
    (base.remove e t).1 = true ∧ (entries t).Perm (e :: entries (base.remove e t).2)

/-- Lists and tables kept as plain lists. -/
def plain (modifiedHash : K → ℤ) : BaseCache K where
  Links := ArcLists K
  shortCircuit := fun _ => []
  prev := fun h l => (l h).getLast?
  getListEntryCount := fun h l => (l h).length
  insertInList := fun h e l => l.pushed h e
  moveToFront := fun h e l => (l.erased e).pushed h e
  removeFromList := ArcLists.erased
  removeEntryFromReplacementList := ArcLists.erased
  Hash := List (ArcEntry K)
  init := []
  size := fun t => t.length
  insert := List.cons
  removeKey := fun key code t =>
    match t.find? fun e => e.key = key ∧ e.hashCode = code with
    | some e => (some e, t.erase e)
    | none => (none, t)
  remove := fun e t => (decide (e ∈ t), t.erase e)
  modifiedHash := modifiedHash

theorem plain_represents (modifiedHash : K → ℤ) :
    (plain modifiedHash).Represents (fun l => l) (fun t => t) where
  shortCircuit _ := rfl
  prev _ _ := rfl
  getListEntryCount _ _ := rfl
  insertInList _ := rfl
  moveToFront _ := rfl
  removeFromList _ := rfl
  removeEntryFromReplacementList _ := rfl
  init := rfl
  size _ := rfl
  insert e t := List.Perm.refl _
  removeKey_some {key code t t' e} hfound := by
    simp only [plain] at hfound
    cases hfind : t.find? fun e => decide (e.key = key ∧ e.hashCode = code) with
    | none =>
      rw [hfind] at hfound
      cases hfound
    | some found =>
      rw [hfind] at hfound
      cases hfound
      have hcode := List.find?_some hfind
      have hkept : e.key = key ∧ e.hashCode = code := by simpa using hcode
      exact ⟨hkept.1, hkept.2, List.perm_cons_erase (List.mem_of_find?_eq_some hfind)⟩
  removeKey_none {key code t t'} hmissing := by
    simp only [plain] at hmissing
    cases hfind : t.find? fun e => decide (e.key = key ∧ e.hashCode = code) with
    | none =>
      rw [hfind] at hmissing
      cases hmissing
      refine ⟨?_, List.Perm.refl _⟩
      intro e he hkey hcode
      have habsent := List.find?_eq_none.mp hfind e he
      simp [hkey, hcode] at habsent
    | some found =>
      rw [hfind] at hmissing
      cases hmissing
  remove {e t} hmem := by
    have htaken (table : List (ArcEntry K)) (hlisted : e ∈ table) :
        decide (e ∈ table) = true ∧ table.Perm (e :: table.erase e) :=
      ⟨decide_eq_true hlisted, List.perm_cons_erase hlisted⟩
    exact htaken t hmem

end BaseCache

end CachePolicies
