import CachePolicies.JavaStrings
import CachePolicies.LinkedHashMaps
import CachePolicies.RecencyStacks
import Mathlib.Data.Finset.Range

/-!
# The sets of the LRU cache

A `Set` of the LRU cache keeps up to `setLength` blocks, each with the data of its last
check. It holds the first entries of the recency stack of the checked addresses, except that
no map can grow beyond the largest `setLength`.
-/

namespace CachePolicies

/-- The class `Set`, whose addresses are of type `long`. -/
structure LruSet where
  setLength : JavaInt
  blocks : LRU ℤ JavaString

namespace LruSet

/-- The constructor `Set(int setLength)`. -/
def new (setLength : JavaInt) : Java LruSet := do
  let blocks ← LRU.newInstance setLength
  .ok ⟨setLength, blocks.setMaxSize setLength⟩

def insertWithLRU (address : ℤ) (data : JavaString) (s : LruSet) : LruSet :=
  { s with blocks := s.blocks.put address data }

def updateQueue (mostRecent : ℤ) (data : JavaString) (s : LruSet) : LruSet :=
  insertWithLRU mostRecent data { s with blocks := s.blocks.remove mostRecent }

/-- `checkQueue`: whether the check is a hit, and the set it leaves. -/
def checkQueue (blockAddress : ℤ) (data : JavaString) (s : LruSet) : Bool × LruSet :=
  if s.blocks.containsKey blockAddress then (true, updateQueue blockAddress data s)
  else (false, insertWithLRU blockAddress data s)

/-- `getLRU`, whose view of the values is not used and leaves the map alone. -/
def getLRU (blockAddress : ℤ) (s : LruSet) : ℤ × LruSet :=
  if s.blocks.containsKey blockAddress then (1, s) else (0, s)

inductive SetCall
  | checkQueue (blockAddress : ℤ) (data : JavaString)
  | getLRU (blockAddress : ℤ)

def perform (s : LruSet) : SetCall → LruSet
  | .checkQueue blockAddress data => (checkQueue blockAddress data s).2
  | .getLRU blockAddress => (getLRU blockAddress s).2

/-- A new set after a sequence of calls. -/
def run (setLength : JavaInt) (calls : List SetCall) : Java LruSet := do
  let s ← new setLength
  .ok (calls.foldl perform s)

/-! ## What a set holds -/

/-- The address and the data of a check. -/
def SetCall.check : SetCall → Option (ℤ × JavaString)
  | .checkQueue blockAddress data => some (blockAddress, data)
  | .getLRU _ => none

/-- The checked addresses, the latest first. -/
def checked (checks : List (ℤ × JavaString)) : List ℤ := checks.map Prod.fst

/-- The data of the latest check of an address. -/
def lastData : List (ℤ × JavaString) → ℤ → JavaString
  | [], _ => []
  | c :: checks, address => if address = c.1 then c.2 else lastData checks address

/-- A set that has been checked with `checks`, the latest first, is a true LRU map: it holds
the last `setLength` distinct addresses in order of their last checks, each with its data. -/
structure TrueLru (setLength : JavaInt) (checks : List (ℤ × JavaString)) (s : LruSet) : Prop where
  blocks : s.blocks.entries = ((recency (checked checks)).take setLength.val.toNat).reverse.map
    fun address => (address, lastData checks address)
  size : s.blocks.entries.length = min setLength.val.toNat (checked checks).toFinset.card
  checkQueue : ∀ address data, (checkQueue address data s).1 = true ↔
    address ∈ checked checks ∧ (since address (checked checks)).card < setLength.val.toNat
  getLRU : ∀ address, getLRU address s = (if address ∈ s.blocks.keys then 1 else 0, s)

/-- The part of the recency stack that a set of the given length keeps. -/
def kept (setLength : JavaInt) (addresses : List ℤ) : List ℤ :=
  if setLength.val < 2147483647 then (recency addresses).take setLength.val.toNat
  else recency addresses

/-- The set holds what it is expected to keep of the checks. -/
structure Holds (setLength : JavaInt) (checks : List (ℤ × JavaString)) (s : LruSet) : Prop where
  size_eq : s.blocks.size = setLength
  stores : s.blocks.Stores (kept setLength (checked checks)) (lastData checks)

variable {setLength : JavaInt} {checks : List (ℤ × JavaString)} {s : LruSet} {address : ℤ}
  {data : JavaString}

theorem lastData_cons (c : ℤ × JavaString) (checks : List (ℤ × JavaString)) :
    lastData (c :: checks) = Function.update (lastData checks) c.1 c.2 := by
  funext address
  rw [lastData, Function.update_apply]

theorem length_kept_le (h : setLength.val < 2147483647) (addresses : List ℤ) :
    (kept setLength addresses).length ≤ setLength.val.toNat := by
  rw [kept, if_pos h]
  exact List.length_take_le _ _

theorem nodup_kept (addresses : List ℤ) : (kept setLength addresses).Nodup := by
  rw [kept]
  split
  · exact (nodup_recency addresses).sublist (List.take_sublist _ _)
  · exact nodup_recency addresses

theorem kept_cons_of_mem {addresses : List ℤ} (h : address ∈ kept setLength addresses) :
    kept setLength (address :: addresses) = address :: (kept setLength addresses).erase address := by
  unfold kept at h ⊢
  split
  · next hlt =>
    rw [if_pos hlt] at h
    rw [← touch_recency, touch, if_pos h]
  · rfl

theorem kept_cons_of_notMem (hn : 0 ≤ setLength.val) {addresses : List ℤ}
    (h : address ∉ kept setLength addresses) :
    kept setLength (address :: addresses) =
      if setLength.val < min (((kept setLength addresses).length + 1 : ℕ) : ℤ) 2147483647
      then (address :: kept setLength addresses).dropLast
      else address :: kept setLength addresses := by
  by_cases hlt : setLength.val < 2147483647
  · have hle := length_kept_le hlt addresses
    have htouch := touch_recency setLength.val.toNat address addresses
    unfold kept at h hle ⊢
    rw [if_pos hlt] at h hle
    rw [if_pos hlt, if_pos hlt, ← htouch, touch, if_neg h]
    split
    · next hfull =>
      rw [List.dropLast_eq_take, List.length_cons]
      congr 1
      omega
    · next hroom =>
      apply List.take_of_length_le
      rw [List.length_cons]
      omega
  · have hnot : ¬setLength.val < min (((kept setLength addresses).length + 1 : ℕ) : ℤ) 2147483647 := by
      omega
    rw [if_neg hnot]
    unfold kept at h ⊢
    rw [if_neg hlt] at h
    rw [if_neg hlt, if_neg hlt, recency, List.erase_of_not_mem h]

/-- A map of the given bound stores what is to be kept of the addresses. -/
structure Keeps {ν : Type} (setLength : JavaInt) (addresses : List ℤ) (f : ℤ → ν)
    (m : LRU ℤ ν) : Prop where
  size_eq : m.size = setLength
  stores : m.Stores (kept setLength addresses) f

theorem kept_nil : kept setLength [] = [] := by
  rw [kept]
  split
  · rw [recency, List.take_nil]
  · rfl

/-- The latest address is kept, where there is room for one. -/
theorem head?_kept_cons (hn : 1 ≤ setLength.val) (address : ℤ) (addresses : List ℤ) :
    (kept setLength (address :: addresses)).head? = some address := by
  have hsucc : setLength.val.toNat = (setLength.val.toNat - 1) + 1 := by omega
  rw [kept, recency, hsucc, List.take_succ_cons]
  split <;> rfl

theorem mem_of_mem_kept {addresses : List ℤ} (h : address ∈ kept setLength addresses) :
    address ∈ addresses := by
  rw [kept] at h
  split at h
  · exact mem_recency.mp (List.mem_of_mem_take h)
  · exact mem_recency.mp h

section Keeps

variable {ν : Type} {addresses : List ℤ} {f : ℤ → ν} {m : LRU ℤ ν}

theorem Keeps.empty : Keeps setLength [] f ⟨.empty, setLength⟩ := by
  refine ⟨rfl, ?_⟩
  rw [kept_nil]
  rfl

theorem Keeps.put (hn : 0 ≤ setLength.val) (h : Keeps setLength addresses f m)
    (hnew : address ∉ kept setLength addresses) (v : ν) :
    Keeps setLength (address :: addresses) (Function.update f address v) (m.put address v) := by
  obtain ⟨hstores, hsize⟩ := LRU.put_new (v := v) h.stores hnew
  refine ⟨hsize.trans h.size_eq, ?_⟩
  rw [h.size_eq, ← kept_cons_of_notMem hn hnew] at hstores
  exact hstores

/-- A key that is taken out of the map leaves room for its return. -/
theorem Keeps.remove_put (hn : 0 ≤ setLength.val) (h : Keeps setLength addresses f m)
    (hmem : address ∈ kept setLength addresses) (v : ν) :
    Keeps setLength (address :: addresses) (Function.update f address v)
      ((m.remove address).put address v) := by
  have hremove := h.stores.remove address
  have hgone : address ∉ (kept setLength addresses).erase address :=
    (nodup_kept _).not_mem_erase
  obtain ⟨hstores, hsize⟩ := LRU.put_new (m := m.remove address) (v := v) hremove hgone
  have hlength := List.length_erase_add_one hmem
  have hfits : ¬m.size.val <
      min ((((kept setLength addresses).erase address).length + 1 : ℕ) : ℤ) 2147483647 := by
    rw [h.size_eq, hlength]
    by_cases hlt : setLength.val < 2147483647
    · have hle := length_kept_le hlt addresses
      omega
    · omega
  refine ⟨hsize.trans h.size_eq, ?_⟩
  rw [LRU.remove, if_neg hfits] at hstores
  exact kept_cons_of_mem hmem ▸ hstores

end Keeps

theorem Holds.keeps (h : Holds setLength checks s) :
    Keeps setLength (checked checks) (lastData checks) s.blocks :=
  ⟨h.size_eq, h.stores⟩

theorem Holds.containsKey_iff (h : Holds setLength checks s) :
    s.blocks.containsKey address = true ↔ address ∈ kept setLength (checked checks) :=
  h.stores.containsKey_iff

theorem Holds.insertWithLRU (hn : 0 ≤ setLength.val) (h : Holds setLength checks s)
    (hnew : address ∉ kept setLength (checked checks)) (data : JavaString) :
    Holds setLength ((address, data) :: checks) (insertWithLRU address data s) := by
  obtain ⟨hsize, hstores⟩ := h.keeps.put hn hnew data
  refine ⟨hsize, ?_⟩
  rw [lastData_cons]
  exact hstores

/-- A hit takes its key out of the map and puts it back at the end. -/
theorem Holds.updateQueue (hn : 0 ≤ setLength.val) (h : Holds setLength checks s)
    (hmem : address ∈ kept setLength (checked checks)) (data : JavaString) :
    Holds setLength ((address, data) :: checks) (updateQueue address data s) := by
  obtain ⟨hsize, hstores⟩ := h.keeps.remove_put hn hmem data
  refine ⟨hsize, ?_⟩
  rw [lastData_cons]
  exact hstores

/-- A check of a set that holds what it should, and the set after it. -/
theorem Holds.checkQueue (hn : 0 ≤ setLength.val) (h : Holds setLength checks s) (address : ℤ)
    (data : JavaString) :
    ((LruSet.checkQueue address data s).1 = true ↔ address ∈ kept setLength (checked checks)) ∧
      Holds setLength ((address, data) :: checks) (LruSet.checkQueue address data s).2 := by
  rw [LruSet.checkQueue]
  by_cases hmem : address ∈ kept setLength (checked checks)
  · rw [if_pos (h.containsKey_iff.mpr hmem)]
    exact ⟨iff_of_true rfl hmem, h.updateQueue hn hmem data⟩
  · rw [if_neg fun hkey => hmem (h.containsKey_iff.mp hkey)]
    exact ⟨iff_of_false (by simp) hmem, h.insertWithLRU hn hmem data⟩

theorem new_eq (hn : 0 ≤ setLength.val) :
    new setLength = .ok ⟨setLength, ⟨.empty, setLength⟩⟩ := by
  rw [new, LRU.newInstance, if_neg (by omega)]
  rfl

theorem new_ok (hn : 0 ≤ setLength.val) : ∃ s, new setLength = .ok s ∧ Holds setLength [] s :=
  ⟨_, new_eq hn, rfl, Keeps.empty.stores⟩

/-- Every call keeps the set at what it should hold, the lookups by changing nothing. -/
theorem Holds.run (hn : 0 ≤ setLength.val) (h : Holds setLength checks s) (calls : List SetCall) :
    Holds setLength ((calls.filterMap SetCall.check).reverse ++ checks) (calls.foldl perform s) := by
  induction calls generalizing checks s with
  | nil => exact h
  | cons call calls ih =>
    cases call with
    | checkQueue address data =>
      have hnext := ih (h.checkQueue hn address data).2
      have hcheck : SetCall.check (.checkQueue address data) = some (address, data) := rfl
      rw [List.filterMap_cons_some hcheck, List.reverse_cons, List.append_assoc]
      exact hnext
    | getLRU address =>
      have hsame : perform s (.getLRU address) = s := by
        rw [perform, getLRU]
        split <;> rfl
      rw [List.filterMap_cons_none rfl, List.foldl_cons, hsame]
      exact ih h

/-- Short of the largest length, or of as many distinct addresses, the bound is in force. -/
theorem kept_eq_take {addresses : List ℤ}
    (hsmall : setLength.val < 2147483647 ∨ addresses.toFinset.card ≤ 2147483647) :
    kept setLength addresses = (recency addresses).take setLength.val.toNat := by
  rw [kept]
  split
  · rfl
  · next hlarge =>
    refine (List.take_of_length_le ?_).symm
    rw [length_recency]
    omega

theorem Holds.trueLru (h : Holds setLength checks s) :
    TrueLru setLength checks s ↔
      setLength.val < 2147483647 ∨ (checked checks).toFinset.card ≤ 2147483647 := by
  have hentries := h.stores
  have hlength := h.stores.length
  constructor
  · intro htrue
    by_contra hlarge
    rw [not_or, not_lt, not_le] at hlarge
    have hsize := htrue.size
    rw [hlength, kept, if_neg (not_lt.mpr hlarge.1), length_recency] at hsize
    have hmax := setLength.property.2
    omega
  · intro hsmall
    have hkept := kept_eq_take hsmall
    refine ⟨hkept ▸ hentries, ?_, ?_, ?_⟩
    · rw [hlength, hkept, List.length_take, length_recency]
    · intro address data
      rw [LruSet.checkQueue, ← mem_take_recency, ← hkept, ← h.containsKey_iff]
      split <;> simp [*]
    · intro address
      rw [getLRU, LinkedHashMap.containsKey]
      simp only [decide_eq_true_eq]
      split <;> rfl

/-- The set that a sequence of calls leaves. -/
theorem exists_run (hn : 0 ≤ setLength.val) (calls : List SetCall) :
    ∃ s, run setLength calls = .ok s ∧
      (TrueLru setLength (calls.filterMap SetCall.check).reverse s ↔ setLength.val < 2147483647 ∨
        (checked (calls.filterMap SetCall.check)).toFinset.card ≤ 2147483647) := by
  obtain ⟨s, hnew, hholds⟩ := new_ok hn
  have htrue := (hholds.run hn calls).trueLru
  rw [List.append_nil, checked, List.map_reverse, List.toFinset_reverse] at htrue
  refine ⟨calls.foldl perform s, ?_, htrue⟩
  rw [run, hnew]
  rfl

/-- A set of any length is a true LRU map after any calls, unless it has the largest length
and more distinct addresses are checked than a map can count. -/
theorem trueLru_iff (setLength : JavaInt) (hn : 0 ≤ setLength.val) (calls : List SetCall) :
    (∃ s, run setLength calls = .ok s ∧
      TrueLru setLength (calls.filterMap SetCall.check).reverse s) ↔
      setLength.val < 2147483647 ∨
        (checked (calls.filterMap SetCall.check)).toFinset.card ≤ 2147483647 := by
  obtain ⟨s, hrun, htrue⟩ := exists_run hn calls
  rw [← htrue]
  constructor
  · rintro ⟨s', hs', h⟩
    cases hrun.symm.trans hs'
    exact h
  · exact fun h => ⟨s, hrun, h⟩

theorem trueLru_pair :
    ∃ s, run 2 [.checkQueue 5 ['a'], .checkQueue 6 [], .getLRU 7, .checkQueue 5 ['b'],
        .checkQueue 7 []] = .ok s ∧
      TrueLru 2 [(7, []), (5, ['b']), (6, []), (5, ['a'])] s :=
  (trueLru_iff 2 (by decide) _).mpr (.inl (by decide))

/-- Checks of the addresses `0, …, n - 1`. -/
def checksUpTo (n : ℕ) : List SetCall := (List.range n).map fun (i : ℕ) => .checkQueue i []

theorem card_checksUpTo (n : ℕ) :
    (checked ((checksUpTo n).filterMap SetCall.check)).toFinset.card = n := by
  have hchecked : checked ((checksUpTo n).filterMap SetCall.check) =
      (List.range n).map fun (i : ℕ) => (i : ℤ) := by
    have hcheck : SetCall.check ∘ (fun (i : ℕ) => SetCall.checkQueue i []) =
        some ∘ fun (i : ℕ) => ((i : ℤ), []) := rfl
    rw [checked, checksUpTo, List.filterMap_map, hcheck, List.filterMap_eq_map, List.map_map]
    rfl
  rw [hchecked, List.toFinset_card_of_nodup, List.length_map, List.length_range]
  exact List.nodup_range.map fun _ _ => Int.ofNat.inj

/-- A map of the largest length cannot tell that it has grown beyond it. -/
theorem not_trueLru_largest :
    ¬∃ s, run 2147483647 (checksUpTo 2147483648) = .ok s ∧
      TrueLru 2147483647 ((checksUpTo 2147483648).filterMap SetCall.check).reverse s := by
  rintro ⟨s, hs, h⟩
  obtain ⟨s', hrun, htrue⟩ :=
    exists_run (show 0 ≤ (2147483647 : JavaInt).val by decide) (checksUpTo 2147483648)
  cases hs.symm.trans hrun
  rcases htrue.mp h with hlt | hle
  · exact absurd hlt (by decide)
  · rw [card_checksUpTo] at hle
    exact absurd hle (by decide)

end LruSet

end CachePolicies
