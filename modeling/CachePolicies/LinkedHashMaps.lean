import CachePolicies.JavaIntegers
import Mathlib.Data.List.Nodup

/-!
# Linked hash maps

A `LinkedHashMap` in access order lists its entries from the least to the most recently
accessed one. `put` moves an existing key to the end; after it has added a new key it asks
`removeEldestEntry` whether the first entry has to go. `LRU` is the subclass that lets it go
when the map is larger than its bound. In a map in insertion order an existing key keeps its
place when it is put again.
-/

namespace CachePolicies

variable {κ ν : Type}

structure LinkedHashMap (κ ν : Type) where
  entries : List (κ × ν)
  nodup : (entries.map Prod.fst).Nodup
  deriving DecidableEq

namespace LinkedHashMap

def keys (m : LinkedHashMap κ ν) : List κ := m.entries.map Prod.fst

/-- `size()`, which is at most `Integer.MAX_VALUE` for any number of entries. -/
def size (m : LinkedHashMap κ ν) : ℤ := min m.entries.length 2147483647

def empty : LinkedHashMap κ ν := ⟨[], List.nodup_nil⟩

@[ext] theorem ext {m m' : LinkedHashMap κ ν} (h : m.entries = m'.entries) : m = m' := by
  cases m
  cases m'
  cases h
  rfl

variable [DecidableEq κ]

def containsKey (key : κ) (m : LinkedHashMap κ ν) : Bool := key ∈ m.keys

omit [DecidableEq κ] in
/-- The search goes through the values, not through the keys. -/
def containsValue [DecidableEq ν] (value : ν) (m : LinkedHashMap κ ν) : Bool :=
  value ∈ m.entries.map Prod.snd

def remove (key : κ) (m : LinkedHashMap κ ν) : LinkedHashMap κ ν :=
  ⟨m.entries.filter fun e => e.1 ≠ key, m.nodup.sublist (List.filter_sublist.map _)⟩

/-- The mapping is the last one, and the only one of its key. -/
def access (key : κ) (value : ν) (m : LinkedHashMap κ ν) : LinkedHashMap κ ν where
  entries := (m.remove key).entries ++ [(key, value)]
  nodup := by
    rw [List.map_append]
    refine List.nodup_append.mpr ⟨(m.remove key).nodup, List.nodup_singleton _, ?_⟩
    intro a ha b hb hab
    obtain ⟨e, he, rfl⟩ := List.mem_map.mp ha
    have hne := (List.mem_filter.mp he).2
    rw [List.map_singleton, List.mem_singleton] at hb
    simp [hab, hb] at hne

theorem entries_remove (key : κ) (m : LinkedHashMap κ ν) :
    (m.remove key).entries = m.entries.filter fun e => e.1 ≠ key := rfl

theorem entries_access (key : κ) (value : ν) (m : LinkedHashMap κ ν) :
    (m.access key value).entries = (m.remove key).entries ++ [(key, value)] := rfl

/-- `afterNodeInsertion`. -/
def dropEldest (removeEldestEntry : LinkedHashMap κ ν → κ × ν → Bool) (m : LinkedHashMap κ ν) :
    LinkedHashMap κ ν :=
  match m.entries.head? with
  | none => m
  | some eldest =>
    if removeEldestEntry m eldest then ⟨m.entries.tail, m.nodup.sublist ((List.tail_sublist _).map _)⟩
    else m

def put (removeEldestEntry : LinkedHashMap κ ν → κ × ν → Bool) (key : κ) (value : ν)
    (m : LinkedHashMap κ ν) : LinkedHashMap κ ν :=
  if m.containsKey key then m.access key value
  else dropEldest removeEldestEntry (m.access key value)

end LinkedHashMap

/-- The class `LRU`, a map with a bound. -/
structure LRU (κ ν : Type) extends LinkedHashMap κ ν where
  size : JavaInt

namespace LRU

/-- The constructor of the superclass refuses a negative initial capacity. -/
def newInstance (size : JavaInt) : Java (LRU κ ν) :=
  if size.val < 0 then .error .illegalArgument else .ok ⟨.empty, size⟩

def setMaxSize (size : JavaInt) (m : LRU κ ν) : LRU κ ν := { m with size := size }

def removeEldestEntry (size : JavaInt) (m : LinkedHashMap κ ν) (_eldest : κ × ν) : Bool :=
  m.size > size.val

variable [DecidableEq κ]

def remove (key : κ) (m : LRU κ ν) : LRU κ ν :=
  { m with toLinkedHashMap := m.toLinkedHashMap.remove key }

def put (key : κ) (value : ν) (m : LRU κ ν) : LRU κ ν :=
  { m with toLinkedHashMap := m.toLinkedHashMap.put (removeEldestEntry m.size) key value }

end LRU

namespace LinkedHashMap

/-- The map holds the keys of a store that lists the latest first, with the values of `f`. -/
def Stores (m : LinkedHashMap κ ν) (store : List κ) (f : κ → ν) : Prop :=
  m.entries = store.reverse.map fun a => (a, f a)

variable {m : LinkedHashMap κ ν} {store : List κ} {f : κ → ν} {k : κ} {v : ν}

theorem Stores.keys_eq (h : m.Stores store f) : m.keys = store.reverse := by
  rw [keys, h, List.map_map]
  exact List.map_id _

theorem Stores.nodup_store (h : m.Stores store f) : store.Nodup := by
  have hkeys := m.nodup
  rw [← keys, h.keys_eq] at hkeys
  exact List.nodup_reverse.mp hkeys

theorem Stores.length (h : m.Stores store f) : m.entries.length = store.length := by
  rw [h, List.length_map, List.length_reverse]

variable [DecidableEq κ]

theorem Stores.containsKey_iff (h : m.Stores store f) :
    m.containsKey k = true ↔ k ∈ store := by
  rw [containsKey, decide_eq_true_eq, h.keys_eq, List.mem_reverse]

omit [DecidableEq κ] in
theorem Stores.containsValue_iff [DecidableEq ν] (h : m.Stores store f) :
    m.containsValue v = true ↔ ∃ a ∈ store, f a = v := by
  rw [containsValue, decide_eq_true_eq, h, List.map_map, List.mem_map]
  simp

theorem Stores.remove (h : m.Stores store f) (k : κ) : (m.remove k).Stores (store.erase k) f := by
  rw [Stores, entries_remove, h, h.nodup_store.erase_eq_filter, ← List.filter_reverse,
    List.filter_map]
  congr 2
  funext a
  by_cases ha : a = k <;> simp [ha]

/-- A key that is not stored becomes the latest one. -/
theorem Stores.access (h : m.Stores store f) (hk : k ∉ store) (v : ν) :
    (m.access k v).Stores (k :: store) (Function.update f k v) := by
  have hremove := h.remove k
  rw [List.erase_of_not_mem hk] at hremove
  unfold Stores at hremove ⊢
  rw [entries_access, hremove, List.reverse_cons, List.map_append, List.map_singleton,
    Function.update_self]
  congr 1
  refine List.map_congr_left fun a ha => ?_
  have hne : a ≠ k := fun he => hk (he ▸ List.mem_reverse.mp ha)
  rw [Function.update_of_ne hne]

omit [DecidableEq κ] in
theorem Stores.dropEldest (h : m.Stores store f)
    (removeEldestEntry : LinkedHashMap κ ν → κ × ν → Bool)
    {drop : Bool} (hdrop : ∀ eldest, removeEldestEntry m eldest = drop) :
    (dropEldest removeEldestEntry m).Stores (if drop then store.dropLast else store) f := by
  rw [LinkedHashMap.dropEldest]
  split
  · next hnone =>
    have hnil : store = [] := by
      rw [List.head?_eq_none_iff, h, List.map_eq_nil_iff, List.reverse_eq_nil_iff] at hnone
      exact hnone
    subst hnil
    split <;> exact h
  · next eldest _ =>
    rw [hdrop eldest]
    cases drop with
    | false => exact h
    | true =>
      unfold Stores at h ⊢
      simp [h, List.tail_reverse]

end LinkedHashMap

namespace LRU

variable [DecidableEq κ] {m : LRU κ ν} {store : List κ} {f : κ → ν} {k : κ} {v : ν}

/-- A new key drops the last one of the store, once the store is larger than the bound. -/
theorem put_new (h : m.Stores store f) (hk : k ∉ store) :
    (m.put k v).Stores
      (if m.size.val < min ((store.length + 1 : ℕ) : ℤ) 2147483647 then (k :: store).dropLast
        else k :: store) (Function.update f k v) ∧ (m.put k v).size = m.size := by
  have hcontains : m.containsKey k = false := by
    rw [← Bool.not_eq_true, h.containsKey_iff]
    exact hk
  have haccess := h.access hk v
  have hsize : (m.toLinkedHashMap.access k v).size = min ((store.length + 1 : ℕ) : ℤ) 2147483647 := by
    rw [LinkedHashMap.size, haccess.length, List.length_cons]
  have hremove : ∀ eldest, removeEldestEntry m.size (m.toLinkedHashMap.access k v) eldest =
      decide (m.size.val < min ((store.length + 1 : ℕ) : ℤ) 2147483647) := by
    intro eldest
    rw [removeEldestEntry, hsize]
  have hdrop := haccess.dropEldest (removeEldestEntry m.size) hremove
  refine ⟨?_, rfl⟩
  simp only [decide_eq_true_eq] at hdrop
  rw [put, LinkedHashMap.put, hcontains]
  exact hdrop

end LRU

/-! ## Insertion order -/

namespace LinkedHashMap

variable [DecidableEq κ] {m : LinkedHashMap κ ν} {k : κ} {v : ν}

def get (key : κ) (m : LinkedHashMap κ ν) : Option ν :=
  (m.entries.find? fun e => e.1 = key).map Prod.snd

/-- The entry of a key with another value. -/
def replaced (key : κ) (value : ν) (e : κ × ν) : κ × ν := if e.1 = key then (key, value) else e

theorem map_fst_replaced (key : κ) (value : ν) (entries : List (κ × ν)) :
    (entries.map (replaced key value)).map Prod.fst = entries.map Prod.fst := by
  rw [List.map_map]
  refine List.map_congr_left fun e _ => ?_
  rw [Function.comp_apply, replaced]
  split
  · next he => exact he.symm
  · rfl

/-- `put` in a map in insertion order. -/
def insert (key : κ) (value : ν) (m : LinkedHashMap κ ν) : LinkedHashMap κ ν where
  entries := if m.containsKey key then m.entries.map (replaced key value)
    else m.entries ++ [(key, value)]
  nodup := by
    split
    · rw [map_fst_replaced]
      exact m.nodup
    · next hnew =>
      rw [List.map_append]
      refine List.nodup_append.mpr ⟨m.nodup, List.nodup_singleton _, ?_⟩
      intro a ha b hb hab
      rw [List.map_singleton, List.mem_singleton] at hb
      refine hnew (decide_eq_true ?_)
      rwa [hab, hb] at ha

theorem containsKey_iff : m.containsKey k = true ↔ ∃ v, (k, v) ∈ m.entries := by
  rw [containsKey, decide_eq_true_eq, keys, List.mem_map]
  constructor
  · rintro ⟨⟨_, v⟩, he, rfl⟩
    exact ⟨v, he⟩
  · rintro ⟨v, he⟩
    exact ⟨(k, v), he, rfl⟩

omit [DecidableEq κ] in
theorem eq_of_mem_entries {v' : ν} (h : (k, v) ∈ m.entries) (h' : (k, v') ∈ m.entries) :
    v = v' := by
  have heq := List.inj_on_of_nodup_map m.nodup h h' rfl
  exact (Prod.mk.inj heq).2

theorem get_eq_some_iff : m.get k = some v ↔ (k, v) ∈ m.entries := by
  rw [get, Option.map_eq_some_iff]
  constructor
  · rintro ⟨⟨k', v'⟩, hfind, rfl⟩
    have hkey := List.find?_some hfind
    rw [decide_eq_true_eq] at hkey
    subst hkey
    exact List.mem_of_find?_eq_some hfind
  · intro hmem
    obtain ⟨⟨k', v'⟩, hfind⟩ : ∃ e, m.entries.find? (fun e => e.1 = k) = some e := by
      rw [← Option.isSome_iff_exists, List.find?_isSome]
      exact ⟨(k, v), hmem, decide_eq_true rfl⟩
    have hkey := List.find?_some hfind
    rw [decide_eq_true_eq] at hkey
    subst hkey
    exact ⟨_, hfind, eq_of_mem_entries (List.mem_of_find?_eq_some hfind) hmem⟩

theorem isSome_get (m : LinkedHashMap κ ν) (k : κ) : (m.get k).isSome = m.containsKey k := by
  rw [Bool.eq_iff_iff, Option.isSome_iff_exists, containsKey_iff]
  simp only [get_eq_some_iff]

theorem mem_remove {e : κ × ν} {key : κ} :
    e ∈ (m.remove key).entries ↔ e ∈ m.entries ∧ e.1 ≠ key := by
  rw [entries_remove, List.mem_filter, decide_eq_true_eq]

theorem remove_eq_self (h : m.containsKey k = false) : m.remove k = m := by
  refine ext (List.filter_eq_self.mpr fun e he => decide_eq_true fun hkey => ?_)
  rw [containsKey, decide_eq_false_iff_not] at h
  exact h (hkey ▸ List.mem_map_of_mem he)

theorem remove_remove (m : LinkedHashMap κ ν) (k : κ) : (m.remove k).remove k = m.remove k := by
  refine ext ?_
  rw [entries_remove, entries_remove, List.filter_filter]
  simp only [Bool.and_self]

theorem remove_comm (m : LinkedHashMap κ ν) (k k' : κ) :
    (m.remove k).remove k' = (m.remove k').remove k :=
  ext (List.filter_comm ..)

theorem entries_insert_of_mem (h : m.containsKey k = true) (v : ν) :
    (m.insert k v).entries = m.entries.map (replaced k v) := if_pos h

theorem entries_insert_of_notMem (h : m.containsKey k = false) (v : ν) :
    (m.insert k v).entries = m.entries ++ [(k, v)] := if_neg (by simp [h])

omit [DecidableEq κ] in
theorem length_keys (m : LinkedHashMap κ ν) : m.keys.length = m.entries.length :=
  List.length_map _

theorem keys_insert_of_mem (h : m.containsKey k = true) (v : ν) : (m.insert k v).keys = m.keys := by
  rw [keys, keys, entries_insert_of_mem h, map_fst_replaced]

/-- The other entries are not touched by `put`. -/
theorem remove_insert (m : LinkedHashMap κ ν) (k : κ) (v : ν) :
    (m.insert k v).remove k = m.remove k := by
  refine ext ?_
  rw [entries_remove, entries_remove]
  cases hk : m.containsKey k with
  | true =>
    have hsame : (fun e : κ × ν => decide (e.1 ≠ k)) ∘ replaced k v =
        fun e => decide (e.1 ≠ k) := by
      funext e
      by_cases he : e.1 = k <;> simp [replaced, he]
    rw [entries_insert_of_mem hk, List.filter_map, hsame]
    refine (List.map_congr_left fun e he => ?_).trans (List.map_id _)
    rw [List.mem_filter, decide_eq_true_eq] at he
    rw [replaced, if_neg he.2]
    rfl
  | false =>
    rw [entries_insert_of_notMem hk, List.filter_append]
    simp

theorem mem_insert_self (m : LinkedHashMap κ ν) (k : κ) (v : ν) :
    (k, v) ∈ (m.insert k v).entries := by
  cases hk : m.containsKey k with
  | true =>
    obtain ⟨v', hv'⟩ := containsKey_iff.mp hk
    rw [entries_insert_of_mem hk]
    exact List.mem_map.mpr ⟨(k, v'), hv', if_pos rfl⟩
  | false =>
    rw [entries_insert_of_notMem hk]
    exact List.mem_append_right _ (List.mem_singleton_self _)

theorem mem_insert {e : κ × ν} :
    e ∈ (m.insert k v).entries ↔ e = (k, v) ∨ e ∈ (m.remove k).entries := by
  by_cases he : e.1 = k
  · have hout : e ∉ (m.remove k).entries := fun hmem => (mem_remove.mp hmem).2 he
    rw [or_iff_left hout]
    constructor
    · intro hmem
      obtain ⟨k', v'⟩ := e
      subst he
      rw [eq_of_mem_entries hmem (mem_insert_self m _ v)]
    · rintro rfl
      exact mem_insert_self m k v
  · have hne : e ≠ (k, v) := fun heq => he (congrArg Prod.fst heq)
    rw [or_iff_right hne, ← remove_insert m k v, mem_remove]
    exact (and_iff_left he).symm

theorem length_remove (h : m.containsKey k = true) :
    (m.remove k).entries.length + 1 = m.entries.length := by
  rw [containsKey, decide_eq_true_eq] at h
  have hkeys : (m.remove k).keys = m.keys.erase k := by
    rw [keys, keys, List.Nodup.erase_eq_filter m.nodup, entries_remove, List.filter_map]
    congr 2
    funext e
    by_cases he : e.1 = k <;> simp [he]
  have hlength := List.length_erase_add_one h
  rw [← hkeys, keys, keys, List.length_map, List.length_map] at hlength
  exact hlength

theorem length_insert (m : LinkedHashMap κ ν) (k : κ) (v : ν) :
    (m.insert k v).entries.length = (m.remove k).entries.length + 1 := by
  cases hk : m.containsKey k with
  | true => rw [entries_insert_of_mem hk, List.length_map, length_remove hk]
  | false => rw [entries_insert_of_notMem hk, List.length_append, remove_eq_self hk,
      List.length_singleton]

end LinkedHashMap

end CachePolicies
