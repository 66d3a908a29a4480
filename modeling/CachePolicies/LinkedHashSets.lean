import CachePolicies.JavaIntegers
import Mathlib.Data.Finset.Card
import Mathlib.Data.Finset.Dedup
import Mathlib.Data.List.Nodup

/-!
# Insertion-ordered sets used as queues

A `LinkedHashSet` is a duplicate-free list in insertion order. Adding an element
which is present leaves its position alone; `poll` and `take` are the two ways in
which a `QueueAdapter` gives up its head.
-/

namespace CachePolicies

structure LinkedHashSet (α : Type) where
  toList : List α
  nodup : toList.Nodup
  deriving DecidableEq

namespace LinkedHashSet

variable {α : Type}

instance : Membership α (LinkedHashSet α) := ⟨fun q x => x ∈ q.toList⟩

instance : EmptyCollection (LinkedHashSet α) := ⟨⟨[], List.nodup_nil⟩⟩

theorem mem_def {q : LinkedHashSet α} {x : α} : x ∈ q ↔ x ∈ q.toList := Iff.rfl

theorem mem_of_toList_cons {q : LinkedHashSet α} {x : α} {xs : List α} (h : q.toList = x :: xs) :
    x ∈ q :=
  mem_def.mpr (h ▸ List.mem_cons_self)

@[ext] theorem ext {q r : LinkedHashSet α} (h : q.toList = r.toList) : q = r := by
  cases q
  cases r
  cases h
  rfl

@[simp] theorem toList_empty : (∅ : LinkedHashSet α).toList = [] := rfl

@[simp] theorem notMem_empty (x : α) : x ∉ (∅ : LinkedHashSet α) := List.not_mem_nil

/-- The number of elements. -/
def length (q : LinkedHashSet α) : ℤ := q.toList.length

/-- `size()`, which is at most `Integer.MAX_VALUE` for any number of elements. -/
def size (q : LinkedHashSet α) : ℤ := min q.length 2147483647

def isEmpty (q : LinkedHashSet α) : Bool := q.toList.isEmpty

theorem length_nonneg (q : LinkedHashSet α) : 0 ≤ q.length := Int.natCast_nonneg _

@[simp] theorem length_empty : (∅ : LinkedHashSet α).length = 0 := rfl

@[simp] theorem size_empty : (∅ : LinkedHashSet α).size = 0 := rfl

theorem size_nonneg (q : LinkedHashSet α) : 0 ≤ q.size :=
  le_min q.length_nonneg (by decide)

theorem size_pos {q : LinkedHashSet α} (h : 0 < q.length) : 0 < q.size :=
  lt_min h (by decide)

/-- A set which is not longer than the largest `int` is counted exactly. -/
theorem size_of_le {q : LinkedHashSet α} (h : q.length ≤ 2147483647) : q.size = q.length :=
  min_eq_left h

theorem size_le_length (q : LinkedHashSet α) : q.size ≤ q.length := min_le_left _ _

theorem size_lt_iff {q : LinkedHashSet α} {n : ℤ} (hn : n ≤ 2147483647) :
    q.size < n ↔ q.length < n := by
  unfold size
  omega

theorem size_lt_val {q : LinkedHashSet α} {n : JavaInt} : q.size < n.val ↔ q.length < n.val :=
  size_lt_iff n.property.2

/-- Only the largest `int` is never exceeded. -/
theorem lt_size_iff {q : LinkedHashSet α} {n : ℤ} :
    n < q.size ↔ n < q.length ∧ n < 2147483647 :=
  lt_min_iff

theorem isEmpty_iff {q : LinkedHashSet α} : q.isEmpty = true ↔ q = ∅ := by
  rw [isEmpty, List.isEmpty_iff]
  exact ⟨fun h => ext h, fun h => by rw [h, toList_empty]⟩

theorem length_pos_of_mem {q : LinkedHashSet α} {x : α} (h : x ∈ q) : 0 < q.length :=
  Int.natCast_pos.mpr (List.length_pos_of_mem h)

theorem exists_cons_of_length_pos {q : LinkedHashSet α} (h : 0 < q.length) :
    ∃ x xs, q.toList = x :: xs :=
  List.exists_cons_of_length_pos (Int.natCast_pos.mp h)

theorem eq_empty_of_length {q : LinkedHashSet α} (h : q.length ≤ 0) : q = ∅ := by
  apply ext
  exact List.eq_nil_of_length_eq_zero (by unfold length at h; omega)

variable [DecidableEq α]

instance (x : α) (q : LinkedHashSet α) : Decidable (x ∈ q) := inferInstanceAs (Decidable (x ∈ q.toList))

def toFinset (q : LinkedHashSet α) : Finset α := q.toList.toFinset

@[simp] theorem mem_toFinset {q : LinkedHashSet α} {x : α} : x ∈ q.toFinset ↔ x ∈ q :=
  List.mem_toFinset

theorem card_toFinset (q : LinkedHashSet α) : (q.toFinset.card : ℤ) = q.length := by
  rw [toFinset, List.toFinset_card_of_nodup q.nodup, length]

/-- Append at the tail, unless the element is present. -/
def add (q : LinkedHashSet α) (x : α) : LinkedHashSet α :=
  if h : x ∈ q then q
  else ⟨q.toList ++ [x], List.nodup_append.mpr ⟨q.nodup, List.nodup_singleton x, by
    intro a ha b hb hab
    rw [List.mem_singleton.mp hb] at hab
    exact h (hab ▸ ha)⟩⟩

def remove (q : LinkedHashSet α) (x : α) : LinkedHashSet α := ⟨q.toList.erase x, q.nodup.erase x⟩

@[simp] theorem toList_remove (q : LinkedHashSet α) (x : α) :
    (q.remove x).toList = q.toList.erase x := rfl

theorem toList_add {q : LinkedHashSet α} {x : α} (h : x ∉ q) :
    (q.add x).toList = q.toList ++ [x] := by
  rw [add, dif_neg h]

@[simp] theorem mem_add {q : LinkedHashSet α} {x y : α} : y ∈ q.add x ↔ y ∈ q ∨ y = x := by
  rw [add]
  split
  · constructor
    · exact Or.inl
    · rintro (h | rfl)
      · exact h
      · assumption
  · simp [mem_def]

@[simp] theorem mem_remove {q : LinkedHashSet α} {x y : α} : y ∈ q.remove x ↔ y ≠ x ∧ y ∈ q :=
  q.nodup.mem_erase_iff

theorem length_add {q : LinkedHashSet α} {x : α} (h : x ∉ q) : (q.add x).length = q.length + 1 := by
  simp [length, toList_add h]

theorem length_add_le (q : LinkedHashSet α) (x : α) : (q.add x).length ≤ q.length + 1 := by
  by_cases h : x ∈ q
  · rw [add, dif_pos h]
    omega
  · rw [length_add h]

theorem length_remove {q : LinkedHashSet α} {x : α} (h : x ∈ q) : (q.remove x).length = q.length - 1 := by
  have hp := List.length_pos_of_mem h
  have he : (q.toList.erase x).length = q.toList.length - 1 := List.length_erase_of_mem h
  simp only [length, toList_remove, he]
  omega

theorem remove_of_notMem {q : LinkedHashSet α} {x : α} (h : x ∉ q) : q.remove x = q :=
  ext (List.erase_of_not_mem h)

theorem length_remove_le (q : LinkedHashSet α) (x : α) : (q.remove x).length ≤ q.length := by
  by_cases h : x ∈ q
  · rw [length_remove h]
    omega
  · rw [remove_of_notMem h]

/-- `QueueAdapter.peek`. -/
def peek (q : LinkedHashSet α) : Option α := q.toList.head?

/-- `QueueAdapter.poll`: the head, with the queue it leaves. -/
def poll (q : LinkedHashSet α) : Option (α × LinkedHashSet α) :=
  q.peek.map (fun x => (x, q.remove x))

/-- `QueueAdapter.remove()`, which throws where `poll` finds no head. -/
def take (q : LinkedHashSet α) : Java (α × LinkedHashSet α) :=
  match q.poll with
  | none => .error .noSuchElement
  | some r => .ok r

theorem take_cons {q : LinkedHashSet α} {x : α} {xs : List α} (h : q.toList = x :: xs) :
    q.take = .ok (x, q.remove x) := by
  simp [take, poll, peek, h]

theorem take_empty : (∅ : LinkedHashSet α).take = .error .noSuchElement := rfl

end LinkedHashSet

end CachePolicies
