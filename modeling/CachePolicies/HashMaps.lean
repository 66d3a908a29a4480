import Mathlib.Data.Finmap

/-! # Hash maps, whose iteration order no manager reads -/

namespace CachePolicies

/-- A finite map from keys to values. -/
abbrev HashMap (α β : Type) := Finmap (fun _ : α => β)

namespace HashMap

variable {α β : Type}

/-- `size()`, which is at most `Integer.MAX_VALUE` for any number of keys. -/
def size (m : HashMap α β) : ℤ := min m.keys.card 2147483647

theorem le_size_iff {m : HashMap α β} {n : ℤ} (hn : n ≤ 2147483647) :
    n ≤ m.size ↔ n ≤ m.keys.card := by
  unfold size
  omega

variable [DecidableEq α]

@[simp] theorem lookup_insert_eq (m : HashMap α β) (a c : α) (b : β) :
    (m.insert a b).lookup c = if c = a then some b else m.lookup c := by
  split
  · next h =>
    subst h
    exact Finmap.lookup_insert m
  · next h => exact Finmap.lookup_insert_of_ne m h

@[simp] theorem lookup_erase_eq (m : HashMap α β) (a c : α) :
    (Finmap.erase a m).lookup c = if c = a then none else m.lookup c := by
  split
  · next h =>
    subst h
    exact Finmap.lookup_erase c m
  · next h => exact Finmap.lookup_erase_ne h

theorem erase_of_notMem {m : HashMap α β} {a : α} (h : a ∉ m) : Finmap.erase a m = m := by
  apply Finmap.ext_lookup
  intro x
  rw [lookup_erase_eq]
  split
  · next hx => rw [hx, Finmap.lookup_eq_none.mpr h]
  · rfl

theorem erase_idem (m : HashMap α β) (a : α) :
    Finmap.erase a (Finmap.erase a m) = Finmap.erase a m := by
  apply Finmap.ext_lookup
  intro x
  by_cases h : x = a <;> simp [h]

end HashMap

end CachePolicies
