import CachePolicies.MultipleQueueManagers
import Mathlib.Algebra.BigOperators.Ring.Finset

/-!
# Groups of queues

A policy holds its resident keys in some of its queues. How the keys of a group of queues
change when one key moves depends only on whether the key's queues belong to the group.
-/

namespace CachePolicies.MultipleQueueCacheManager

variable {Q α X : Type} [DecidableEq α]

/-- The keys which a group of queues holds. -/
def keysIn (group : Finset Q) (m : MultipleQueueCacheManager Q α X) : Finset α :=
  group.biUnion fun q => (m.queues q).toFinset

variable {group : Finset Q} {m : MultipleQueueCacheManager Q α X} {sub : Subclass Q α X}
  {settle : α → MultipleQueueCacheManager Q α X → MultipleQueueCacheManager Q α X}
  {k x : α} {s d : Q}

theorem mem_keysIn : k ∈ keysIn group m ↔ ∃ q ∈ group, k ∈ m.queues q := by
  simp [keysIn]

theorem Filed.notMem_keysIn (h : m.Filed) (hk : m.currentLocations.lookup k = some s)
    (hs : s ∉ group) : k ∉ keysIn group m := by
  intro hmem
  obtain ⟨q, hq, hkq⟩ := mem_keysIn.mp hmem
  exact hs (h.only hk q hkq ▸ hq)

theorem Filed.notMem_keysIn_of_none (h : m.Filed) (hk : m.currentLocations.lookup k = none) :
    k ∉ keysIn group m := by
  intro hmem
  obtain ⟨q, -, hkq⟩ := mem_keysIn.mp hmem
  exact h.notMem_of_none hk q hkq

theorem Filed.card_keysIn (h : m.Filed) :
    ((keysIn group m).card : ℤ) = ∑ q ∈ group, (m.queues q).length := by
  rw [keysIn, Finset.card_biUnion]
  · rw [Nat.cast_sum]
    exact Finset.sum_congr rfl fun q _ => LinkedHashSet.card_toFinset _
  · intro q _ q' _ hne
    exact h.disjoint hne

section Moves

variable [DecidableEq Q]

theorem keysIn_enqueue (hd : d ∈ group) :
    keysIn group (m.enqueue k d) = insert k (keysIn group m) := by
  ext y
  simp only [mem_keysIn, mem_enqueue, Finset.mem_insert]
  constructor
  · rintro ⟨q, hq, hy | ⟨-, hy⟩⟩
    · exact .inr ⟨q, hq, hy⟩
    · exact .inl hy
  · rintro (hy | ⟨q, hq, hy⟩)
    · exact ⟨d, hd, .inr ⟨rfl, hy⟩⟩
    · exact ⟨q, hq, .inl hy⟩

theorem keysIn_forget (honly : ∀ q, k ∈ m.queues q → q = s) :
    keysIn group (forget sub k s m) = (keysIn group m).erase k := by
  ext y
  simp only [mem_keysIn, mem_forget, Finset.mem_erase]
  constructor
  · rintro ⟨q, hq, hy, hne⟩
    exact ⟨fun he => hne (honly q (he ▸ hy)) he, q, hq, hy⟩
  · rintro ⟨hne, q, hq, hy⟩
    exact ⟨q, hq, hy, fun _ => hne⟩

/-- A key that moves into the group joins its keys, unless it was there before. -/
theorem keysIn_promote (hd : d ∈ group) :
    keysIn group (m.relocate k s d) = insert k (keysIn group m) := by
  ext y
  simp only [mem_keysIn, mem_relocate, Finset.mem_insert]
  constructor
  · rintro ⟨q, hq, ⟨hy, -⟩ | ⟨-, hy⟩⟩
    · exact .inr ⟨q, hq, hy⟩
    · exact .inl hy
  · intro hy
    by_cases hyk : y = k
    · exact ⟨d, hd, .inr ⟨rfl, hyk⟩⟩
    · obtain ⟨q, hq, hy⟩ := hy.resolve_left hyk
      exact ⟨q, hq, .inl ⟨hy, fun _ => hyk⟩⟩

/-- A key that moves out of the group leaves its keys. -/
theorem keysIn_demote (honly : ∀ q, k ∈ m.queues q → q = s) (hd : d ∉ group) :
    keysIn group (m.relocate k s d) = (keysIn group m).erase k := by
  ext y
  simp only [mem_keysIn, mem_relocate, Finset.mem_erase]
  constructor
  · rintro ⟨q, hq, ⟨hy, hne⟩ | ⟨he, -⟩⟩
    · exact ⟨fun he => hne (honly q (he ▸ hy)) he, q, hq, hy⟩
    · exact absurd (he ▸ hq) hd
  · rintro ⟨hne, q, hq, hy⟩
    exact ⟨q, hq, .inl ⟨hy, fun _ => hne⟩⟩

theorem Filed.keysIn_remove (h : m.Filed) (sub : Subclass Q α X) (k : α) :
    keysIn group (remove sub k m) = (keysIn group m).erase k := by
  rw [MultipleQueueCacheManager.remove]
  split
  · next hk => rw [Finset.erase_eq_of_notMem (h.notMem_keysIn_of_none hk)]
  · next q hk => exact keysIn_forget (h.only hk)

/-- What the listeners do to an evicted key outside the group does not concern the group. -/
theorem Settles.keysIn (hs : Settles sub settle) (hx : m.currentLocations.lookup x = some d)
    (hd : d ∉ group) : keysIn group (settle x m) = keysIn group m := by
  refine Finset.biUnion_congr rfl fun q hq => ?_
  rw [hs.queues_of_ne hx (fun he => hd (he ▸ hq))]

end Moves

end CachePolicies.MultipleQueueCacheManager
