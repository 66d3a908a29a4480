import CachePolicies.MQStrays

/-!
# Where the MQ manager puts a key

Where a visit or a demotion moves a key to the tail of a level, it gives the key a new expiry
time as well. `place` does both, and a demotion comes down to it.
-/

namespace CachePolicies.MQCacheManager

open MultipleQueueCacheManager MQQueue

variable {α L : Type} [DecidableEq α]

/-- The key leaves `s` for the tail of a level, with new metadata. -/
def place (k : α) (s : MQQueue) (j : ℕ) (data : MQMetadata) (m : MQCacheManager α) :
    MQCacheManager α :=
  putMetadata k data (m.relocate k s (level j))

section Steps

variable {clock : ℤ → ℤ} {config : MQConfiguration} {k x : α} {s : MQQueue} {i j : ℕ}
  {data : MQMetadata} {m : MQCacheManager α}

/-- What a round of the loop does to the head of its level. -/
inductive Demotion (clock : ℤ → ℤ) (config : MQConfiguration) (i : ℕ) (m : MQCacheManager α) :
    MQCacheManager α → Prop
  | kept : Demotion clock config i m m
  | made {x : α} (hx : x ∈ m.queues (level i)) (hnone : m.own.metadata.lookup x = none) :
      Demotion clock config i m (putMetadata x ⟨0, 0⟩ m)
  | moved {x : α} {xs : List α} (hx : (m.queues (level i)).toList = x :: xs)
      (hexpired : (getMetadata x m).1.isExpired m.own.currentTime = true) :
      Demotion clock config i m (place x (level i) (i - 1)
        ((getMetadata x m).1.markAsModified clock config m.own.currentTime) m)

theorem getMetadata_of_some (hk : m.own.metadata.lookup k = some data) :
    getMetadata k m = (data, m) := by
  rw [getMetadata, hk]

theorem setMetadata_of_some {data' : MQMetadata} (hk : m.own.metadata.lookup k = some data) :
    setMetadata k data' m = putMetadata k data' m := by
  rw [setMetadata, hk]
  rfl

theorem demotion (clock : ℤ → ℤ) (config : MQConfiguration) (i : ℕ) (m : MQCacheManager α) :
    Demotion clock config i m (demote clock config i m) := by
  rw [demote]
  split
  · exact .kept
  · next x hpeek =>
    obtain ⟨xs, hx⟩ : ∃ xs, (m.queues (level i)).toList = x :: xs := List.head?_eq_some_iff.mp hpeek
    cases hdata : m.own.metadata.lookup x with
    | none =>
      have hget := getMetadata_of_none hdata
      rw [hget]
      split
      · next hexpired =>
        have hmoved : (putMetadata x ⟨0, 0⟩ m).relocate x (level i) (level (i - 1)) =
            putMetadata x ⟨0, 0⟩ (m.relocate x (level i) (level (i - 1))) := rfl
        rw [hmoved, setMetadata_putMetadata]
        have h : Demotion clock config i m _ := .moved hx (by rw [hget]; exact hexpired)
        rw [hget] at h
        exact h
      · exact .made (LinkedHashSet.mem_of_toList_cons hx) hdata
    | some data =>
      have hget := getMetadata_of_some hdata
      rw [hget]
      split
      · next hexpired =>
        rw [setMetadata_of_some (m := m.relocate x (level i) (level (i - 1))) hdata]
        have h : Demotion clock config i m _ := .moved hx (by rw [hget]; exact hexpired)
        rw [hget] at h
        exact h
      · exact .kept

/-- What each round of the loop makes of what held before it holds in the end. -/
theorem demotions_rounds {P : ℕ → MQCacheManager α → Prop} (htick : P 0 (tick clock m))
    (hround : ∀ i m m', i + 1 < queuesSize config → P i m → Demotion clock config (i + 1) m m' →
      P (i + 1) m') : P (queuesSize config - 1) (demotions clock config m) :=
  demotions_stages htick fun i m hi hm => hround i m _ hi hm (demotion clock config (i + 1) m)

theorem lookup_place : (place k s j data m).own.metadata.lookup x =
    if x = k then some data else m.own.metadata.lookup x :=
  lookup_putMetadata

/-- Where the key was in its source queue or in none, the level gets it as its tail. -/
theorem toList_place (honly : ∀ q, k ∈ m.queues q → q = s) :
    ∃ xs, ((place k s j data m).queues (level j)).toList = xs ++ [k] ∧ k ∉ xs ∧
      xs.Sublist (m.queues (level j)).toList := by
  show ∃ xs, ((m.relocate k s (level j)).queues (level j)).toList = xs ++ [k] ∧ _
  by_cases hs : s = level j
  · subst hs
    refine ⟨_, toList_relocate_self, ?_, List.erase_sublist⟩
    exact fun hmem => (m.queues (level j)).nodup.not_mem_erase hmem
  · have hk : k ∉ m.queues (level j) := fun hmem => hs (honly _ hmem).symm
    exact ⟨_, toList_relocate_destination hs hk, hk, List.Sublist.refl _⟩

/-- A visit whose count does not wrap round to zero has the room that it needs. -/
theorem fits_of_counts (hc : 2 ≤ config.maxNodes.val)
    (hcounts : (∃ q, m.currentLocations.lookup k = some q) → Counts k m) :
    Fits config m (.visit k) := by
  change FitsAt config k m (m.currentLocations.lookup k)
  cases hk : m.currentLocations.lookup k with
  | none => exact .inr hc
  | some q =>
    have hcount := hcounts ⟨q, hk⟩
    cases q with
    | level i => exact hcount
    | qOut => exact ⟨.inr hc, hcount⟩

end Steps

end CachePolicies.MQCacheManager
