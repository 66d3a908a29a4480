import CachePolicies.RecencyStacks
import CachePolicies.VisitHistories

/-!
# The keys visited last

The visits of a history, read as accesses, have a recency stack; the times of the last
visits order its keys. A visit to one of the first `n` keys permutes these, and any other
visit displaces one of them at most.
-/

namespace CachePolicies

variable {α S : Type} [DecidableEq α]

omit [DecidableEq α] in
/-- The keys of the visits, the latest first. -/
def visits : History S α → List α
  | [] => []
  | r :: history =>
    match r.call with
    | .visit k => k :: visits history
    | _ => visits history

/-- The `n` keys visited last. -/
def recents (n : ℕ) (history : History S α) : Finset α :=
  ((recency (visits history)).take n).toFinset

/-- The key was visited, and neither removed nor cleared away since. -/
def Remembered : History S α → α → Prop
  | [], _ => False
  | r :: history, x =>
    match r.call with
    | .visit k => x = k ∨ Remembered history x
    | .remove k => x ≠ k ∧ Remembered history x
    | .clear => False

instance decidableRemembered : (history : History S α) → (x : α) → Decidable (Remembered history x)
  | [], _ => .isFalse id
  | ⟨_, .visit _, _, _⟩ :: history, x =>
    letI := decidableRemembered history x
    inferInstanceAs (Decidable (_ ∨ _))
  | ⟨_, .remove _, _, _⟩ :: history, x =>
    letI := decidableRemembered history x
    inferInstanceAs (Decidable (_ ∧ _))
  | ⟨_, .clear, _, _⟩ :: _, _ => .isFalse id

variable {history : History S α} {k x y : α} {n : ℕ} {s s' : S} {events : List (Event α)}

omit [DecidableEq α] in
theorem Remembered.mem_visits (h : Remembered history x) : x ∈ visits history := by
  induction history with
  | nil => exact h.elim
  | cons r history ih =>
    obtain ⟨m, call, events, m'⟩ := r
    cases call with
    | visit k =>
      rcases h with rfl | h
      · exact List.mem_cons_self
      · exact List.mem_cons_of_mem k (ih h)
    | remove k => exact ih h.2
    | clear => exact h.elim

omit [DecidableEq α] in
/-- Without removals, a key that was visited is remembered. -/
theorem remembered_of_visits (hvisits : Meets (fun _ call => ∃ k, call = .visit k) history)
    (hx : x ∈ visits history) : Remembered history x := by
  induction history with
  | nil => cases hx
  | cons r history ih =>
    obtain ⟨⟨k, hk⟩, hrest⟩ := meets_cons.mp hvisits
    obtain ⟨m, call, events, m'⟩ := r
    obtain rfl : call = .visit k := hk
    rcases List.mem_cons.mp hx with rfl | hx
    · exact .inl rfl
    · exact .inr (ih hrest hx)

omit [DecidableEq α] in
theorem length_visits (hvisits : Meets (fun _ call => ∃ k, call = .visit k) history) :
    (visits history).length = history.length := by
  induction history with
  | nil => rfl
  | cons r history ih =>
    obtain ⟨⟨k, hk⟩, hrest⟩ := meets_cons.mp hvisits
    obtain ⟨m, call, events, m'⟩ := r
    obtain rfl : call = .visit k := hk
    rw [visits, List.length_cons, List.length_cons, ih hrest]

theorem mem_recents :
    x ∈ recents n history ↔ x ∈ visits history ∧ (since x (visits history)).card < n := by
  rw [recents, List.mem_toFinset, mem_take_recency]

theorem card_recents_le (n : ℕ) (history : History S α) : (recents n history).card ≤ n :=
  (List.toFinset_card_le _).trans (List.length_take_le _ _)

theorem lastVisit_pos_iff : 0 < lastVisit history x ↔ x ∈ visits history := by
  induction history with
  | nil => simp [lastVisit, visits]
  | cons r history ih =>
    obtain ⟨m, call, events, m'⟩ := r
    cases call with
    | visit k =>
      by_cases hx : k = x
      · simp [lastVisit, visits, hx]
      · simp [lastVisit, visits, hx, Ne.symm hx, ih]
    | remove k => simpa [lastVisit, visits] using ih
    | clear => simpa [lastVisit, visits] using ih

/-- The keys visited since the last visit to a key are those with a later last visit. -/
theorem mem_since_visits (hx : x ∈ visits history) :
    y ∈ since x (visits history) ↔ lastVisit history x < lastVisit history y := by
  induction history with
  | nil => cases hx
  | cons r history ih =>
    obtain ⟨m, call, events, m'⟩ := r
    cases call with
    | visit k =>
      have hle := lastVisit_le history x
      have hle' := lastVisit_le history y
      by_cases hk : k = x
      · subst hk
        have hlast := lastVisit_le (⟨m, .visit k, events, m'⟩ :: history) y
        have hnow : lastVisit (⟨m, .visit k, events, m'⟩ :: history) k = history.length + 1 :=
          if_pos rfl
        rw [visits, since_cons_self, hnow]
        rw [List.length_cons] at hlast
        exact iff_of_false (Finset.notMem_empty y) (not_lt.mpr hlast)
      · have hmem : x ∈ visits history := by simpa [visits, Ne.symm hk] using hx
        rw [visits, since_cons_of_ne hk, Finset.mem_insert, ih hmem]
        by_cases hy : y = k
        · subst hy
          simp [lastVisit, hk]
          omega
        · simp [lastVisit, hk, hy, Ne.symm hy]
    | remove k => exact ih hx
    | clear => exact ih hx

/-- What was visited after one of the `n` last keys is one of these as well. -/
theorem mem_recents_of_le (hx : x ∈ recents n history)
    (hle : lastVisit history x ≤ lastVisit history y) : y ∈ recents n history := by
  obtain ⟨hmem, hcard⟩ := mem_recents.mp hx
  have hpos := lastVisit_pos_iff.mpr hmem
  have hy : y ∈ visits history := lastVisit_pos_iff.mp (by omega)
  refine mem_recents.mpr ⟨hy, lt_of_le_of_lt (Finset.card_le_card ?_) hcard⟩
  intro z hz
  have hlt := (mem_since_visits hy).mp hz
  exact (mem_since_visits hmem).mpr (by omega)

theorem recents_visit :
    recents n (⟨s, .visit k, events, s'⟩ :: history) =
      (touch n k ((recency (visits history)).take n)).toFinset := by
  rw [recents, visits, touch_recency]

theorem recents_visit_of_mem (hk : k ∈ recents n history) :
    recents n (⟨s, .visit k, events, s'⟩ :: history) = recents n history := by
  have hmem : k ∈ (recency (visits history)).take n := List.mem_toFinset.mp hk
  rw [recents_visit, touch, if_pos hmem]
  ext x
  by_cases hx : x = k
  · simp [hx, hk]
  · simp [recents, hx, List.mem_erase_of_ne hx]

/-- A visit to another key takes the place of one of the keys at most. -/
theorem recents_visit_of_notMem (hk : k ∉ recents n history) (hn : 1 ≤ n) :
    k ∈ recents n (⟨s, .visit k, events, s'⟩ :: history) ∧
      (recents n history \ recents n (⟨s, .visit k, events, s'⟩ :: history)).card ≤ 1 := by
  obtain ⟨n, rfl⟩ := Nat.exists_eq_add_of_le' hn
  have hmem : k ∉ (recency (visits history)).take (n + 1) := fun h => hk (List.mem_toFinset.mpr h)
  rw [recents_visit, touch, if_neg hmem, List.take_succ_cons, List.take_take,
    min_eq_left (Nat.le_succ n), List.mem_toFinset]
  refine ⟨List.mem_cons_self, ?_⟩
  have hsplit : (recency (visits history)).take (n + 1) =
      (recency (visits history)).take n ++ ((recency (visits history)).drop n).take 1 := by
    rw [← List.take_add]
  have hsub : recents (n + 1) history \ (k :: (recency (visits history)).take n).toFinset ⊆
      (((recency (visits history)).drop n).take 1).toFinset := by
    intro x hx
    obtain ⟨hx, hnot⟩ := Finset.mem_sdiff.mp hx
    rw [recents, hsplit, List.mem_toFinset, List.mem_append] at hx
    rw [List.mem_toFinset, List.mem_cons, not_or] at hnot
    exact List.mem_toFinset.mpr (hx.resolve_left hnot.2)
  exact (Finset.card_le_card hsub).trans ((List.toFinset_card_le _).trans (List.length_take_le _ _))

end CachePolicies
