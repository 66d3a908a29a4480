import Mathlib.Data.Finset.Card
import Mathlib.Data.List.Nodup

/-!
# The elements of a history in order of recency

A history lists accesses, the latest first. Its recency stack lists each accessed element
once, at the place of its last access. The first `n` entries of the stack are the elements
since whose last access fewer than `n` others were accessed, so a bounded store that moves
what is touched to the front, and drops what is beyond its bound, holds exactly these.
-/

namespace CachePolicies

variable {α : Type*} [DecidableEq α]

def recency : List α → List α
  | [] => []
  | a :: history => a :: (recency history).erase a

/-- The other elements that were accessed since the last access to `a`. -/
def since (a : α) (history : List α) : Finset α := (history.takeWhile (· ≠ a)).toFinset

/-- Move `a` to the front of a store, or put it there and drop what is beyond the bound. -/
def touch (n : ℕ) (a : α) (store : List α) : List α :=
  if a ∈ store then a :: store.erase a else (a :: store).take n

variable {a b : α} {l history : List α} {n : ℕ}

@[simp] theorem mem_recency : a ∈ recency history ↔ a ∈ history := by
  induction history with
  | nil => rfl
  | cons b history ih =>
    rw [recency, List.mem_cons, List.mem_cons]
    by_cases h : a = b
    · simp [h]
    · rw [List.mem_erase_of_ne h, ih]

theorem nodup_recency (history : List α) : (recency history).Nodup := by
  induction history with
  | nil => exact List.nodup_nil
  | cons a history ih => exact List.nodup_cons.mpr ⟨ih.not_mem_erase, ih.erase a⟩

theorem length_recency (history : List α) : (recency history).length = history.toFinset.card := by
  rw [← List.toFinset_card_of_nodup (nodup_recency history)]
  congr 1
  ext a
  simp

/-! ## Prefixes of a stack -/

theorem takeWhile_erase (h : b ≠ a) :
    (l.erase b).takeWhile (· ≠ a) = (l.takeWhile (· ≠ a)).erase b := by
  induction l with
  | nil => rfl
  | cons c l ih =>
    by_cases hc : c = a
    · subst hc
      simp [List.erase_cons_tail, h.symm]
    · by_cases hb : c = b
      · subst hb
        simp [h]
      · rw [List.erase_cons_tail (by simpa), List.takeWhile_cons_of_pos (by simpa),
          List.takeWhile_cons_of_pos (by simpa), List.erase_cons_tail (by simpa), ih]

theorem mem_take_iff : a ∈ l.take n ↔ a ∈ l ∧ (l.takeWhile (· ≠ a)).length < n := by
  induction l generalizing n with
  | nil => simp
  | cons b l ih =>
    cases n with
    | zero => simp
    | succ n =>
      by_cases h : b = a
      · simp [h]
      · rw [List.take_succ_cons, List.mem_cons, ih, List.mem_cons, List.takeWhile_cons_of_pos (by simpa)]
        simp [Ne.symm h]

theorem since_recency : since a (recency history) = since a history := by
  induction history with
  | nil => rfl
  | cons b history ih =>
    by_cases h : b = a
    · simp [since, recency, h]
    · have hnodup : ((recency history).takeWhile (· ≠ a)).Nodup :=
        (nodup_recency history).sublist (List.takeWhile_sublist _)
      unfold since at ih ⊢
      rw [recency, List.takeWhile_cons_of_pos (by simpa), List.takeWhile_cons_of_pos (by simpa),
        takeWhile_erase h, List.toFinset_cons, List.toFinset_cons, ← ih, hnodup.erase_eq_filter]
      ext c
      by_cases hc : c = b <;> simp [hc]

@[simp] theorem since_cons_self : since a (a :: history) = ∅ := by
  simp [since]

theorem since_cons_of_ne (h : b ≠ a) : since a (b :: history) = insert b (since a history) := by
  rw [since, List.takeWhile_cons_of_pos (by simpa), List.toFinset_cons]
  rfl

/-- Only the accesses of one kind are counted. -/
theorem since_filter {p : α → Bool} (hp : p a = true) :
    since a (history.filter p) = (since a history).filter fun b => p b = true := by
  induction history with
  | nil => rfl
  | cons b history ih =>
    unfold since at ih ⊢
    by_cases h : b = a
    · subst h
      simp [hp]
    · by_cases hb : p b = true
      · rw [List.filter_cons_of_pos hb, List.takeWhile_cons_of_pos (by simpa),
          List.takeWhile_cons_of_pos (by simpa), List.toFinset_cons, List.toFinset_cons, ih,
          Finset.filter_insert, if_pos hb]
      · rw [List.filter_cons_of_neg hb, List.takeWhile_cons_of_pos (by simpa), ih,
          List.toFinset_cons, Finset.filter_insert, if_neg hb]

/-- The first `n` entries are the elements accessed with fewer than `n` others since. -/
theorem mem_take_recency : a ∈ (recency history).take n ↔ a ∈ history ∧ (since a history).card < n := by
  have hnodup : ((recency history).takeWhile (· ≠ a)).Nodup :=
    (nodup_recency history).sublist (List.takeWhile_sublist _)
  rw [mem_take_iff, mem_recency, ← since_recency, since, List.toFinset_card_of_nodup hnodup]

theorem erase_take_of_mem (h : a ∈ l.take (n + 1)) :
    (l.take (n + 1)).erase a = (l.erase a).take n := by
  induction l generalizing n with
  | nil => simp
  | cons b l ih =>
    by_cases hb : b = a
    · simp [hb]
    · have hmem : a ∈ l.take n := by simpa [Ne.symm hb] using h
      cases n with
      | zero => simp at hmem
      | succ n =>
        rw [List.take_succ_cons, List.erase_cons_tail (by simpa), ih hmem,
          List.erase_cons_tail (by simpa), List.take_succ_cons]

theorem take_erase_of_notMem (h : a ∉ l.take n) : (l.erase a).take n = l.take n := by
  induction l generalizing n with
  | nil => rfl
  | cons b l ih =>
    cases n with
    | zero => simp
    | succ n =>
      rw [List.take_succ_cons, List.mem_cons, not_or] at h
      rw [List.erase_cons_tail (by simpa using Ne.symm h.1), List.take_succ_cons,
        List.take_succ_cons, ih h.2]

/-- Touching an element keeps a store at the first entries of the stack. -/
theorem touch_recency (n : ℕ) (a : α) (history : List α) :
    touch n a ((recency history).take n) = (recency (a :: history)).take n := by
  rw [touch, recency]
  cases n with
  | zero => simp
  | succ n =>
    split
    · next h => rw [erase_take_of_mem h, List.take_succ_cons]
    · next h =>
      have hn : a ∉ (recency history).take n :=
        fun hmem => h ((List.take_prefix_take_left (Nat.le_succ n)).subset hmem)
      rw [List.take_succ_cons, List.take_succ_cons, List.take_take, min_eq_left (Nat.le_succ n),
        take_erase_of_notMem hn]

end CachePolicies
