import CachePolicies.VisitProtocols

/-!
# Reading a history of calls

A history lists the completed calls of a run, the latest first; the time of a call
is its position, counted from one. A time of zero means that there was no such call.
-/

namespace CachePolicies

variable {α S : Type} [DecidableEq α]

abbrev History (S α : Type) := List (Record S (Call α) (List (Event α)))

/-- The time of the last visit to a key. -/
def lastVisit : History S α → α → ℕ
  | [], _ => 0
  | r :: history, k => if r.call = .visit k then history.length + 1 else lastVisit history k

/-- The time of the last call that loaded a key. -/
def lastLoad : History S α → α → ℕ
  | [], _ => 0
  | r :: history, k => if k ∈ loads r.output then history.length + 1 else lastLoad history k

/-- The visits to a key since it was last untracked, `tracked` telling whether a state
keeps the key in any of its queues. -/
def visitsWhileTracked (tracked : S → α → Bool) : History S α → α → ℕ
  | [], _ => 0
  | r :: history, k =>
    if tracked r.after k then
      visitsWhileTracked tracked history k + if r.call = .visit k then 1 else 0
    else 0

/-- The visits to a key since its last load, the visit that loaded it included. -/
def visitsSinceLoad : History S α → α → ℕ
  | [], _ => 0
  | r :: history, k =>
    if k ∈ loads r.output then 1
    else visitsSinceLoad history k + if r.call = .visit k then 1 else 0

/-- The keys which were loaded and have not been evicted, removed or cleared away since. -/
def heldKeys : History S α → Finset α
  | [] => ∅
  | r :: history =>
    match r.call with
    | .visit _ => (heldKeys history ∪ (loads r.output).toFinset) \ (evictions r.output).toFinset
    | .remove k => (heldKeys history).erase k
    | .clear => ∅

/-- The keys visited so far. -/
def visitedKeys : History S α → Finset α
  | [] => ∅
  | r :: history =>
    match r.call with
    | .visit k => insert k (visitedKeys history)
    | _ => visitedKeys history

variable {history : History S α} {k x : α} {r : Record S (Call α) (List (Event α))} {s s' : S}
  {events : List (Event α)}

theorem lastVisit_le (history : History S α) (k : α) : lastVisit history k ≤ history.length := by
  induction history with
  | nil => exact le_refl 0
  | cons r history ih =>
    rw [lastVisit, List.length_cons]
    split <;> omega

theorem lastLoad_le (history : History S α) (k : α) : lastLoad history k ≤ history.length := by
  induction history with
  | nil => exact le_refl 0
  | cons r history ih =>
    rw [lastLoad, List.length_cons]
    split <;> omega

theorem lastVisit_visit_of_ne (hx : x ≠ k) :
    lastVisit (⟨s, .visit k, events, s'⟩ :: history) x = lastVisit history x := by
  rw [lastVisit, if_neg]
  simpa using hx.symm

/-- The key just visited has the newest stamp. -/
theorem lastVisit_lt (x : α) :
    lastVisit history x < lastVisit (⟨s, .visit k, events, s'⟩ :: history) k := by
  have hle := lastVisit_le history x
  rw [lastVisit, if_pos rfl]
  omega

theorem lastLoad_of_notMem (hx : x ∉ loads r.output) :
    lastLoad (r :: history) x = lastLoad history x := by
  rw [lastLoad, if_neg hx]

theorem lastLoad_lt (hk : k ∈ loads r.output) (x : α) :
    lastLoad history x < lastLoad (r :: history) k := by
  have hle := lastLoad_le history x
  rw [lastLoad, if_pos hk]
  omega

/-- What a visit reports keeps the residents at the keys held according to the history. -/
theorem heldKeys_visit {P : CacheManager α} {maxNodes : ℤ} {m m' : P.State}
    {history : History P.State α} (h : Reported P maxNodes m k m' events)
    (hheld : P.resident m = heldKeys history) :
    P.resident m' = heldKeys (⟨m, .visit k, events, m'⟩ :: history) := by
  rw [heldKeys, ← hheld, h.resident, h.loads]
  by_cases hk : k ∈ P.resident m
  · rw [if_pos hk, Finset.insert_eq_of_mem hk, List.toFinset_nil, Finset.union_empty]
  · rw [if_neg hk, List.toFinset_cons, List.toFinset_nil, Finset.union_comm]
    rfl

theorem visitsSinceLoad_of_mem (hk : k ∈ loads r.output) :
    visitsSinceLoad (r :: history) k = 1 := by
  rw [visitsSinceLoad, if_pos hk]

theorem visitsSinceLoad_of_notMem (hk : k ∉ loads r.output) : visitsSinceLoad (r :: history) k =
    visitsSinceLoad history k + if r.call = .visit k then 1 else 0 := by
  rw [visitsSinceLoad, if_neg hk]

end CachePolicies
