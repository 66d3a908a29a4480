import CachePolicies.VisitHistories

/-!
# Scans

A scan visits keys which the manager does not track, each of them once. The number of keys
that it drives out of a group of queues is bounded by a potential that pays for each of them,
however long the scan is.
-/

namespace CachePolicies

variable {α S : Type} [DecidableEq α]

/-- How many keys left a group of queues in the calls of a history. -/
def departures (group : S → Finset α) : History S α → ℕ
  | [] => 0
  | r :: history => departures group history + (group r.before \ group r.after).card

/-- What one visit of a scan does: keys to come stay untracked, the protected group gets no new
key, and the potential pays for the keys that leave. -/
structure ScanStep (untracked : S → α → Prop) (leaving guarded : S → Finset α)
    (potential : S → ℤ) (k : α) (m m' : S) : Prop where
  untracked : ∀ y, y ≠ k → untracked m y → untracked m' y
  subset : guarded m' ⊆ guarded m
  paid : ((leaving m \ leaving m').card : ℤ) + potential m' ≤ potential m

/-- Where one key at most is missing from a group, one key at most has left it. -/
theorem card_sdiff_le_one {s s' : Finset α} {x : α} (h : ∀ y ∈ s, y ≠ x → y ∈ s') :
    (s \ s').card ≤ 1 := by
  have hsub : s \ s' ⊆ {x} := by
    intro y hy
    obtain ⟨hy, hgone⟩ := Finset.mem_sdiff.mp hy
    rw [Finset.mem_singleton]
    by_contra hne
    exact hgone (h y hy hne)
  exact (Finset.card_le_card hsub).trans (Finset.card_singleton x).le

section Runs

variable {step : S → Call α → Java (S × List (Event α))} {Inv : S → Prop}
  {untracked : S → α → Prop} {leaving guarded : S → Finset α} {potential : S → ℤ}

/-- A scan, as far as its visits return, takes no more keys out of the group than the potential
pays for, and puts none of its keys into the protected group. -/
theorem scan_invariant
    (hstep : ∀ m k m' events, Inv m → untracked m k → step m (.visit k) = .ok (m', events) →
      Inv m' ∧ ScanStep untracked leaving guarded potential k m m')
    (held : Finset α) {keys : List α} {history history' : History S α} {m m' : S} (hinv : Inv m)
    (hnodup : keys.Nodup) (huntracked : ∀ k ∈ keys, untracked m k) (hheld : guarded m ⊆ held)
    (hhistory : ∀ r ∈ history, guarded r.after ⊆ held)
    (hreplay : replayFrom step history m (keys.map .visit) = .ok (history', m')) :
    Inv m' ∧ (departures leaving history' : ℤ) + potential m' ≤
        departures leaving history + potential m ∧
      ∀ r ∈ history', guarded r.after ⊆ held := by
  induction keys generalizing history m with
  | nil =>
    cases hreplay
    exact ⟨hinv, le_refl _, hhistory⟩
  | cons k keys ih =>
    obtain ⟨hnotMem, hnodup⟩ := List.nodup_cons.mp hnodup
    rw [List.map_cons, replayFrom] at hreplay
    split at hreplay
    · cases hreplay
    · next m₁ events hok =>
      obtain ⟨hinv₁, hscan⟩ := hstep m k m₁ events hinv (huntracked k List.mem_cons_self) hok
      have huntracked₁ (y : α) (hy : y ∈ keys) : untracked m₁ y :=
        hscan.untracked y (fun he => hnotMem (he ▸ hy)) (huntracked y (List.mem_cons_of_mem k hy))
      have hheld₁ := hscan.subset.trans hheld
      obtain ⟨hinv', hpaid, hall⟩ := ih hinv₁
        hnodup huntracked₁ hheld₁
        (List.forall_mem_cons.mpr ⟨hheld₁, hhistory⟩) hreplay
      refine ⟨hinv', hpaid.trans ?_, hall⟩
      have hstepPaid := hscan.paid
      rw [departures]
      push_cast
      omega

end Runs

end CachePolicies
