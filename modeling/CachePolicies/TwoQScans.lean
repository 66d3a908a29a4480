import CachePolicies.MultipleQueueProtocols
import CachePolicies.ScanRuns

/-!
# Scans of the 2Q manager

A scanned key enters `a1In`. Room for it comes out of `am` only while `a1In` holds at most
`kIn` keys, and each such visit brings `a1In` one key closer to that bound.
-/

namespace CachePolicies.TwoQCacheManager

open MultipleQueueCacheManager TwoQQueue

variable {α : Type} [DecidableEq α]

def untracked (m : TwoQCacheManager α) (k : α) : Prop := m.currentLocations.lookup k = none

/-- The keys of `am`. -/
def frequent (m : TwoQCacheManager α) : Finset α := (m.queues am).toFinset

/-- How many keys `am` may still lose. -/
def potential (config : TwoQConfiguration) (m : TwoQCacheManager α) : ℤ :=
  max 0 (config.kIn.val + 1 - (m.queues a1In).length)

section Visits

variable {config : TwoQConfiguration} {k : α} {m m' : TwoQCacheManager α} {l l' : List (Event α)}

/-- What `reclaimForEntry` costs `am`, if the entry then joins `a1In`. -/
theorem Reclaimed.paid (h : Sound config m)
    (hr : Reclaimed config (fun _ m => m) recordEviction m l m' l') :
    frequent m' ⊆ frequent m ∧
      ((frequent m \ frequent m').card : ℤ) +
        max 0 (config.kIn.val + 1 - ((m'.queues a1In).length + 1)) ≤ potential config m := by
  have hm := h.located
  cases hr with
  | room hroom =>
    refine ⟨Finset.Subset.refl _, ?_⟩
    rw [Finset.sdiff_self, Finset.card_empty, potential]
    omega
  | @demoted x xs m' hfull hin hx htrimmed =>
    have hsize := length_relocate (q := a1In) (d := a1Out) hm.filed (LinkedHashSet.mem_of_toList_cons hx)
    simp at hsize
    have ham : m'.queues am = m.queues am := by
      cases htrimmed with
      | kept => exact queues_relocate_of_ne (by decide) (by decide)
      | dropped =>
        rw [queues_forget_of_ne (by decide), queues_relocate_of_ne (by decide) (by decide)]
    have hsame : m'.queues a1In = (m.relocate x a1In a1Out).queues a1In := by
      cases htrimmed with
      | kept => rfl
      | dropped => rw [queues_forget_of_ne (by decide)]
    refine ⟨?_, ?_⟩
    · rw [frequent, ham, frequent]
    · rw [frequent, frequent, ham, Finset.sdiff_self, Finset.card_empty, potential, hsame, hsize]
      omega
  | @evicted x xs hfull hin hx =>
    have hone : (frequent m \ frequent (forget subclass x am m)).card ≤ 1 := by
      refine card_sdiff_le_one (x := x) fun y hy hne => ?_
      rw [frequent, LinkedHashSet.mem_toFinset] at hy ⊢
      exact mem_forget.mpr ⟨hy, fun _ => hne⟩
    refine ⟨?_, ?_⟩
    · intro y hy
      rw [frequent, LinkedHashSet.mem_toFinset] at hy ⊢
      exact (mem_forget.mp hy).1
    · rw [h.size_eq (by decide)] at hin
      rw [queues_forget_of_ne (by decide), potential]
      omega

theorem Visited.scanStep (h : Sound config m) (hk : untracked m k)
    (hv : Visited config (fun _ m => m) recordEviction recordLoad k m [] m' l') :
    ScanStep untracked frequent frequent (potential config) k m m' := by
  unfold untracked at hk
  cases hv with
  | hitAm hlookup => cases hk.symm.trans hlookup
  | hitA1In hlookup => cases hk.symm.trans hlookup
  | ghostHit hlookup => cases hk.symm.trans hlookup
  | @missed m₁ l₁ _ hreclaimed =>
    have hafter := hreclaimed.after (.inl rfl) h
    have hk₁ := hafter.missed k hk
    have hsize := length_enqueue (q := a1In) (hafter.located.filed.notMem_of_none hk₁ a1In)
    simp at hsize
    have ham : frequent (m₁.enqueue k a1In) = frequent m₁ := by
      rw [frequent, queues_enqueue_of_ne (by decide), frequent]
    obtain ⟨hsub, hpaid⟩ := hreclaimed.paid h
    refine ⟨?_, ?_, ?_⟩
    · intro y hy hnone
      exact lookup_enqueue_eq_none.mpr ⟨hy, hafter.missed y hnone⟩
    · rw [ham]
      exact hsub
    · rw [ham, potential, hsize]
      exact hpaid

theorem Sound.scanVisit (hc : Admissible config) (h : Sound config m) (hk : untracked m k)
    {events : List (Event α)} (hok : (manager config).perform m (.visit k) = .ok (m', events)) :
    Sound config m' ∧ ScanStep untracked frequent frequent (potential config) k m m' := by
  obtain ⟨m₁, events₁, hok₁, hv⟩ := visit_cases recorder_responds (.inl rfl) hc h k []
  cases hok₁.symm.trans hok
  exact ⟨(hv.sound (.inl rfl) h).1, hv.scanStep h hk⟩

end Visits

/-- From any reachable state a scan of any length returns, takes a bounded number of keys out of
`am`, and puts none of its own keys there. -/
theorem scan_resistant (config : TwoQConfiguration) (hc : 1 ≤ config.maxNodes.val)
    (hkIn : 0 ≤ config.kIn.val) (hlt : config.kIn.val < config.maxNodes.val)
    (hkOut : 0 ≤ config.kOut.val) {history : History (TwoQCacheManager α) α}
    {m : TwoQCacheManager α} (hrun : (manager config).Reaches history m) (keys : List α)
    (hnodup : keys.Nodup) (huntracked : ∀ k ∈ keys, m.currentLocations.lookup k = none) :
    ∃ scan m', replayFrom (manager config).perform [] m (keys.map .visit) = .ok (scan, m') ∧
      (departures (fun m => (m.queues am).toFinset) scan : ℤ) ≤
        max 0 (config.kIn.val + 1 - (m.queues a1In).length) ∧
      ∀ r ∈ scan, ∀ k ∈ keys, k ∉ r.after.queues am := by
  have hadmissible : Admissible config := ⟨hc, hkIn, hlt, hkOut⟩
  have hprotocol := protocol (α := α) config hadmissible
  have hsound : Sound config m := hprotocol.invariant (.inl rfl) hrun fun _ _ => trivial
  have hperform (_ : History (TwoQCacheManager α) α) (m : TwoQCacheManager α)
      (call : Call α) (h : Sound config m) :
      ∃ m' events, (manager config).perform m call = .ok (m', events) ∧ Sound config m' :=
    hprotocol.perform (.inl rfl) h trivial
  obtain ⟨scan, m', hreplay, -⟩ := exists_replayFrom hperform hsound (keys.map Call.visit)
  have hstep (m : TwoQCacheManager α) (k : α) (m' : TwoQCacheManager α) (events : List (Event α))
      (h : Sound config m) (hk : untracked m k)
      (hok : (manager config).perform m (.visit k) = .ok (m', events)) :
      Sound config m' ∧ ScanStep untracked frequent frequent (potential config) k m m' :=
    h.scanVisit hadmissible hk hok
  obtain ⟨-, hpaid, hscan⟩ := scan_invariant hstep (frequent m) hsound hnodup huntracked
    (Finset.Subset.refl _) (List.forall_mem_nil _) hreplay
  refine ⟨scan, m', hreplay, ?_, ?_⟩
  · have hnonneg : 0 ≤ potential config m' := le_max_left _ _
    have hstart : potential config m = max 0 (config.kIn.val + 1 - (m.queues a1In).length) := rfl
    rw [← hstart]
    exact (le_add_of_nonneg_right hnonneg).trans (hpaid.trans (zero_add _).le)
  · intro r hr k hk hin
    have hfrequent : k ∈ frequent m := hscan r hr (LinkedHashSet.mem_toFinset.mpr hin)
    exact hsound.located.filed.notMem_of_none (huntracked k hk) am
      (LinkedHashSet.mem_toFinset.mp hfrequent)

/-- The scan of three keys takes one of the two keys out of `am`. -/
theorem scan_resistant_pair :
    ∃ history m, (manager (α := ℕ) ⟨3, 1, 2⟩).Reaches history m ∧
      ∃ scan m', replayFrom (manager ⟨3, 1, 2⟩).perform [] m ([7, 8, 9].map .visit) =
          .ok (scan, m') ∧
        (departures (fun m => (m.queues am).toFinset) scan : ℤ) ≤
          max 0 (1 + 1 - (m.queues a1In).length) ∧
        ∀ r ∈ scan, ∀ k ∈ [7, 8, 9], k ∉ r.after.queues am := by
  have hrun : (manager (α := ℕ) ⟨3, 1, 2⟩).Reaches _ _ :=
    run_of_replay [.visit 1, .visit 2, .visit 3, .visit 4, .visit 1, .visit 2] rfl
  exact ⟨_, _, hrun, scan_resistant ⟨3, 1, 2⟩ (by decide) (by decide) (by decide) (by decide) hrun
    [7, 8, 9] (by decide) (by decide)⟩

end CachePolicies.TwoQCacheManager
