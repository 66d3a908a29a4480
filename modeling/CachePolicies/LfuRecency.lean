import CachePolicies.LfuManagers
import CachePolicies.RecencyLists
import CachePolicies.VisitHistories

/-!
# Frequency and recency in the LFU manager

As long as no count is at the end of its range when its key is visited, a count is the number
of visits since the load of its key, and every queue is in order of the last visits, though
queues are dropped when they are empty and made again later. So the head of the first queue
is the least recently visited one among the least frequently visited keys.
-/

namespace CachePolicies.LfuCacheManager

variable {α : Type} [DecidableEq α]

/-- What a visit to `k` does to the manager, and the events it fires. -/
inductive Visited (config : LfuConfiguration) (k : α) (m : LfuCacheManager α) :
    LfuCacheManager α → List (Event α) → Prop
  | hit {visits : ℤ} (hk : m.visitCounts.lookup k = some visits) :
      Visited config k m (enlist k (int32 (visits + 1)) (discard k visits m)) []
  | room (hk : m.visitCounts.lookup k = none) :
      Visited config k m (enlist k 1 m) [.objectLoaded k]
  | replaced {x : α} {xs : List α} {visits : ℤ} (hk : m.visitCounts.lookup k = none)
      (hfirst : firstKey m = .ok visits) (hx : (counted visits m).toList = x :: xs) :
      Visited config k m (enlist k 1 (discard x visits m))
        [.objectReadyForEviction x, .objectLoaded k]

section Visits

variable {config : LfuConfiguration} {k x y : α} {m m' : LfuCacheManager α}
  {events : List (Event α)} {visits count : ℤ}

theorem Sound.visited (hc : 1 ≤ config.maxNodes.val) (h : Sound config m) (k : α) :
    ∃ m' events, (manager config).perform m (.visit k) = .ok (m', events) ∧
      Visited config k m m' events := by
  simp only [CacheManager.perform, manager, LfuCacheManager.visit]
  cases hk : m.visitCounts.lookup k with
  | some visits =>
    refine ⟨_, _, ?_, .hit hk⟩
    simp only [h.filed.getQueue hk, Java.ok_bind, enlist_discard]
  | none =>
    by_cases hfull : m.visitCounts.size ≥ config.maxNodes.val
    · have hcard := (HashMap.le_size_iff config.maxNodes.property.2).mp hfull
      have hne : (resident m).Nonempty := Finset.card_pos.mp (by unfold resident; omega)
      obtain ⟨visits, x, xs, hfirst, hx⟩ := h.filed.firstKey hne
      have hxloc : m.visitCounts.lookup x = some visits :=
        (h.filed.lookup x visits).mpr (LinkedHashSet.mem_of_toList_cons hx)
      refine ⟨_, _, ?_, .replaced hk hfirst hx⟩
      simp only [LfuCacheManager.makeRoom, if_pos hfull, hfirst, h.filed.getQueue hxloc,
        LinkedHashSet.take_cons hx, Java.ok_bind, recorder_responds.evict, recorder_responds.load]
      rfl
    · refine ⟨_, _, ?_, .room hk⟩
      simp only [LfuCacheManager.makeRoom, if_neg hfull, Java.ok_bind, recorder_responds.load]
      rfl

/-- The first key is the least count in use. -/
theorem Filed.firstKey_le (h : Filed m) (hfirst : LfuCacheManager.firstKey m = .ok visits)
    (hy : m.visitCounts.lookup y = some count) : visits ≤ count := by
  have hin := (h.lookup y count).mp hy
  have hkey : count ∈ m.priorityQueue.keys := by
    rw [Finmap.mem_keys, ← Finmap.lookup_isSome, Option.isSome_iff_ne_none]
    intro hnone
    rw [counted, hnone] at hin
    exact LinkedHashSet.notMem_empty y hin
  rw [LfuCacheManager.firstKey] at hfirst
  split at hfirst
  · cases hfirst
  · next hmin =>
    cases hfirst
    exact Finset.min_le_of_eq hkey hmin

/-! ## The queues after a visit -/

/-- Each queue has lost some keys, and at most got the visited key at its end. -/
def Requeued (k : α) (m m' : LfuCacheManager α) : Prop :=
  ∀ count, ∃ l : List α, l.Sublist (counted count m).toList ∧ k ∉ l ∧
    ((counted count m').toList = l ∨ (counted count m').toList = l ++ [k])

theorem discard_sublist (k : α) (visits count : ℤ) (m : LfuCacheManager α) :
    (counted count (discard k visits m)).toList.Sublist (counted count m).toList := by
  have hqueue : counted count (discard k visits m) =
      if count = visits then (counted visits m).remove k else counted count m := counted_keepQueue
  rw [hqueue]
  split
  · next h =>
    rw [h]
    exact List.erase_sublist
  · exact List.Sublist.refl _

theorem Filed.requeued_enlist (h : Filed m) (hk : m.visitCounts.lookup k = none) (visits : ℤ) :
    Requeued k m (LfuCacheManager.enlist k visits m) := by
  intro count
  have hnot (count : ℤ) : k ∉ counted count m := by
    rw [← h.lookup, hk]
    simp
  refine ⟨(counted count m).toList, List.Sublist.refl _, hnot count, ?_⟩
  rw [counted_enlist]
  split
  · next he =>
    subst he
    exact .inr (LinkedHashSet.toList_add (hnot count))
  · exact .inl rfl

omit [DecidableEq α] in
theorem Requeued.of_sublist {m₁ : LfuCacheManager α} (h : Requeued k m₁ m')
    (hsub : ∀ count, (counted count m₁).toList.Sublist (counted count m).toList) :
    Requeued k m m' := by
  intro count
  obtain ⟨l, hl, hk, hcount⟩ := h count
  exact ⟨l, hl.trans (hsub count), hk, hcount⟩

theorem lookup_discard : (discard k visits m).visitCounts.lookup y =
    if y = k then none else m.visitCounts.lookup y :=
  HashMap.lookup_erase_eq _ _ _

theorem lookup_enlist : (enlist k visits m).visitCounts.lookup y =
    if y = k then some visits else m.visitCounts.lookup y :=
  HashMap.lookup_insert_eq _ _ _ _

theorem Visited.requeued (h : Filed m) (hv : Visited config k m m' events) :
    Requeued k m m' := by
  cases hv with
  | @hit visits hk =>
    have hgone : (discard k visits m).visitCounts.lookup k = none := by
      rw [lookup_discard, if_pos rfl]
    exact ((h.discard hk).requeued_enlist hgone _).of_sublist fun c => discard_sublist k visits c m
  | room hk => exact h.requeued_enlist hk 1
  | @replaced x xs visits hk hfirst hx =>
    have hxloc : m.visitCounts.lookup x = some visits :=
      (h.lookup x visits).mpr (LinkedHashSet.mem_of_toList_cons hx)
    have hgone : (discard x visits m).visitCounts.lookup k = none := by
      rw [lookup_discard, hk, ite_self]
    exact ((h.discard hxloc).requeued_enlist hgone 1).of_sublist
      fun c => discard_sublist x visits c m

end Visits

/-! ## Whole runs -/

/-- The calls other than `remove`. -/
inductive KeptCall (α : Type)
  | visit (hit : α)
  | clear

def KeptCall.toCall : KeptCall α → Call α
  | .visit hit => .visit hit
  | .clear => .clear

section Runs

variable {config : LfuConfiguration} {k x : α} {m m' : LfuCacheManager α}
  {history : History (LfuCacheManager α) α} {events : List (Event α)}

/-- One call on a manager beside the history of its calls. -/
def noting (config : LfuConfiguration) (t : History (LfuCacheManager α) α × LfuCacheManager α)
    (call : KeptCall α) :
    Java ((History (LfuCacheManager α) α × LfuCacheManager α) × List (Event α)) := do
  let r ← (manager config).perform t.2 call.toCall
  .ok ((⟨t.2, call.toCall, r.2, r.1⟩ :: t.1, r.1), r.2)

/-- The counts are those of the visits since the loads of the keys held. -/
structure CountsVisits (history : History (LfuCacheManager α) α) (m : LfuCacheManager α) : Prop where
  held : resident m = heldKeys history
  count : ∀ k ∈ resident m, m.visitCounts.lookup k = some (visitsSinceLoad history k : ℤ)

/-- No key was counted less than `x`, and `x` is the least recently visited one of its count. -/
def LeastFrequent (history : History (LfuCacheManager α) α) (m : LfuCacheManager α) (x : α) : Prop :=
  ∃ visits, m.visitCounts.lookup x = some visits ∧
    ∀ y count, m.visitCounts.lookup y = some count → visits ≤ count ∧
      (count = visits → y ≠ x → lastVisit history x < lastVisit history y)

/-- A call leaves exact counts, and evicts a least frequent key at most. -/
structure Exact (r : Record (History (LfuCacheManager α) α × LfuCacheManager α) (KeptCall α)
    (List (Event α))) : Prop where
  counts : CountsVisits r.after.1 r.after.2
  victim : ∀ x ∈ evictions r.output, LeastFrequent r.before.1 r.before.2 x

/-- The count of a visited key can be raised. -/
def Countable (t : History (LfuCacheManager α) α × LfuCacheManager α) : KeptCall α → Prop
  | .visit k => t.2.visitCounts.lookup k ≠ some 2147483647
  | .clear => True

instance (t : History (LfuCacheManager α) α × LfuCacheManager α) (call : KeptCall α) :
    Decidable (Countable t call) :=
  match call with
  | .visit _ => inferInstanceAs (Decidable (_ ≠ _))
  | .clear => .isTrue trivial

structure Recent (config : LfuConfiguration) (history : History (LfuCacheManager α) α)
    (m : LfuCacheManager α) : Prop where
  sound : Sound config m
  counts : CountsVisits history m
  count_le : ∀ k visits, m.visitCounts.lookup k = some visits → 0 < visits ∧ visits ≤ 2147483647
  increasing : ∀ count, Increasing (lastVisit history) (counted count m).toList

theorem recent_initial (hc : 0 ≤ config.maxNodes.val)
    (hheld : heldKeys history = ∅) : Recent config history (initial (α := α)) := by
  refine ⟨sound_initial hc, ⟨?_, ?_⟩, ?_, ?_⟩
  · rw [hheld]
    rfl
  · intro k hk
    cases hk
  · intro k visits hk
    cases hk
  · exact fun _ => Increasing.nil

/-- The visited key has the newest stamp wherever it goes. -/
theorem Recent.increasing_visit (h : Recent config history m) (hr : Requeued k m m') (count : ℤ) :
    Increasing (lastVisit (⟨m, .visit k, events, m'⟩ :: history)) (counted count m').toList := by
  obtain ⟨l, hsub, hk, hcount⟩ := hr count
  have hsame : ∀ x ∈ l, lastVisit (⟨m, .visit k, events, m'⟩ :: history) x = lastVisit history x :=
    fun x hx => lastVisit_visit_of_ne fun he => hk (he ▸ hx)
  have hl := (h.increasing count).sublist hsub
  rcases hcount with hcount | hcount
  · rw [hcount]
    exact hl.congr hsame
  · rw [hcount]
    exact hl.touch hsame fun x _ => lastVisit_lt x

theorem Recent.lookup (h : Recent config history m) {visits : ℤ}
    (hk : m.visitCounts.lookup k = some visits) : visits = visitsSinceLoad history k := by
  have hcount := h.counts.count k (mem_resident.mpr ⟨visits, hk⟩)
  exact Option.some.inj (hk.symm.trans hcount)

theorem Recent.leastFrequent (h : Recent config history m) (hv : Visited config k m m' events) :
    ∀ x ∈ evictions events, LeastFrequent history m x := by
  cases hv with
  | hit hk => exact fun x hx => nomatch hx
  | room hk => exact fun x hx => nomatch hx
  | @replaced y ys visits hk hfirst hy =>
    intro x hx
    have hone : evictions [Event.objectReadyForEviction y, .objectLoaded k] = [y] := rfl
    rw [hone, List.mem_singleton] at hx
    subst hx
    have hfiled := h.sound.filed
    refine ⟨visits, (hfiled.lookup x visits).mpr (LinkedHashSet.mem_of_toList_cons hy), ?_⟩
    intro z count hz
    refine ⟨hfiled.firstKey_le hfirst hz, ?_⟩
    rintro rfl hne
    have hin := (hfiled.lookup z count).mp hz
    have hincreasing := h.increasing count
    rw [LinkedHashSet.mem_def, hy] at hin
    rw [hy] at hincreasing
    exact (List.pairwise_cons.mp hincreasing).1 z ((List.mem_cons.mp hin).resolve_left hne)

/-- What the counts are after a visit, in the case that it finds its key. -/
theorem Recent.visit_counts (h : Recent config history m) (hv : Visited config k m m' events)
    (hcount : m.visitCounts.lookup k ≠ some 2147483647) :
    ∀ x visits, m'.visitCounts.lookup x = some visits → 0 < visits ∧ visits ≤ 2147483647 ∧
      visits = visitsSinceLoad (⟨m, .visit k, events, m'⟩ :: history) x := by
  have hother {x : α} {n : ℤ} (hx : x ≠ k) (hload : ∀ y ∈ loads events, y = k)
      (hn : m.visitCounts.lookup x = some n) : 0 < n ∧ n ≤ 2147483647 ∧
        n = visitsSinceLoad (⟨m, .visit k, events, m'⟩ :: history) x := by
    have hcall : (Call.visit k : Call α) ≠ .visit x := by simpa using hx.symm
    rw [visitsSinceLoad_of_notMem fun hin => hx (hload x hin), if_neg hcall, add_zero]
    obtain ⟨hpos, hle⟩ := h.count_le x n hn
    exact ⟨hpos, hle, h.lookup hn⟩
  have hloaded (hload : k ∈ loads events) : (0 : ℤ) < 1 ∧ (1 : ℤ) ≤ 2147483647 ∧
      (1 : ℤ) = visitsSinceLoad (⟨m, .visit k, events, m'⟩ :: history) k := by
    refine ⟨by omega, by omega, ?_⟩
    rw [visitsSinceLoad_of_mem hload]
    rfl
  intro x n hx
  cases hv with
  | @hit visits hk =>
    rw [lookup_enlist] at hx
    split at hx
    · next he =>
      subst he
      obtain ⟨hpos, hle⟩ := h.count_le x visits hk
      have hne : visits ≠ 2147483647 := fun he => hcount (he ▸ hk)
      have hint : IsInt (visits + 1) := by
        constructor <;> omega
      rw [int32_of_isInt hint] at hx
      cases hx
      refine ⟨by omega, by omega, ?_⟩
      rw [visitsSinceLoad_of_notMem (by simp), if_pos rfl, h.lookup hk]
      rfl
    · next hne =>
      rw [lookup_discard, if_neg hne] at hx
      exact hother hne (by simp) hx
  | room hk =>
    have hload : loads [Event.objectLoaded k] = [k] := rfl
    rw [lookup_enlist] at hx
    split at hx
    · next he =>
      subst he
      cases hx
      exact hloaded (by simp [hload])
    · next hne => exact hother hne (by simp [hload]) hx
  | @replaced y ys visits hk hfirst hy =>
    have hload : loads [Event.objectReadyForEviction y, .objectLoaded k] = [k] := rfl
    rw [lookup_enlist] at hx
    split at hx
    · next he =>
      subst he
      cases hx
      exact hloaded (by simp [hload])
    · next hne =>
      rw [lookup_discard] at hx
      split at hx
      · cases hx
      · exact hother hne (by simp [hload]) hx

theorem Recent.visited (hc : 1 ≤ config.maxNodes.val) (h : Recent config history m)
    (hok : (manager config).perform m (.visit k) = .ok (m', events))
    (hv : Visited config k m m' events) (hcount : m.visitCounts.lookup k ≠ some 2147483647) :
    Recent config (⟨m, .visit k, events, m'⟩ :: history) m' := by
  obtain ⟨m₁, events₁, hok₁, hsound, hreported⟩ :=
    (protocol config hc).visit_reported rfl (k := k) h.sound trivial
  cases hok₁.symm.trans hok
  have hcounts := h.visit_counts hv hcount
  refine ⟨hsound, ⟨heldKeys_visit hreported h.counts.held, ?_⟩, ?_, ?_⟩
  · intro x hx
    obtain ⟨visits, hlookup⟩ := mem_resident.mp hx
    rw [hlookup, (hcounts x visits hlookup).2.2]
  · intro x visits hlookup
    obtain ⟨hpos, hle, -⟩ := hcounts x visits hlookup
    exact ⟨hpos, hle⟩
  · exact h.increasing_visit (hv.requeued h.sound.filed)

theorem Recent.noting (hc : 1 ≤ config.maxNodes.val)
    {t : History (LfuCacheManager α) α × LfuCacheManager α} (h : Recent config t.1 t.2)
    {call : KeptCall α} (hcount : Countable t call) :
    ∃ t' events, LfuCacheManager.noting config t call = .ok (t', events) ∧
      Recent config t'.1 t'.2 ∧ Exact ⟨t, call, events, t'⟩ := by
  cases call with
  | visit k =>
    obtain ⟨m', events, hok, hv⟩ := h.sound.visited hc k
    have h' := h.visited hc hok hv hcount
    refine ⟨(⟨t.2, .visit k, events, m'⟩ :: t.1, m'), events, ?_, h', h'.counts,
      h.leastFrequent hv⟩
    rw [LfuCacheManager.noting, KeptCall.toCall, hok]
    rfl
  | clear =>
    have h' : Recent config (⟨t.2, .clear, [], initial⟩ :: t.1) (initial (α := α)) :=
      recent_initial (by omega) rfl
    exact ⟨_, _, rfl, h', h'.counts, fun x hx => nomatch hx⟩

/-- A count which has wrapped round is no number of visits. -/
theorem Recent.countable (hc : 1 ≤ config.maxNodes.val)
    {t t' : History (LfuCacheManager α) α × LfuCacheManager α} (h : Recent config t.1 t.2)
    {call : KeptCall α} (hok : LfuCacheManager.noting config t call = .ok (t', events))
    (hexact : Exact ⟨t, call, events, t'⟩) : Countable t call := by
  cases call with
  | visit k =>
    intro hlast
    obtain ⟨m', events', hperform, hv⟩ := h.sound.visited hc k
    rw [LfuCacheManager.noting, KeptCall.toCall, hperform] at hok
    cases hok
    cases hv with
    | @hit visits hk =>
      cases hk.symm.trans hlast
      have hwrapped := hexact.counts.count k
        (by rw [resident_enlist]; exact Finset.mem_insert_self _ _)
      rw [lookup_enlist, if_pos rfl] at hwrapped
      have hneg : int32 (2147483647 + 1) < 0 := by decide
      rw [Option.some.inj hwrapped] at hneg
      exact absurd hneg (not_lt.mpr (Int.natCast_nonneg _))
    | room hk => cases hk.symm.trans hlast
    | replaced hk => cases hk.symm.trans hlast
  | clear => trivial

/-- The counts are exact and every victim is a least frequent key, exactly when no key is visited
whose count is at the end of its range. -/
theorem exact_iff_countable (config : LfuConfiguration) (hc : 1 ≤ config.maxNodes.val)
    (calls : List (KeptCall α)) :
    Succeeds (noting config) Exact ([], initial) calls ↔
      Admitted (noting config) Countable ([], initial (α := α)) calls := by
  have hinitial : Recent config [] (initial (α := α)) := recent_initial (by omega) rfl
  have hstep (t : History (LfuCacheManager α) α × LfuCacheManager α) (call : KeptCall α)
      (h : Recent config t.1 t.2) (hcount : Countable t call) := h.noting hc hcount
  exact succeeds_iff_admitted hstep
    (fun t call t' events h hok hexact => h.countable hc hok hexact) hinitial

/-- A key that is loaded, found again, evicted by another one and loaded anew. -/
theorem exact_twoNodes :
    Succeeds (noting ⟨2⟩) Exact ([], initial (α := ℕ))
      [.visit 1, .visit 1, .visit 2, .visit 3, .visit 3, .visit 2, .clear, .visit 1] :=
  (exact_iff_countable ⟨2⟩ (by decide) _).mpr (by decide)

/-! ## A count that wraps round -/

/-- As many visits as take a count beyond the end of its range leave it wrong. -/
theorem Recent.not_exact_replicate (hc : 1 ≤ config.maxNodes.val) (n : ℕ) :
    ∀ {t : History (LfuCacheManager α) α × LfuCacheManager α} {visits : ℤ},
      Recent config t.1 t.2 → t.2.visitCounts.lookup k = some visits →
        visits + (n + 1 : ℕ) = 2147483648 →
        ¬Succeeds (LfuCacheManager.noting config) Exact t (List.replicate (n + 1) (.visit k)) := by
  induction n with
  | zero =>
    rintro t visits h hk hsum ⟨t', events, hok, hexact, -⟩
    have hlast : visits = 2147483647 := by omega
    exact h.countable hc hok hexact (hlast ▸ hk)
  | succ n ih =>
    rintro t visits h hk hsum ⟨t', events, hok, hexact, hrest⟩
    have hcount : Countable t (.visit k) := by
      intro hlast
      cases hlast.symm.trans hk
      omega
    obtain ⟨t₁, events₁, hok₁, h₁, hexact₁⟩ := h.noting hc hcount
    cases hok₁.symm.trans hok
    obtain ⟨m', events', hperform, hv⟩ := h.sound.visited hc k
    rw [LfuCacheManager.noting, KeptCall.toCall, hperform] at hok
    cases hok
    cases hv with
    | @hit visits' hk' =>
      cases hk'.symm.trans hk
      have hint : IsInt (visits + 1) := by
        obtain ⟨hpos, -⟩ := h.count_le k visits hk
        constructor <;> omega
      have hsum' : visits + 1 + (n + 1 : ℕ) = 2147483648 := by
        push_cast at hsum ⊢
        omega
      refine ih h₁ ?_ hsum' hrest
      rw [int32_of_isInt hint, lookup_enlist, if_pos rfl]
    | room hk' => cases hk'.symm.trans hk
    | replaced hk' => cases hk'.symm.trans hk

/-- The last of `2 ^ 31` visits to one key leaves it with a negative count. -/
theorem not_exact_oneNode :
    ¬∀ calls : List (KeptCall ℕ), Succeeds (noting ⟨1⟩) Exact ([], initial) calls := by
  intro h
  have hinitial : Recent ⟨1⟩ [] (initial (α := ℕ)) := recent_initial (by decide) rfl
  obtain ⟨t, events, hok, -, hrest⟩ :=
    h (.visit 1 :: List.replicate (2147483646 + 1) (.visit 1))
  have hcount : Countable (([], initial) : History (LfuCacheManager ℕ) ℕ × _) (.visit 1) := by
    decide
  obtain ⟨t₁, events₁, hok₁, h₁, -⟩ := Recent.noting (by decide) hinitial hcount
  cases hok₁.symm.trans hok
  have hone : t.2.visitCounts.lookup 1 = some 1 := by
    cases hok
    decide
  exact h₁.not_exact_replicate (by decide) 2147483646 hone (by omega) hrest

end Runs

end CachePolicies.LfuCacheManager
