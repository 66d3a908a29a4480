import CachePolicies.VisitProtocols

/-!
# The cache hit simulator

`testPerformance` visits the keys of a trace, counts the loads in an `int` and takes all
other visits for hits. For a manager that keeps to the load and evict protocol these
are the visits to resident keys.
-/

namespace CachePolicies

structure SimulatorConfiguration (α : Type) where
  policy : CacheManager α
  fqnSource : List α
  showProgressEvery : JavaInt

namespace CacheHitSimulator

variable {α M : Type}

/-- `CountingListener`, which remembers its counter `loads`. -/
def countingListener : CacheManagerListener α M ℤ where
  objectReadyForEviction _ w := .ok w
  objectLoaded _ w := .ok (w.1, int32 (w.2 + 1))

theorem countingListener_responds :
    Responds [countingListener (α := α) (M := M)] (fun _ m => m) (fun _ count => count)
      (fun _ count => int32 (count + 1)) where
  evict _ _ _ := rfl
  load _ _ _ := rfl

/-- The manager, the counter of the listener and the variable `iterations`. -/
abbrev Progress (P : CacheManager α) := (P.State × ℤ) × ℤ

/-- One round of the loop, whose test for a progress dot may divide by zero. -/
def iterate (config : SimulatorConfiguration α) (s : Progress config.policy) (fqn : α) :
    Java (Progress config.policy × Unit) := do
  let w ← config.policy.visit [countingListener] fqn s.1
  let iterations := int32 (s.2 + 1)
  let _ ← remainder iterations config.showProgressEvery.val
  .ok ((w, iterations), ())

def start (config : SimulatorConfiguration α) : Progress config.policy :=
  ((config.policy.initial, 0), 0)

/-- The numbers which `testPerformance` logs. -/
structure Performance where
  iterations : ℤ
  hits : ℤ
  misses : ℤ
  cacheSize : ℤ

/-- `testPerformance`, for a policy which has not been used before. -/
def testPerformance (config : SimulatorConfiguration α) : Java Performance := do
  let (_, s) ← replay (iterate config) (start config) config.fqnSource
  .ok {
    iterations := s.2
    hits := s.2 - s.1.2
    misses := s.1.2
    cacheSize := config.policy.cacheSize s.1.1 }

/-- The rounds that visited a resident key. -/
def residentRounds [DecidableEq α] (P : CacheManager α) :
    List (Record (Progress P) α Unit) → ℕ
  | [] => 0
  | r :: history => residentRounds P history + if r.call ∈ P.resident r.before.1.1 then 1 else 0

theorem residentRounds_le [DecidableEq α] (P : CacheManager α)
    (history : List (Record (Progress P) α Unit)) : residentRounds P history ≤ history.length := by
  induction history with
  | nil => exact le_refl 0
  | cons r history ih =>
    rw [residentRounds, List.length_cons]
    split <;> omega

section Protocols

variable [DecidableEq α] {config : SimulatorConfiguration α} {maxNodes : ℤ}
  {Inv : config.policy.State → Prop} {Fits Fits' : config.policy.State → Call α → Prop}
  {settles : (α → config.policy.State → config.policy.State) → Prop}
  {s s' : Progress config.policy} {fqn : α}

omit [DecidableEq α] in
/-- A round visits its key under the counting listener. -/
theorem visit_of_iterate {o : Unit} (hok : iterate config s fqn = .ok (s', o)) :
    config.policy.visit [countingListener] fqn s.1 = .ok s'.1 := by
  obtain ⟨w, hvisit, hrest⟩ := Java.bind_eq_ok.mp hok
  obtain ⟨_, -, hfinal⟩ := Java.bind_eq_ok.mp hrest
  cases hfinal
  exact hvisit

/-- A round of a policy which keeps to the protocol. -/
theorem round_effect (h : Protocol config.policy maxNodes Inv Fits settles)
    (hs : settles fun _ m => m) (hinv : Inv s.1.1) (hfits : Fits s.1.1 (.visit fqn)) {o : Unit}
    (hok : iterate config s fqn = .ok (s', o)) :
    Inv s'.1.1 ∧ fqn ∈ config.policy.resident s'.1.1 ∧
      config.policy.resident s'.1.1 ⊆ insert fqn (config.policy.resident s.1.1) ∧
      (config.policy.resident s'.1.1).card ≤ maxNodes := by
  obtain ⟨m', l', hvisit, hinv', heffect⟩ := h.visit countingListener_responds hs s.1.2 hinv hfits
  have hstate : s'.1 = (m', l') := Except.ok.inj ((visit_of_iterate hok).symm.trans hvisit)
  obtain ⟨hsize, hle⟩ := h.size hinv'
  rw [hstate]
  refine ⟨hinv', ?_, heffect.subset_insert, hsize ▸ hle⟩
  generalize config.policy.resident m' = resident' at heffect
  cases heffect with
  | hit hk => exact hk
  | miss => exact Finset.mem_insert_self _ _
  | trimmed => exact Finset.mem_insert_self _ _

/-- A round adds at most its own key to the residents, so a condition that asks for fewer than
`n` of them is met all along a trace of `n` keys. -/
theorem admitted_of_card (h : Protocol config.policy maxNodes Inv Fits' settles)
    (hs : settles fun _ m => m) {n : ℕ}
    (hfits : ∀ m k, (config.policy.resident m).card < n → Fits m (.visit k) → Fits' m (.visit k))
    {trace : List α} (hinv : Inv s.1.1)
    (hlength : (config.policy.resident s.1.1).card + trace.length ≤ n)
    (hadmitted : Admitted (iterate config) (fun s fqn => Fits s.1.1 (.visit fqn)) s trace) :
    Admitted (iterate config) (fun s fqn => Fits' s.1.1 (.visit fqn)) s trace := by
  induction trace generalizing s with
  | nil => trivial
  | cons fqn trace ih =>
    rw [List.length_cons] at hlength
    have hfit := hfits _ _ (by omega) hadmitted.1
    refine ⟨hfit, fun s' o hok => ih ?_ ?_ (hadmitted.2 s' o hok)⟩
    · exact (round_effect h hs hinv hfit hok).1
    · have hsub := (round_effect h hs hinv hfit hok).2.2.1
      have hcard := (Finset.card_le_card hsub).trans (Finset.card_insert_le _ _)
      omega


/-- The counters after the rounds of a history. -/
structure Counted (Inv : config.policy.State → Prop)
    (history : List (Record (Progress config.policy) α Unit)) (s : Progress config.policy) :
    Prop where
  inv : Inv s.1.1
  iterations : s.2 = history.length
  loads : s.1.2 + residentRounds config.policy history = history.length

theorem Counted.iterate (h : Protocol config.policy maxNodes Inv Fits settles)
    (hs : settles fun _ m => m) (hprogress : config.showProgressEvery.val ≠ 0)
    {history : List (Record (Progress config.policy) α Unit)} {s : Progress config.policy}
    (hcounted : Counted Inv history s) {fqn : α} (hfits : Fits s.1.1 (.visit fqn))
    (hlength : history.length + 1 ≤ 2147483647) :
    ∃ s', CacheHitSimulator.iterate config s fqn = .ok (s', ()) ∧
      Counted Inv (⟨s, fqn, (), s'⟩ :: history) s' := by
  obtain ⟨⟨m, count⟩, iterations⟩ := s
  obtain ⟨hinv, hiterations, hloads⟩ := hcounted
  obtain ⟨m', count', hok, hinv', heffect⟩ := h.visit countingListener_responds hs count hinv hfits
  have hnext : int32 (iterations + 1) = history.length + 1 := by
    rw [int32_of_isInt]
    · omega
    · unfold IsInt
      omega
  refine ⟨((m', count'), int32 (iterations + 1)), ?_, hinv', ?_, ?_⟩
  · simp only [CacheHitSimulator.iterate, hok, Java.ok_bind, remainder, if_neg hprogress]
  · rw [hnext, List.length_cons, Int.natCast_add, Int.natCast_one]
  · show count' + ↑(residentRounds config.policy history +
      if fqn ∈ config.policy.resident m then 1 else 0) = ((history.length + 1 : ℕ) : ℤ)
    have hle := residentRounds_le config.policy history
    simp only at hloads
    have hload : fqn ∉ config.policy.resident m → count' = int32 (count + 1) →
        count' + ↑(residentRounds config.policy history +
          if fqn ∈ config.policy.resident m then 1 else 0) = ((history.length + 1 : ℕ) : ℤ) := by
      intro hnot hcount
      rw [if_neg hnot, hcount, int32_of_isInt]
      · omega
      · unfold IsInt
        omega
    generalize config.policy.resident m' = resident' at heffect
    cases heffect with
    | hit hk =>
      rw [if_pos hk]
      omega
    | miss hk hroom =>
      cases hroom with
      | kept => exact hload hk rfl
      | evicted => exact hload hk rfl
    | trimmed hk => exact hload hk rfl

theorem Counted.replay (h : Protocol config.policy maxNodes Inv Fits settles)
    (hs : settles fun _ m => m) (hprogress : config.showProgressEvery.val ≠ 0)
    {trace : List α} {history : List (Record (Progress config.policy) α Unit)}
    {s : Progress config.policy} (hcounted : Counted Inv history s)
    (hfits : Admitted (CacheHitSimulator.iterate config) (fun s fqn => Fits s.1.1 (.visit fqn)) s trace)
    (hlength : history.length + trace.length ≤ 2147483647) :
    ∃ history' s', replayFrom (CacheHitSimulator.iterate config) history s trace = .ok (history', s') ∧
      Counted Inv history' s' ∧ history'.length = history.length + trace.length := by
  induction trace generalizing history s with
  | nil => exact ⟨history, s, rfl, hcounted, rfl⟩
  | cons fqn trace ih =>
    obtain ⟨hfit, hrest⟩ := hfits
    rw [List.length_cons] at hlength
    obtain ⟨s', hok, hcounted'⟩ := hcounted.iterate h hs hprogress hfit (by omega)
    obtain ⟨history', s'', hreplay, hfinal, hall⟩ := ih hcounted' (hrest _ _ hok)
      (by rw [List.length_cons]; omega)
    refine ⟨history', s'', ?_, hfinal, ?_⟩
    · rw [replayFrom, hok]
      exact hreplay
    · rw [hall, List.length_cons, List.length_cons]
      omega

/-- The hits that are reported are the visits to resident keys. -/
theorem testPerformance_hits (config : SimulatorConfiguration α) {Inv : config.policy.State → Prop}
    {Fits : config.policy.State → Call α → Prop}
    {settles : (α → config.policy.State → config.policy.State) → Prop}
    (h : Protocol config.policy maxNodes Inv Fits settles) (hs : settles fun _ m => m)
    (hprogress : config.showProgressEvery.val ≠ 0)
    (hfits : Admitted (CacheHitSimulator.iterate config) (fun s fqn => Fits s.1.1 (.visit fqn))
      (start config) config.fqnSource)
    (hlength : config.fqnSource.length ≤ 2147483647) :
    ∃ history s report,
      replay (CacheHitSimulator.iterate config) (start config) config.fqnSource = .ok (history, s) ∧
      testPerformance config = .ok report ∧ report.iterations = config.fqnSource.length ∧
      report.hits = report.iterations - report.misses ∧
      report.hits = residentRounds config.policy history := by
  have hstart : Counted Inv [] (start config) := ⟨h.initial, rfl, rfl⟩
  obtain ⟨history, s, hreplay, hcounted, hall⟩ := hstart.replay h hs hprogress hfits (by simpa)
  have hiterations := hcounted.iterations
  have hloads := hcounted.loads
  rw [List.length_nil, Nat.zero_add] at hall
  refine ⟨history, s, ⟨s.2, s.2 - s.1.2, s.1.2, config.policy.cacheSize s.1.1⟩, hreplay, ?_, ?_,
    rfl, ?_⟩
  · rw [testPerformance, CachePolicies.replay, hreplay, Java.ok_bind]
  · rw [hiterations, hall]
  · show s.2 - s.1.2 = _
    omega

end Protocols

end CacheHitSimulator

end CachePolicies
