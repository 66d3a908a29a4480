import CachePolicies.LogFileFqnSources
import CachePolicies.Policies

/-!
# The simulator over a log file

`testPerformance` asks the iterator of its source before each round whether there is another
key, and then for the key, which may be `null`. Over a log file it thus visits the matches of
the log, however the iterator reads ahead, and no more of them than its `int` can count.
-/

namespace CachePolicies

namespace CacheHitSimulator

variable (getFqn : JavaString → Option JavaString) (limit : ℤ)
  (config : SimulatorConfiguration (Option JavaString))

/-- The loop of `testPerformance` over an iterator, for less than the given number of rounds. -/
def loop : ℕ → LogFileFqnIterator → Progress config.policy → Option (Java (Progress config.policy))
  | 0, _, _ => none
  | rounds + 1, it, s =>
    let (more, it) := LogFileFqnIterator.hasNext getFqn limit it
    if more then
      let (fqn, it) := LogFileFqnIterator.next getFqn limit it
      match iterate config s fqn with
      | .error e => some (.error e)
      | .ok (s, _) => loop rounds it s
    else some (.ok s)

/-- What `testPerformance` logs after the loop. -/
def performance (s : Progress config.policy) : Performance where
  iterations := s.2
  hits := s.2 - s.1.2
  misses := s.1.2
  cacheSize := config.policy.cacheSize s.1.1

/-- `testPerformance` with a log file as its source, for which no other source is read. -/
def testLog (source : LogFileFqnSource) (rounds : ℕ) : Option (Java Performance) :=
  (loop getFqn source.limit config rounds source.iterator (start config)).map fun outcome => do
    let s ← outcome
    .ok (performance config s)

end CacheHitSimulator

namespace LogFileFqnSource

/-- The matches of the log up to the limit of the source. -/
def matchesOf (getFqn : JavaString → Option JavaString) (source : LogFileFqnSource) :
    List JavaString :=
  (source.input.filterMap getFqn).take source.limit.toNat

end LogFileFqnSource

namespace CacheHitSimulator

open LogFileFqnIterator

variable {getFqn : JavaString → Option JavaString} {limit : ℤ}
  {config : SimulatorConfiguration (Option JavaString)}

/-- The loop visits what the iterator has to hand out. -/
theorem loop_eq (hlimit : limit ≤ 2147483647) {rest : List JavaString} {it : LogFileFqnIterator}
    (h : Pending getFqn limit rest it) {rounds : ℕ} (hrounds : rest.length < rounds)
    (history : List (Record (Progress config.policy) (Option JavaString) Unit))
    (s : Progress config.policy) :
    loop getFqn limit config rounds it s =
      some ((replayFrom (iterate config) history s (rest.map some)).map Prod.snd) := by
  induction rest generalizing it rounds history s with
  | nil =>
    obtain ⟨rounds, rfl⟩ := Nat.exists_eq_succ_of_ne_zero (Nat.ne_of_gt hrounds)
    obtain ⟨it', hmore, -⟩ := h.hasNext hlimit
    rw [loop, hmore]
    rfl
  | cons fqn rest ih =>
    obtain ⟨rounds, rfl⟩ := Nat.exists_eq_succ_of_ne_zero (Nat.ne_of_gt (Nat.zero_lt_of_lt hrounds))
    obtain ⟨it', hmore, h'⟩ := h.hasNext hlimit
    obtain ⟨it'', hnext, h''⟩ := h'.next hlimit
    rw [loop, hmore]
    simp only [List.head?_cons, Option.isSome_some, if_true, hnext]
    rw [List.map_cons, replayFrom]
    cases hround : iterate config s (some fqn) with
    | error e => rfl
    | ok r => exact ih h'' (by simpa using hrounds) _ r.1

/-- The simulator reports of a log what it reports of the list of its matches. -/
theorem testLog_eq (getFqn : JavaString → Option JavaString) (source : LogFileFqnSource)
    (policy : CacheManager (Option JavaString)) (showProgressEvery : JavaInt) {rounds : ℕ}
    (hrounds : (source.matchesOf getFqn).length < rounds) :
    testLog getFqn ⟨policy, (source.matchesOf getFqn).map some, showProgressEvery⟩ source rounds =
      some (testPerformance ⟨policy, (source.matchesOf getFqn).map some, showProgressEvery⟩) := by
  obtain ⟨hzero, hlimit⟩ := source.limit_bounds
  have hpending : Pending getFqn source.limit (source.matchesOf getFqn) source.iterator := by
    refine ⟨⟨le_rfl, hzero⟩, ?_⟩
    rw [LogFileFqnSource.matchesOf, pending, unread]
    simp [LogFileFqnSource.iterator]
  rw [testLog, loop_eq hlimit hpending hrounds [], testPerformance, replay]
  cases replayFrom (iterate ⟨policy, (source.matchesOf getFqn).map some, showProgressEvery⟩) []
      (start ⟨policy, (source.matchesOf getFqn).map some, showProgressEvery⟩)
      ((source.matchesOf getFqn).map some) with
  | error e => rfl
  | ok r => rfl

end CacheHitSimulator

theorem LogFileFqnSource.length_matchesOf_le (getFqn : JavaString → Option JavaString)
    (source : LogFileFqnSource) : ((source.matchesOf getFqn).length : ℤ) ≤ 2147483647 := by
  obtain ⟨hzero, hlimit⟩ := source.limit_bounds
  have hlength := List.length_take_le source.limit.toNat (source.input.filterMap getFqn)
  rw [matchesOf]
  omega

namespace Policy

open CacheHitSimulator

/-- However long the log and whatever its filter, the simulator ends its loop after the last match
up to the limit, counts the rounds without an overflow, and reports as hits the visits to resident
keys. -/
theorem testLog_reports (p : Policy (Option JavaString)) (hp : p.Admissible)
    (getFqn : JavaString → Option JavaString) (source : LogFileFqnSource)
    (showProgressEvery : JavaInt) (hprogress : showProgressEvery.val ≠ 0)
    (hfits : Admitted
      (iterate (p.simulator ((source.matchesOf getFqn).map some) showProgressEvery))
      (fun s fqn => p.Fits s.1.1 (.visit fqn)) (start _) ((source.matchesOf getFqn).map some))
    (rounds : ℕ) (hrounds : (source.matchesOf getFqn).length < rounds) :
    ∃ history s report,
      replay (iterate (p.simulator ((source.matchesOf getFqn).map some) showProgressEvery)) (start _)
        ((source.matchesOf getFqn).map some) = .ok (history, s) ∧
      testLog getFqn (p.simulator ((source.matchesOf getFqn).map some) showProgressEvery) source
        rounds = some (.ok report) ∧
      report.iterations = (source.matchesOf getFqn).length ∧
      report.hits = report.iterations - report.misses ∧
      report.hits = residentRounds p.manager history := by
  obtain ⟨Inv, settles, h, hs⟩ := exists_protocol hp
  have hlength := source.length_matchesOf_le getFqn
  have hbound : ((source.matchesOf getFqn).map some).length ≤ 2147483647 := by
    rw [List.length_map]
    exact_mod_cast hlength
  obtain ⟨history, s, report, hreplay, hreport, hiterations, hhits, hresident⟩ :=
    testPerformance_hits (p.simulator ((source.matchesOf getFqn).map some) showProgressEvery) h hs
      hprogress (admitted_permits hp hbound hfits) hbound
  refine ⟨history, s, report, hreplay, ?_, ?_, hhits, hresident⟩
  · rw [← hreport]
    exact testLog_eq getFqn source p.manager showProgressEvery hrounds
  · rw [hiterations]
    exact congrArg Nat.cast (List.length_map some)

/-- Of the lines of a log, those that start with an `a`. -/
def startsWithA (line : JavaString) : Option JavaString :=
  if line.head? = some 'a' then some line else none

theorem testLog_reports_startsWithA : ∃ history s report,
    replay (iterate ((lru ⟨2⟩).simulator [some ['a'], some ['a', 'b'], some ['a']] 100)) (start _)
      [some ['a'], some ['a', 'b'], some ['a']] = .ok (history, s) ∧
    testLog startsWithA ((lru ⟨2⟩).simulator [some ['a'], some ['a', 'b'], some ['a']] 100)
      ⟨[['a'], ['b'], ['a', 'b'], ['a'], ['a']], 3⟩ 4 = some (.ok report) ∧
    report.iterations = 3 ∧ report.hits = report.iterations - report.misses ∧
    report.hits = residentRounds (lru (α := Option JavaString) ⟨2⟩).manager history :=
  testLog_reports (lru ⟨2⟩) (show (1 : ℤ) ≤ 2 by decide) startsWithA
    ⟨[['a'], ['b'], ['a', 'b'], ['a'], ['a']], 3⟩ 100 (by decide)
    ((admitted_true _ _).mono fun _ _ _ => trivial) 4 (by decide)

end Policy

end CachePolicies
