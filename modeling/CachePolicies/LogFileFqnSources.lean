import CachePolicies.JavaStrings
import CachePolicies.PartialRuns

/-!
# Keys from the lines of a log file

The iterator of `LogFileFqnSource` reads its lines until one of them matches. `hasNext` may have
read ahead, and then the match waits for `next`. Between them the two calls hand out the matches
in order, up to the limit of the iterator.
-/

namespace CachePolicies

/-- A source, whose lines are those which its reader will find in `input`. -/
structure LogFileFqnSource where
  input : List JavaString
  maxPopulation : JavaInt

/-- The iterator of a source, with the lines that its reader has not read. -/
structure LogFileFqnIterator where
  prefetched : Option JavaString
  found : ℤ
  reader : List JavaString

inductive IteratorCall
  | hasNext | next

/-- What an iterator answers: whether there is an element, or the element or `null`. -/
inductive IteratorAnswer
  | bool (b : Bool)
  | fqn (result : Option JavaString)
  deriving DecidableEq

namespace LogFileFqnSource

/-- `getFqn`, as long as no subclass overrides it. -/
def getFqn (line : JavaString) : Option JavaString := some line

def iterator (source : LogFileFqnSource) : LogFileFqnIterator := ⟨none, 0, source.input⟩

/-- The field `limit` of an iterator. -/
def limit (source : LogFileFqnSource) : ℤ :=
  if source.maxPopulation.val > 0 then source.maxPopulation.val else 2147483647

end LogFileFqnSource

namespace LogFileFqnIterator

variable (getFqn : JavaString → Option JavaString) (limit : ℤ)

/-- The loop of `readNext`, with the matches found so far and the lines not read. -/
def readLines (found : ℤ) : List JavaString → Option JavaString × ℤ × List JavaString
  | [] => (none, found, [])
  | line :: reader =>
    -- the line is gone from the reader before the limit is asked for
    if found < limit then
      match getFqn line with
      | some result => (some result, int32 (found + 1), reader)
      | none => readLines found reader
    else (none, found, reader)

def readNext (it : LogFileFqnIterator) : Option JavaString × LogFileFqnIterator :=
  let (result, found, reader) := readLines getFqn limit it.found it.reader
  (result, { it with found := found, reader := reader })

def prefetch (it : LogFileFqnIterator) : Option JavaString × LogFileFqnIterator :=
  match it.prefetched with
  | some result => (some result, it)
  | none =>
    let (result, it) := readNext getFqn limit it
    (result, { it with prefetched := result })

def hasNext (it : LogFileFqnIterator) : Bool × LogFileFqnIterator :=
  let (result, it) := prefetch getFqn limit it
  (result.isSome, it)

def next (it : LogFileFqnIterator) : Option JavaString × LogFileFqnIterator :=
  match it.prefetched with
  | some result => (some result, { it with prefetched := none })
  | none => readNext getFqn limit it

def perform (it : LogFileFqnIterator) : IteratorCall → LogFileFqnIterator × IteratorAnswer
  | .hasNext => ((hasNext getFqn limit it).2, .bool (hasNext getFqn limit it).1)
  | .next => ((next getFqn limit it).2, .fqn (next getFqn limit it).1)

/-- The iterator beside the number of elements it has been asked for. -/
def counting (t : ℕ × LogFileFqnIterator) (call : IteratorCall) :
    Java ((ℕ × LogFileFqnIterator) × IteratorAnswer) :=
  let asked := match call with
    | .hasNext => t.1
    | .next => t.1 + 1
  .ok ((asked, (perform getFqn limit t.2 call).1), (perform getFqn limit t.2 call).2)

/-- The call answers as an iterator that has `expected i` for the request number `i`, counted
from zero, and `hasNext` says what the following `next` would return. -/
def Yields (expected : ℕ → Option JavaString)
    (r : Record (ℕ × LogFileFqnIterator) IteratorCall IteratorAnswer) : Prop :=
  match r.call with
  | .next => r.output = .fqn (expected r.before.1)
  | .hasNext => r.output = .bool (expected r.before.1).isSome ∧
      (next getFqn limit r.after.2).1 = expected r.before.1

end LogFileFqnIterator

namespace LogFileFqnSource

variable (getFqn : JavaString → Option JavaString)

/-- The match at a place of the input, as long as the place is below a bound. -/
def matchBelow (bound : ℤ) (source : LogFileFqnSource) (i : ℕ) : Option JavaString :=
  if (i : ℤ) < bound then (source.input.filterMap getFqn)[i]? else none

/-- The match at a place of the input, which only a positive `maxPopulation` bounds. -/
def matchAt (source : LogFileFqnSource) (i : ℕ) : Option JavaString :=
  if source.maxPopulation.val > 0 then matchBelow getFqn source.maxPopulation.val source i
  else (source.input.filterMap getFqn)[i]?

end LogFileFqnSource

/-! ## Runs -/

namespace LogFileFqnIterator

variable {getFqn : JavaString → Option JavaString} {limit found : ℤ} {it : LogFileFqnIterator}

/-- The matches that the reader will still come to. -/
def unread (getFqn : JavaString → Option JavaString) (limit found : ℤ) (reader : List JavaString) :
    List JavaString :=
  (reader.filterMap getFqn).take (limit - found).toNat

/-- The loop finds the first of the matches to come, and leaves the others. -/
theorem readLines_eq (hfound : 0 ≤ found ∧ found ≤ limit) (hlimit : limit ≤ 2147483647)
    (reader : List JavaString) :
    ∃ found' reader', readLines getFqn limit found reader =
        ((unread getFqn limit found reader).head?, found', reader') ∧
      (0 ≤ found' ∧ found' ≤ limit) ∧
      unread getFqn limit found' reader' = (unread getFqn limit found reader).tail := by
  induction reader with
  | nil => exact ⟨found, [], by simp [readLines, unread], hfound, by simp [unread]⟩
  | cons line reader ih =>
    rw [readLines]
    by_cases hlt : found < limit
    · rw [if_pos hlt]
      cases hmatch : getFqn line with
      | none =>
        obtain ⟨found', reader', hread, hbounds, hrest⟩ := ih
        have hskip : unread getFqn limit found (line :: reader) =
            unread getFqn limit found reader := by
          rw [unread, List.filterMap_cons_none hmatch, unread]
        rw [hskip]
        exact ⟨found', reader', hread, hbounds, hrest⟩
      | some result =>
        have hcons : unread getFqn limit found (line :: reader) =
            result :: unread getFqn limit (found + 1) reader := by
          have hsucc : (limit - found).toNat = (limit - (found + 1)).toNat + 1 := by omega
          rw [unread, List.filterMap_cons_some hmatch, hsucc, List.take_succ_cons, unread]
        refine ⟨found + 1, reader, ?_, by omega, ?_⟩
        · rw [hcons, int32_of_isInt ⟨by omega, by omega⟩]
          rfl
        · rw [hcons, List.tail_cons]
    · have hnone (lines : List JavaString) : unread getFqn limit found lines = [] := by
        have hzero : (limit - found).toNat = 0 := by omega
        rw [unread, hzero, List.take_zero]
      rw [if_neg hlt]
      refine ⟨found, reader, ?_, hfound, ?_⟩
      · rw [hnone]
        rfl
      · rw [hnone, hnone]
        rfl

/-- The matches that the iterator has not handed out, the one read ahead being the first. -/
def pending (getFqn : JavaString → Option JavaString) (limit : ℤ) (it : LogFileFqnIterator) :
    List JavaString :=
  it.prefetched.toList ++ unread getFqn limit it.found it.reader

/-- An iterator that has the matches `rest` to hand out. -/
structure Pending (getFqn : JavaString → Option JavaString) (limit : ℤ) (rest : List JavaString)
    (it : LogFileFqnIterator) : Prop where
  bounds : 0 ≤ it.found ∧ it.found ≤ limit
  rest_eq : pending getFqn limit it = rest

variable {rest : List JavaString}

theorem Pending.readNext (h : Pending getFqn limit rest it) (hlimit : limit ≤ 2147483647)
    (hnone : it.prefetched = none) :
    ∃ it', LogFileFqnIterator.readNext getFqn limit it = (rest.head?, it') ∧ it'.prefetched = none ∧
      Pending getFqn limit rest.tail it' := by
  obtain ⟨found', reader', hread, hbounds, hrest⟩ := readLines_eq h.bounds hlimit it.reader
  have hunread : unread getFqn limit it.found it.reader = rest := by
    rw [← h.rest_eq, pending, hnone]
    rfl
  rw [hunread] at hread hrest
  refine ⟨{ it with found := found', reader := reader' }, ?_, hnone, hbounds, ?_⟩
  · rw [LogFileFqnIterator.readNext, hread]
  · rw [pending, hnone]
    exact hrest

/-- `next` hands out the first match, wherever it has been waiting. -/
theorem Pending.next (h : Pending getFqn limit rest it) (hlimit : limit ≤ 2147483647) :
    ∃ it', LogFileFqnIterator.next getFqn limit it = (rest.head?, it') ∧
      Pending getFqn limit rest.tail it' := by
  rw [LogFileFqnIterator.next]
  cases hprefetched : it.prefetched with
  | none =>
    obtain ⟨it', hread, -, h'⟩ := h.readNext hlimit hprefetched
    exact ⟨it', hread, h'⟩
  | some result =>
    have hcons : rest = result :: unread getFqn limit it.found it.reader := by
      rw [← h.rest_eq, pending, hprefetched]
      rfl
    refine ⟨{ it with prefetched := none }, ?_, h.bounds, ?_⟩
    · rw [hcons]
      rfl
    · rw [hcons]
      rfl

/-- `hasNext` reads ahead at most, which leaves what is to be handed out as it was. -/
theorem Pending.hasNext (h : Pending getFqn limit rest it) (hlimit : limit ≤ 2147483647) :
    ∃ it', LogFileFqnIterator.hasNext getFqn limit it = (rest.head?.isSome, it') ∧
      Pending getFqn limit rest it' := by
  rw [LogFileFqnIterator.hasNext, prefetch]
  cases hprefetched : it.prefetched with
  | none =>
    obtain ⟨it', hread, hnone, h'⟩ := h.readNext hlimit hprefetched
    refine ⟨{ it' with prefetched := rest.head? }, ?_, h'.bounds, ?_⟩
    · simp only [hread]
    · have hunread : unread getFqn limit it'.found it'.reader = rest.tail := by
        rw [← h'.rest_eq, pending, hnone]
        rfl
      rw [pending, hunread]
      cases rest <;> rfl
  | some result =>
    have hhead : rest.head? = some result := by
      rw [← h.rest_eq, pending, hprefetched]
      rfl
    exact ⟨it, by rw [hhead], h⟩

/-! ## Calls -/

variable {input : List JavaString} {t : ℕ × LogFileFqnIterator}

/-- The iterator has all matches below the limit to hand out, but for as many as it was asked. -/
def Counted (getFqn : JavaString → Option JavaString) (limit : ℤ) (input : List JavaString)
    (t : ℕ × LogFileFqnIterator) : Prop :=
  Pending getFqn limit ((unread getFqn limit 0 input).drop t.1) t.2

theorem Counted.perform (h : Counted getFqn limit input t) (hlimit : limit ≤ 2147483647)
    (call : IteratorCall) :
    ∃ t' answer, counting getFqn limit t call = .ok (t', answer) ∧
      Counted getFqn limit input t' ∧
      Yields getFqn limit (fun i => (unread getFqn limit 0 input)[i]?) ⟨t, call, answer, t'⟩ := by
  refine ⟨_, _, rfl, ?_⟩
  cases call with
  | next =>
    obtain ⟨it', hnext, h'⟩ := h.next hlimit
    rw [List.head?_drop] at hnext
    rw [List.tail_drop] at h'
    simp only [LogFileFqnIterator.perform, hnext]
    exact ⟨h', rfl⟩
  | hasNext =>
    obtain ⟨it', hhas, h'⟩ := h.hasNext hlimit
    obtain ⟨_, hnext, -⟩ := Pending.next h' hlimit
    rw [List.head?_drop] at hhas hnext
    simp only [LogFileFqnIterator.perform, hhas]
    refine ⟨h', rfl, ?_⟩
    rw [hnext]

theorem counted_iterator (hlimit : 0 ≤ limit) :
    Counted getFqn limit input (0, ⟨none, 0, input⟩) :=
  ⟨⟨le_rfl, hlimit⟩, rfl⟩

/-- Any calls on a new iterator are answered from its matches below the limit. -/
theorem succeeds_unread (hbounds : 0 ≤ limit ∧ limit ≤ 2147483647) (input : List JavaString)
    (calls : List IteratorCall) :
    Succeeds (counting getFqn limit)
      (Yields getFqn limit fun i => (unread getFqn limit 0 input)[i]?)
      (0, ⟨none, 0, input⟩) calls :=
  Succeeds.of_invariant (fun _ call h => Counted.perform h hbounds.2 call)
    (counted_iterator hbounds.1) calls

/-- What an iterator answers to `next` alone determines what it was expected to yield. -/
theorem yields_unique {expected expected' : ℕ → Option JavaString} {n : ℕ}
    (h : Succeeds (counting getFqn limit) (Yields getFqn limit expected) t
      (List.replicate n .next))
    (h' : Succeeds (counting getFqn limit) (Yields getFqn limit expected') t
      (List.replicate n .next)) :
    ∀ i < n, expected (t.1 + i) = expected' (t.1 + i) := by
  induction n generalizing t with
  | zero =>
    intro i hi
    omega
  | succ n ih =>
    obtain ⟨s, answer, hok, hyields, hrest⟩ := h
    obtain ⟨s', answer', hok', hyields', hrest'⟩ := h'
    cases hok.symm.trans hok'
    have hasked : s.1 = t.1 + 1 := by
      cases hok
      rfl
    intro i hi
    cases i with
    | zero =>
      have hsame : IteratorAnswer.fqn (expected t.1) = .fqn (expected' t.1) :=
        Eq.trans (Eq.symm hyields) hyields'
      exact IteratorAnswer.fqn.inj hsame
    | succ i =>
      have htail := ih hrest hrest' i (by omega)
      rw [hasked] at htail
      rwa [show t.1 + (i + 1) = t.1 + 1 + i by omega]

end LogFileFqnIterator

namespace LogFileFqnSource

variable {getFqn : JavaString → Option JavaString}

theorem limit_bounds (source : LogFileFqnSource) :
    0 ≤ source.limit ∧ source.limit ≤ 2147483647 := by
  have hpopulation := source.maxPopulation.property
  rw [limit]
  split
  · exact ⟨by omega, hpopulation.2⟩
  · omega

theorem unread_getElem? (source : LogFileFqnSource) (i : ℕ) :
    (LogFileFqnIterator.unread getFqn source.limit 0 source.input)[i]? =
      matchBelow getFqn source.limit source i := by
  have hlimit := source.limit_bounds
  rw [LogFileFqnIterator.unread, List.getElem?_take, matchBelow]
  by_cases hi : (i : ℤ) < source.limit
  · rw [if_pos hi, if_pos (by omega)]
  · rw [if_neg hi, if_neg (by omega)]

/-- Whatever `hasNext` and `next` calls are made on an iterator, they hand out the matches in
input order up to its limit. -/
theorem iterator_yields_matches (getFqn : JavaString → Option JavaString)
    (source : LogFileFqnSource) (calls : List IteratorCall) :
    Succeeds (LogFileFqnIterator.counting getFqn source.limit)
      (LogFileFqnIterator.Yields getFqn source.limit (matchBelow getFqn source.limit source))
      (0, source.iterator) calls := by
  have hexpected : (fun i => (LogFileFqnIterator.unread getFqn source.limit 0 source.input)[i]?) =
      matchBelow getFqn source.limit source := funext source.unread_getElem?
  rw [← hexpected]
  exact LogFileFqnIterator.succeeds_unread source.limit_bounds source.input calls

/-- A source without a bound, which has one match more than there are positive values of `int`. -/
def overfull : LogFileFqnSource := ⟨List.replicate 2147483648 [], 0⟩

/-- The last match of `overfull` is never handed out. -/
theorem not_overfull_iterator_yields :
    ¬ Succeeds (LogFileFqnIterator.counting LogFileFqnSource.getFqn overfull.limit)
      (LogFileFqnIterator.Yields LogFileFqnSource.getFqn overfull.limit
        (matchAt LogFileFqnSource.getFqn overfull))
      (0, overfull.iterator) (List.replicate 2147483648 .next) := by
  intro h
  have hlimit : overfull.limit = 2147483647 := rfl
  have hsame := LogFileFqnIterator.yields_unique h
    (LogFileFqnIterator.succeeds_unread overfull.limit_bounds overfull.input _) 2147483647
    (by omega)
  rw [unread_getElem?, matchBelow, hlimit, if_neg (by omega)] at hsame
  have hmatches : overfull.input.filterMap LogFileFqnSource.getFqn = overfull.input :=
    List.filterMap_some
  have hmatch : matchAt LogFileFqnSource.getFqn overfull (0 + 2147483647) = some [] := by
    rw [matchAt, if_neg (by decide), hmatches, overfull, List.getElem?_replicate,
      if_pos (by omega)]
  rw [hmatch] at hsame
  cases hsame

end LogFileFqnSource

end CachePolicies
