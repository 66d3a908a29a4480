import CachePolicies.LruCaches
import CachePolicies.PartialRuns

/-!
# Lines that cannot be decoded

Where `Long.decode` rejects the address of a line, the exception is caught inside the loop and the
rest of the body goes on with the address `0` and no data. Such a line is a check of the block `0`
after all, and is without effect only in a state where that check has none.
-/

namespace CachePolicies

namespace LruCache

open JavaString

section Definitions

variable (digit : Char → ℕ → Option ℕ)

/-- The string `a1[0]`, which is handed to `Long.decode`. -/
def addressField (a : List JavaString) : Option JavaString := do
  let field ← a[0]?
  (splitAtEach (· = ':') field)[0]?

/-- The line has an operation, and an address which `Long.decode` rejects. A field of colons
alone has no string `a1[0]`, so its line is none of these. -/
def undecoded (line : JavaString) : Bool :=
  match (splitAtRuns isSpace line)[1]?, addressField (splitAtRuns isSpace line) with
  | some _, some addr => (Long.decode digit addr).isNone
  | _, _ => false

/-- The body of the loop in `fillFromFile`, with the value of `isHit`. -/
def checkLine (c : LruCache) (line : JavaString) : Java (LruCache × Bool) := do
  let a := splitAtRuns isSpace line
  let op ← getAt 1 a
  let (addressToRead, data) := readFields digit a
  let (isHit, c) ← access ((addressToRead.tdiv 4).tdiv 4) data (countOp op c)
  .ok (countHit op isHit c, isHit)

/-- A cache beside the hits and misses of the lines that were decoded, the latest first. -/
def noting (t : List Bool × LruCache) (line : JavaString) :
    Java ((List Bool × LruCache) × Bool) := do
  let (c, isHit) ← checkLine digit t.2 line
  .ok ((if undecoded digit line then t.1 else isHit :: t.1, c), isHit)

/-- Two caches with the same sets and the same counts of hits and misses, after lines which hit
and missed alike. -/
structure SameHits (t t' : List Bool × LruCache) : Prop where
  hits : t.1 = t'.1
  sets : t.2.sets = t'.2.sets
  hitCount : t.2.hitCount = t'.2.hitCount
  missCount : t.2.missCount = t'.2.missCount

/-- The line is decoded, or it is no read and finds the block `0` without data as the latest one
of its set. -/
def Harmless (t : List Bool × LruCache) (line : JavaString) : Prop :=
  undecoded digit line = false ∨
    (splitAtRuns isSpace line)[1]? ≠ some ['R'] ∧
      (t.2.sets[0]?.bind fun s => s.blocks.entries.getLast?) = some (0, [])

instance (t : List Bool × LruCache) (line : JavaString) : Decidable (Harmless digit t line) :=
  inferInstanceAs (Decidable (_ ∨ _ ∧ _))

end Definitions

variable {digit : Char → ℕ → Option ℕ} {c : LruCache} {line : JavaString}

/-- `fillFromFile` reads a line as `checkLine` does. -/
theorem readLine_eq_checkLine (c : LruCache) (line : JavaString) :
    readLine digit c line = Prod.fst <$> checkLine digit c line := by
  rw [readLine, checkLine]
  cases getAt 1 (splitAtRuns isSpace line) with
  | error e => rfl
  | ok op =>
    simp only [Java.ok_bind]
    cases access _ _ (countOp op c) <;> rfl

/-! ## The sets alone -/

/-- What a line does to the sets, with its operation and its hit or miss. -/
def checkSets (digit : Char → ℕ → Option ℕ) (sets : List LruSet) (line : JavaString) :
    Java (JavaString × Bool × List LruSet) := do
  let a := splitAtRuns isSpace line
  let op ← getAt 1 a
  let (addressToRead, data) := readFields digit a
  let blockAddress := (addressToRead.tdiv 4).tdiv 4
  let location ← remainder blockAddress sets.length
  let s ← getAt (int32 location) sets
  .ok (op, (s.checkQueue blockAddress data).1,
    sets.set (int32 location).toNat (s.checkQueue blockAddress data).2)

/-- The counters have no part in what happens to the sets. -/
theorem checkLine_eq (c : LruCache) (line : JavaString) :
    checkLine digit c line = (fun r => (countHit r.1 r.2.1 { countOp r.1 c with sets := r.2.2 },
      r.2.1)) <$> checkSets digit c.sets line := by
  rw [checkLine, checkSets]
  cases getAt 1 (splitAtRuns isSpace line) with
  | error e => rfl
  | ok op =>
    simp only [Java.ok_bind, access, countOp]
    cases remainder _ (c.sets.length : ℤ) with
    | error e => rfl
    | ok location =>
      simp only [Java.ok_bind]
      cases getAt (int32 location) c.sets <;> rfl

/-- There is a set, and each set holds what it should after some checks. -/
structure Filled (setAssoc : JavaInt) (sets : List LruSet) : Prop where
  nonempty : sets ≠ []
  holds : ∀ s ∈ sets, ∃ checks, LruSet.Holds setAssoc checks s

variable {setAssoc : JavaInt} {sets sets' : List LruSet} {op : JavaString} {isHit : Bool}

theorem getAt_mem {β : Type} {index : ℤ} {array : List β} {x : β}
    (h : getAt index array = .ok x) : x ∈ array := by
  rw [getAt] at h
  split at h
  · cases h
  · split at h
    · cases h
    · next hx =>
      cases h
      exact List.mem_of_getElem? hx

theorem Filled.checkSets (hassoc : 1 ≤ setAssoc.val) (h : Filled setAssoc sets)
    (hok : LruCache.checkSets digit sets line = .ok (op, isHit, sets')) :
    Filled setAssoc sets' := by
  obtain ⟨op', -, hok⟩ := Java.bind_eq_ok.mp hok
  obtain ⟨location, -, hok⟩ := Java.bind_eq_ok.mp hok
  obtain ⟨s, hs, hok⟩ := Java.bind_eq_ok.mp hok
  cases hok
  obtain ⟨checks, hholds⟩ := h.holds s (getAt_mem hs)
  refine ⟨fun hnil => h.nonempty ?_, fun s' hs' => ?_⟩
  · rwa [List.set_eq_nil_iff] at hnil
  · rcases List.mem_or_eq_of_mem_set hs' with hs' | rfl
    · exact h.holds s' hs'
    · exact ⟨_, (hholds.checkQueue (by omega) _ _).2⟩

/-! ## A check without effect -/

theorem getLast?_entries {checks : List (ℤ × JavaString)} {s : LruSet}
    (h : LruSet.Holds setAssoc checks s) :
    s.blocks.entries.getLast? = (LruSet.kept setAssoc (LruSet.checked checks)).head?.map
      fun block => (block, LruSet.lastData checks block) := by
  have hentries : s.blocks.entries = _ := h.stores
  rw [hentries, List.getLast?_map, List.getLast?_reverse]

/-- A set is determined by its length and its entries. -/
theorem LruSet.Holds.ext {checks checks' : List (ℤ × JavaString)} {s s' : LruSet}
    (h : LruSet.Holds setAssoc checks s) (h' : LruSet.Holds setAssoc checks' s')
    (hlength : s.setLength = s'.setLength) (hentries : s.blocks.entries = s'.blocks.entries) :
    s = s' := by
  have hsize := h.size_eq.trans h'.size_eq.symm
  obtain ⟨setLength, ⟨⟨entries, nodup⟩, size⟩⟩ := s
  obtain ⟨setLength', ⟨⟨entries', nodup'⟩, size'⟩⟩ := s'
  cases hlength
  cases hentries
  cases hsize
  rfl

theorem setLength_checkQueue (s : LruSet) (block : ℤ) (data : JavaString) :
    (s.checkQueue block data).2.setLength = s.setLength := by
  rw [LruSet.checkQueue]
  split <;> rfl

/-- A check changes a set unless it finds its own block and data in the latest place. -/
theorem checkQueue_eq_self_iff {checks : List (ℤ × JavaString)} {s : LruSet}
    (hassoc : 1 ≤ setAssoc.val) (h : LruSet.Holds setAssoc checks s) (block : ℤ)
    (data : JavaString) :
    (s.checkQueue block data).2 = s ↔ s.blocks.entries.getLast? = some (block, data) := by
  have h' := (h.checkQueue (by omega) block data).2
  constructor
  · intro hself
    rw [← hself, getLast?_entries h', LruSet.checked, List.map_cons, LruSet.head?_kept_cons hassoc,
      Option.map_some, LruSet.lastData, if_pos rfl]
  · intro hlast
    rw [getLast?_entries h, Option.map_eq_some_iff] at hlast
    obtain ⟨block', hhead, heq⟩ := hlast
    obtain ⟨rfl, hdata⟩ := Prod.mk.inj heq
    obtain ⟨rest, hkept⟩ : ∃ rest, LruSet.kept setAssoc (LruSet.checked checks) = block' :: rest :=
      List.head?_eq_some_iff.mp hhead
    have hmem : block' ∈ LruSet.kept setAssoc (LruSet.checked checks) := List.mem_of_head? hhead
    have hsame : LruSet.kept setAssoc (LruSet.checked ((block', data) :: checks)) =
        LruSet.kept setAssoc (LruSet.checked checks) := by
      have hcons := LruSet.kept_cons_of_mem hmem
      rwa [hkept, List.erase_cons_head, ← hkept] at hcons
    have hupdate : LruSet.lastData ((block', data) :: checks) = LruSet.lastData checks := by
      rw [LruSet.lastData_cons, Function.update_eq_self_iff]
      exact hdata.symm
    refine LruSet.Holds.ext h' h (setLength_checkQueue s block' data) ?_
    have hentries : s.blocks.entries = _ := h.stores
    have hentries' : (s.checkQueue block' data).2.blocks.entries = _ := h'.stores
    rw [hentries, hentries', hsame, hupdate]

/-! ## A line that cannot be decoded -/

/-- The loop goes on with the address `0` and without data. -/
theorem readFields_of_undecoded (h : undecoded digit line = true) :
    ∃ op, (splitAtRuns isSpace line)[1]? = some op ∧
      readFields digit (splitAtRuns isSpace line) = (0, []) := by
  rw [undecoded] at h
  split at h
  · next op addr hop haddr =>
    have hnone : Long.decode digit addr = none := by simpa using h
    obtain ⟨field, hfield, ha1⟩ := Option.bind_eq_some_iff.mp haddr
    refine ⟨op, hop, ?_⟩
    simp only [readFields, hfield, Option.bind_eq_bind, Option.bind_some, ha1, hnone]
  · cases h

theorem checkSets_of_undecoded (h : undecoded digit line = true) {s : LruSet}
    (hs : sets[0]? = some s) :
    ∃ op, (splitAtRuns isSpace line)[1]? = some op ∧ checkSets digit sets line =
      .ok (op, (s.checkQueue 0 []).1, sets.set 0 (s.checkQueue 0 []).2) := by
  obtain ⟨op, hop, hfields⟩ := readFields_of_undecoded h
  have hlength : (sets.length : ℤ) ≠ 0 := by
    obtain ⟨hpos, -⟩ := List.getElem?_eq_some_iff.mp hs
    omega
  have hop' : getAt 1 (splitAtRuns isSpace line) = .ok op := getAt_ok hop
  have hremainder : remainder 0 sets.length = .ok 0 := by
    rw [remainder, if_neg hlength, Int.zero_tmod]
  have hset : getAt 0 sets = .ok s := getAt_ok hs
  have hint : int32 0 = 0 := by decide
  refine ⟨op, hop, ?_⟩
  simp only [checkSets, hop', Java.ok_bind, hfields, Int.zero_tdiv, hremainder, hint, hset,
    Int.toNat_zero]

/-! ## Runs -/

/-- Two caches that hit and missed alike, of which the first one has sets to speak of. -/
structure Alike (setAssoc : JavaInt) (t t' : List Bool × LruCache) : Prop where
  sameHits : SameHits t t'
  filled : Filled setAssoc t.2.sets

variable {t t' : List Bool × LruCache}

/-- What `noting` makes of what a line does to the sets. -/
def noteLine (digit : Char → ℕ → Option ℕ) (t : List Bool × LruCache) (line : JavaString)
    (r : JavaString × Bool × List LruSet) : (List Bool × LruCache) × Bool :=
  ((if undecoded digit line then t.1 else r.2.1 :: t.1,
    countHit r.1 r.2.1 { countOp r.1 t.2 with sets := r.2.2 }), r.2.1)

theorem noting_eq (t : List Bool × LruCache) (line : JavaString) :
    noting digit t line = noteLine digit t line <$> checkSets digit t.2.sets line := by
  rw [noting, checkLine_eq]
  cases checkSets digit t.2.sets line <;> rfl

/-- A run of noted lines ends as `fillFromFile` does. -/
theorem fillFromFile_eq_replayFrom
    (history : List (Record (List Bool × LruCache) JavaString Bool)) (t : List Bool × LruCache)
    (lines : List JavaString) :
    fillFromFile digit lines t.2 =
      (fun r => r.2.2) <$> replayFrom (noting digit) history t lines := by
  induction lines generalizing history t with
  | nil => rfl
  | cons line lines ih =>
    rw [fillFromFile, List.foldlM_cons, readLine_eq_checkLine, replayFrom, LruCache.noting]
    cases checkLine digit t.2 line with
    | error e => rfl
    | ok r => exact ih _ (_, r.1)

/-- The outcome of a line depends on nothing in which two such caches can differ. -/
theorem Alike.noting (hassoc : 1 ≤ setAssoc.val) (h : Alike setAssoc t t') (line : JavaString) :
    Agree (fun r r' => Alike setAssoc r.1 r'.1) (LruCache.noting digit t line)
      (LruCache.noting digit t' line) := by
  obtain ⟨⟨hhits, hsets, hhitCount, hmissCount⟩, hfilled⟩ := h
  rw [noting_eq, noting_eq, ← hsets]
  cases hcheck : LruCache.checkSets digit t.2.sets line with
  | error e => exact .error e
  | ok r =>
    obtain ⟨op, isHit, sets'⟩ := r
    refine .ok ⟨⟨?_, rfl, ?_, ?_⟩, hfilled.checkSets hassoc hcheck⟩
    · simp only [noteLine, hhits]
    · simp only [noteLine, countHit, countOp, hhitCount]
    · simp only [noteLine, countHit, countOp, hmissCount]

theorem Filled.getElem?_zero (h : Filled setAssoc sets) :
    ∃ s, sets[0]? = some s ∧ ∃ checks, LruSet.Holds setAssoc checks s := by
  cases sets with
  | nil => exact absurd rfl h.nonempty
  | cons s sets => exact ⟨s, rfl, h.holds s (List.mem_cons_self ..)⟩

/-- A read is counted as a hit or as a miss. -/
theorem counts_countHit_iff (op : JavaString) (isHit : Bool) (c : LruCache) :
    ((countHit op isHit c).hitCount = c.hitCount ∧ (countHit op isHit c).missCount = c.missCount) ↔
      op ≠ ['R'] := by
  have hne (n : ℤ) : int32 (n + 1) ≠ n := by
    unfold int32
    omega
  by_cases hop : op = ['R']
  · cases isHit <;> simp [countHit, hop, hne]
  · simp [countHit, hop]

/-- A line that is not decoded leaves two caches alike exactly if it is harmless. -/
theorem Alike.sameHits_iff (hassoc : 1 ≤ setAssoc.val) (h : Alike setAssoc t t')
    (hundecoded : undecoded digit line = true) :
    ∃ u isHit, LruCache.noting digit t line = .ok (u, isHit) ∧ Filled setAssoc u.2.sets ∧
      (SameHits u t' ↔ Harmless digit t line) := by
  obtain ⟨s, hs, checks, hholds⟩ := h.filled.getElem?_zero
  obtain ⟨op, hop, hcheck⟩ := checkSets_of_undecoded hundecoded hs
  have hnoting : LruCache.noting digit t line = .ok (noteLine digit t line
      (op, (s.checkQueue 0 []).1, t.2.sets.set 0 (s.checkQueue 0 []).2)) := by
    rw [noting_eq, hcheck]
    rfl
  have hsets : t.2.sets.set 0 (s.checkQueue 0 []).2 = t.2.sets ↔ (s.checkQueue 0 []).2 = s := by
    constructor
    · intro hset
      have hzero := congrArg (fun sets : List LruSet => sets[0]?) hset
      obtain ⟨hpos, -⟩ := List.getElem?_eq_some_iff.mp hs
      rw [List.getElem?_set_self hpos, hs] at hzero
      exact Option.some.inj hzero
    · intro hself
      obtain ⟨hpos, hget⟩ := List.getElem?_eq_some_iff.mp hs
      rw [hself, ← hget, List.set_getElem_self]
  have hself := checkQueue_eq_self_iff hassoc hholds 0 []
  have hcounts := counts_countHit_iff op (s.checkQueue 0 []).1
    { countOp op t.2 with sets := t.2.sets.set 0 (s.checkQueue 0 []).2 }
  refine ⟨_, _, hnoting, h.filled.checkSets hassoc hcheck, ?_⟩
  rw [Harmless, hop, hs, Option.bind_some, ← hself, ← hsets]
  constructor
  · intro hsame
    refine .inr ⟨fun hread => ?_, hsame.sets.trans h.sameHits.sets.symm⟩
    exact hcounts.mp ⟨hsame.hitCount.trans h.sameHits.hitCount.symm,
      hsame.missCount.trans h.sameHits.missCount.symm⟩ (Option.some.inj hread)
  · rintro (hdecoded | ⟨hread, hset⟩)
    · rw [hundecoded] at hdecoded
      cases hdecoded
    · obtain ⟨hhit, hmiss⟩ := hcounts.mpr fun hop' => hread (congrArg some hop')
      exact ⟨(if_pos hundecoded).trans h.sameHits.hits, hset.trans h.sameHits.sets,
        hhit.trans h.sameHits.hitCount, hmiss.trans h.sameHits.missCount⟩

/-- Leaving out the lines that are not decoded makes no difference to a cache with sets exactly
if each of them is harmless where it stands. -/
theorem Alike.agree_iff (hassoc : 1 ≤ setAssoc.val) (h : Alike setAssoc t t')
    (lines : List JavaString) :
    (∀ start, start <+: lines → Agree (fun r r' => SameHits r.2 r'.2)
      (replay (LruCache.noting digit) t start)
      (replay (LruCache.noting digit) t' (start.filter fun line => !undecoded digit line))) ↔
    Admitted (LruCache.noting digit) (Harmless digit) t lines := by
  have hundecoded (line : JavaString) (hkeep : (!undecoded digit line) = false) :
      undecoded digit line = true := by simpa using hkeep
  refine agree_filter_iff_admitted (fun u u' (h : Alike setAssoc u u') => h.sameHits)
    ?_ ?_ ?_ ?_ [] [] h
  · intro t line hkeep
    exact .inl (by simpa using hkeep)
  · intro t t' line _ h
    exact h.noting hassoc line
  · intro t t' line hkeep h hharmless
    obtain ⟨u, isHit, hok, hfilled, hiff⟩ := h.sameHits_iff hassoc (hundecoded line hkeep)
    exact ⟨u, isHit, hok, hiff.mpr hharmless, hfilled⟩
  · intro t t' line u isHit hkeep h hok hsame
    obtain ⟨u', isHit', hok', -, hiff⟩ := h.sameHits_iff hassoc (hundecoded line hkeep)
    cases hok.symm.trans hok'
    exact hiff.mp hsame

/-- After harmless lines only, `fillFromFile` leaves the sets and the counts which it leaves
without the lines that are not decoded. -/
theorem fillFromFile_filter (hassoc : 1 ≤ setAssoc.val) (hfilled : Filled setAssoc c.sets)
    {lines : List JavaString} (h : Admitted (LruCache.noting digit) (Harmless digit) ([], c) lines) :
    Agree (fun c c' => c.sets = c'.sets ∧ c.hitCount = c'.hitCount ∧ c.missCount = c'.missCount)
      (fillFromFile digit lines c)
      (fillFromFile digit (lines.filter fun line => !undecoded digit line) c) := by
  have hagree : Agree (fun r r' => SameHits r.2 r'.2)
      (replayFrom (LruCache.noting digit) [] ([], c) lines)
      (replayFrom (LruCache.noting digit) [] ([], c)
        (lines.filter fun line => !undecoded digit line)) :=
    (Alike.agree_iff hassoc ⟨⟨rfl, rfl, rfl, rfl⟩, hfilled⟩ lines).mpr h lines
      (List.prefix_refl lines)
  rw [fillFromFile_eq_replayFrom [] ([], c), fillFromFile_eq_replayFrom [] ([], c)]
  generalize replayFrom (LruCache.noting digit) [] ([], c) lines = x at hagree ⊢
  generalize replayFrom (LruCache.noting digit) [] ([], c) (lines.filter _) = y at hagree ⊢
  cases hagree with
  | error e => exact .error e
  | ok hsame => exact .ok ⟨hsame.sets, hsame.hitCount, hsame.missCount⟩

/-- The sets of a new cache, where it has any. -/
theorem filled_new {passedNumSets passedSetAssoc : JavaInt} {cache : LruCache}
    (hnew : new passedNumSets passedSetAssoc = .ok cache) (hsets : cache.sets ≠ []) :
    1 ≤ passedSetAssoc.val ∧ Filled passedSetAssoc cache.sets := by
  obtain ⟨index, hdivide, hnew⟩ := Java.bind_eq_ok.mp hnew
  obtain ⟨sets, hmap, hnew⟩ := Java.bind_eq_ok.mp hnew
  cases hnew
  have hzero : passedSetAssoc.val ≠ 0 := by
    intro hzero
    rw [divide, if_pos hzero] at hdivide
    cases hdivide
  have hnonneg : 0 ≤ passedSetAssoc.val := by
    by_contra hneg
    have herror : LruSet.new passedSetAssoc = .error .illegalArgument := by
      rw [LruSet.new, LRU.newInstance, if_pos (by omega)]
      rfl
    cases hn : index.toNat with
    | zero =>
      rw [hn] at hmap
      cases hmap
      exact hsets rfl
    | succ n =>
      rw [hn, List.replicate_succ, List.mapM_cons, herror] at hmap
      cases hmap
  rw [mapM_replicate (LruSet.new_eq hnonneg)] at hmap
  cases hmap
  refine ⟨by omega, hsets, fun s hs => ⟨[], ?_⟩⟩
  rw [List.eq_of_mem_replicate hs]
  exact ⟨rfl, LruSet.Keeps.empty.stores⟩

/-- Leaving out the lines that are not decoded changes neither the sets nor the counts of hits
and misses, and neither the hits of the other lines, exactly if each of them is harmless. -/
theorem undecoded_lines_ignored_iff (digit : Char → ℕ → Option ℕ)
    {passedNumSets passedSetAssoc : JavaInt} {cache : LruCache}
    (hnew : new passedNumSets passedSetAssoc = .ok cache) (hsets : cache.sets ≠ [])
    (lines : List JavaString) :
    (∀ start, start <+: lines → Agree (fun r r' => SameHits r.2 r'.2)
      (replay (noting digit) ([], cache) start)
      (replay (noting digit) ([], cache) (start.filter fun line => !undecoded digit line))) ↔
    Admitted (noting digit) (Harmless digit) ([], cache) lines := by
  obtain ⟨hassoc, hfilled⟩ := filled_new hnew hsets
  exact Alike.agree_iff hassoc ⟨⟨rfl, rfl, rfl, rfl⟩, hfilled⟩ lines

/-- One set of one block. -/
def oneBlock : LruCache := ⟨[⟨1, ⟨.empty, 1⟩⟩], 0, 0, 0, 0, 0⟩

/-- The line `z: W d` between the lines `0: W` and `8: R d` of the block `0`. -/
def harmlessLines : List JavaString :=
  [['0', ':', ' ', 'W'], ['z', ':', ' ', 'W', ' ', 'd'], ['8', ':', ' ', 'R', ' ', 'd']]

/-- The block `0` is without data when the second line comes, as the first line has none. -/
theorem harmlessLines_ignored :
    new 1 1 = .ok oneBlock ∧ ∀ start, start <+: harmlessLines →
      Agree (fun r r' => SameHits r.2 r'.2) (replay (noting asciiDigit) ([], oneBlock) start)
        (replay (noting asciiDigit) ([], oneBlock)
          (start.filter fun line => !undecoded asciiDigit line)) := by
  have hnew : new 1 1 = .ok oneBlock := rfl
  refine ⟨hnew, ?_⟩
  exact (undecoded_lines_ignored_iff asciiDigit hnew (by simp [oneBlock]) harmlessLines).mpr
    (by decide)

/-- In front of the same read, the line makes a hit of what would be a miss. -/
theorem not_undecoded_line_ignored :
    ¬ ∀ start, start <+: harmlessLines.tail →
      Agree (fun r r' => SameHits r.2 r'.2) (replay (noting asciiDigit) ([], oneBlock) start)
        (replay (noting asciiDigit) ([], oneBlock)
          (start.filter fun line => !undecoded asciiDigit line)) := by
  intro h
  have hnew : new 1 1 = .ok oneBlock := rfl
  obtain ⟨hassoc, hfilled⟩ := filled_new hnew (by simp [oneBlock])
  exact absurd ((Alike.agree_iff hassoc ⟨⟨rfl, rfl, rfl, rfl⟩, hfilled⟩ _).mp h) (by decide)

end LruCache

end CachePolicies
