import CachePolicies.LruSets

/-!
# The LRU cache and its traces

The cache reads a trace of lines `<addr>: <op> <data>`, sends each address to the set of its
block and counts reads, writes, hits and misses. A read hits exactly when its block was
accessed before, with fewer other blocks of the set in between than the set has places.
-/

namespace CachePolicies

/-- The class `Cache`, without the rates that are computed from the counters at the end. -/
structure LruCache where
  sets : List LruSet
  hitCount : ℤ
  missCount : ℤ
  totalCount : ℤ
  putCount : ℤ
  getCount : ℤ

namespace LruCache

open JavaString

/-- The constructor, for a number of sets that is not negative. -/
def new (passedNumSets passedSetAssoc : JavaInt) : Java LruCache := do
  let index ← divide passedNumSets.val passedSetAssoc.val
  let sets ← (List.replicate index.toNat passedSetAssoc).mapM LruSet.new
  .ok ⟨sets, 0, 0, 0, 0, 0⟩

/-- An access to an array. -/
def getAt {β : Type} (index : ℤ) (array : List β) : Java β :=
  if index < 0 then .error .indexOutOfBounds
  else
    match array[index.toNat]? with
    | none => .error .indexOutOfBounds
    | some x => .ok x

variable (digit : Char → ℕ → Option ℕ)

/-- The `try` block: the address is set before the data is read, and a failure is caught. -/
def readFields (a : List JavaString) : ℤ × JavaString :=
  let address := do
    let field ← a[0]?
    let a1 ← (splitAtEach (· = ':') field)[0]?
    Long.decode digit a1
  match address with
  | none => (0, [])
  | some addressToRead => (addressToRead, a[2]?.getD [])

/-- Count a line under its operation. -/
def countOp (op : JavaString) (c : LruCache) : LruCache :=
  { c with
    totalCount := int32 (c.totalCount + 1)
    getCount := if op = ['R'] then int32 (c.getCount + 1) else c.getCount
    putCount := if op = ['W'] then int32 (c.putCount + 1) else c.putCount }

/-- Count the outcome of a read. -/
def countHit (op : JavaString) (isHit : Bool) (c : LruCache) : LruCache :=
  { c with
    hitCount := if isHit && op = ['R'] then int32 (c.hitCount + 1) else c.hitCount
    missCount := if !isHit && op = ['R'] then int32 (c.missCount + 1) else c.missCount }

/-- Check a block in its set. -/
def access (blockAddress : ℤ) (data : JavaString) (c : LruCache) : Java (Bool × LruCache) := do
  let location ← remainder blockAddress c.sets.length
  let setToPlaceAddress ← getAt (int32 location) c.sets
  let (isHit, s) := setToPlaceAddress.checkQueue blockAddress data
  .ok (isHit, { c with sets := c.sets.set (int32 location).toNat s })

/-- The body of the loop in `fillFromFile`. -/
def readLine (c : LruCache) (line : JavaString) : Java LruCache := do
  let a := splitAtRuns isSpace line
  let op ← getAt 1 a
  let (addressToRead, data) := readFields digit a
  let (isHit, c) ← access ((addressToRead.tdiv 4).tdiv 4) data (countOp op c)
  .ok (countHit op isHit c)

/-- `fillFromFile`, given the lines of the file. -/
def fillFromFile (lines : List JavaString) (c : LruCache) : Java LruCache :=
  lines.foldlM (readLine digit) c

/-! ## Traces -/

/-- A line `<addr>: <op> <data>`, with an address that is decoded to a number. -/
structure TraceLine where
  addr : JavaString
  op : JavaString
  data : JavaString
  address : ℤ
  addr_token : ∀ c ∈ addr, isSpace c = false ∧ c ≠ ':'
  op_token : op ≠ [] ∧ ∀ c ∈ op, isSpace c = false
  decoded : Long.decode digit addr = some address
  address_nonneg : 0 ≤ address

variable {digit}

namespace TraceLine

def text (l : TraceLine digit) : JavaString := (l.addr ++ [':']) ++ ' ' :: (l.op ++ ' ' :: l.data)

def block (l : TraceLine digit) : ℤ := l.address / 16

def isRead (l : TraceLine digit) : Bool := l.op = ['R']

def isWrite (l : TraceLine digit) : Bool := l.op = ['W']

end TraceLine

section Reference

variable (sets setAssoc : ℤ)

/-- The block was accessed by an earlier line, the latest of which comes first, and fewer than
`setAssoc` distinct other blocks of its set have been accessed since. -/
def IsHit (earlier : List (TraceLine digit)) (block : ℤ) : Prop :=
  block ∈ earlier.map TraceLine.block ∧
    (((since block (earlier.map TraceLine.block)).filter fun b => b % sets = block % sets).card : ℤ) <
      setAssoc

instance (earlier : List (TraceLine digit)) (block : ℤ) :
    Decidable (IsHit sets setAssoc earlier block) :=
  inferInstanceAs (Decidable (_ ∧ _))

/-- The number of reads of a trace, the latest line first, that hit. -/
def readHits : List (TraceLine digit) → ℕ
  | [] => 0
  | l :: earlier =>
    readHits earlier + if l.isRead ∧ IsHit sets setAssoc earlier l.block then 1 else 0

/-- The number of reads that miss. -/
def readMisses : List (TraceLine digit) → ℕ
  | [] => 0
  | l :: earlier =>
    readMisses earlier + if l.isRead ∧ ¬IsHit sets setAssoc earlier l.block then 1 else 0

/-- The counters after a trace. -/
structure Counts (trace : List (TraceLine digit)) (c : LruCache) : Prop where
  hitCount : c.hitCount = readHits sets setAssoc trace
  missCount : c.missCount = readMisses sets setAssoc trace
  getCount : c.getCount = trace.countP TraceLine.isRead
  putCount : c.putCount = trace.countP TraceLine.isWrite
  totalCount : c.totalCount = trace.length

end Reference

/-! ## Reading a line -/

theorem splitAtRuns_fields {first op : JavaString}
    (hfirst : first ≠ [] ∧ ∀ c ∈ first, isSpace c = false)
    (hop : op ≠ [] ∧ ∀ c ∈ op, isSpace c = false) (data : JavaString) :
    ∃ rest, splitAtRuns isSpace (first ++ ' ' :: (op ++ ' ' :: data)) = first :: op :: rest := by
  have hspace : isSpace ' ' = true := by decide
  refine ⟨(data.splitOnP isSpace).filter fun piece => !piece.isEmpty, ?_⟩
  rw [splitAtRuns_cons hfirst.1 hfirst.2 hspace,
    List.splitOnP_append_cons_of_forall_mem hop.2 _ hspace, List.filter_cons_of_pos]
  simpa using hop.1

theorem splitAtRuns_line {addr op : JavaString} (haddr : ∀ c ∈ addr, isSpace c = false)
    (hop : op ≠ [] ∧ ∀ c ∈ op, isSpace c = false) (data : JavaString) :
    ∃ rest, splitAtRuns isSpace ((addr ++ [':']) ++ ' ' :: (op ++ ' ' :: data)) =
      (addr ++ [':']) :: op :: rest := by
  refine splitAtRuns_fields ⟨by simp, fun x hx => ?_⟩ hop data
  rcases List.mem_append.mp hx with hx | hx
  · exact haddr x hx
  · rw [List.mem_singleton.mp hx]
    decide

theorem readFields_line {addr : JavaString} {address : ℤ} (haddr : ∀ c ∈ addr, c ≠ ':')
    (hdecoded : Long.decode digit addr = some address) (rest : List JavaString) :
    ∃ data, readFields digit ((addr ++ [':']) :: rest) = (address, data) := by
  have hne : addr ≠ [] := by
    intro hnil
    rw [hnil] at hdecoded
    simp [Long.decode, Long.sign, Long.radix] at hdecoded
  have hcolon : ∀ c ∈ addr, decide (c = ':') = false := fun c hc => decide_eq_false (haddr c hc)
  have hsplit := splitAtEach_end hne hcolon (c := ':') (by decide)
  refine ⟨((addr ++ [':']) :: rest)[2]?.getD [], ?_⟩
  rw [readFields]
  simp [hsplit, hdecoded]

/-! ## Runs -/

/-- The sets hold the blocks of the lines read so far, the latest of which comes first. -/
structure SetsHold (sets : ℤ) (setAssoc : JavaInt) (trace : List (TraceLine digit))
    (array : List LruSet) : Prop where
  length : (array.length : ℤ) = sets
  holds : ∀ (i : ℕ) s, array[i]? = some s → ∃ checks, LruSet.Holds setAssoc checks s ∧
    LruSet.checked checks = (trace.map TraceLine.block).filter fun b => b % sets = i

variable {sets : ℤ} {setAssoc : JavaInt} {trace : List (TraceLine digit)} {c : LruCache}

theorem readHits_le (sets setAssoc : ℤ) (trace : List (TraceLine digit)) :
    readHits sets setAssoc trace ≤ trace.length := by
  induction trace with
  | nil => exact le_refl 0
  | cons l trace ih =>
    rw [readHits, List.length_cons]
    split <;> omega

/-- Each read either hits or misses. -/
theorem readHits_add_readMisses (sets setAssoc : ℤ) (trace : List (TraceLine digit)) :
    readHits sets setAssoc trace + readMisses sets setAssoc trace =
      trace.countP TraceLine.isRead := by
  induction trace with
  | nil => rfl
  | cons l trace ih =>
    rw [readHits, readMisses, List.countP_cons]
    by_cases hread : l.isRead = true
    · by_cases hhit : IsHit sets setAssoc trace l.block
      · simp only [hread, hhit, and_self, not_true_eq_false, and_false, if_true, if_false]
        omega
      · simp only [hread, hhit, and_false, not_false_eq_true, and_self, if_true, if_false]
        omega
    · simp only [hread, Bool.false_eq_true, false_and, if_false]
      omega

/-- In the set of a block, being kept and being hit are the same. -/
theorem mem_kept_iff (hassoc : 1 ≤ setAssoc.val) (hlength : trace.length ≤ 2147483647) (b : ℤ) :
    b ∈ LruSet.kept setAssoc
      ((trace.map TraceLine.block).filter fun b' => b' % sets = b % sets) ↔
      IsHit sets setAssoc.val trace b := by
  have hcard := List.toFinset_card_le
    ((trace.map TraceLine.block).filter fun b' => b' % sets = b % sets)
  have hfilter := List.length_filter_le (fun b' : ℤ => decide (b' % sets = b % sets))
    (trace.map TraceLine.block)
  rw [List.length_map] at hfilter
  rw [LruSet.kept_eq_take (.inr (by omega)), mem_take_recency, List.mem_filter,
    since_filter (by simp), IsHit]
  simp only [decide_true, and_true, decide_eq_true_eq]
  refine and_congr_right fun _ => ?_
  omega

theorem getAt_ok {β : Type} {array : List β} {index : ℕ} {x : β} (h : array[index]? = some x) :
    getAt (index : ℤ) array = .ok x := by
  rw [getAt, if_neg (by omega), Int.toNat_natCast, h]

/-- An access checks a block in the set at the remainder of the block. -/
theorem access_eq {block : ℤ} {index : ℕ} {s : LruSet}
    (hindex : block.tmod c.sets.length = index) (hs : c.sets[index]? = some s)
    (hmax : c.sets.length ≤ 2147483647) (data : JavaString) :
    access block data c = .ok ((s.checkQueue block data).1,
      { c with sets := c.sets.set index (s.checkQueue block data).2 }) := by
  obtain ⟨hlt, -⟩ := List.getElem?_eq_some_iff.mp hs
  have hremainder : remainder block c.sets.length = .ok (index : ℤ) := by
    rw [remainder, if_neg (by omega), hindex]
  have hint : int32 (index : ℤ) = index := int32_of_isInt ⟨by omega, by omega⟩
  rw [access, hremainder, Java.ok_bind, hint, getAt_ok hs, Java.ok_bind, Int.toNat_natCast]

/-- An access checks the block in the set of its residue, and leaves the other sets alone. -/
theorem SetsHold.access (hsets : 1 ≤ sets ∧ IsInt sets) (hassoc : 1 ≤ setAssoc.val)
    (h : SetsHold sets setAssoc trace c.sets) (hlength : trace.length ≤ 2147483647)
    (l : TraceLine digit) (data : JavaString) :
    ∃ isHit array, access l.block data c = .ok (isHit, { c with sets := array }) ∧
      (isHit = true ↔ IsHit sets setAssoc.val trace l.block) ∧
      SetsHold sets setAssoc (l :: trace) array := by
  have hnonneg : 0 ≤ l.block := Int.ediv_nonneg l.address_nonneg (by decide)
  have hlow := Int.emod_nonneg l.block (by omega : sets ≠ 0)
  have hhigh := Int.emod_lt_of_pos l.block (by omega : 0 < sets)
  obtain ⟨location, hlocation⟩ := Int.eq_ofNat_of_zero_le hlow
  have hindex : location < c.sets.length := by
    have hlen := h.length
    omega
  obtain ⟨s, hs⟩ : ∃ s, c.sets[location]? = some s := ⟨_, List.getElem?_eq_getElem hindex⟩
  obtain ⟨checks, hholds, hchecked⟩ := h.holds location s hs
  have hremainder : l.block.tmod c.sets.length = (location : ℤ) := by
    rw [h.length, Int.tmod_eq_emod_of_nonneg hnonneg, hlocation]
  have hmax : c.sets.length ≤ 2147483647 := by
    have hlen := h.length
    have hrange := hsets.2.2
    omega
  obtain ⟨hhit, hnext⟩ := hholds.checkQueue (by omega) l.block data
  have hkept : l.block ∈ LruSet.kept setAssoc
      ((trace.map TraceLine.block).filter fun b => b % sets = l.block % sets) ↔
      IsHit sets setAssoc.val trace l.block := mem_kept_iff hassoc hlength l.block
  rw [hchecked, ← hlocation, hkept] at hhit
  have haccess := access_eq hremainder hs hmax data
  generalize s.checkQueue l.block data = r at haccess hhit hnext
  obtain ⟨isHit, s'⟩ := r
  refine ⟨isHit, c.sets.set location s', haccess, hhit, by rw [List.length_set, h.length], ?_⟩
  intro i t ht
  rw [List.getElem?_set] at ht
  by_cases hi : location = i
  · subst hi
    rw [if_pos rfl, if_pos hindex] at ht
    cases ht
    refine ⟨(l.block, data) :: checks, hnext, ?_⟩
    have hsame : decide (l.block % sets = (location : ℤ)) = true := decide_eq_true hlocation
    rw [List.map_cons, List.filter_cons, hsame, if_pos rfl, ← hchecked]
    rfl
  · rw [if_neg hi] at ht
    obtain ⟨checks', hholds', hchecked'⟩ := h.holds i t ht
    refine ⟨checks', hholds', ?_⟩
    have hother : ¬l.block % sets = (i : ℤ) := by omega
    rw [List.map_cons, List.filter_cons_of_neg (by simpa only [decide_eq_true_eq]), hchecked']

theorem Counts.readLine (h : Counts sets setAssoc.val trace c) (hlength : trace.length < 2147483647)
    (l : TraceLine digit) {isHit : Bool}
    (hhit : isHit = true ↔ IsHit sets setAssoc.val trace l.block) (array : List LruSet) :
    Counts sets setAssoc.val (l :: trace)
      (countHit l.op isHit { countOp l.op c with sets := array }) := by
  have hint (n : ℕ) (hn : n ≤ trace.length) : int32 ((n : ℤ) + 1) = n + 1 := by
    refine int32_of_isInt ?_
    unfold IsInt
    omega
  have hsum := readHits_add_readMisses sets setAssoc.val trace
  have hreads := List.countP_le_length (p := TraceLine.isRead) (l := trace)
  have hwrites := List.countP_le_length (p := TraceLine.isWrite) (l := trace)
  refine ⟨?_, ?_, ?_, ?_, ?_⟩
  · show (if (isHit && decide (l.op = ['R'])) = true then int32 (c.hitCount + 1) else c.hitCount) = _
    rw [readHits, h.hitCount, hint _ (readHits_le _ _ _)]
    by_cases hread : l.op = ['R'] <;> by_cases hh : IsHit sets setAssoc.val trace l.block <;>
      simp [TraceLine.isRead, hread, hh, hhit]
  · show (if (!isHit && decide (l.op = ['R'])) = true then int32 (c.missCount + 1)
      else c.missCount) = _
    rw [readMisses, h.missCount, hint _ (by omega)]
    by_cases hread : l.op = ['R'] <;> by_cases hh : IsHit sets setAssoc.val trace l.block <;>
      simp [TraceLine.isRead, hread, hh, hhit]
  · show (if l.op = ['R'] then int32 (c.getCount + 1) else c.getCount) = _
    rw [List.countP_cons, h.getCount, hint _ hreads]
    by_cases hread : l.op = ['R'] <;> simp [TraceLine.isRead, hread]
  · show (if l.op = ['W'] then int32 (c.putCount + 1) else c.putCount) = _
    rw [List.countP_cons, h.putCount, hint _ hwrites]
    by_cases hwrite : l.op = ['W'] <;> simp [TraceLine.isWrite, hwrite]
  · show int32 (c.totalCount + 1) = _
    rw [h.totalCount, hint _ le_rfl, List.length_cons]
    push_cast
    rfl

/-- What the cache knows of the lines it has read. -/
structure Simulates (sets : ℤ) (setAssoc : JavaInt) (trace : List (TraceLine digit))
    (c : LruCache) : Prop where
  setsHold : SetsHold sets setAssoc trace c.sets
  counts : Counts sets setAssoc.val trace c

theorem Simulates.readLine (hsets : 1 ≤ sets ∧ IsInt sets) (hassoc : 1 ≤ setAssoc.val)
    (h : Simulates sets setAssoc trace c) (hlength : trace.length < 2147483647)
    (l : TraceLine digit) :
    ∃ c', LruCache.readLine digit c l.text = .ok c' ∧ Simulates sets setAssoc (l :: trace) c' := by
  obtain ⟨rest, hsplit⟩ := splitAtRuns_line (fun x hx => (l.addr_token x hx).1) l.op_token l.data
  obtain ⟨data, hfields⟩ :=
    readFields_line (fun x hx => (l.addr_token x hx).2) l.decoded (l.op :: rest)
  have hblock : (l.address.tdiv 4).tdiv 4 = l.block := by
    have hnonneg := l.address_nonneg
    rw [TraceLine.block, Int.tdiv_eq_ediv_of_nonneg hnonneg, Int.tdiv_eq_ediv_of_nonneg (by omega)]
    omega
  have hop : getAt 1 ((l.addr ++ [':']) :: l.op :: rest) = .ok l.op := rfl
  obtain ⟨isHit, array, haccess, hhit, hholds⟩ :=
    SetsHold.access (c := countOp l.op c) hsets hassoc h.setsHold hlength.le l data
  refine ⟨countHit l.op isHit { countOp l.op c with sets := array }, ?_, hholds,
    h.counts.readLine hlength l hhit array⟩
  simp only [LruCache.readLine, TraceLine.text, hsplit, hop, Java.ok_bind, hfields, hblock, haccess]

theorem Simulates.fillFromFile (hsets : 1 ≤ sets ∧ IsInt sets) (hassoc : 1 ≤ setAssoc.val)
    {earlier : List (TraceLine digit)} (h : Simulates sets setAssoc earlier c)
    (hlength : earlier.length + trace.length < 2147483648) :
    ∃ c', LruCache.fillFromFile digit (trace.map TraceLine.text) c = .ok c' ∧
      Simulates sets setAssoc (trace.reverse ++ earlier) c' := by
  induction trace generalizing earlier c with
  | nil => exact ⟨c, rfl, h⟩
  | cons l trace ih =>
    rw [List.length_cons] at hlength
    obtain ⟨c', hread, h'⟩ := h.readLine hsets hassoc (by omega) l
    obtain ⟨c'', hfill, h''⟩ := ih h' (by rw [List.length_cons]; omega)
    refine ⟨c'', ?_, ?_⟩
    · rw [LruCache.fillFromFile, List.map_cons, List.foldlM_cons, hread]
      exact hfill
    · rw [List.reverse_cons, List.append_assoc]
      exact h''

theorem mapM_replicate {A B : Type} {f : A → Java B} {a : A} {b : B} (h : f a = .ok b) (n : ℕ) :
    (List.replicate n a).mapM f = .ok (List.replicate n b) := by
  induction n with
  | zero => rfl
  | succ n ih =>
    rw [List.replicate_succ, List.mapM_cons, h, Java.ok_bind, ih]
    rfl

/-- The number of sets, where there are at least as many blocks as a set has. -/
theorem quotient_bounds {size assoc : ℤ} (hassoc : 1 ≤ assoc) (hsize : assoc ≤ size) :
    1 ≤ size / assoc ∧ size / assoc ≤ size := by
  refine ⟨?_, Int.ediv_le_self _ (by omega)⟩
  rw [Int.le_ediv_iff_mul_le (by omega)]
  omega

/-- The sets of a new cache, as many as the quotient of its two numbers says. -/
theorem new_eq {passedNumSets passedSetAssoc : JavaInt} (hassoc : 1 ≤ passedSetAssoc.val)
    (hsets : 0 ≤ passedNumSets.val) :
    new passedNumSets passedSetAssoc =
      .ok ⟨List.replicate (passedNumSets.val / passedSetAssoc.val).toNat
        ⟨passedSetAssoc, ⟨.empty, passedSetAssoc⟩⟩, 0, 0, 0, 0, 0⟩ := by
  rw [new, divide_of_pos (by omega), Int.tdiv_eq_ediv_of_nonneg hsets, Java.ok_bind,
    mapM_replicate (LruSet.new_eq (by omega))]
  rfl

theorem new_simulates {passedNumSets passedSetAssoc : JavaInt} (hassoc : 1 ≤ passedSetAssoc.val)
    (hsets : passedSetAssoc.val ≤ passedNumSets.val) :
    ∃ c, new passedNumSets passedSetAssoc = .ok c ∧
      Simulates (passedNumSets.val / passedSetAssoc.val) passedSetAssoc
        ([] : List (TraceLine digit)) c := by
  have hnonneg : 0 ≤ passedNumSets.val / passedSetAssoc.val := Int.ediv_nonneg (by omega) (by omega)
  refine ⟨_, new_eq hassoc (by omega), ⟨?_, ?_⟩, ⟨rfl, rfl, rfl, rfl, rfl⟩⟩
  · rw [List.length_replicate, Int.toNat_of_nonneg hnonneg]
  · intro i t ht
    rw [List.getElem?_replicate] at ht
    split at ht
    · cases ht
      exact ⟨[], ⟨rfl, LruSet.Keeps.empty.stores⟩, rfl⟩
    · cases ht

/-- `fillFromFile` counts the hits and misses that the history of a trace defines. -/
theorem fillFromFile_counts (digit : Char → ℕ → Option ℕ) (passedNumSets passedSetAssoc : JavaInt)
    (hassoc : 1 ≤ passedSetAssoc.val) (hsets : passedSetAssoc.val ≤ passedNumSets.val)
    (trace : List (TraceLine digit)) (hlength : trace.length < 2147483648) :
    ∃ cache c, new passedNumSets passedSetAssoc = .ok cache ∧
      fillFromFile digit (trace.map TraceLine.text) cache = .ok c ∧
      Counts (passedNumSets.val / passedSetAssoc.val) passedSetAssoc.val trace.reverse c ∧
      c.getCount = c.hitCount + c.missCount := by
  obtain ⟨cache, hnew, hsimulates⟩ : ∃ c, new passedNumSets passedSetAssoc = .ok c ∧
      Simulates (passedNumSets.val / passedSetAssoc.val) passedSetAssoc
        ([] : List (TraceLine digit)) c := new_simulates hassoc hsets
  have hrange : 1 ≤ passedNumSets.val / passedSetAssoc.val ∧
      IsInt (passedNumSets.val / passedSetAssoc.val) := by
    obtain ⟨hlow, hhigh⟩ := quotient_bounds hassoc hsets
    have hmax := passedNumSets.property
    unfold IsInt at hmax ⊢
    omega
  obtain ⟨c, hfill, h⟩ := hsimulates.fillFromFile hrange hassoc (by simpa using hlength)
  rw [List.append_nil] at h
  refine ⟨cache, c, hnew, hfill, h.counts, ?_⟩
  have hsum := readHits_add_readMisses (passedNumSets.val / passedSetAssoc.val) passedSetAssoc.val
    trace.reverse
  rw [h.counts.getCount, h.counts.hitCount, h.counts.missCount]
  omega

/-- The digits of the small trace. -/
def asciiDigit (c : Char) (base : ℕ) : Option ℕ :=
  let value := if c.isDigit then c.toNat - 48 else if c.isLower then c.toNat - 87 else c.toNat - 55
  if c.isAlphanum ∧ value < base then some value else none

def readOf (addr : JavaString) (address : ℕ)
    (htoken : ∀ c ∈ addr, isSpace c = false ∧ c ≠ ':')
    (hdecoded : Long.decode asciiDigit addr = some (address : ℤ)) : TraceLine asciiDigit :=
  ⟨addr, ['R'], ['d'], address, htoken, by simp [isSpace], hdecoded, Int.natCast_nonneg _⟩

/-- Reads of the blocks 1, 3, 1, 2, 1, where 1 and 3 share a set. -/
def smallTrace : List (TraceLine asciiDigit) :=
  [readOf ['0', 'x', '1', '0'] 16 (by simp [isSpace]) (by decide),
    readOf ['4', '8'] 48 (by simp [isSpace]) (by decide),
    readOf ['#', '1', 'f'] 31 (by simp [isSpace]) (by decide),
    readOf ['0', '4', '0'] 32 (by simp [isSpace]) (by decide),
    readOf ['2', '0'] 20 (by simp [isSpace]) (by decide)]

theorem fillFromFile_smallTrace :
    readHits 2 1 smallTrace.reverse = 1 ∧
    ∃ cache c, new 2 1 = .ok cache ∧
      fillFromFile asciiDigit (smallTrace.map TraceLine.text) cache = .ok c ∧
      Counts 2 1 smallTrace.reverse c ∧ c.getCount = c.hitCount + c.missCount :=
  ⟨by decide, fillFromFile_counts asciiDigit 2 1 (by decide) (by decide) smallTrace (by decide)⟩

end LruCache

end CachePolicies
