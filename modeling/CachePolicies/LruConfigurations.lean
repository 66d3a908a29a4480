import CachePolicies.LruCaches
import CachePolicies.PartialRuns
import Mathlib.Algebra.BigOperators.Ring.Finset

/-!
# The configurations of the LRU cache

The simulator asks for a cache size and an associativity, each until it is one of those it
offers, and runs a trace with them. The number of sets is a truncated quotient of the two, and the
set of an address is a remainder that takes the sign of the address.
-/

namespace CachePolicies

namespace LruCache

open JavaString

/-! ## The dialogue of `main` -/

/-- The condition of the loop that asks for the cache size. -/
def rejectsNumSets (numSets : ℤ) : Bool :=
  numSets ≠ 1 && numSets ≠ 32 && numSets ≠ 64 && numSets ≠ 128 && numSets ≠ 256 &&
    numSets ≠ 512 && numSets ≠ 1024 && numSets ≠ 2048 && numSets ≠ 4096

/-- The condition of the loop that asks for the set associativity. -/
def rejectsSetAssoc (setAssoc : ℤ) : Bool :=
  setAssoc ≠ 1 && setAssoc ≠ 2 && setAssoc ≠ 4 && setAssoc ≠ 8

/-- A `do` loop that reads the next number until it is not rejected. -/
def askWhile (rejects : ℤ → Bool) : List JavaInt → Java (JavaInt × List JavaInt)
  | [] => .error .noSuchElement
  | n :: input => if rejects n.val then askWhile rejects input else .ok (n, input)

/-- The two numbers with which `main` creates its cache, given what is typed in. -/
def configuration (input : List JavaInt) : Java (JavaInt × JavaInt) := do
  let numSets ← askWhile rejectsNumSets input
  let setAssoc ← askWhile rejectsSetAssoc numSets.2
  .ok (numSets.1, setAssoc.1)

theorem not_rejects_of_askWhile {rejects : ℤ → Bool} {input rest : List JavaInt} {n : JavaInt}
    (h : askWhile rejects input = .ok (n, rest)) : rejects n.val = false := by
  induction input with
  | nil => cases h
  | cons m input ih =>
    rw [askWhile] at h
    split at h
    · exact ih h
    · next hrejects =>
      cases h
      exact Bool.not_eq_true _ ▸ hrejects

/-- A cache size and an associativity as the loops let them through. -/
structure Accepted (numSets setAssoc : ℤ) : Prop where
  numSets : numSets ∈ [1, 32, 64, 128, 256, 512, 1024, 2048, 4096]
  setAssoc : setAssoc ∈ [1, 2, 4, 8]

theorem accepted_of_configuration {input : List JavaInt} {numSets setAssoc : JavaInt}
    (h : configuration input = .ok (numSets, setAssoc)) :
    Accepted numSets.val setAssoc.val := by
  obtain ⟨⟨n, rest⟩, hsize, h⟩ := Java.bind_eq_ok.mp h
  obtain ⟨⟨m, rest'⟩, hassoc, h⟩ := Java.bind_eq_ok.mp h
  cases h
  have hn := not_rejects_of_askWhile hsize
  have hm := not_rejects_of_askWhile hassoc
  simp only [rejectsNumSets, rejectsSetAssoc, ne_eq, decide_not, Bool.and_eq_false_iff,
    Bool.not_eq_false', decide_eq_true_eq] at hn hm
  refine ⟨?_, ?_⟩
  · simp only [List.mem_cons, List.not_mem_nil, or_false]
    omega
  · simp only [List.mem_cons, List.not_mem_nil, or_false]
    omega

section Accepted

variable {numSets setAssoc : ℤ}

theorem Accepted.bounds (h : Accepted numSets setAssoc) :
    1 ≤ setAssoc ∧ 1 ≤ numSets ∧ numSets ≤ 4096 := by
  obtain ⟨hsize, hassoc⟩ := h
  simp only [List.mem_cons, List.not_mem_nil, or_false] at hsize hassoc
  omega

/-- All the sizes and associativities are powers of two, so that the smaller divides the larger. -/
theorem Accepted.dvd (h : Accepted numSets setAssoc) (hle : setAssoc ≤ numSets) :
    setAssoc ∣ numSets := by
  obtain ⟨hsize, hassoc⟩ := h
  simp only [List.mem_cons, List.not_mem_nil, or_false] at hsize hassoc
  rcases hassoc with rfl | rfl | rfl | rfl <;> omega

end Accepted

/-! ## Traces -/

section Reading

variable (digit : Char → ℕ → Option ℕ)

/-- A line `<addr>: <op> <data>`, with an address that is decoded to any number. -/
structure AddressLine where
  addr : JavaString
  op : JavaString
  data : JavaString
  address : ℤ
  addr_token : ∀ c ∈ addr, isSpace c = false ∧ c ≠ ':'
  op_token : op ≠ [] ∧ ∀ c ∈ op, isSpace c = false
  decoded : Long.decode digit addr = some address

/-- The block of the address that a line is read to have. -/
def blockAddress (line : JavaString) : ℤ :=
  ((readFields digit (splitAtRuns isSpace line)).1.tdiv 4).tdiv 4

/-- The variable `location`, once a line has come that far. -/
def location (c : LruCache) (line : JavaString) : Java ℤ := do
  let _ ← getAt 1 (splitAtRuns isSpace line)
  remainder (blockAddress digit line) c.sets.length

/-- The body of the loop in `fillFromFile`, with the location that it computes. -/
def reading (c : LruCache) (line : JavaString) : Java (LruCache × ℤ) := do
  let location ← location digit c line
  let c ← readLine digit c line
  .ok (c, location)

/-- The location of a line is an index of the sets. -/
def InRange (r : Record LruCache JavaString ℤ) : Prop :=
  0 ≤ r.output ∧ r.output < r.before.sets.length

/-- The number of blocks that all sets together have room for. -/
def capacity (c : LruCache) : ℤ := (c.sets.map fun s => s.setLength.val).sum

/-- The new cache has the size that was asked for, and reads all lines at locations in range. -/
def RunsTrace (numSets setAssoc : JavaInt) (lines : List JavaString) : Prop :=
  ∃ cache, new numSets setAssoc = .ok cache ∧ cache.capacity = numSets.val ∧
    Succeeds (reading digit) InRange cache lines ∧ ∃ c, fillFromFile digit lines cache = .ok c

end Reading

variable {digit : Char → ℕ → Option ℕ}

def AddressLine.text (l : AddressLine digit) : JavaString :=
  (l.addr ++ [':']) ++ ' ' :: (l.op ++ ' ' :: l.data)

/-! ## Truncated quotients and remainders -/

theorem tdiv_four_tdiv_four (a : ℤ) : (a.tdiv 4).tdiv 4 = a.tdiv 16 := by
  have hnat (n : ℕ) : ((n : ℤ).tdiv 4).tdiv 4 = (n : ℤ).tdiv 16 := by
    have hdiv : n / 4 / 4 = n / 16 := Nat.div_div_eq_div_mul n 4 4
    exact congrArg Int.ofNat hdiv
  obtain ⟨n, rfl | rfl⟩ := Int.eq_nat_or_neg a
  · exact hnat n
  · rw [Int.neg_tdiv, Int.neg_tdiv, Int.neg_tdiv, hnat]

/-- Quotients are rounded towards zero, from below as well. -/
theorem tdiv_sixteen_nonneg_iff {a : ℤ} : 0 ≤ a.tdiv 16 ↔ -16 < a := by
  obtain ⟨n, rfl | rfl⟩ := Int.eq_nat_or_neg a
  · rw [Int.natCast_tdiv_eq_ediv]
    omega
  · rw [Int.neg_tdiv, Int.natCast_tdiv_eq_ediv]
    omega

theorem tmod_nonneg_iff {a b : ℤ} : 0 ≤ a.tmod b ↔ 0 ≤ a ∨ b ∣ a := by
  obtain ⟨n, rfl | rfl⟩ := Int.eq_nat_or_neg a
  · exact iff_of_true (Int.tmod_nonneg b (by omega)) (.inl (by omega))
  · have hlow := Int.tmod_nonneg b (Int.natCast_nonneg n)
    rw [Int.neg_tmod, Int.dvd_neg, Int.dvd_iff_tmod_eq_zero]
    constructor
    · intro h
      exact .inr (by omega)
    · rintro (h | h)
      · have hzero : (n : ℤ) = 0 := by omega
        simp [hzero]
      · omega

/-! ## Locations -/

theorem AddressLine.getAt_op (l : AddressLine digit) :
    getAt 1 (splitAtRuns isSpace l.text) = .ok l.op := by
  obtain ⟨rest, hsplit⟩ := splitAtRuns_line (fun x hx => (l.addr_token x hx).1) l.op_token l.data
  rw [AddressLine.text, hsplit]
  rfl

theorem AddressLine.blockAddress_text (l : AddressLine digit) :
    blockAddress digit l.text = l.address.tdiv 16 := by
  obtain ⟨rest, hsplit⟩ := splitAtRuns_line (fun x hx => (l.addr_token x hx).1) l.op_token l.data
  obtain ⟨data, hfields⟩ :=
    readFields_line (fun x hx => (l.addr_token x hx).2) l.decoded (l.op :: rest)
  rw [blockAddress, AddressLine.text, hsplit, hfields, tdiv_four_tdiv_four]

variable {c : LruCache} {line : JavaString} {n : ℕ}

/-- A line is read where it has an operation and its block leaves a remainder that is an index. -/
def HasLocation (digit : Char → ℕ → Option ℕ) (n : ℕ) (line : JavaString) : Prop :=
  (∃ op, getAt 1 (splitAtRuns isSpace line) = .ok op) ∧ 0 ≤ (blockAddress digit line).tmod n

theorem access_of_location (hlength : c.sets.length = n) (hn : 1 ≤ n ∧ n ≤ 4096) {block : ℤ}
    (hlocation : 0 ≤ block.tmod n) (data : JavaString) :
    ∃ isHit c', access block data c = .ok (isHit, c') ∧ c'.sets.length = n := by
  have hhigh := Int.tmod_lt_of_pos block (show (0 : ℤ) < n by omega)
  obtain ⟨index, hindex⟩ := Int.eq_ofNat_of_zero_le hlocation
  obtain ⟨s, hs⟩ : ∃ s, c.sets[index]? = some s :=
    ⟨_, List.getElem?_eq_getElem (show index < c.sets.length by omega)⟩
  have haccess := access_eq (hlength ▸ hindex) hs (by omega) data
  exact ⟨_, _, haccess, by rw [List.length_set, hlength]⟩

theorem reading_of_hasLocation (hlength : c.sets.length = n) (hn : 1 ≤ n ∧ n ≤ 4096)
    (h : HasLocation digit n line) :
    ∃ c' o, reading digit c line = .ok (c', o) ∧ c'.sets.length = n ∧
      InRange ⟨c, line, o, c'⟩ := by
  obtain ⟨⟨op, hop⟩, hlocation⟩ := h
  obtain ⟨isHit, c', haccess, hlength'⟩ :=
    access_of_location (c := countOp op c) hlength hn hlocation
      (readFields digit (splitAtRuns isSpace line)).2
  have hhigh := Int.tmod_lt_of_pos (blockAddress digit line) (show (0 : ℤ) < n by omega)
  have hfound : location digit c line = .ok ((blockAddress digit line).tmod n) := by
    rw [location, hop, Java.ok_bind, remainder, hlength, if_neg (by omega)]
  have hread : readLine digit c line = .ok (countHit op isHit c') := by
    rw [blockAddress] at haccess
    simp only [readLine, hop, Java.ok_bind, haccess]
  refine ⟨countHit op isHit c', (blockAddress digit line).tmod n, ?_, hlength', hlocation, ?_⟩
  · rw [reading, hfound, Java.ok_bind, hread]
    rfl
  · rw [hlength]
    exact hhigh

theorem hasLocation_of_reading (hlength : c.sets.length = n) {c' : LruCache} {o : ℤ}
    (hok : reading digit c line = .ok (c', o)) (hrange : InRange ⟨c, line, o, c'⟩) :
    HasLocation digit n line := by
  obtain ⟨found, hfound, hok⟩ := Java.bind_eq_ok.mp hok
  obtain ⟨_, -, hok⟩ := Java.bind_eq_ok.mp hok
  cases hok
  obtain ⟨op, hop, hfound⟩ := Java.bind_eq_ok.mp hfound
  rw [remainder, hlength] at hfound
  split at hfound
  · cases hfound
  · cases hfound
    exact ⟨⟨op, hop⟩, hrange.1⟩

/-- Reading the lines one after the other is what `fillFromFile` does. -/
theorem fillFromFile_of_succeeds {Good : Record LruCache JavaString ℤ → Prop}
    {lines : List JavaString} (h : Succeeds (reading digit) Good c lines) :
    ∃ c', fillFromFile digit lines c = .ok c' := by
  induction lines generalizing c with
  | nil => exact ⟨c, rfl⟩
  | cons line lines ih =>
    obtain ⟨_, _, hok, -, hrest⟩ := h
    obtain ⟨_, -, hok⟩ := Java.bind_eq_ok.mp hok
    obtain ⟨_, hread, hok⟩ := Java.bind_eq_ok.mp hok
    cases hok
    obtain ⟨last, hfill⟩ := ih hrest
    refine ⟨last, ?_⟩
    rw [fillFromFile, List.foldlM_cons, hread]
    exact hfill

theorem AddressLine.hasLocation_text (l : AddressLine digit) :
    HasLocation digit n l.text ↔ -16 < l.address ∨ (n : ℤ) ∣ l.address.tdiv 16 := by
  rw [HasLocation, l.blockAddress_text, tmod_nonneg_iff, tdiv_sixteen_nonneg_iff,
    and_iff_right ⟨l.op, l.getAt_op⟩]

/-! ## Accepted configurations -/

variable {numSets setAssoc : JavaInt}

theorem Accepted.new (h : Accepted numSets.val setAssoc.val) :
    ∃ cache, LruCache.new numSets setAssoc = .ok cache ∧
      (cache.sets.length : ℤ) = numSets.val / setAssoc.val ∧
      (cache.capacity = numSets.val ↔ setAssoc.val ≤ numSets.val) := by
  obtain ⟨hassoc, hlow, -⟩ := h.bounds
  have hnonneg : 0 ≤ numSets.val / setAssoc.val := Int.ediv_nonneg (by omega) (by omega)
  refine ⟨_, new_eq hassoc (by omega), ?_, ?_⟩
  · rw [List.length_replicate, Int.toNat_of_nonneg hnonneg]
  · rw [capacity, List.map_replicate, List.sum_replicate, nsmul_eq_mul,
      Int.toNat_of_nonneg hnonneg]
    constructor
    · intro hcapacity
      by_contra hlt
      rw [Int.ediv_eq_zero_of_lt (by omega) (by omega)] at hcapacity
      omega
    · intro hle
      exact Int.ediv_mul_cancel (h.dvd hle)

/-- The lines that a cache with at least one set reads. -/
theorem Accepted.succeeds_iff (h : Accepted numSets.val setAssoc.val)
    (hle : setAssoc.val ≤ numSets.val)
    (hlength : (c.sets.length : ℤ) = numSets.val / setAssoc.val)
    (trace : List (AddressLine digit)) :
    Succeeds (reading digit) InRange c (trace.map AddressLine.text) ↔ ∀ l ∈ trace,
      -16 < l.address ∨ numSets.val / setAssoc.val ∣ l.address.tdiv 16 := by
  obtain ⟨hassoc, -, hhigh⟩ := h.bounds
  obtain ⟨hone, hself⟩ := quotient_bounds hassoc hle
  have hbounds : 1 ≤ c.sets.length ∧ c.sets.length ≤ 4096 := by omega
  have hiff : Succeeds (reading digit) InRange c (trace.map AddressLine.text) ↔
      ∀ line ∈ trace.map AddressLine.text, HasLocation digit c.sets.length line :=
    succeeds_iff_forall (fun _ _ hc => reading_of_hasLocation hc hbounds)
      (fun _ _ _ _ hc => hasLocation_of_reading hc) rfl
  rw [hiff, List.forall_mem_map, ← hlength]
  exact forall₂_congr fun l _ => l.hasLocation_text

/-- An accepted configuration runs a trace exactly if it has a set and finds a set for each
address. -/
theorem Accepted.runsTrace_iff (h : Accepted numSets.val setAssoc.val)
    (trace : List (AddressLine digit)) :
    RunsTrace digit numSets setAssoc (trace.map AddressLine.text) ↔
      setAssoc.val ≤ numSets.val ∧ ∀ l ∈ trace,
        -16 < l.address ∨ numSets.val / setAssoc.val ∣ l.address.tdiv 16 := by
  obtain ⟨cache, hnew, hlength, hcapacity⟩ := h.new
  constructor
  · rintro ⟨cache', hnew', hsize, hsucceeds, -⟩
    cases hnew.symm.trans hnew'
    have hle := hcapacity.mp hsize
    exact ⟨hle, (h.succeeds_iff hle hlength trace).mp hsucceeds⟩
  · rintro ⟨hle, hlines⟩
    have hsucceeds := (h.succeeds_iff hle hlength trace).mpr hlines
    exact ⟨cache, hnew, hcapacity.mpr hle, hsucceeds, fillFromFile_of_succeeds hsucceeds⟩

/-- The dialogue leads to a configuration that runs a trace exactly if the associativity is not
larger than the cache and each address is either above `-16` or of a block that the number of
sets divides. -/
theorem runsTrace_of_configuration (digit : Char → ℕ → Option ℕ) {input : List JavaInt}
    (hask : configuration input = .ok (numSets, setAssoc)) (trace : List (AddressLine digit)) :
    RunsTrace digit numSets setAssoc (trace.map AddressLine.text) ↔
      setAssoc.val ≤ numSets.val ∧ ∀ l ∈ trace,
        -16 < l.address ∨ numSets.val / setAssoc.val ∣ l.address.tdiv 16 :=
  (accepted_of_configuration hask).runsTrace_iff trace

theorem read_token : ['R'] ≠ [] ∧ ∀ c ∈ ['R'], isSpace c = false := by simp [isSpace]

/-- A read of a decimal address from `-99` to `-10`. -/
def negativeLine (tens units : Char)
    (htoken : ∀ c ∈ ['-', tens, units], isSpace c = false ∧ c ≠ ':') (address : ℤ)
    (hdecoded : Long.decode asciiDigit ['-', tens, units] = some address) :
    AddressLine asciiDigit :=
  ⟨['-', tens, units], ['R'], ['d'], address, htoken, read_token, hdecoded⟩

/-- Reads of the addresses `-15` and `-64`, which are in the blocks `0` and `-4`. -/
def negativeTrace : List (AddressLine asciiDigit) :=
  [negativeLine '1' '5' (by simp [isSpace]) (-15) (by decide),
    negativeLine '6' '4' (by simp [isSpace]) (-64) (by decide)]

/-- Four sets read both addresses, as four divides the block. -/
theorem runsTrace_negativeTrace :
    configuration [3, 32, 5, 8] = .ok (32, 8) ∧
      RunsTrace asciiDigit 32 8 (negativeTrace.map AddressLine.text) := by
  have hask : configuration [3, 32, 5, 8] = .ok (32, 8) := by decide
  exact ⟨hask, (runsTrace_of_configuration asciiDigit hask negativeTrace).mpr (by decide)⟩

/-- Eight sets do not read the second address, and sets of two blocks do not fit into a cache of
one. -/
theorem not_runsTrace_negativeTrace :
    (configuration [32, 4] = .ok (32, 4) ∧
      ¬ RunsTrace asciiDigit 32 4 (negativeTrace.map AddressLine.text)) ∧
    (configuration [1, 2] = .ok (1, 2) ∧
      ¬ RunsTrace asciiDigit 1 2 (([] : List (AddressLine asciiDigit)).map AddressLine.text)) := by
  refine ⟨⟨by decide, fun hruns => ?_⟩, ⟨by decide, fun hruns => ?_⟩⟩
  · have haccepted : Accepted (32 : JavaInt).val (4 : JavaInt).val := ⟨by decide, by decide⟩
    exact absurd ((haccepted.runsTrace_iff negativeTrace).mp hruns) (by decide)
  · have haccepted : Accepted (1 : JavaInt).val (2 : JavaInt).val := ⟨by decide, by decide⟩
    exact absurd ((haccepted.runsTrace_iff []).mp hruns) (by decide)

end LruCache

end CachePolicies
