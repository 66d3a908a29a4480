import CachePolicies.LruAgreements
import CachePolicies.LruCaches

/-!
# The first version of the LRU cache

The first version reads its addresses with `Integer.decode`, keeps them as values of type `int`
and looks them up by value. On addresses of 32 bits it does what the later version does, as long
as they are positive as values of type `int`. It takes any other address for `0`.
-/

namespace CachePolicies

/-- The class `Cache` of the first version, without the rates. -/
structure LruAddressCache where
  sets : List LruAddressSet
  hitCount : ℤ
  missCount : ℤ
  totalCount : ℤ

namespace LruAddressCache

open JavaString

/-- The constructor, for a number of sets that is not negative. -/
def new (passedNumSets passedSetAssoc : JavaInt) : Java LruAddressCache := do
  let index ← divide passedNumSets.val passedSetAssoc.val
  let sets ← (List.replicate index.toNat passedSetAssoc).mapM LruAddressSet.new
  .ok ⟨sets, 0, 0, 0⟩

section Definitions

variable (digit : Char → ℕ → Option ℕ)

/-- The body of the loop in `fillFromFile`, in which a number that is not decoded leaves the
address at `0`. -/
def readLine (c : LruAddressCache) (line : JavaString) : Java LruAddressCache := do
  let a := splitAtRuns isSpace line
  let field ← LruCache.getAt 0 a
  let addressToRead := (Integer.decode digit field).getD 0
  let blockAddress := (addressToRead.tdiv 4).tdiv 4
  let location ← remainder blockAddress c.sets.length
  let s ← LruCache.getAt location c.sets
  let (isHit, s) := s.checkQueue blockAddress
  .ok ⟨c.sets.set location.toNat s, if isHit then int32 (c.hitCount + 1) else c.hitCount,
    if isHit then c.missCount else int32 (c.missCount + 1), int32 (c.totalCount + 1)⟩

/-- `fillFromFile`, given the lines of the file. -/
def fillFromFile (lines : List JavaString) (c : LruAddressCache) : Java LruAddressCache :=
  lines.foldlM (readLine digit) c

/-- A line `0x<hex> R <data>` with an address of 32 bits. -/
structure HexLine where
  hex : JavaString
  data : JavaString
  address : ℤ
  hex_token : ∀ c ∈ hex, isSpace c = false ∧ c ≠ ':'
  decoded : Long.decode digit ('0' :: 'x' :: hex) = some address
  address_range : 0 ≤ address ∧ address ≤ 4294967295

end Definitions

variable {digit : Char → ℕ → Option ℕ}

namespace HexLine

def addr (l : HexLine digit) : JavaString := '0' :: 'x' :: l.hex

def text (l : HexLine digit) : JavaString := l.addr ++ ' ' :: (['R'] ++ ' ' :: l.data)

def block (l : HexLine digit) : ℤ := l.address / 16

/-- The address as the first version decodes it. -/
def intAddress (l : HexLine digit) : ℤ := if l.address < 2147483648 then l.address else 0

def intBlock (l : HexLine digit) : ℤ := l.intAddress / 16

end HexLine

/-- The two versions have counted alike, and corresponding sets hold the same blocks in the same
order. -/
structure SameBlocks (c : LruAddressCache) (d : LruCache) : Prop where
  sets : (c.sets.map fun s => s.blocks.keys) = d.sets.map fun s => s.blocks.keys
  hitCount : c.hitCount = d.hitCount
  missCount : c.missCount = d.missCount
  totalCount : c.totalCount = d.totalCount

/-! ## Reading a line -/

theorem HexLine.addr_token (l : HexLine digit) : ∀ c ∈ l.addr, isSpace c = false ∧ c ≠ ':' := by
  intro c hc
  rcases List.mem_cons.mp hc with rfl | hc
  · decide
  · rcases List.mem_cons.mp hc with rfl | hc
    · decide
    · exact l.hex_token c hc

theorem HexLine.splitAtRuns_text (l : HexLine digit) :
    ∃ rest, splitAtRuns isSpace l.text = l.addr :: ['R'] :: rest :=
  LruCache.splitAtRuns_fields ⟨by simp [HexLine.addr], fun c hc => (l.addr_token c hc).1⟩
    ⟨by simp, by simp [isSpace]⟩ l.data

theorem HexLine.readFields_text (l : HexLine digit) (rest : List JavaString) :
    ∃ data, LruCache.readFields digit (l.addr :: rest) = (l.address, data) := by
  have hcolon : ':' ∉ l.addr := fun hc => (l.addr_token ':' hc).2 rfl
  have hdecoded : Long.decode digit l.addr = some l.address := l.decoded
  refine ⟨(l.addr :: rest)[2]?.getD [], ?_⟩
  simp [LruCache.readFields, splitAtEach, hcolon, hdecoded]

theorem HexLine.decode_addr (l : HexLine digit) :
    (Integer.decode digit l.addr).getD 0 = l.intAddress := by
  have hdecoded : Long.decode digit l.addr = some l.address := l.decoded
  have hlow := l.address_range.1
  rw [Integer.decode_eq_filter, hdecoded, HexLine.intAddress, Option.filter_some]
  by_cases hsmall : l.address < 2147483648
  · have hint : IsInt l.address := ⟨by omega, by omega⟩
    simp [hint, hsmall]
  · have hint : ¬IsInt l.address := fun hint => hsmall (by have hhigh := hint.2; omega)
    simp [hint, hsmall]

theorem tdiv_four_tdiv_four_of_nonneg {address : ℤ} (h : 0 ≤ address) :
    (address.tdiv 4).tdiv 4 = address / 16 := by
  rw [Int.tdiv_eq_ediv_of_nonneg h, Int.tdiv_eq_ediv_of_nonneg (by omega)]
  omega

/-! ## What the two versions hold -/

/-- An array of sets keeps what is known of each place, when one place is updated. -/
theorem getElem?_set_update {X T : Type} {P : List X → T → Prop} {checks : ℕ → List X}
    {array : List T} (h : ∀ i s, array[i]? = some s → P (checks i) s) {j : ℕ} {x : X} {s' : T}
    (hj : P (x :: checks j) s') :
    ∀ i s, (array.set j s')[i]? = some s → P (Function.update checks j (x :: checks j) i) s := by
  intro i s hs
  by_cases hi : i = j
  · subst hi
    have hlt : i < array.length := by
      obtain ⟨hlt, -⟩ := List.getElem?_eq_some_iff.mp hs
      simpa using hlt
    rw [List.getElem?_set_self hlt] at hs
    cases hs
    rw [Function.update_self]
    exact hj
  · rw [List.getElem?_set_ne (fun he => hi he.symm)] at hs
    rw [Function.update_of_ne hi]
    exact h i s hs

variable {setAssoc : JavaInt} {n : ℕ} {c : LruAddressCache} {d : LruCache}

/-- The sets of the first version hold what is kept of the addresses of each set. -/
structure IntsHold (setAssoc : JavaInt) (n : ℕ) (addresses : ℕ → List ℤ) (c : LruAddressCache) :
    Prop where
  length : c.sets.length = n
  holds : ∀ i s, c.sets[i]? = some s → LruAddressSet.Holds setAssoc (addresses i) s

/-- The sets of the later version hold what is kept of the checks of each set. -/
structure LongsHold (setAssoc : JavaInt) (n : ℕ) (checks : ℕ → List (ℤ × JavaString))
    (d : LruCache) : Prop where
  length : d.sets.length = n
  holds : ∀ i s, d.sets[i]? = some s → LruSet.Holds setAssoc (checks i) s

/-- The place of a block among `n` sets. -/
def place (n : ℕ) (block : ℤ) : ℕ := (block % n).toNat

theorem tmod_eq_place (hn : 1 ≤ n) {block : ℤ} (hblock : 0 ≤ block) :
    block.tmod n = place n block ∧ place n block < n := by
  have hlow := Int.emod_nonneg block (by omega : (n : ℤ) ≠ 0)
  have hhigh := Int.emod_lt_of_pos block (by omega : (0 : ℤ) < n)
  rw [Int.tmod_eq_emod_of_nonneg hblock, place]
  omega

theorem HexLine.intBlock_nonneg (l : HexLine digit) : 0 ≤ l.intBlock ∧ l.intBlock < 134217728 := by
  have hlow := l.address_range.1
  rw [HexLine.intBlock, HexLine.intAddress]
  split <;> omega

/-- A line is a check of the block of its address as the first version decodes it. -/
theorem IntsHold.readLine {addresses : ℕ → List ℤ} (hassoc : 0 ≤ setAssoc.val) (hn : 1 ≤ n)
    (h : IntsHold setAssoc n addresses c) (l : HexLine digit) :
    ∃ c', LruAddressCache.readLine digit c l.text = .ok c' ∧
      IntsHold setAssoc n (Function.update addresses (place n l.intBlock)
        (l.intBlock :: addresses (place n l.intBlock))) c' ∧
      (c'.hitCount, c'.missCount, c'.totalCount) =
        (if l.intBlock ∈ LruSet.kept setAssoc (addresses (place n l.intBlock))
          then (int32 (c.hitCount + 1), c.missCount, int32 (c.totalCount + 1))
          else (c.hitCount, int32 (c.missCount + 1), int32 (c.totalCount + 1))) := by
  obtain ⟨rest, hsplit⟩ := l.splitAtRuns_text
  obtain ⟨hremainder, hlt⟩ := tmod_eq_place hn l.intBlock_nonneg.1
  obtain ⟨s, hs⟩ : ∃ s, c.sets[place n l.intBlock]? = some s :=
    ⟨_, List.getElem?_eq_getElem (h.length ▸ hlt)⟩
  obtain ⟨hhit, hnext⟩ := (h.holds _ s hs).checkQueue hassoc l.intBlock
  have hfield : LruCache.getAt 0 (l.addr :: ['R'] :: rest) = .ok l.addr := rfl
  have haddress : (l.intAddress.tdiv 4).tdiv 4 = l.intBlock := by
    refine tdiv_four_tdiv_four_of_nonneg ?_
    have hlow := l.address_range.1
    rw [HexLine.intAddress]
    split <;> omega
  have hlocation : remainder l.intBlock c.sets.length = .ok (place n l.intBlock : ℤ) := by
    rw [remainder, h.length, if_neg (by omega), hremainder]
  have hread : LruAddressCache.readLine digit c l.text =
      .ok ⟨c.sets.set (place n l.intBlock) (s.checkQueue l.intBlock).2,
        if (s.checkQueue l.intBlock).1 then int32 (c.hitCount + 1) else c.hitCount,
        if (s.checkQueue l.intBlock).1 then c.missCount else int32 (c.missCount + 1),
        int32 (c.totalCount + 1)⟩ := by
    simp only [LruAddressCache.readLine, hsplit, hfield, Java.ok_bind, l.decode_addr, haddress,
      hlocation, LruCache.getAt_ok hs, Int.toNat_natCast]
  refine ⟨_, hread, ⟨?_, getElem?_set_update h.holds hnext⟩, ?_⟩
  · rw [List.length_set, h.length]
  · simp only [hhit]
    split <;> rfl

/-- A line is a check of the block of its address. -/
theorem LongsHold.readLine {checks : ℕ → List (ℤ × JavaString)} (hassoc : 0 ≤ setAssoc.val)
    (hn : 1 ≤ n ∧ n ≤ 2147483647) (h : LongsHold setAssoc n checks d) (l : HexLine digit) :
    ∃ d' data, LruCache.readLine digit d l.text = .ok d' ∧
      LongsHold setAssoc n (Function.update checks (place n l.block)
        ((l.block, data) :: checks (place n l.block))) d' ∧
      (d'.hitCount, d'.missCount, d'.totalCount) =
        (if l.block ∈ LruSet.kept setAssoc (LruSet.checked (checks (place n l.block)))
          then (int32 (d.hitCount + 1), d.missCount, int32 (d.totalCount + 1))
          else (d.hitCount, int32 (d.missCount + 1), int32 (d.totalCount + 1))) := by
  obtain ⟨rest, hsplit⟩ := l.splitAtRuns_text
  obtain ⟨data, hfields⟩ := l.readFields_text (['R'] :: rest)
  have hblock : 0 ≤ l.block := Int.ediv_nonneg l.address_range.1 (by decide)
  obtain ⟨hremainder, hlt⟩ := tmod_eq_place hn.1 hblock
  obtain ⟨s, hs⟩ : ∃ s, d.sets[place n l.block]? = some s :=
    ⟨_, List.getElem?_eq_getElem (h.length ▸ hlt)⟩
  obtain ⟨hhit, hnext⟩ := (h.holds _ s hs).checkQueue hassoc l.block data
  have hop : LruCache.getAt 1 (l.addr :: ['R'] :: rest) = .ok ['R'] := rfl
  have haddress : (l.address.tdiv 4).tdiv 4 = l.block :=
    tdiv_four_tdiv_four_of_nonneg l.address_range.1
  have hlength : (LruCache.countOp ['R'] d).sets.length = n := h.length
  have haccess := LruCache.access_eq (c := LruCache.countOp ['R'] d) (by rw [hlength, hremainder])
    hs (by omega) data
  have hread : LruCache.readLine digit d l.text =
      .ok (LruCache.countHit ['R'] (s.checkQueue l.block data).1 { LruCache.countOp ['R'] d with
        sets := d.sets.set (place n l.block) (s.checkQueue l.block data).2 }) := by
    simp only [LruCache.readLine, hsplit, hop, Java.ok_bind, hfields, haddress, haccess]
    rfl
  refine ⟨_, data, hread, ⟨?_, getElem?_set_update h.holds hnext⟩, ?_⟩
  · simp only [LruCache.countHit, List.length_set, h.length]
  · simp only [LruCache.countHit, LruCache.countOp, decide_true, Bool.and_true, hhit,
      Bool.not_eq_true', ← Bool.not_eq_true]
    split <;> simp [*]

/-! ## The two versions side by side -/

/-- The two versions have counted alike, and hold what is kept of the same blocks, all of which
the first version can tell apart. -/
structure Paired (setAssoc : JavaInt) (n : ℕ) (checks : ℕ → List (ℤ × JavaString))
    (c : LruAddressCache) (d : LruCache) : Prop where
  ints : IntsHold setAssoc n (fun i => LruSet.checked (checks i)) c
  longs : LongsHold setAssoc n checks d
  small : ∀ i, ∀ b ∈ LruSet.checked (checks i), b < 134217728
  counts : (c.hitCount, c.missCount, c.totalCount) = (d.hitCount, d.missCount, d.totalCount)

theorem Paired.sameBlocks {checks : ℕ → List (ℤ × JavaString)} (h : Paired setAssoc n checks c d) :
    SameBlocks c d := by
  obtain ⟨hhit, hmiss, htotal⟩ : c.hitCount = d.hitCount ∧ c.missCount = d.missCount ∧
      c.totalCount = d.totalCount := by simpa using h.counts
  refine ⟨?_, hhit, hmiss, htotal⟩
  refine List.ext_getElem (by simp [h.ints.length, h.longs.length]) fun i hi hi' => ?_
  rw [List.length_map] at hi hi'
  have hint := h.ints.holds i _ (List.getElem?_eq_getElem hi)
  have hlong := h.longs.holds i _ (List.getElem?_eq_getElem hi')
  rw [List.getElem_map, List.getElem_map, hint.stores.keys_eq, hlong.stores.keys_eq]

theorem checked_update (checks : ℕ → List (ℤ × JavaString)) (j : ℕ) (x : ℤ × JavaString) :
    (fun i => LruSet.checked (Function.update checks j (x :: checks j) i)) =
      Function.update (fun i => LruSet.checked (checks i)) j
        (x.1 :: LruSet.checked (checks j)) := by
  funext i
  by_cases hi : i = j
  · subst hi
    rw [Function.update_self, Function.update_self]
    rfl
  · rw [Function.update_of_ne hi, Function.update_of_ne hi]

/-- A block that only the later version knows is missing in the first one. -/
theorem not_sameBlocks {addresses : ℕ → List ℤ} {checks : ℕ → List (ℤ × JavaString)} {j : ℕ}
    {block : ℤ} {data : JavaString} (hassoc : 1 ≤ setAssoc.val) (hj : j < n)
    (hints : IntsHold setAssoc n addresses c)
    (hsmall : ∀ i, ∀ b ∈ addresses i, b < 134217728)
    (hlongs : LongsHold setAssoc n (Function.update checks j ((block, data) :: checks j)) d)
    (hblock : 134217728 ≤ block) : ¬ SameBlocks c d := by
  intro hsame
  have hc : j < c.sets.length := by rw [hints.length]; exact hj
  have hd : j < d.sets.length := by rw [hlongs.length]; exact hj
  have hint := hints.holds j _ (List.getElem?_eq_getElem hc)
  have hlong := hlongs.holds j _ (List.getElem?_eq_getElem hd)
  have hkeys : c.sets[j].blocks.keys = d.sets[j].blocks.keys := by
    have hget := congrArg (fun keys : List (List ℤ) => keys[j]?) hsame.sets
    simpa [hc, hd] using hget
  rw [hint.stores.keys_eq, hlong.stores.keys_eq, List.reverse_inj, Function.update_self] at hkeys
  have hmem : block ∈ LruSet.kept setAssoc (addresses j) := by
    rw [hkeys]
    exact List.mem_of_head? (LruSet.head?_kept_cons hassoc block _)
  have hlt := hsmall j block (LruSet.mem_of_mem_kept hmem)
  omega

theorem forall_mem_update {P : ℤ → Prop} {addresses : ℕ → List ℤ}
    (h : ∀ i, ∀ b ∈ addresses i, P b) {block : ℤ} (hblock : P block) (j : ℕ) :
    ∀ i, ∀ b ∈ Function.update addresses j (block :: addresses j) i, P b := by
  intro i b hb
  by_cases hi : i = j
  · rw [hi, Function.update_self] at hb
    rcases List.mem_cons.mp hb with rfl | hb
    · exact hblock
    · exact h j b hb
  · rw [Function.update_of_ne hi] at hb
    exact h i b hb

/-- A line of a small address keeps the two versions paired, and any other one tells them
apart. -/
theorem Paired.readLine {checks : ℕ → List (ℤ × JavaString)} (hassoc : 1 ≤ setAssoc.val)
    (hn : 1 ≤ n ∧ n ≤ 2147483647) (h : Paired setAssoc n checks c d) (l : HexLine digit) :
    ∃ c' d', LruAddressCache.readLine digit c l.text = .ok c' ∧
      LruCache.readLine digit d l.text = .ok d' ∧
      (l.address < 2147483648 → ∃ checks', Paired setAssoc n checks' c' d') ∧
      (SameBlocks c' d' → l.address < 2147483648) := by
  obtain ⟨c', hread, hints, hcounts⟩ := h.ints.readLine (by omega) hn.1 l
  obtain ⟨d', data, hread', hlongs, hcounts'⟩ := h.longs.readLine (by omega) hn l
  have hsmall := forall_mem_update h.small l.intBlock_nonneg.2 (place n l.intBlock)
  refine ⟨c', d', hread, hread', fun hlt => ?_, fun hsame => ?_⟩
  · have hblock : l.intBlock = l.block := by
      rw [HexLine.intBlock, HexLine.intAddress, if_pos hlt, HexLine.block]
    rw [hblock] at hints hcounts hsmall
    have hchecked := checked_update checks (place n l.block) (l.block, data)
    obtain ⟨hhit, hmiss, htotal⟩ : c.hitCount = d.hitCount ∧ c.missCount = d.missCount ∧
        c.totalCount = d.totalCount := by simpa using h.counts
    refine ⟨_, ?_, hlongs, fun i => ?_, ?_⟩
    · rw [hchecked]
      exact hints
    · have hget := congrFun hchecked i
      rw [hget]
      exact hsmall i
    · rw [hcounts, hcounts', hhit, hmiss, htotal]
  · by_contra hge
    have hnonneg : 0 ≤ l.block := Int.ediv_nonneg l.address_range.1 (by decide)
    have hlarge : 134217728 ≤ l.block := by
      rw [HexLine.block]
      omega
    exact not_sameBlocks hassoc (tmod_eq_place hn.1 hnonneg).2 hints hsmall hlongs hlarge hsame

/-- The two versions stay alike over a trace exactly if they tell its addresses apart alike. -/
theorem Paired.fillFromFile_iff {checks : ℕ → List (ℤ × JavaString)} (hassoc : 1 ≤ setAssoc.val)
    (hn : 1 ≤ n ∧ n ≤ 2147483647) (h : Paired setAssoc n checks c d)
    (trace : List (HexLine digit)) :
    (∀ start, start <+: trace → ∃ c' d',
      LruAddressCache.fillFromFile digit (start.map HexLine.text) c = .ok c' ∧
      LruCache.fillFromFile digit (start.map HexLine.text) d = .ok d' ∧ SameBlocks c' d') ↔
    ∀ l ∈ trace, l.address < 2147483648 := by
  induction trace generalizing checks c d with
  | nil =>
    refine iff_of_true (fun start hstart => ?_) (by simp)
    cases List.prefix_nil.mp hstart
    exact ⟨c, d, rfl, rfl, h.sameBlocks⟩
  | cons l trace ih =>
    obtain ⟨c₁, d₁, hread, hread', hpaired, hneed⟩ := h.readLine hassoc hn l
    have hfill (start : List (HexLine digit)) :
        LruAddressCache.fillFromFile digit ((l :: start).map HexLine.text) c =
          LruAddressCache.fillFromFile digit (start.map HexLine.text) c₁ := by
      rw [LruAddressCache.fillFromFile, List.map_cons, List.foldlM_cons, hread]
      rfl
    have hfill' (start : List (HexLine digit)) :
        LruCache.fillFromFile digit ((l :: start).map HexLine.text) d =
          LruCache.fillFromFile digit (start.map HexLine.text) d₁ := by
      rw [LruCache.fillFromFile, List.map_cons, List.foldlM_cons, hread']
      rfl
    rw [List.forall_mem_cons]
    constructor
    · intro hall
      obtain ⟨c', d', hc, hd, hsame⟩ := hall [l] ⟨trace, rfl⟩
      rw [hfill] at hc
      rw [hfill'] at hd
      cases hc
      cases hd
      have hlt := hneed hsame
      obtain ⟨checks', h'⟩ := hpaired hlt
      refine ⟨hlt, (ih h').mp fun start hstart => ?_⟩
      obtain ⟨c', d', hc, hd, hsame⟩ := hall (l :: start) (List.cons_prefix_cons.mpr ⟨rfl, hstart⟩)
      exact ⟨c', d', hfill start ▸ hc, hfill' start ▸ hd, hsame⟩
    · rintro ⟨hlt, hrest⟩ start hstart
      obtain ⟨checks', h'⟩ := hpaired hlt
      cases start with
      | nil => exact ⟨c, d, rfl, rfl, h.sameBlocks⟩
      | cons l' start =>
        obtain ⟨rfl, htail⟩ := List.cons_prefix_cons.mp hstart
        rw [hfill, hfill']
        exact (ih h').mpr hrest start htail

theorem sets_bounds {passedNumSets passedSetAssoc : JavaInt} (hassoc : 1 ≤ passedSetAssoc.val)
    (hsets : passedSetAssoc.val ≤ passedNumSets.val) :
    1 ≤ (passedNumSets.val / passedSetAssoc.val).toNat ∧
      (passedNumSets.val / passedSetAssoc.val).toNat ≤ 2147483647 := by
  obtain ⟨hlow, hhigh⟩ := LruCache.quotient_bounds hassoc hsets
  have hmax := passedNumSets.property.2
  omega

/-- The new caches of the two versions. -/
theorem new_paired {passedNumSets passedSetAssoc : JavaInt} (hassoc : 1 ≤ passedSetAssoc.val)
    (hsets : passedSetAssoc.val ≤ passedNumSets.val) :
    ∃ ints longs, new passedNumSets passedSetAssoc = .ok ints ∧
      LruCache.new passedNumSets passedSetAssoc = .ok longs ∧
      Paired passedSetAssoc (passedNumSets.val / passedSetAssoc.val).toNat (fun _ => [])
        ints longs := by
  obtain ⟨s, hs, hholds⟩ := LruAddressSet.new_ok (show 0 ≤ passedSetAssoc.val by omega)
  refine ⟨⟨List.replicate (passedNumSets.val / passedSetAssoc.val).toNat s, 0, 0, 0⟩, _, ?_,
    LruCache.new_eq hassoc (by omega), ⟨List.length_replicate, ?_⟩, ⟨List.length_replicate, ?_⟩,
    by simp [LruSet.checked], rfl⟩
  · rw [new, divide_of_pos (by omega), Int.tdiv_eq_ediv_of_nonneg (by omega), Java.ok_bind,
      LruCache.mapM_replicate hs]
    rfl
  · intro i t ht
    rw [List.eq_of_mem_replicate (List.mem_of_getElem? ht)]
    exact hholds
  · intro i t ht
    rw [List.eq_of_mem_replicate (List.mem_of_getElem? ht)]
    exact ⟨rfl, LruSet.Keeps.empty.stores⟩

/-- The two versions stay alike over a trace of addresses of 32 bits exactly if none of the
addresses has the highest bit. -/
theorem fillFromFile_agree_iff (digit : Char → ℕ → Option ℕ)
    {passedNumSets passedSetAssoc : JavaInt} (hassoc : 1 ≤ passedSetAssoc.val)
    (hsets : passedSetAssoc.val ≤ passedNumSets.val) (trace : List (HexLine digit)) :
    (∃ ints longs, new passedNumSets passedSetAssoc = .ok ints ∧
      LruCache.new passedNumSets passedSetAssoc = .ok longs ∧
      ∀ start, start <+: trace → ∃ ints' longs',
        fillFromFile digit (start.map HexLine.text) ints = .ok ints' ∧
        LruCache.fillFromFile digit (start.map HexLine.text) longs = .ok longs' ∧
        SameBlocks ints' longs') ↔
      ∀ l ∈ trace, l.address < 2147483648 := by
  obtain ⟨ints, longs, hnew, hnew', hpaired⟩ := new_paired hassoc hsets
  have hiff := hpaired.fillFromFile_iff hassoc (sets_bounds hassoc hsets) trace
  rw [← hiff]
  constructor
  · rintro ⟨ints', longs', hints, hlongs, hall⟩
    cases hnew.symm.trans hints
    cases hnew'.symm.trans hlongs
    exact hall
  · exact fun hall => ⟨ints, longs, hnew, hnew', hall⟩

/-- The line `0x10 R a`. -/
def lowLine : HexLine LruCache.asciiDigit :=
  ⟨['1', '0'], ['a'], 16, by simp [isSpace], by decide, by decide⟩

/-- The line `0x80000000 R a`. -/
def highLine : HexLine LruCache.asciiDigit :=
  ⟨['8', '0', '0', '0', '0', '0', '0', '0'], ['a'], 2147483648, by simp [isSpace], by decide,
    by decide⟩

theorem fillFromFile_agree_lowLine :
    ∃ ints longs, new 2 1 = .ok ints ∧ LruCache.new 2 1 = .ok longs ∧
      ∀ start, start <+: [lowLine, lowLine] → ∃ ints' longs',
        fillFromFile LruCache.asciiDigit (start.map HexLine.text) ints = .ok ints' ∧
        LruCache.fillFromFile LruCache.asciiDigit (start.map HexLine.text) longs = .ok longs' ∧
        SameBlocks ints' longs' :=
  (fillFromFile_agree_iff LruCache.asciiDigit (by decide) (by decide) [lowLine, lowLine]).mpr
    (by decide)

/-- The first version puts the block `0` into its set, the later one the block `0x8000000`. -/
theorem not_fillFromFile_agree_highLine :
    ¬ ∃ ints longs ints' longs', new 1 1 = .ok ints ∧ LruCache.new 1 1 = .ok longs ∧
        fillFromFile LruCache.asciiDigit [highLine.text] ints = .ok ints' ∧
        LruCache.fillFromFile LruCache.asciiDigit [highLine.text] longs = .ok longs' ∧
        SameBlocks ints' longs' := by
  rintro ⟨ints, longs, ints', longs', hnew, hnew', hfill, hfill', hsame⟩
  have hassoc : 1 ≤ (1 : JavaInt).val := by decide
  obtain ⟨ints₁, longs₁, hnew₁, hnew₁', hpaired⟩ := new_paired hassoc le_rfl
  cases hnew.symm.trans hnew₁
  cases hnew'.symm.trans hnew₁'
  obtain ⟨c, d, hread, hread', -, hneed⟩ :=
    hpaired.readLine hassoc (sets_bounds hassoc le_rfl) highLine
  rw [fillFromFile, List.foldlM_cons, hread] at hfill
  rw [LruCache.fillFromFile, List.foldlM_cons, hread'] at hfill'
  cases hfill
  cases hfill'
  exact absurd (hneed hsame) (by decide)

end LruAddressCache

end CachePolicies
