import CachePolicies.ArcBaseCaches
import CachePolicies.PartialRuns

/-!
# The class `ArcCache`

The cache decides at the end of an operation what to evict, so that the entry accessed is in the
cache until then. An entry is an object; its field `withinT2` is part of the state.
-/

namespace CachePolicies

/-- The `long` that two's complement arithmetic leaves for the exact result `n`. -/
def int64 (n : ℤ) : ℤ := (n + 9223372036854775808) % 18446744073709551616 - 9223372036854775808

structure ArcCache {K : Type} (base : BaseCache K) where
  arcP : ℤ
  b1Hash : base.Hash
  b2Hash : base.Hash
  t2Hit : ℤ
  t1Hit : ℤ
  t1Size : ℤ
  b2HitPreferenceForEviction : Bool
  links : base.Links
  withinT2 : ArcEntry K → Bool
  /-- The objects made so far. -/
  objects : ℕ
  /-- What the main hash table of the base class holds. -/
  cached : List (ArcEntry K)

namespace ArcCache

open ListHead

section

variable {K : Type} (base : BaseCache K) (maxSize : JavaInt)

def initializeHeapCache : ArcCache base where
  arcP := 0
  b1Hash := base.init
  b2Hash := base.init
  t2Hit := 0
  t1Hit := 0
  t1Size := 0
  b2HitPreferenceForEviction := false
  links := base.shortCircuit
  withinT2 := fun _ => false
  objects := 0
  cached := []

variable {base}

def getHitCnt (s : ArcCache base) : ℤ := int64 (s.t2Hit + s.t1Hit)

def getLocalSize (s : ArcCache base) : ℤ := s.cached.length

def getT2Size (s : ArcCache base) : ℤ := int32 (s.getLocalSize - s.t1Size)

/-- The `prev` of a head as an entry; the head itself is none. The error stands for the `prev` of
an empty list, the head, for which no caller ever asks. -/
def last (h : ListHead) (s : ArcCache base) : Java (ArcEntry K) :=
  match base.prev h s.links with
  | none => .error .nullPointer
  | some e => .ok e

def insertIntoReplacementList (e : ArcEntry K) (s : ArcCache base) : ArcCache base :=
  { s with links := base.insertInList t1Head e s.links, t1Size := int32 (s.t1Size + 1) }

/-- How far the target moves, from the sizes of the list that was hit and of the other. -/
def delta (hitSize otherSize : ℤ) : Java ℤ :=
  if hitSize ≥ otherSize then .ok 1 else divide otherSize hitSize

def b1HitAdaption (s : ArcCache base) : Java (ArcCache base) := do
  let d ← delta (int32 (base.size s.b1Hash + 1)) (base.size s.b2Hash)
  .ok { s with arcP := min (int32 (s.arcP + d)) maxSize, b2HitPreferenceForEviction := false }

def b2HitAdaption (s : ArcCache base) : Java (ArcCache base) := do
  let d ← delta (int32 (base.size s.b2Hash + 1)) (base.size s.b1Hash)
  .ok { s with arcP := max (int32 (s.arcP - d)) 0, b2HitPreferenceForEviction := true }

/-- What both branches of `allMissEvictGhosts` do with a ghost of `b1`. -/
def dropB1 (s : ArcCache base) : Java (ArcCache base) := do
  let e ← s.last b1Head
  .ok { s with links := base.removeFromList e s.links, b1Hash := (base.remove e s.b1Hash).2 }

def dropB2 (s : ArcCache base) : Java (ArcCache base) := do
  let e ← s.last b2Head
  .ok { s with links := base.removeFromList e s.links, b2Hash := (base.remove e s.b2Hash).2 }

def allMissEvictGhosts (s : ArcCache base) : Java (ArcCache base) :=
  if int32 (s.t1Size + base.size s.b1Hash) ≥ maxSize then
    if base.size s.b1Hash > 0 then s.dropB1
    else if base.size s.b2Hash ≥ maxSize then s.dropB2
    else .ok s
  else if int32 (base.size s.b1Hash + base.size s.b2Hash) ≥ maxSize then
    if base.size s.b2Hash = 0 then s.dropB1 else s.dropB2
  else .ok s

variable [DecidableEq K]

/-- A new object of the class `Entry`. -/
def newEntry (key : K) (hc : ℤ) (s : ArcCache base) : ArcEntry K × ArcCache base :=
  let e := ⟨s.objects, key, hc⟩
  (e, { s with objects := s.objects + 1, withinT2 := Function.update s.withinT2 e false })

def recordHit (e : ArcEntry K) (s : ArcCache base) : ArcCache base :=
  let s := { s with links := base.moveToFront t2Head e s.links }
  if s.withinT2 e then { s with t2Hit := int64 (s.t2Hit + 1) }
  else { s with
    withinT2 := Function.update s.withinT2 e true
    t1Hit := int64 (s.t1Hit + 1)
    t1Size := int32 (s.t1Size - 1) }

def insertT2 (e : ArcEntry K) (s : ArcCache base) : ArcCache base :=
  { s with
    withinT2 := Function.update s.withinT2 e true
    links := base.insertInList t2Head e s.links }

def checkForGhost (key : K) (hc : ℤ) (s : ArcCache base) :
    Java (Option (ArcEntry K) × ArcCache base) := do
  let (found, b1Hash) := base.removeKey key hc s.b1Hash
  let s := { s with b1Hash := b1Hash }
  match found with
  | some e =>
    let s ← b1HitAdaption maxSize { s with links := base.removeFromList e s.links }
    .ok (some e, s.insertT2 e)
  | none =>
    let (found, b2Hash) := base.removeKey key hc s.b2Hash
    let s := { s with b2Hash := b2Hash }
    match found with
    | some e =>
      let s ← b2HitAdaption { s with links := base.removeFromList e s.links }
      .ok (some e, s.insertT2 e)
    | none =>
      let s ← s.allMissEvictGhosts maxSize
      .ok (none, s)

def removeEntryFromReplacementList (e : ArcEntry K) (s : ArcCache base) : ArcCache base :=
  let s := if s.withinT2 e then s else { s with t1Size := int32 (s.t1Size - 1) }
  { s with
    links := base.removeEntryFromReplacementList e s.links
    withinT2 := Function.update s.withinT2 e false }

/-- The method `replace` with its argument. -/
def replaceFrom (fromT1 : Bool) (s : ArcCache base) : Java (ArcEntry K × ArcCache base) :=
  if fromT1 then do
    let e ← s.last t1Head
    let (e2, s) := s.newEntry e.key e.hashCode
    .ok (e, { s with links := base.insertInList b1Head e2 s.links,
                     b1Hash := base.insert e2 s.b1Hash })
  else do
    let e ← s.last t2Head
    let (e2, s) := s.newEntry e.key e.hashCode
    .ok (e, { s with links := base.insertInList b2Head e2 s.links,
                     b2Hash := base.insert e2 s.b2Hash })

def replace (s : ArcCache base) : Java (ArcEntry K × ArcCache base) :=
  s.replaceFrom (s.t1Size > s.arcP ∨ s.getT2Size = 0)

def replaceB2Hit (s : ArcCache base) : Java (ArcEntry K × ArcCache base) :=
  s.replaceFrom ((s.t1Size ≥ s.arcP ∧ s.t1Size > 0) ∨ s.getT2Size = 0)

def findEvictionCandidate (s : ArcCache base) : Java (ArcEntry K × ArcCache base) := do
  let (e, s) ← if s.b2HitPreferenceForEviction then s.replaceB2Hit else s.replace
  if int32 (base.size s.b1Hash + base.size s.b2Hash) > maxSize then
    let s ← s.allMissEvictGhosts maxSize
    .ok (e, s)
  else .ok (e, s)

/-- The checks of `getIntegrityState` that are about replacement, with their texts. -/
def getIntegrityState (s : ArcCache base) : List (String × Bool) :=
  let count (h : ListHead) : ℤ := base.getListEntryCount h s.links
  [("getSize() == getListEntryCount()",
      s.getLocalSize = int32 (count t1Head + count t2Head)),
    ("t1Size == getListEntryCount(t1Head)", s.t1Size = count t1Head),
    ("getSize() - t1Size == getListEntryCount(t2Head)",
      int32 (s.getLocalSize - s.t1Size) = count t2Head),
    ("b1HashCtrl.size + b2HashCtrl.size <= maxSize",
      int32 (base.size s.b1Hash + base.size s.b2Hash) ≤ maxSize),
    ("b1HashCtrl.size == getListEntryCount(b1Head)", base.size s.b1Hash = count b1Head),
    ("b2HashCtrl.size == getListEntryCount(b2Head)", base.size s.b2Hash = count b2Head)]

end

/-- What the base class has the cache do: a key looked up and found, a key looked up that is not in
the main hash table, a candidate for eviction asked for and left, or evicted, and an entry removed
for another reason. -/
inductive ArcCall (K : Type)
  | hit (e : ArcEntry K)
  | miss (key : K)
  | candidate
  | evict
  | remove (e : ArcEntry K)
  deriving DecidableEq

def ArcCall.isHit {K : Type} : ArcCall K → Bool
  | .hit _ => true
  | _ => false

section

variable {K : Type} [DecidableEq K] {base : BaseCache K} (maxSize : JavaInt)

/-- The entry goes into the main hash table. -/
def put (e : ArcEntry K) (s : ArcCache base) : ArcCache base := { s with cached := e :: s.cached }

/-- The entry leaves the replacement list and the main hash table. -/
def removed (e : ArcEntry K) (s : ArcCache base) : ArcCache base :=
  let s := s.removeEntryFromReplacementList e
  { s with cached := s.cached.erase e }

@[simp] theorem recordHit_cached (e : ArcEntry K) (s : ArcCache base) :
    (s.recordHit e).cached = s.cached := by
  rw [recordHit]
  split_ifs <;> rfl

@[simp] theorem recordHit_arcP (e : ArcEntry K) (s : ArcCache base) :
    (s.recordHit e).arcP = s.arcP := by
  rw [recordHit]
  split_ifs <;> rfl

@[simp] theorem removed_cached (e : ArcEntry K) (s : ArcCache base) :
    (s.removed e).cached = s.cached.erase e := by
  rw [removed, removeEntryFromReplacementList]
  split_ifs <;> rfl

@[simp] theorem removed_arcP (e : ArcEntry K) (s : ArcCache base) :
    (s.removed e).arcP = s.arcP := by
  rw [removed, removeEntryFromReplacementList]
  split_ifs <;> rfl

@[simp] theorem removed_getHitCnt (e : ArcEntry K) (s : ArcCache base) :
    (s.removed e).getHitCnt = s.getHitCnt := by
  rw [removed, removeEntryFromReplacementList]
  split_ifs <;> rfl

theorem recordHit_getHitCnt (e : ArcEntry K) (s : ArcCache base) :
    (s.recordHit e).getHitCnt = int64 (s.getHitCnt + 1) := by
  rw [recordHit]
  split_ifs
  · show int64 (int64 (s.t2Hit + 1) + s.t1Hit) = int64 (int64 (s.t2Hit + s.t1Hit) + 1)
    unfold int64
    omega
  · show int64 (s.t2Hit + int64 (s.t1Hit + 1)) = int64 (int64 (s.t2Hit + s.t1Hit) + 1)
    unfold int64
    omega

/-- A call, with the entry that it is about. -/
def perform (s : ArcCache base) : ArcCall K → Java (ArcCache base × ArcEntry K)
  | .hit e => .ok (s.recordHit e, e)
  | .miss key => do
    let (ghost, s) ← s.checkForGhost maxSize key (base.modifiedHash key)
    match ghost with
    | some e => .ok (s.put e, e)
    | none =>
      let (e, s) := s.newEntry key (base.modifiedHash key)
      .ok ((s.insertIntoReplacementList e).put e, e)
  | .candidate => do
    let (e, s) ← s.findEvictionCandidate maxSize
    .ok (s, e)
  | .evict => do
    let (e, s) ← s.findEvictionCandidate maxSize
    .ok (s.removed e, e)
  | .remove e => .ok (s.removed e, e)

/-- What the base class sees to: entries are hit and removed while they are in the main hash table,
a key is missed while it is not, and the counts stay within `int`. -/
def Permits (s : ArcCache base) : ArcCall K → Prop
  | .hit e => e ∈ s.cached
  | .miss key => (∀ e ∈ s.cached, e.key ≠ key) ∧ s.cached.length + maxSize.val < 2147483646
  | .candidate | .evict => s.cached ≠ []
  | .remove e => e ∈ s.cached

instance (s : ArcCache base) : (call : ArcCall K) → Decidable (Permits maxSize s call)
  | .hit e => inferInstanceAs (Decidable (e ∈ s.cached))
  | .miss _ => inferInstanceAs (Decidable (_ ∧ _))
  | .candidate | .evict => inferInstanceAs (Decidable (s.cached ≠ []))
  | .remove e => inferInstanceAs (Decidable (e ∈ s.cached))

end

end ArcCache

end CachePolicies
