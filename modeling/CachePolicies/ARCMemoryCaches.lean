import CachePolicies.HashMaps
import CachePolicies.JavaIntegers

/-!
# The adaptive replacement memory cache

The descriptors of `ARCMemoryCache` are objects which its map and its four lists share, so
they are kept apart and named by references. A method changes the state and may throw, and
what it has changed by then stays changed. What a `catch` block gives to `log.error` is kept
in `errors`; the other logging, and `waterfal`, do not touch the cache.
-/

namespace CachePolicies

structure CacheElement (K V : Type) where
  key : K
  val : Option V
  deriving DecidableEq

/-- The lists, by the names which `listNum` gives them. -/
inductive ListNum | T1 | T2 | B1 | B2
  deriving DecidableEq, Repr

structure ElementDescriptor (K V : Type) where
  listNum : ListNum
  key : K
  ce : Option (CacheElement K V)

/-- A reference to a descriptor. -/
abbrev Ref := ℕ

/-- The lists are given from their first element to their last one. -/
structure ARCMemoryCache (K V : Type) where
  maxSize : JavaInt
  lists : ListNum → List Ref
  target_T1 : ℤ
  map : HashMap K Ref
  cnt : ℤ
  hitCnt : ℤ
  missCnt : ℤ
  putCnt : ℤ
  descriptors : HashMap Ref (ElementDescriptor K V)
  next : Ref
  errors : List JavaException

/-- The calls of a client, who passes no null elements or keys. -/
inductive MemoryCall (K V : Type)
  | update (ce : CacheElement K V)
  | get (key : K)
  | remove (key : K)
  | removeAll
  deriving DecidableEq

namespace ARCMemoryCache

open ListNum

variable {K V : Type}

/-- A method that is called on a cache. -/
abbrev Method (K V β : Type) := EStateM JavaException (ARCMemoryCache K V) β

/-! ## Lists and descriptors -/

/-- `size()` of a list. -/
def size (n : ListNum) (s : ARCMemoryCache K V) : ℤ := (s.lists n).length

def setList (n : ListNum) (l : List Ref) (s : ARCMemoryCache K V) : ARCMemoryCache K V :=
  { s with lists := Function.update s.lists n l }

def addFirst (n : ListNum) (me : Ref) : Method K V Unit :=
  modify fun s => s.setList n (me :: s.lists n)

/-- `remove(me)` of a list. -/
def unlink (n : ListNum) (me : Ref) : Method K V Unit :=
  modify fun s => s.setList n ((s.lists n).erase me)

def makeFirst (n : ListNum) (me : Ref) : Method K V Unit :=
  modify fun s => s.setList n (me :: (s.lists n).erase me)

def getLast (n : ListNum) : Method K V (Option Ref) := do
  return ((← get).lists n).getLast?

def removeLast (n : ListNum) : Method K V (Option Ref) := do
  let s ← get
  set (s.setList n (s.lists n).dropLast)
  return (s.lists n).getLast?

/-- The object behind a reference, which must not be null. -/
def descriptor (temp : Option Ref) : Method K V (Ref × ElementDescriptor K V) := do
  match temp with
  | none => throw .nullPointer
  | some r =>
    match (← get).descriptors.lookup r with
    | none => throw .nullPointer
    | some d => return (r, d)

def setDescriptor (r : Ref) (d : ElementDescriptor K V) (s : ARCMemoryCache K V) :
    ARCMemoryCache K V :=
  { s with descriptors := s.descriptors.insert r d }

/-- An assignment to fields of a descriptor. -/
def assign (temp : Option Ref) (f : ElementDescriptor K V → ElementDescriptor K V) :
    Method K V Unit := do
  let (r, d) ← descriptor temp
  modify (setDescriptor r (f d))

/-- `new ElementDescriptor(ce)`, of which `ARC` sets the list number at once. -/
def newDescriptor (ce : CacheElement K V) (listNum : ListNum) : Method K V Ref := do
  let s ← get
  set { s.setDescriptor s.next ⟨listNum, ce.key, some ce⟩ with next := s.next + 1 }
  return s.next

/-- `try body catch (Exception e) log.error(e)`, with the result which is there if it throws. -/
def logging {β : Type} (result : β) (body : Method K V β) : Method K V β := fun s =>
  match body s with
  | .ok a s => .ok a s
  | .error e s => .ok result { s with errors := e :: s.errors }

def calculate {β : Type} (x : Java β) : Method K V β := fun s =>
  match x with
  | .ok a => .ok a s
  | .error e => .error e s

/-! ## Replacement -/

/-- The last descriptor of `source` gives up its element and becomes a dummy container. -/
def nullifyLast (source destination : ListNum) : Method K V Unit := do
  let temp ← removeLast source
  assign temp fun d => { d with ce := none, listNum := destination }
  let (r, _) ← descriptor temp
  addFirst destination r

variable [DecidableEq K]

/-- The two branches of `replace`, which spare the descriptor of `orig`. -/
def pushOut (source destination : ListNum) (orig : Option Ref) : Method K V Unit := do
  let temp ← getLast source
  let same ← match orig with
    | none => pure false
    | some _ => do
      let (_, original) ← descriptor orig
      let (_, last) ← descriptor temp
      pure (decide (original.key = last.key))
  unless same do nullifyLast source destination

/-- The body of the `try` block of `replace`. -/
def replaceBody (orig : Option Ref) : Method K V Unit := do
  let s ← get
  if s.size T1 ≥ max 1 s.target_T1 then pushOut T1 B1 orig
  else if int32 (s.size T2 + s.size T1) > s.maxSize.val then pushOut T2 B2 orig

def replace (orig : Option Ref) : Method K V Unit := logging () (replaceBody orig)

/-! ## Accesses -/

def handleFoundInT1 (temp : Ref) : Method K V Unit := do
  unlink T1 temp
  assign (some temp) fun d => { d with listNum := T2 }
  addFirst T2 temp

def handleFoundInT2 (temp : Ref) : Method K V Unit := do
  assign (some temp) fun d => { d with listNum := T2 }
  makeFirst T2 temp

/-- A get that finds a key without its element counts as a miss. -/
def countMiss : Method K V Unit :=
  modify fun s => { s with hitCnt := int32 (s.hitCnt - 1), missCnt := int32 (s.missCnt + 1) }

def handleFoundInB1 (ce : CacheElement K V) (isGet : Bool) (temp : Ref) :
    Method K V (Option Ref) := do
  let s ← get
  let ratio ← calculate (divide (s.size B2) (s.size B1))
  set { s with target_T1 := min (int32 (s.target_T1 + max ratio 1)) s.maxSize.val }
  if isGet then
    countMiss
    return none
  else
    unlink B1 temp
    replace (some temp)
    assign (some temp) fun d => { d with listNum := T2, ce := some ce }
    addFirst T2 temp
    return some temp

def handleFoundInB2 (ce : CacheElement K V) (isGet : Bool) (temp : Ref) :
    Method K V (Option Ref) := do
  let s ← get
  let ratio ← calculate (divide (s.size B1) (s.size B2))
  set { s with target_T1 := max (int32 (s.target_T1 - max ratio 1)) 0 }
  if isGet then
    countMiss
    return none
  else
    unlink B2 temp
    replace (some temp)
    assign (some temp) fun d => { d with listNum := T2, ce := some ce }
    addFirst T2 temp
    replace (some temp)
    return some temp

/-- `if (temp != null) map.remove(temp.key)`. -/
def forget (temp : Option Ref) : Method K V Unit := do
  if temp.isSome then
    let (_, d) ← descriptor temp
    modify fun s => { s with map := s.map.erase d.key }

/-- The number of descriptors in all four lists, as the sum of four `int`s. -/
def totalSize (s : ARCMemoryCache K V) : ℤ :=
  int32 (int32 (int32 (s.size T1 + s.size T2) + s.size B1) + s.size B2)

/-- The size checks of a put whose key is not in the cache. -/
def checkSizes : Method K V Unit := do
  let s ← get
  if int32 (s.size T1 + s.size B1) ≥ s.maxSize.val then
    if s.size T1 < s.maxSize.val then
      let temp ← removeLast B1
      forget temp
      replace temp
    else
      let temp ← removeLast T1
      let (_, d) ← descriptor temp
      match d.ce with
      | none => throw .nullPointer
      | some ce => modify fun s => { s with map := s.map.erase ce.key }
      replace temp
  else if s.totalSize ≥ s.maxSize.val then
    if s.totalSize ≥ int32 (2 * s.maxSize.val) then
      let temp ← removeLast B2
      forget temp
      replace temp
    else replace none

/-- The element of a descriptor, and null for no descriptor. -/
def element (temp : Option Ref) : Method K V (Option (CacheElement K V)) := do
  match temp with
  | none => return none
  | some _ =>
    let (_, d) ← descriptor temp
    return d.ce

/-- The `switch` of `ARC` on the list of a descriptor which the map holds. -/
def handleFound (ce : CacheElement K V) (isGet : Bool) (temp : Ref) :
    Method K V (Option Ref) := do
  let (_, d) ← descriptor (some temp)
  match d.listNum with
  | T1 =>
    handleFoundInT1 temp
    return some temp
  | T2 =>
    handleFoundInT2 temp
    return some temp
  | B1 => handleFoundInB1 ce isGet temp
  | B2 => handleFoundInB2 ce isGet temp

/-- The end of `ARC`, for a put whose key is not in the cache. -/
def addNew (ce : CacheElement K V) : Method K V Ref := do
  let temp ← newDescriptor ce T1
  addFirst T1 temp
  modify fun s => { s with map := s.map.insert ce.key temp }
  return temp

def ARC (ce : CacheElement K V) (isGet : Bool) : Method K V (Option (CacheElement K V)) := do
  modify fun s => { s with cnt := int32 (s.cnt + 1) }
  unless isGet do modify fun s => { s with putCnt := int32 (s.putCnt + 1) }
  match (← get).map.lookup ce.key with
  | some temp =>
    if isGet then modify fun s => { s with hitCnt := int32 (s.hitCnt + 1) }
    element (← handleFound ce isGet temp)
  | none =>
    if isGet then
      modify fun s => { s with missCnt := int32 (s.missCnt + 1) }
      return none
    else
      checkSizes
      element (some (← addNew ce))

def get (key : K) : Method K V (Option (CacheElement K V)) := logging none (ARC ⟨key, none⟩ true)

def update (ce : CacheElement K V) : Method K V Unit :=
  logging () do
    let _ ← ARC ce false

def remove (key : K) : Method K V Bool := do
  let temp := (← EStateM.get).map.lookup key
  modify fun s => { s with map := s.map.erase key }
  if temp.isSome then
    let (r, d) ← descriptor temp
    unlink d.listNum r
  return true

def removeAll : Method K V Unit := modify fun s => { s with map := ∅, lists := fun _ => [] }

/-- The cache of a region with the given `maxObjects`. -/
def initialized (maxObjects : JavaInt) : ARCMemoryCache K V where
  maxSize := maxObjects
  lists := fun _ => []
  target_T1 := maxObjects.val.tdiv 2
  map := ∅
  cnt := 0
  hitCnt := 0
  missCnt := 0
  putCnt := 0
  descriptors := ∅
  next := 0
  errors := []

/-- A call of a method from outside. -/
def run {β : Type} (method : Method K V β) (s : ARCMemoryCache K V) :
    Java (ARCMemoryCache K V × β) :=
  match method s with
  | .ok a s' => .ok (s', a)
  | .error e _ => .error e

/-- One call of a client, with the element it returns. -/
def perform (s : ARCMemoryCache K V) :
    MemoryCall K V → Java (ARCMemoryCache K V × Option (CacheElement K V))
  | .update ce => do
    let (s, _) ← run (update ce) s
    .ok (s, none)
  | .get key => run (get key) s
  | .remove key => do
    let (s, _) ← run (remove key) s
    .ok (s, none)
  | .removeAll => do
    let (s, _) ← run removeAll s
    .ok (s, none)

end ARCMemoryCache

end CachePolicies
