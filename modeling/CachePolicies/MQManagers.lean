import CachePolicies.MultipleQueueManagers

/-!
# The MQ manager

Resident keys wait in queues of increasing level, chosen by the logarithm of their
visit counts, and evicted keys in `qOut`. Each key has a metadata object with its visit
count and its expiry time; heads whose time has expired move down one level.

The source keeps times in fields of type `int`. Here `clock` says how a time that has been
computed is kept: `int32` in the source, the identity for a time without bound.
-/

namespace CachePolicies

structure MQConfiguration where
  maxNodes : JavaInt
  queueCount : JavaInt
  lifetime : JavaInt

inductive MQQueue
  | level (i : ℕ)
  | qOut
  deriving DecidableEq

structure MQMetadata where
  numberOfNodeVisits : ℤ
  expiryTime : ℤ
  deriving DecidableEq

namespace MQMetadata

def logVisit (data : MQMetadata) : MQMetadata :=
  { data with numberOfNodeVisits := int32 (data.numberOfNodeVisits + 1) }

def markAsModified (clock : ℤ → ℤ) (config : MQConfiguration) (currentTime : ℤ)
    (data : MQMetadata) : MQMetadata :=
  { data with expiryTime := clock (currentTime + config.lifetime.val) }

def isExpired (currentTime : ℤ) (data : MQMetadata) : Bool := data.expiryTime < currentTime

end MQMetadata

/-- The fields which the manager adds to its queues. -/
structure MQFields (α : Type) where
  metadata : HashMap α MQMetadata
  currentTime : ℤ

abbrev MQCacheManager (α : Type) := MultipleQueueCacheManager MQQueue α (MQFields α)

namespace MQCacheManager

open MultipleQueueCacheManager MQQueue

variable {α L : Type} [DecidableEq α]

def afterRemove (entry : α) (own : MQFields α) : MQFields α :=
  { own with metadata := own.metadata.erase entry }

def subclass : Subclass MQQueue α (MQFields α) where
  afterInsert source destination := destination ≠ qOut && (source = some qOut || source = none)
  afterRemove := afterRemove

def initial : MQCacheManager α := ⟨fun _ => ∅, ∅, ⟨∅, 0⟩⟩

/-- `clear()`, which also forgets the metadata and the time. -/
def clear (_ : MQCacheManager α) : MQCacheManager α := initial

/-- `metadata.put(entry, data)`. -/
def putMetadata (entry : α) (data : MQMetadata) (m : MQCacheManager α) : MQCacheManager α :=
  { m with own := { m.own with metadata := m.own.metadata.insert entry data } }

/-- The metadata of a key, made and stored at its first use. -/
def getMetadata (entry : α) (m : MQCacheManager α) : MQMetadata × MQCacheManager α :=
  match m.own.metadata.lookup entry with
  | some data => (data, m)
  | none => (⟨0, 0⟩, putMetadata entry ⟨0, 0⟩ m)

/-- A change to the metadata object of `entry`. The map sees it unless the object has
been removed from it in the meantime. -/
def setMetadata (entry : α) (data : MQMetadata) (m : MQCacheManager α) : MQCacheManager α :=
  if (m.own.metadata.lookup entry).isSome then putMetadata entry data m else m

section Methods

variable (clock : ℤ → ℤ) (config : MQConfiguration)
  (listeners : List (CacheManagerListener α (MQCacheManager α) L))

/-- `queues.size()`. -/
def queuesSize : ℕ := config.queueCount.val.toNat

def cacheSize (m : MQCacheManager α) : ℤ :=
  (List.range (queuesSize config)).foldl (fun size i => int32 (size + (m.queues (level i)).size)) 0

/-- The keys of the queues other than `qOut`. -/
def resident (m : MQCacheManager α) : Finset α :=
  (Finset.range (queuesSize config)).biUnion fun i => (m.queues (level i)).toFinset

def qOutMax : ℤ := config.maxNodes.val.tdiv 2

/-- The logarithm to base two as the cast to `int` leaves it: truncated for positive
counts, `MIN_VALUE` for the negative infinity at zero, zero for the NaN below. -/
def logToBase2 (value : ℤ) : ℤ :=
  if 0 < value then (Nat.log 2 value.toNat : ℤ) else if value = 0 then -2147483648 else 0

def getQueueNumber (data : MQMetadata) : ℤ :=
  min (logToBase2 data.numberOfNodeVisits) (int32 ((queuesSize config : ℤ) - 1))

def getDesiredQueue (data : MQMetadata) : Java MQQueue :=
  if 0 ≤ getQueueNumber config data then .ok (level (getQueueNumber config data).toNat)
  else .error .indexOutOfBounds

def getFirstNonEmptyQueue (m : MQCacheManager α) : Option MQQueue :=
  ((List.range (queuesSize config)).find? fun i => !(m.queues (level i)).isEmpty).map level

/-- `afterRemove(qOut.remove())`. -/
def dropGhost (m : MQCacheManager α) : Java (MQCacheManager α) := do
  let (item, rest) ← (m.queues qOut).take
  .ok { m.setQueue qOut rest with own := afterRemove item m.own }

def freeUpSpace (w : MQCacheManager α × L) : Java (MQCacheManager α × L) :=
  if cacheSize config w.1 < config.maxNodes.val then .ok w
  else do
    let m ← if (w.1.queues qOut).size ≥ qOutMax config then dropGhost w.1 else .ok w.1
    match getFirstNonEmptyQueue config w.1 with
    | none => .error .nullPointer
    | some queue => do
      let (item, m) ← moveHead queue qOut m
      evict listeners item (m, w.2)

/-- One round of the loop of `checkForDemotions`. -/
def checkForDemotion (i : ℕ) (w : MQCacheManager α × L) : Java (MQCacheManager α × L) :=
  match (w.1.queues (level i)).peek with
  | none => .ok w
  | some entry =>
    let (data, m) := getMetadata entry w.1
    if data.isExpired m.own.currentTime then do
      let w ← moveNode subclass listeners entry (level i) (level (i - 1)) (m, w.2)
      .ok (setMetadata entry (data.markAsModified clock config w.1.own.currentTime) w.1, w.2)
    else .ok (m, w.2)

def checkForDemotions (w : MQCacheManager α × L) : Java (MQCacheManager α × L) :=
  (List.range' 1 (queuesSize config - 1)).foldlM
    (fun w i => checkForDemotion clock config listeners i w)
    ({ w.1 with own := { w.1.own with currentTime := clock (w.1.own.currentTime + 1) } }, w.2)

def onHit (entry : α) (currentLocation : MQQueue) (w : MQCacheManager α × L) :
    Java (MQCacheManager α × L) := do
  let data := (getMetadata entry w.1).1.logVisit
  let m := setMetadata entry data (getMetadata entry w.1).2
  let w ← if currentLocation = qOut then freeUpSpace config listeners (m, w.2) else .ok (m, w.2)
  let destination ← getDesiredQueue config data
  let w ← moveNode subclass listeners entry currentLocation destination w
  checkForDemotions clock config listeners
    (setMetadata entry (data.markAsModified clock config w.1.own.currentTime) w.1, w.2)

def onMiss (entry : α) (w : MQCacheManager α × L) : Java (MQCacheManager α × L) := do
  let w ← freeUpSpace config listeners w
  let data := { (getMetadata entry w.1).1 with numberOfNodeVisits := 1 }
  let data := data.markAsModified clock config w.1.own.currentTime
  let m := setMetadata entry data (getMetadata entry w.1).2
  let destination ← getDesiredQueue config data
  let w ← insertNode subclass listeners entry destination (m, w.2)
  checkForDemotions clock config listeners w

end Methods

abbrev Clocked.manager (clock : ℤ → ℤ) (config : MQConfiguration) : CacheManager α where
  State := MQCacheManager α
  initial := initial
  add _ m := m
  visit listeners :=
    MultipleQueueCacheManager.visit (onHit clock config listeners) (onMiss clock config listeners)
  remove hit m := .ok (MultipleQueueCacheManager.remove subclass hit m)
  clear := clear
  cacheSize := cacheSize config
  resident := resident config

/-- The manager of the source, whose times are of type `int`. -/
abbrev manager (config : MQConfiguration) : CacheManager α := Clocked.manager int32 config

end MQCacheManager

end CachePolicies
