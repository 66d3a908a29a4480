import CachePolicies.JavaIntegers
import CachePolicies.PartialRuns
import Mathlib.Data.Finset.Card

/-!
# Cache managers and their listeners

A manager fires `objectLoaded` and `objectReadyForEviction` at the listeners which
are registered with it. A callback acts on a pair: the state of the manager that
fires it, which it may change by calling back into the manager, and whatever the
listeners themselves remember.
-/

namespace CachePolicies

structure CacheManagerListener (α M L : Type) where
  objectReadyForEviction : α → M × L → Java (M × L)
  objectLoaded : α → M × L → Java (M × L)

variable {α M L : Type}

/-- `BaseCacheManager.evict`. -/
def evict (listeners : List (CacheManagerListener α M L)) (object : α) (w : M × L) : Java (M × L) :=
  listeners.foldlM (fun w listener => listener.objectReadyForEviction object w) w

/-- `BaseCacheManager.load`. -/
def load (listeners : List (CacheManagerListener α M L)) (object : α) (w : M × L) : Java (M × L) :=
  listeners.foldlM (fun w listener => listener.objectLoaded object w) w

/-- The interface `CacheManager`. Listeners are passed to the one method that fires
events. `resident` names the keys which `cacheSize` counts. -/
structure CacheManager (α : Type) where
  State : Type
  initial : State
  add : α → State → State
  visit : {L : Type} → List (CacheManagerListener α State L) → α → State × L → Java (State × L)
  remove : α → State → Java State
  clear : State → State
  cacheSize : State → ℤ
  resident : State → Finset α

/-- What listeners do, when none of them throws: `settle` is the change an eviction
makes to the manager, `onEvict` and `onLoad` are the changes to their own memory. -/
structure Responds (listeners : List (CacheManagerListener α M L)) (settle : α → M → M)
    (onEvict onLoad : α → L → L) : Prop where
  evict : ∀ x m l, evict listeners x (m, l) = .ok (settle x m, onEvict x l)
  load : ∀ x m l, load listeners x (m, l) = .ok (m, onLoad x l)

/-- How the residents and the listeners change when a visit makes room: not at all, or
by the eviction of one resident key. -/
inductive RoomMade [DecidableEq α] (resident : Finset α) (onEvict : α → L → L) (l : L) :
    Finset α → L → Prop
  | kept : RoomMade resident onEvict l resident l
  | evicted {x : α} (hx : x ∈ resident) : RoomMade resident onEvict l (resident.erase x) (onEvict x l)

/-- The load and evict protocol of `visit(k)`: a resident key changes nothing, any other
key is loaded, and at most one resident key is evicted before or after the load. -/
inductive VisitEffect [DecidableEq α] (resident : Finset α) (k : α) (onEvict onLoad : α → L → L)
    (l : L) : Finset α → L → Prop
  | hit (hk : k ∈ resident) : VisitEffect resident k onEvict onLoad l resident l
  | miss {resident' : Finset α} {l' : L} (hk : k ∉ resident)
      (hroom : RoomMade resident onEvict l resident' l') :
      VisitEffect resident k onEvict onLoad l (insert k resident') (onLoad k l')
  | trimmed {x : α} (hk : k ∉ resident) (hx : x ∈ resident) :
      VisitEffect resident k onEvict onLoad l (insert k (resident.erase x)) (onEvict x (onLoad k l))

section Effects

variable [DecidableEq α] {resident resident' : Finset α} {k : α} {onEvict onLoad : α → L → L}
  {l l' : L}

theorem RoomMade.subset (h : RoomMade resident onEvict l resident' l') : resident' ⊆ resident := by
  cases h with
  | kept => exact Finset.Subset.refl _
  | evicted => exact Finset.erase_subset _ _

theorem RoomMade.card_le (h : RoomMade resident onEvict l resident' l') :
    resident.card ≤ resident'.card + 1 := by
  cases h with
  | kept => omega
  | evicted hx => rw [Finset.card_erase_add_one hx]

theorem VisitEffect.subset_insert (h : VisitEffect resident k onEvict onLoad l resident' l') :
    resident' ⊆ insert k resident := by
  cases h with
  | hit => exact Finset.subset_insert _ _
  | miss _ hroom => exact Finset.insert_subset_insert k hroom.subset
  | trimmed => exact Finset.insert_subset_insert k (Finset.erase_subset _ _)

/-- No visit makes the cache smaller. -/
theorem VisitEffect.card_le (h : VisitEffect resident k onEvict onLoad l resident' l') :
    resident.card ≤ resident'.card := by
  cases h with
  | hit => exact le_refl _
  | miss hk hroom =>
    rw [Finset.card_insert_of_notMem (fun hm => hk (hroom.subset hm))]
    exact hroom.card_le
  | trimmed hk hx =>
    rw [Finset.card_insert_of_notMem (fun hm => hk (Finset.mem_of_mem_erase hm)),
      Finset.card_erase_add_one hx]

end Effects

inductive Event (α : Type)
  | objectLoaded (item : α)
  | objectReadyForEviction (item : α)
  deriving DecidableEq, Repr

def Event.loaded : Event α → Option α
  | .objectLoaded item => some item
  | .objectReadyForEviction _ => none

def Event.evicted : Event α → Option α
  | .objectLoaded _ => none
  | .objectReadyForEviction item => some item

/-- The keys loaded by a list of events, in order. -/
def loads (events : List (Event α)) : List α := events.filterMap Event.loaded

def evictions (events : List (Event α)) : List α := events.filterMap Event.evicted

def recordEviction (item : α) (events : List (Event α)) : List (Event α) :=
  events ++ [.objectReadyForEviction item]

def recordLoad (item : α) (events : List (Event α)) : List (Event α) := events ++ [.objectLoaded item]

section Recording

variable (x : α) (events : List (Event α))

@[simp] theorem loads_nil : loads ([] : List (Event α)) = [] := rfl

@[simp] theorem evictions_nil : evictions ([] : List (Event α)) = [] := rfl

@[simp] theorem loads_recordLoad : loads (recordLoad x events) = loads events ++ [x] := by
  simp [loads, recordLoad, Event.loaded]

@[simp] theorem loads_recordEviction : loads (recordEviction x events) = loads events := by
  simp [loads, recordEviction, Event.loaded]

@[simp] theorem evictions_recordLoad : evictions (recordLoad x events) = evictions events := by
  simp [evictions, recordLoad, Event.evicted]

@[simp] theorem evictions_recordEviction :
    evictions (recordEviction x events) = evictions events ++ [x] := by
  simp [evictions, recordEviction, Event.evicted]

end Recording

/-- A listener that only records what it is told. -/
def recorder : CacheManagerListener α M (List (Event α)) where
  objectReadyForEviction item w := .ok (w.1, recordEviction item w.2)
  objectLoaded item w := .ok (w.1, recordLoad item w.2)

theorem recorder_responds :
    Responds [recorder (α := α) (M := M)] (fun _ m => m) recordEviction recordLoad where
  evict _ _ _ := rfl
  load _ _ _ := rfl

inductive Call (α : Type)
  | visit (hit : α)
  | remove (hit : α)
  | clear
  deriving DecidableEq, Repr

/-- One call under a recording listener, with the events it fires. -/
def CacheManager.perform (P : CacheManager α) (m : P.State) : Call α → Java (P.State × List (Event α))
  | .visit hit => P.visit [recorder] hit (m, [])
  | .remove hit => do
    let m ← P.remove hit m
    .ok (m, [])
  | .clear => .ok (P.clear m, [])

/-- The runs of a manager from its construction, under a recording listener. -/
abbrev CacheManager.Reaches (P : CacheManager α) :
    List (Record P.State (Call α) (List (Event α))) → P.State → Prop :=
  Run P.perform P.initial

end CachePolicies
