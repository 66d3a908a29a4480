import CachePolicies.HashMaps
import CachePolicies.LinkedHashSets
import CachePolicies.CacheManagers

/-!
# The eviction queue over a manager

`CacheManagerEvictionQueue` offers for eviction what its manager has reported as ready.
Entries are equal when their names are, so as elements of a queue they are their names;
only `byFqn`, which is keyed by the strings of the names, holds the entries themselves.
-/

namespace CachePolicies

structure NodeEntry (φ : Type) where
  fqn : φ
  numberOfElements : JavaInt
  deriving DecidableEq

/-- The objects which `byFqn` is given as keys: strings, and by `removeNodeEntry` an entry,
which no string equals. -/
inductive IndexKey (φ : Type)
  | string (s : String)
  | entry (fqn : φ)
  deriving DecidableEq

structure CacheManagerEvictionQueue {φ : Type} (P : CacheManager φ) where
  cacheManager : P.State
  toEvict : LinkedHashSet φ
  byFqn : HashMap (IndexKey φ) (NodeEntry φ)
  numberOfElements : ℤ

/-- What the listeners remember: the queue `toEvict` and the events seen by the watcher. -/
abbrev QueueMemory (φ : Type) := LinkedHashSet φ × List (Event φ)

/-- The calls of a region, whose entries are built from names. -/
inductive QueueCall (φ : Type)
  | processVisit (fqn : φ)
  | addNodeEntry (entry : NodeEntry φ)
  | removeNodeEntry (entry : NodeEntry φ)
  | clear
  deriving DecidableEq

namespace CacheManagerEvictionQueue

variable {φ : Type} [DecidableEq φ]

def objectReadyForEviction (item : φ) (toEvict : LinkedHashSet φ) : LinkedHashSet φ := toEvict.add item

def objectLoaded (item : φ) (toEvict : LinkedHashSet φ) : LinkedHashSet φ := toEvict.remove item

def onEvict (item : φ) (memory : QueueMemory φ) : QueueMemory φ :=
  (objectReadyForEviction item memory.1, recordEviction item memory.2)

def onLoad (item : φ) (memory : QueueMemory φ) : QueueMemory φ :=
  (objectLoaded item memory.1, recordLoad item memory.2)

section Methods

variable (toString : φ → String) (P : CacheManager φ)

/-- The queue as a listener of its manager, and beside it one that only records. -/
def listeners : List (CacheManagerListener φ P.State (QueueMemory φ)) :=
  [{ objectReadyForEviction := fun item w => .ok (w.1, objectReadyForEviction item w.2.1, w.2.2)
     objectLoaded := fun item w => .ok (w.1, objectLoaded item w.2.1, w.2.2) },
   { objectReadyForEviction := fun item w => .ok (w.1, w.2.1, recordEviction item w.2.2)
     objectLoaded := fun item w => .ok (w.1, w.2.1, recordLoad item w.2.2) }]

def initial : CacheManagerEvictionQueue P := ⟨P.initial, ∅, ∅, 0⟩

variable {P}

def clear (s : CacheManagerEvictionQueue P) : CacheManagerEvictionQueue P :=
  ⟨P.clear s.cacheManager, ∅, ∅, 0⟩

def getNodeEntry (fqn : φ) (s : CacheManagerEvictionQueue P) : Option (NodeEntry φ) :=
  s.byFqn.lookup (.string (toString fqn))

def removeNodeEntry (entry : NodeEntry φ) (s : CacheManagerEvictionQueue P) :
    Java (CacheManagerEvictionQueue P) := do
  let byFqn := s.byFqn.erase (.entry entry.fqn)
  let cacheManager ← P.remove entry.fqn s.cacheManager
  .ok ⟨cacheManager, s.toEvict.remove entry.fqn, byFqn, s.numberOfElements⟩

def addNodeEntry (entry : NodeEntry φ) (s : CacheManagerEvictionQueue P) :
    CacheManagerEvictionQueue P where
  cacheManager := P.add entry.fqn s.cacheManager
  toEvict := s.toEvict
  byFqn := s.byFqn.insert (.string (toString entry.fqn)) entry
  numberOfElements := int32 (s.numberOfElements + entry.numberOfElements.val)

/-- `new NodeEntry(fqn)` has no elements. -/
def processVisit (fqn : φ) (s : CacheManagerEvictionQueue P) :
    Java (CacheManagerEvictionQueue P × List (Event φ)) := do
  let entry := (getNodeEntry toString fqn s).getD ⟨fqn, 0⟩
  let (cacheManager, toEvict, events) ←
    P.visit (listeners P) entry.fqn (s.cacheManager, s.toEvict, [])
  .ok ({ s with cacheManager := cacheManager, toEvict := toEvict }, events)

def containsNodeEntry (entry : NodeEntry φ) (s : CacheManagerEvictionQueue P) : Bool :=
  entry.fqn ∈ s.toEvict

def getNumberOfElements (s : CacheManagerEvictionQueue P) : ℤ := s.numberOfElements

/-- One call, with the events which the manager fires. -/
def perform (s : CacheManagerEvictionQueue P) :
    QueueCall φ → Java (CacheManagerEvictionQueue P × List (Event φ))
  | .processVisit fqn => processVisit toString fqn s
  | .addNodeEntry entry => .ok (addNodeEntry toString entry s, [])
  | .removeNodeEntry entry => do
    let s ← removeNodeEntry entry s
    .ok (s, [])
  | .clear => .ok (clear s, [])

variable (P) in
/-- The runs of a queue from its construction over a fresh manager. -/
abbrev Reaches :
    List (Record (CacheManagerEvictionQueue P) (QueueCall φ) (List (Event φ))) →
      CacheManagerEvictionQueue P → Prop :=
  Run (perform toString) (initial P)

end Methods

theorem listeners_responds (P : CacheManager φ) :
    Responds (listeners P) (fun _ m => m) onEvict onLoad where
  evict _ _ _ := rfl
  load _ _ _ := rfl

end CacheManagerEvictionQueue

/-! ## The algorithm which empties the queue -/

/-- The calls of the algorithm, which visits nodes and prunes the queue. -/
inductive AlgorithmCall (φ : Type)
  | processVisit (fqn : φ)
  | evict (ne : NodeEntry φ)
  deriving DecidableEq

namespace CacheManagerEvictionAlgorithm

variable {φ : Type} [DecidableEq φ] {P : CacheManager φ}

def shouldEvictNode (ne : NodeEntry φ) (s : CacheManagerEvictionQueue P) : Bool :=
  s.containsNodeEntry ne

/-- `evict(ne)`, as far as it concerns the queue and its manager. -/
def evict (ne : Option (NodeEntry φ)) (s : CacheManagerEvictionQueue P) :
    Java (CacheManagerEvictionQueue P) :=
  match ne with
  | none => .ok s
  | some ne => s.removeNodeEntry ne

variable (toString : φ → String)

/-- One call, with the events which the manager fires. -/
def perform (s : CacheManagerEvictionQueue P) :
    AlgorithmCall φ → Java (CacheManagerEvictionQueue P × List (Event φ))
  | .processVisit fqn => s.processVisit toString fqn
  | .evict ne => do
    let s ← evict (some ne) s
    .ok (s, [])

end CacheManagerEvictionAlgorithm

end CachePolicies
