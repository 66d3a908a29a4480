import CachePolicies.QueueGroups

/-!
# The replacement managers

Both keep the resident keys in `t1` and `t2`. The fixed manager splits the cache at
a configured size of `t1`; the adaptive one keeps evicted keys in the ghost queues
`b1` and `b2` and lets hits on them move its target size of `t1`.
-/

namespace CachePolicies

/-- The queues of a replacement manager, `G` being those which a subclass registers. -/
inductive ReplacementQueue (G : Type)
  | t1
  | t2
  | ghost (queue : G)
  deriving DecidableEq

open MultipleQueueCacheManager ReplacementQueue

namespace ReplacementCacheManager

variable {G α X : Type} [DecidableEq G]

def afterInsert (source : Option (ReplacementQueue G)) (destination : ReplacementQueue G) : Bool :=
  (destination = t1 || destination = t2) && !(source = some t1 || source = some t2)

def cacheSize (m : MultipleQueueCacheManager (ReplacementQueue G) α X) : ℤ :=
  int32 ((m.queues t1).size + (m.queues t2).size)

variable [DecidableEq α]

/-- The keys of `t1` and `t2`. -/
def resident (m : MultipleQueueCacheManager (ReplacementQueue G) α X) : Finset α :=
  (m.queues t1).toFinset ∪ (m.queues t2).toFinset

/-- `clear()`, which empties every queue of the class and keeps its other fields. -/
def clear (m : MultipleQueueCacheManager (ReplacementQueue G) α X) :
    MultipleQueueCacheManager (ReplacementQueue G) α X :=
  { m with queues := fun _ => ∅, currentLocations := ∅ }

variable {m : MultipleQueueCacheManager (ReplacementQueue G) α X} {k : α} {d : ReplacementQueue G}

omit [DecidableEq G] in
theorem mem_resident : k ∈ resident m ↔ k ∈ m.queues t1 ∨ k ∈ m.queues t2 := by
  simp [resident]

theorem resident_eq_keysIn : resident m = keysIn {t1, t2} m := by
  rw [keysIn, Finset.biUnion_insert, Finset.singleton_biUnion, resident]

theorem card_resident (h : m.Filed) :
    ((resident m).card : ℤ) = (m.queues t1).length + (m.queues t2).length := by
  rw [resident_eq_keysIn, h.card_keysIn, Finset.sum_pair (by simp)]

theorem resident_forget {s : ReplacementQueue G} (sub : Subclass _ α X)
    (honly : ∀ q, k ∈ m.queues q → q = s) :
    resident (forget sub k s m) = (resident m).erase k := by
  rw [resident_eq_keysIn, keysIn_forget honly, ← resident_eq_keysIn]

theorem resident_enqueue (hd : d = t1 ∨ d = t2) :
    resident (m.enqueue k d) = insert k (resident m) := by
  rw [resident_eq_keysIn, keysIn_enqueue (by simpa using hd), ← resident_eq_keysIn]

theorem resident_promote {s : ReplacementQueue G} (hd : d = t1 ∨ d = t2) :
    resident (m.relocate k s d) = insert k (resident m) := by
  rw [resident_eq_keysIn, keysIn_promote (by simpa using hd), ← resident_eq_keysIn]

theorem resident_remove (h : m.Filed) (sub : Subclass _ α X) (k : α) :
    resident (MultipleQueueCacheManager.remove sub k m) = (resident m).erase k := by
  rw [resident_eq_keysIn, h.keysIn_remove, ← resident_eq_keysIn]

theorem notMem_resident_of_none (h : m.Filed) (hk : m.currentLocations.lookup k = none) :
    k ∉ resident m := by
  rw [resident_eq_keysIn]
  exact h.notMem_keysIn_of_none hk

end ReplacementCacheManager

/-! ## Fixed replacement -/

structure FixedReplacementConfiguration where
  maxNodes : JavaInt
  t1Size : JavaInt

/-- The constructor `FixedReplacementConfiguration(int maxNodes, int t1Size)`. -/
def FixedReplacementConfiguration.new (maxNodes t1Size : JavaInt) :
    Java FixedReplacementConfiguration :=
  if t1Size.val ≤ 0 ∨ t1Size.val ≥ maxNodes.val then .error .illegalArgument
  else .ok ⟨maxNodes, t1Size⟩

abbrev FixedReplacementCacheManager (α : Type) :=
  MultipleQueueCacheManager (ReplacementQueue Empty) α Unit

namespace FixedReplacementCacheManager

open ReplacementCacheManager

variable {α L : Type} [DecidableEq α]

def subclass : Subclass (ReplacementQueue Empty) α Unit := ⟨afterInsert, fun _ f => f⟩

def initial : FixedReplacementCacheManager α := ⟨fun _ => ∅, ∅, ()⟩

section Methods

variable (config : FixedReplacementConfiguration)
  (listeners : List (CacheManagerListener α (FixedReplacementCacheManager α) L))

def onHit (entry : α) (currentLocation : ReplacementQueue Empty)
    (w : FixedReplacementCacheManager α × L) : Java (FixedReplacementCacheManager α × L) :=
  moveNode subclass listeners entry currentLocation t2 w

def onMiss (entry : α) (w : FixedReplacementCacheManager α × L) :
    Java (FixedReplacementCacheManager α × L) := do
  let w ←
    if cacheSize w.1 < config.maxNodes.val then .ok w
    else if (w.1.queues t1).size ≥ config.t1Size.val then evictNode subclass listeners t1 w
    else evictNode subclass listeners t2 w
  insertNode subclass listeners entry t1 w

end Methods

abbrev manager (config : FixedReplacementConfiguration) : CacheManager α where
  State := FixedReplacementCacheManager α
  initial := initial
  add _ m := m
  visit listeners := MultipleQueueCacheManager.visit (onHit listeners) (onMiss config listeners)
  remove hit m := .ok (MultipleQueueCacheManager.remove subclass hit m)
  clear := clear
  cacheSize := cacheSize
  resident := resident

end FixedReplacementCacheManager

/-! ## Adaptive replacement -/

structure AdaptiveReplacementConfiguration where
  maxNodes : JavaInt

inductive GhostQueue | b1 | b2
  deriving DecidableEq

abbrev AdaptiveReplacementQueue := ReplacementQueue GhostQueue

abbrev b1 : AdaptiveReplacementQueue := ghost .b1

abbrev b2 : AdaptiveReplacementQueue := ghost .b2

/-- The field which the adaptive manager adds to its queues. -/
structure AdaptiveFields where
  targetT1Size : ℤ
  deriving DecidableEq

abbrev AdaptiveReplacementCacheManager (α : Type) :=
  MultipleQueueCacheManager AdaptiveReplacementQueue α AdaptiveFields

namespace AdaptiveReplacementCacheManager

open ReplacementCacheManager

variable {α L : Type} [DecidableEq α]

def subclass : Subclass AdaptiveReplacementQueue α AdaptiveFields := ⟨afterInsert, fun _ f => f⟩

def initial : AdaptiveReplacementCacheManager α := ⟨fun _ => ∅, ∅, ⟨0⟩⟩

def leftSideSize (m : AdaptiveReplacementCacheManager α) : ℤ :=
  int32 ((m.queues t1).size + (m.queues b1).size)

def directorySize (m : AdaptiveReplacementCacheManager α) : ℤ :=
  int32 (int32 (int32 ((m.queues t1).size + (m.queues b1).size) + (m.queues t2).size) +
    (m.queues b2).size)

/-- The test of `freeRoom` that sends the head of `t1` to `b1`. -/
def TakesT1 (hitList : Option AdaptiveReplacementQueue) (m : AdaptiveReplacementCacheManager α) :
    Prop :=
  !(m.queues t1).isEmpty ∧ ((m.queues t1).size > m.own.targetT1Size ∨
    (m.queues t1).size = m.own.targetT1Size ∧ hitList = some b2)

instance (hitList : Option AdaptiveReplacementQueue) (m : AdaptiveReplacementCacheManager α) :
    Decidable (TakesT1 hitList m) :=
  inferInstanceAs (Decidable (_ ∧ (_ ∨ _ ∧ _)))

section Methods

variable (config : AdaptiveReplacementConfiguration)
  (listeners : List (CacheManagerListener α (AdaptiveReplacementCacheManager α) L))

def directoryCapacity : ℤ := int32 (config.maxNodes.val * 2)

def freeRoom (hitList : Option AdaptiveReplacementQueue)
    (w : AdaptiveReplacementCacheManager α × L) : Java (AdaptiveReplacementCacheManager α × L) :=
  if TakesT1 hitList w.1 then do
    let (item, m) ← moveHead t1 b1 w.1
    evict listeners item (m, w.2)
  else if (w.1.queues t2).isEmpty then .ok w
  else do
    let (item, m) ← moveHead t2 b2 w.1
    evict listeners item (m, w.2)

def onMiss (entry : α) (w : AdaptiveReplacementCacheManager α × L) :
    Java (AdaptiveReplacementCacheManager α × L) := do
  let w ←
    if leftSideSize w.1 ≥ config.maxNodes.val then
      if (w.1.queues t1).size < config.maxNodes.val then do
        let m ← removeNode subclass b1 w.1
        freeRoom listeners none (m, w.2)
      else evictNode subclass listeners t1 w
    else if directorySize w.1 ≥ config.maxNodes.val then do
      let m ← if directorySize w.1 ≥ directoryCapacity config then removeNode subclass b2 w.1
        else .ok w.1
      freeRoom listeners none (m, w.2)
    else .ok w
  insertNode subclass listeners entry t1 w

/-- The target after a hit on `b1`, which favours recency, or on `b2`, which favours frequency. -/
def adaptedTarget (currentLocation : AdaptiveReplacementQueue)
    (m : AdaptiveReplacementCacheManager α) : Java ℤ :=
  if currentLocation = b1 then do
    let ratio ← divide (m.queues b2).size (m.queues b1).size
    .ok (min (int32 (m.own.targetT1Size + max ratio 1)) config.maxNodes.val)
  else do
    let ratio ← divide (m.queues b1).size (m.queues b2).size
    .ok (max (int32 (m.own.targetT1Size - max ratio 1)) 0)

def onHit (node : α) (currentLocation : AdaptiveReplacementQueue)
    (w : AdaptiveReplacementCacheManager α × L) : Java (AdaptiveReplacementCacheManager α × L) :=
  if currentLocation = t1 ∨ currentLocation = t2 then
    moveNode subclass listeners node currentLocation t2 w
  else do
    let target ← adaptedTarget config currentLocation w.1
    let w ← freeRoom listeners (some currentLocation) ({ w.1 with own := ⟨target⟩ }, w.2)
    moveNode subclass listeners node currentLocation t2 w

end Methods

abbrev manager (config : AdaptiveReplacementConfiguration) : CacheManager α where
  State := AdaptiveReplacementCacheManager α
  initial := initial
  add _ m := m
  visit listeners :=
    MultipleQueueCacheManager.visit (onHit config listeners) (onMiss config listeners)
  remove hit m := .ok (MultipleQueueCacheManager.remove subclass hit m)
  clear := clear
  cacheSize := cacheSize
  resident := resident

end AdaptiveReplacementCacheManager

end CachePolicies
