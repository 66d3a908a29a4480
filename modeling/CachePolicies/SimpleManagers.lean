import CachePolicies.LinkedHashSets
import CachePolicies.VisitProtocols

/-!
# The LRU and FIFO managers

Each has one queue of resident keys. Both load a missed key first and evict the head
of the queue afterwards, when it has grown beyond `maxNodes`.
-/

namespace CachePolicies

structure LruConfiguration where
  maxNodes : JavaInt

structure FifoConfiguration where
  maxNodes : JavaInt

variable {α L : Type} [DecidableEq α]

/-- What `visit` does in both managers after it has added a missed key to the queue. -/
def loadAndTrim (maxNodes : ℤ) (listeners : List (CacheManagerListener α (LinkedHashSet α) L))
    (hit : α) (w : LinkedHashSet α × L) : Java (LinkedHashSet α × L) := do
  let w ← load listeners hit w
  if w.1.size > maxNodes then do
    let (head, rest) ← w.1.take
    evict listeners head (rest, w.2)
  else .ok w

namespace LruCacheManager

def visit (config : LruConfiguration) (listeners : List (CacheManagerListener α (LinkedHashSet α) L))
    (hit : α) (w : LinkedHashSet α × L) : Java (LinkedHashSet α × L) :=
  if hit ∈ w.1 then .ok ((w.1.remove hit).add hit, w.2)
  else loadAndTrim config.maxNodes.val listeners hit ((w.1.remove hit).add hit, w.2)

abbrev manager (config : LruConfiguration) : CacheManager α where
  State := LinkedHashSet α
  initial := ∅
  add _ queue := queue
  visit := visit config
  remove hit queue := .ok (queue.remove hit)
  clear _ := ∅
  cacheSize queue := queue.size
  resident queue := queue.toFinset

end LruCacheManager

namespace FifoCacheManager

def visit (config : FifoConfiguration) (listeners : List (CacheManagerListener α (LinkedHashSet α) L))
    (hit : α) (w : LinkedHashSet α × L) : Java (LinkedHashSet α × L) :=
  if hit ∈ w.1 then .ok w
  else loadAndTrim config.maxNodes.val listeners hit (w.1.add hit, w.2)

abbrev manager (config : FifoConfiguration) : CacheManager α where
  State := LinkedHashSet α
  initial := ∅
  add _ queue := queue
  visit := visit config
  remove hit queue := .ok (queue.remove hit)
  clear _ := ∅
  cacheSize queue := queue.size
  resident queue := queue.toFinset

end FifoCacheManager

/-! ## The protocol -/

/-- No visit makes the queue longer than `size()` can tell: at the largest `maxNodes` nothing
would be evicted from it. -/
def QueueFits (maxNodes : ℤ) (queue : LinkedHashSet α) : Call α → Prop
  | .visit k => maxNodes < 2147483647 ∨ k ∈ queue ∨ queue.length < 2147483647
  | _ => True

instance (maxNodes : ℤ) (queue : LinkedHashSet α) : ∀ call, Decidable (QueueFits maxNodes queue call)
  | .visit _ => inferInstanceAs (Decidable (_ ∨ _))
  | .remove _ | .clear => .isTrue trivial

abbrev LruCacheManager.Fits (config : LruConfiguration) : LinkedHashSet α → Call α → Prop :=
  QueueFits config.maxNodes.val

abbrev FifoCacheManager.Fits (config : FifoConfiguration) : LinkedHashSet α → Call α → Prop :=
  QueueFits config.maxNodes.val

omit [DecidableEq α] in
theorem queueFits_of_lt {maxNodes : ℤ} (h : maxNodes < 2147483647) (queue : LinkedHashSet α)
    (call : Call α) : QueueFits maxNodes queue call := by
  cases call with
  | visit k => exact .inl h
  | remove k => trivial
  | clear => trivial

/-- An eviction leaves the queue alone, or removes the evicted key from it. -/
def SettlesQueue (settle : α → LinkedHashSet α → LinkedHashSet α) : Prop :=
  settle = (fun _ queue => queue) ∨ settle = fun x queue => queue.remove x

variable {listeners : List (CacheManagerListener α (LinkedHashSet α) L)}
  {settle : α → LinkedHashSet α → LinkedHashSet α} {onEvict onLoad : α → L → L} {k : α}
  {queue : LinkedHashSet α}

/-- The evicted key has left the queue before any listener is told. -/
theorem SettlesQueue.remove (hs : SettlesQueue settle) (x : α) :
    settle x (queue.remove x) = queue.remove x := by
  rcases hs with rfl | rfl
  · rfl
  · exact LinkedHashSet.remove_of_notMem (by simp)

theorem toFinset_add (queue : LinkedHashSet α) (k : α) :
    (queue.add k).toFinset = insert k queue.toFinset := by
  ext y
  simp [or_comm]

theorem toFinset_remove (queue : LinkedHashSet α) (k : α) :
    (queue.remove k).toFinset = queue.toFinset.erase k := by
  ext y
  simp

theorem notMem_remove {x : α} (hk : k ∉ queue) : k ∉ queue.remove x :=
  fun hmem => hk (LinkedHashSet.mem_remove.mp hmem).2

/-- A queue that takes in a missed key has the same contents whether its head leaves before or
after. -/
theorem remove_add_of_head {x : α} {xs : List α} (hx : queue.toList = x :: xs) (hk : k ∉ queue) :
    (queue.remove x).add k = (queue.add k).remove x := by
  apply LinkedHashSet.ext
  rw [LinkedHashSet.toList_add (notMem_remove hk), LinkedHashSet.toList_remove,
    LinkedHashSet.toList_remove, LinkedHashSet.toList_add hk, hx, List.cons_append,
    List.erase_cons_head, List.erase_cons_head]

theorem size_add_le {maxNodes : ℤ} (hk : k ∉ queue) (hroom : queue.length < maxNodes) :
    (queue.add k).size ≤ maxNodes := by
  have hlength := LinkedHashSet.length_add hk
  exact (min_le_left _ _).trans (by omega)

theorem lt_size_add {maxNodes : ℤ} (hk : k ∉ queue) (hlt : maxNodes < 2147483647)
    (hfull : queue.length ≥ maxNodes) : maxNodes < (queue.add k).size := by
  have hlength := LinkedHashSet.length_add hk
  exact LinkedHashSet.lt_size_iff.mpr ⟨by omega, hlt⟩

/-- A visit that fits finds room exactly where the queue is short. -/
theorem QueueFits.length_lt {maxNodes : ℤ} (hfits : QueueFits maxNodes queue (.visit k))
    (hk : k ∉ queue) (hroom : (queue.add k).size ≤ maxNodes) : queue.length < maxNodes := by
  by_contra hfull
  have hlength := LinkedHashSet.length_add hk
  have hlt : maxNodes < 2147483647 ∨ queue.length < 2147483647 :=
    hfits.imp_right fun h => h.resolve_left hk
  rw [← not_lt, LinkedHashSet.lt_size_iff] at hroom
  omega

theorem loadAndTrim_room (hr : Responds listeners settle onEvict onLoad) {maxNodes : ℤ} {l : L}
    (hroom : (queue.add k).size ≤ maxNodes) :
    loadAndTrim maxNodes listeners k (queue.add k, l) = .ok (queue.add k, onLoad k l) := by
  simp only [loadAndTrim, hr.load, Java.ok_bind, if_neg (not_lt.mpr hroom)]

theorem loadAndTrim_full (hr : Responds listeners settle onEvict onLoad) (hs : SettlesQueue settle)
    {maxNodes : ℤ} {l : L} (hk : k ∉ queue) (hfull : maxNodes < (queue.add k).size) {x : α}
    {xs : List α} (hx : queue.toList = x :: xs) :
    loadAndTrim maxNodes listeners k (queue.add k, l) =
      .ok ((queue.remove x).add k, onEvict x (onLoad k l)) := by
  have hhead : (queue.add k).toList = x :: (xs ++ [k]) := by
    rw [LinkedHashSet.toList_add hk, hx, List.cons_append]
  simp only [loadAndTrim, hr.load, Java.ok_bind, if_pos hfull, LinkedHashSet.take_cons hhead,
    hr.evict, hs.remove, remove_add_of_head hx hk]

/-- A missed key at the tail of the queue is loaded, and the head evicted if need be. -/
theorem loadAndTrim_effect (hr : Responds listeners settle onEvict onLoad)
    (hs : SettlesQueue settle) {maxNodes : ℤ} (hc : 1 ≤ maxNodes) (hk : k ∉ queue)
    (hle : queue.length ≤ maxNodes) (hfits : QueueFits maxNodes queue (.visit k)) (l : L) :
    ∃ queue' l', loadAndTrim maxNodes listeners k (queue.add k, l) = .ok (queue', l') ∧
      queue'.length ≤ maxNodes ∧
      VisitEffect queue.toFinset k onEvict onLoad l queue'.toFinset l' := by
  have hnot : k ∉ queue.toFinset := fun hmem => hk (LinkedHashSet.mem_toFinset.mp hmem)
  by_cases hroom : queue.length < maxNodes
  · refine ⟨queue.add k, onLoad k l, loadAndTrim_room hr (size_add_le hk hroom), ?_, ?_⟩
    · rw [LinkedHashSet.length_add hk]
      omega
    · rw [toFinset_add]
      exact .miss hnot .kept
  · obtain ⟨x, xs, hx⟩ := LinkedHashSet.exists_cons_of_length_pos (q := queue) (by omega)
    have hmem : x ∈ queue := LinkedHashSet.mem_of_toList_cons hx
    have hlt : maxNodes < 2147483647 := by
      rcases hfits with hlt | hin | hlt
      · exact hlt
      · exact absurd hin hk
      · omega
    refine ⟨(queue.remove x).add k, onEvict x (onLoad k l),
      loadAndTrim_full hr hs hk (lt_size_add hk hlt (not_lt.mp hroom)) hx, ?_, ?_⟩
    · rw [LinkedHashSet.length_add (notMem_remove hk), LinkedHashSet.length_remove hmem]
      omega
    · rw [toFinset_add, toFinset_remove]
      exact .trimmed hnot (LinkedHashSet.mem_toFinset.mpr hmem)

theorem LruCacheManager.visit_effect (config : LruConfiguration) (hc : 1 ≤ config.maxNodes.val)
    (hr : Responds listeners settle onEvict onLoad) (hs : SettlesQueue settle)
    (hle : queue.length ≤ config.maxNodes.val) (hfits : Fits config queue (.visit k)) (l : L) :
    ∃ queue' l', visit config listeners k (queue, l) = .ok (queue', l') ∧
      queue'.length ≤ config.maxNodes.val ∧
      VisitEffect queue.toFinset k onEvict onLoad l queue'.toFinset l' := by
  by_cases hk : k ∈ queue
  · refine ⟨(queue.remove k).add k, l, by rw [visit, if_pos hk], ?_, ?_⟩
    · rw [LinkedHashSet.length_add (by simp), LinkedHashSet.length_remove hk]
      omega
    · rw [toFinset_add, toFinset_remove, Finset.insert_erase (LinkedHashSet.mem_toFinset.mpr hk)]
      exact .hit (LinkedHashSet.mem_toFinset.mpr hk)
  · obtain ⟨queue', l', hok, hle', heffect⟩ := loadAndTrim_effect hr hs hc hk hle hfits l
    refine ⟨queue', l', ?_, hle', heffect⟩
    rw [visit, if_neg hk, LinkedHashSet.remove_of_notMem hk, hok]

theorem FifoCacheManager.visit_effect (config : FifoConfiguration) (hc : 1 ≤ config.maxNodes.val)
    (hr : Responds listeners settle onEvict onLoad) (hs : SettlesQueue settle)
    (hle : queue.length ≤ config.maxNodes.val) (hfits : Fits config queue (.visit k)) (l : L) :
    ∃ queue' l', visit config listeners k (queue, l) = .ok (queue', l') ∧
      queue'.length ≤ config.maxNodes.val ∧
      VisitEffect queue.toFinset k onEvict onLoad l queue'.toFinset l' := by
  by_cases hk : k ∈ queue
  · exact ⟨queue, l, by rw [visit, if_pos hk], hle, .hit (LinkedHashSet.mem_toFinset.mpr hk)⟩
  · obtain ⟨queue', l', hok, hle', heffect⟩ := loadAndTrim_effect hr hs hc hk hle hfits l
    refine ⟨queue', l', ?_, hle', heffect⟩
    rw [visit, if_neg hk, hok]

/-- Up to `maxNodes` the size is the number of residents. -/
theorem size_of_length_le (maxNodes : JavaInt) (hle : queue.length ≤ maxNodes.val) :
    queue.size = queue.toFinset.card ∧ queue.size ≤ maxNodes.val := by
  have hsize := LinkedHashSet.size_of_le (hle.trans maxNodes.property.2)
  exact ⟨hsize.trans (LinkedHashSet.card_toFinset _).symm, hsize ▸ hle⟩

theorem LruCacheManager.protocol (config : LruConfiguration) (hc : 1 ≤ config.maxNodes.val) :
    Protocol (manager config (α := α)) config.maxNodes.val
      (fun queue => queue.length ≤ config.maxNodes.val) (Fits config) SettlesQueue where
  initial := (by decide : (0 : ℤ) ≤ 1).trans hc
  visit hr hs _ _ l hle hfits := visit_effect config hc hr hs hle hfits l
  remove hle _ := ⟨_, rfl, (LinkedHashSet.length_remove_le _ _).trans hle, toFinset_remove _ _⟩
  clear _ := ⟨(by decide : (0 : ℤ) ≤ 1).trans hc, rfl⟩
  size hle := size_of_length_le config.maxNodes hle

theorem FifoCacheManager.protocol (config : FifoConfiguration) (hc : 1 ≤ config.maxNodes.val) :
    Protocol (manager config (α := α)) config.maxNodes.val
      (fun queue => queue.length ≤ config.maxNodes.val) (Fits config) SettlesQueue where
  initial := (by decide : (0 : ℤ) ≤ 1).trans hc
  visit hr hs _ _ l hle hfits := visit_effect config hc hr hs hle hfits l
  remove hle _ := ⟨_, rfl, (LinkedHashSet.length_remove_le _ _).trans hle, toFinset_remove _ _⟩
  clear _ := ⟨(by decide : (0 : ℤ) ≤ 1).trans hc, rfl⟩
  size hle := size_of_length_le config.maxNodes hle

end CachePolicies
