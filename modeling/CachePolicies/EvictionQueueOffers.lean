import CachePolicies.EvictionQueues
import CachePolicies.Policies

/-!
# What an eviction queue offers

Whatever its configuration, a visit that returns keeps to the load and evict protocol. So
the queue offers exactly the nodes which its manager has reported last as ready for
eviction, and none of them is resident.
-/

namespace CachePolicies

variable {α : Type} [DecidableEq α]

/-- What a manager owes a listener that does not call back: its visits keep to the load and
evict protocol, unless they throw. -/
structure Reporting (P : CacheManager α) (Inv : P.State → Prop) : Prop where
  initial : Inv P.initial ∧ P.resident P.initial = ∅
  add : ∀ k m, P.add k m = m
  visit : ∀ {L : Type} {listeners : List (CacheManagerListener α P.State L)} {onEvict onLoad : α → L → L},
    Responds listeners (fun _ m => m) onEvict onLoad →
    ∀ {m m' : P.State} {k : α} {l l' : L}, Inv m → P.visit listeners k (m, l) = .ok (m', l') →
      Inv m' ∧ VisitEffect (P.resident m) k onEvict onLoad l (P.resident m') l'
  remove : ∀ {m m' : P.State} {k : α}, Inv m → P.remove k m = .ok m' →
    Inv m' ∧ P.resident m' = (P.resident m).erase k
  clear : ∀ {m : P.State}, Inv m → Inv (P.clear m) ∧ P.resident (P.clear m) = ∅

/-- A manager under the protocol reports, where its visits fit whenever they return. -/
theorem Protocol.reporting {P : CacheManager α} {maxNodes : ℤ} {Inv : P.State → Prop}
    {Fits : P.State → Call α → Prop} {settles : (α → P.State → P.State) → Prop}
    (h : Protocol P maxNodes Inv Fits settles) (hs : settles fun _ m => m)
    (hinitial : P.resident P.initial = ∅) (hadd : ∀ k m, P.add k m = m)
    (hremove : ∀ m k, Fits m (.remove k))
    (hfits : ∀ {L : Type} {listeners : List (CacheManagerListener α P.State L)} {m : P.State} {k : α}
      (l : L), Inv m → ¬Fits m (.visit k) → ∃ e, P.visit listeners k (m, l) = .error e) :
    Reporting P Inv where
  initial := ⟨h.initial, hinitial⟩
  add := hadd
  visit := by
    intro L listeners onEvict onLoad hr m m' k l l' hm hok
    have hfit : Fits m (.visit k) := by
      by_contra hnot
      obtain ⟨e, herror⟩ : ∃ e, P.visit listeners k (m, l) = .error e := hfits l hm hnot
      cases hok.symm.trans herror
    obtain ⟨m₁, l₁, hok₁, hm₁, heffect⟩ := h.visit hr hs l hm hfit
    cases hok₁.symm.trans hok
    exact ⟨hm₁, heffect⟩
  remove := by
    intro m m' k hm hok
    obtain ⟨m₁, hok₁, hm₁, hresident⟩ := h.remove hm (hremove m k)
    cases hok₁.symm.trans hok
    exact ⟨hm₁, hresident⟩
  clear := h.clear

/-! ## The managers under an eviction queue -/

theorem AdaptiveReplacementCacheManager.reporting (config : AdaptiveReplacementConfiguration) :
    Reporting (manager config (α := α)) MultipleQueueCacheManager.Located where
  initial := ⟨MultipleQueueCacheManager.located_empty, rfl⟩
  add _ _ := rfl
  visit := by
    intro L listeners onEvict onLoad hr m m' k l l' hm hok
    rcases visit_cases config hr (.inl rfl) hm k l with ⟨m₁, l₁, hok₁, hv⟩ | ⟨herror, -⟩
    · cases hok₁.symm.trans hok
      exact hv.effect (.inl rfl) hm
    · cases hok.symm.trans herror
  remove := by
    intro m m' k hm hok
    cases hok
    exact ⟨hm.remove k, ReplacementCacheManager.resident_remove hm.filed subclass k⟩
  clear _ := ⟨MultipleQueueCacheManager.located_empty, rfl⟩

namespace TwoQCacheManager

open MultipleQueueCacheManager TwoQQueue

/-- The configuration under which `a1Out` has no negative bound. -/
def atLeastEmpty (config : TwoQConfiguration) : TwoQConfiguration :=
  if config.kOut.val < 0 then { config with kOut := 0 } else config

theorem kOut_atLeastEmpty (config : TwoQConfiguration) {n : ℤ} (hn : 0 < n) :
    n > (atLeastEmpty config).kOut.val ↔ n > config.kOut.val := by
  rw [atLeastEmpty]
  split
  · next h =>
    show n > 0 ↔ _
    omega
  · exact Iff.rfl

/-- A demoted key is in `a1Out` when the bound is checked, so a negative bound acts as zero. -/
theorem reclaimForEntry_atLeastEmpty {L : Type} {config : TwoQConfiguration}
    {listeners : List (CacheManagerListener α (TwoQCacheManager α) L)} {onEvict onLoad : α → L → L}
    (hr : Responds listeners (fun _ m => m) onEvict onLoad) (m : TwoQCacheManager α) (l : L) :
    reclaimForEntry (atLeastEmpty config) listeners (m, l) = reclaimForEntry config listeners (m, l) := by
  have hmax : (atLeastEmpty config).maxNodes = config.maxNodes := by
    rw [atLeastEmpty]
    split <;> rfl
  have hin : (atLeastEmpty config).kIn = config.kIn := by
    rw [atLeastEmpty]
    split <;> rfl
  rw [reclaimForEntry, reclaimForEntry, hmax, hin]
  split
  · rfl
  · split
    · next hsize =>
      cases hx : (m.queues a1In).toList with
      | nil =>
        have hempty : m.queues a1In = ∅ := LinkedHashSet.ext hx
        have hhead : moveHead a1In a1Out m = .error .noSuchElement := by
          rw [moveHead, hempty, LinkedHashSet.take_empty]
          rfl
        rw [hhead]
        rfl
      | cons x xs =>
        have hpos : 0 < ((m.relocate x a1In a1Out).queues a1Out).size := by
          apply LinkedHashSet.size_pos
          apply LinkedHashSet.length_pos_of_mem (x := x)
          rw [mem_relocate]
          exact .inr ⟨rfl, rfl⟩
        simp only [moveHead_cons hx, Java.ok_bind, hr.evict, kOut_atLeastEmpty config hpos]
    · rfl

theorem visit_atLeastEmpty {L : Type} {config : TwoQConfiguration}
    {listeners : List (CacheManagerListener α (TwoQCacheManager α) L)} {onEvict onLoad : α → L → L}
    (hr : Responds listeners (fun _ m => m) onEvict onLoad) (k : α) (m : TwoQCacheManager α) (l : L) :
    (manager (atLeastEmpty config)).visit listeners k (m, l) =
      (manager config).visit listeners k (m, l) := by
  simp only [manager, MultipleQueueCacheManager.visit, onHit, onMiss, reclaimForEntry_atLeastEmpty hr]

theorem admissible_atLeastEmpty {config : TwoQConfiguration}
    (h : 0 ≤ config.kIn.val ∧ config.kIn.val < config.maxNodes.val) :
    Admissible (atLeastEmpty config) := by
  obtain ⟨hlow, hhigh⟩ := h
  rw [atLeastEmpty]
  split
  · exact ⟨by simp only; omega, hlow, hhigh, le_refl 0⟩
  · exact ⟨by omega, hlow, hhigh, by omega⟩

theorem reporting {config : TwoQConfiguration}
    (h : 0 ≤ config.kIn.val ∧ config.kIn.val < config.maxNodes.val) :
    Reporting (manager config (α := α)) (Sound (atLeastEmpty config)) := by
  have hc := admissible_atLeastEmpty h
  refine ⟨⟨sound_empty hc, rfl⟩, fun _ _ => rfl, ?_, ?_, fun _ => ⟨sound_empty hc, rfl⟩⟩
  · intro L listeners onEvict onLoad hr m m' k l l' hm hok
    obtain ⟨m₁, l₁, hok₁, hm₁, heffect⟩ := hm.visit hr (.inl rfl) hc k l
    rw [visit_atLeastEmpty hr] at hok₁
    cases hok₁.symm.trans hok
    exact ⟨hm₁, heffect⟩
  · intro m m' k hm hok
    cases hok
    exact ⟨hm.remove k, resident_remove hm.located.filed⟩

end TwoQCacheManager

namespace MQCacheManager

variable {config : MQConfiguration}

theorem reporting_queueless (hc : 1 ≤ config.maxNodes.val) (hn : queuesSize config = 0) :
    Reporting (manager config (α := α)) (fun m => m = initial) := by
  have hresident : resident config (initial (α := α)) = ∅ := by
    rw [resident, hn]
    rfl
  refine ⟨⟨rfl, hresident⟩, fun _ _ => rfl, ?_, ?_, fun _ => ⟨rfl, hresident⟩⟩
  · intro L listeners onEvict onLoad hr m m' k l l' hm hok
    subst hm
    cases (visit_queueless hc hn k initial l).symm.trans hok
  · intro m m' k hm hok
    subst hm
    cases hok
    refine ⟨rfl, ?_⟩
    show resident config initial = (resident config initial).erase k
    rw [hresident]
    rfl

theorem reporting (hc : 2 ≤ config.maxNodes.val) :
    ∃ Inv, Reporting (manager config (α := α)) Inv := by
  by_cases hn : 1 ≤ queuesSize config
  · refine ⟨_, (protocol config (by omega) hn).reporting (.inl rfl) ?_ (fun _ _ => rfl)
      (fun _ _ => trivial) ?_⟩
    · ext k
      simp [mem_resident, initial]
    · intro L listeners m k l hm hfits
      exact hm.visit_error (by omega) hn hfits l
  · exact ⟨_, reporting_queueless (by omega) (by omega)⟩

end MQCacheManager

namespace Policy

/-- The policies which the eviction queues are built over, as far as their configurations
keep a visit from taking what is not there. -/
def HasEvictionQueue : Policy α → Prop
  | fixedReplacement config =>
    ∃ maxNodes t1Size, FixedReplacementConfiguration.new maxNodes t1Size = .ok config
  | adaptiveReplacement _ => True
  | twoQ config => 0 ≤ config.kIn.val ∧ config.kIn.val < config.maxNodes.val
  | mq config => 2 ≤ config.maxNodes.val
  | lru _ | fifo _ | directMapped _ | lfu _ => False

theorem exists_reporting {p : Policy α} (hp : p.HasEvictionQueue) : ∃ Inv, Reporting p.manager Inv := by
  cases p with
  | lru config => exact hp.elim
  | fifo config => exact hp.elim
  | fixedReplacement config =>
    obtain ⟨maxNodes, t1Size, haccepted⟩ := hp
    obtain ⟨hlow, hhigh⟩ := FixedReplacementCacheManager.accepted_bounds haccepted
    exact ⟨_, (FixedReplacementCacheManager.protocol config hlow hhigh).reporting (.inl rfl) rfl
      (fun _ _ => rfl) (fun _ _ => trivial) fun _ _ hnot => absurd trivial hnot⟩
  | adaptiveReplacement config => exact ⟨_, AdaptiveReplacementCacheManager.reporting config⟩
  | twoQ config => exact ⟨_, TwoQCacheManager.reporting hp⟩
  | mq config => exact MQCacheManager.reporting hp
  | directMapped config => exact hp.elim
  | lfu config => exact hp.elim

end Policy

/-! ## The nodes ready for eviction -/

def Event.item : Event α → α
  | .objectLoaded item => item
  | .objectReadyForEviction item => item

/-- The last event about a node. -/
def lastEvent (k : α) (events : List (Event α)) : Option (Event α) :=
  events.reverse.find? fun event => event.item = k

/-- The last event about a node said that it is ready for eviction, and the node has not been
removed or cleared since. -/
def readyForEviction {S : Type} (k : α) : List (Record S (QueueCall α) (List (Event α))) → Bool
  | [] => false
  | r :: history =>
    match lastEvent k r.output with
    | some (.objectReadyForEviction _) => true
    | some (.objectLoaded _) => false
    | none =>
      match r.call with
      | .clear => false
      | .removeNodeEntry entry => entry.fqn ≠ k && readyForEviction k history
      | .processVisit _ | .addNodeEntry _ => readyForEviction k history

theorem lastEvent_recordEviction (k x : α) (events : List (Event α)) :
    lastEvent k (recordEviction x events) =
      if x = k then some (.objectReadyForEviction x) else lastEvent k events := by
  rw [lastEvent, recordEviction, List.reverse_append, List.reverse_singleton,
    List.singleton_append, List.find?_cons]
  by_cases h : x = k <;> simp [Event.item, lastEvent, h]

theorem lastEvent_recordLoad (k x : α) (events : List (Event α)) :
    lastEvent k (recordLoad x events) =
      if x = k then some (.objectLoaded x) else lastEvent k events := by
  rw [lastEvent, recordLoad, List.reverse_append, List.reverse_singleton, List.singleton_append,
    List.find?_cons]
  by_cases h : x = k <;> simp [Event.item, lastEvent, h]

/-- What every callback keeps true of the memory of the listeners, a visit keeps true of it. -/
theorem VisitEffect.memory {L : Type} {resident resident' : Finset α} {k : α}
    {onEvict onLoad : α → L → L} {l l' : L} {Kept : L → Prop}
    (h : VisitEffect resident k onEvict onLoad l resident' l')
    (hevict : ∀ x l, Kept l → Kept (onEvict x l)) (hload : ∀ x l, Kept l → Kept (onLoad x l))
    (hl : Kept l) : Kept l' := by
  cases h with
  | hit => exact hl
  | miss hk hroom =>
    apply hload
    cases hroom with
    | kept => exact hl
    | evicted => exact hevict _ _ hl
  | trimmed => exact hevict _ _ (hload _ _ hl)

namespace CacheManagerEvictionQueue

/-- The queue holds what it held before the call, as far as the events of the call do not say
otherwise. -/
def Follows (toEvict : LinkedHashSet α) (memory : QueueMemory α) : Prop :=
  ∀ k, k ∈ memory.1 ↔
    match lastEvent k memory.2 with
    | some (.objectReadyForEviction _) => True
    | some (.objectLoaded _) => False
    | none => k ∈ toEvict

section Memory

variable {toEvict toEvict' : LinkedHashSet α} {memory : QueueMemory α} {resident resident' : Finset α}
  {k : α} {events : List (Event α)}

theorem Follows.onEvict (h : Follows toEvict memory) (x : α) :
    Follows toEvict (onEvict x memory) := by
  intro k
  rw [CacheManagerEvictionQueue.onEvict, lastEvent_recordEviction, objectReadyForEviction,
    LinkedHashSet.mem_add]
  by_cases hx : x = k
  · simp [hx]
  · rw [if_neg hx, or_iff_left (Ne.symm hx)]
    exact h k

theorem Follows.onLoad (h : Follows toEvict memory) (x : α) : Follows toEvict (onLoad x memory) := by
  intro k
  rw [CacheManagerEvictionQueue.onLoad, lastEvent_recordLoad, objectLoaded, LinkedHashSet.mem_remove]
  by_cases hx : x = k
  · simp [hx]
  · rw [if_neg hx, and_iff_right (Ne.symm hx)]
    exact h k

theorem follows_start (toEvict : LinkedHashSet α) : Follows toEvict (toEvict, []) := fun _ => Iff.rfl

/-- A load takes the node out of the queue, an eviction takes it out of the residents. -/
theorem disjoint_visitEffect (hdisjoint : ∀ x ∈ resident, x ∉ memory.1) {memory' : QueueMemory α}
    (h : VisitEffect resident k onEvict onLoad memory resident' memory') :
    ∀ x ∈ resident', x ∉ memory'.1 := by
  intro x hx
  cases h with
  | hit => exact hdisjoint x hx
  | miss hk hroom =>
    rw [onLoad, objectLoaded, LinkedHashSet.mem_remove, not_and]
    intro hxk
    have hx := Finset.mem_of_mem_insert_of_ne hx hxk
    cases hroom with
    | kept => exact hdisjoint x hx
    | evicted hy =>
      obtain ⟨hxy, hx⟩ := Finset.mem_erase.mp hx
      rw [onEvict, objectReadyForEviction, LinkedHashSet.mem_add, or_iff_left hxy]
      exact hdisjoint x hx
  | @trimmed y hk hy =>
    have hxy : x ≠ y := by
      rintro rfl
      rcases Finset.mem_insert.mp hx with rfl | hx
      · exact hk hy
      · exact Finset.notMem_erase x _ hx
    rw [onEvict, objectReadyForEviction, LinkedHashSet.mem_add, or_iff_left hxy, onLoad, objectLoaded,
      LinkedHashSet.mem_remove, not_and]
    intro hxk
    exact hdisjoint x (Finset.mem_of_mem_erase (Finset.mem_of_mem_insert_of_ne hx hxk))

end Memory

/-- What is true of the queue after the calls of a history. -/
structure Offered {P : CacheManager α} (Inv : P.State → Prop)
    (history : List (Record (CacheManagerEvictionQueue P) (QueueCall α) (List (Event α))))
    (s : CacheManagerEvictionQueue P) : Prop where
  inv : Inv s.cacheManager
  ready : ∀ k, k ∈ s.toEvict ↔ readyForEviction k history
  disjoint : ∀ k ∈ P.resident s.cacheManager, k ∉ s.toEvict

section Calls

variable {P : CacheManager α} {Inv : P.State → Prop} {toString : α → String}
  {history : List (Record (CacheManagerEvictionQueue P) (QueueCall α) (List (Event α)))}
  {s s' : CacheManagerEvictionQueue P} {events : List (Event α)}

theorem Offered.processVisit (hP : Reporting P Inv) (h : Offered Inv history s) {fqn : α}
    (hok : processVisit toString fqn s = .ok (s', events)) :
    Offered Inv (⟨s, .processVisit fqn, events, s'⟩ :: history) s' := by
  rw [CacheManagerEvictionQueue.processVisit] at hok
  obtain ⟨⟨m', toEvict', events'⟩, hvisit, hok⟩ := Java.bind_eq_ok.mp hok
  cases hok
  obtain ⟨hm', heffect⟩ := hP.visit (listeners_responds P) h.inv hvisit
  have hfollows := heffect.memory (fun x _ hl => hl.onEvict x) (fun x _ hl => hl.onLoad x)
    (follows_start s.toEvict)
  refine ⟨hm', fun k => ?_, disjoint_visitEffect h.disjoint heffect⟩
  rw [hfollows k, readyForEviction]
  cases lastEvent k events with
  | none => exact h.ready k
  | some event => cases event <;> simp

theorem Offered.removeNodeEntry (hP : Reporting P Inv) (h : Offered Inv history s)
    {entry : NodeEntry α} (hok : removeNodeEntry entry s = .ok s') :
    Offered Inv (⟨s, .removeNodeEntry entry, [], s'⟩ :: history) s' := by
  rw [CacheManagerEvictionQueue.removeNodeEntry] at hok
  obtain ⟨m', hremove, hok⟩ := Java.bind_eq_ok.mp hok
  cases hok
  obtain ⟨hm', hresident⟩ := hP.remove h.inv hremove
  refine ⟨hm', fun k => ?_, fun k hk => ?_⟩
  · rw [LinkedHashSet.mem_remove, h.ready k, readyForEviction]
    show _ ↔ (decide (entry.fqn ≠ k) && readyForEviction k history) = true
    rw [Bool.and_eq_true, decide_eq_true_iff, ne_comm]
  · rw [hresident] at hk
    rw [LinkedHashSet.mem_remove, not_and]
    exact fun _ => h.disjoint k (Finset.mem_of_mem_erase hk)

theorem Offered.perform (hP : Reporting P Inv) (h : Offered Inv history s) {call : QueueCall α}
    (hok : perform toString s call = .ok (s', events)) :
    Offered Inv (⟨s, call, events, s'⟩ :: history) s' := by
  cases call with
  | processVisit fqn => exact h.processVisit hP hok
  | addNodeEntry entry =>
    cases hok
    refine ⟨?_, h.ready, ?_⟩
    · rw [addNodeEntry, hP.add]
      exact h.inv
    · rw [addNodeEntry, hP.add]
      exact h.disjoint
  | removeNodeEntry entry =>
    obtain ⟨s₁, hremove, hok⟩ := Java.bind_eq_ok.mp hok
    cases hok
    exact h.removeNodeEntry hP hremove
  | clear =>
    cases hok
    exact ⟨(hP.clear h.inv).1, fun k => iff_of_false (LinkedHashSet.notMem_empty k) Bool.false_ne_true,
      fun k _ => LinkedHashSet.notMem_empty k⟩

theorem offered_initial (hP : Reporting P Inv) : Offered Inv [] (initial P) := by
  exact ⟨hP.initial.1, fun k => iff_of_false (LinkedHashSet.notMem_empty k) Bool.false_ne_true,
    fun k _ => LinkedHashSet.notMem_empty k⟩

/-- What the last event has left ready for eviction is what the queue offers, and no resident
node is among it. -/
theorem Offered.of_reaches (hP : Reporting P Inv) (hrun : Reaches toString P history s) :
    Offered Inv history s := by
  induction hrun with
  | start => exact offered_initial hP
  | call run hok ih => exact ih.perform hP hok

end Calls

/-- The queue never offers a resident node and never forgets one that is ready for eviction. -/
theorem offers_iff_ready (toString : α → String) (p : Policy α) (hp : p.HasEvictionQueue)
    (history : List (Record (CacheManagerEvictionQueue p.manager) (QueueCall α) (List (Event α))))
    (s : CacheManagerEvictionQueue p.manager) (hrun : Reaches toString p.manager history s) :
    s.toEvict.toList.Nodup ∧ (∀ k, k ∈ s.toEvict.toList ↔ readyForEviction k history) ∧
    (∀ k ∈ p.manager.resident s.cacheManager, k ∉ s.toEvict) ∧
    ∀ ne : NodeEntry α, ne.fqn ∈ p.manager.resident s.cacheManager →
      s.containsNodeEntry ne = false ∧ CacheManagerEvictionAlgorithm.shouldEvictNode ne s = false := by
  obtain ⟨Inv, hP⟩ := Policy.exists_reporting hp
  have h := Offered.of_reaches hP hrun
  have hnot (ne : NodeEntry α) (hne : ne.fqn ∈ p.manager.resident s.cacheManager) :
      s.containsNodeEntry ne = false := decide_eq_false (h.disjoint ne.fqn hne)
  exact ⟨s.toEvict.nodup, h.ready, h.disjoint, fun ne hne => ⟨hnot ne hne, hnot ne hne⟩⟩

/-- Of the nodes evicted in turn, 1 is loaded again and 2 is removed. -/
theorem offers_iff_ready_adaptiveTwoNodes : ∃ history s,
    Reaches (fun n : ℕ => n.repr) (Policy.adaptiveReplacement
      AdaptiveReplacementCacheManager.twoNodes).manager history s ∧
    history.length = 7 ∧ s.toEvict.toList = [3] ∧ readyForEviction 3 history = true ∧
    readyForEviction 1 history = false ∧ readyForEviction 2 history = false ∧
    s.toEvict.toList.Nodup ∧
    (∀ k, k ∈ s.toEvict.toList ↔ readyForEviction k history) := by
  have hrun : Reaches (fun n : ℕ => n.repr) (Policy.adaptiveReplacement
      AdaptiveReplacementCacheManager.twoNodes).manager _ _ :=
    run_of_replay [.processVisit 1, .processVisit 2, .processVisit 3, .addNodeEntry ⟨4, 5⟩,
      .processVisit 1, .processVisit 4, .removeNodeEntry ⟨2, 0⟩] rfl
  obtain ⟨hnodup, hready, -⟩ := offers_iff_ready (fun n : ℕ => n.repr)
    (.adaptiveReplacement AdaptiveReplacementCacheManager.twoNodes) trivial _ _ hrun
  exact ⟨_, _, hrun, rfl, rfl, rfl, rfl, rfl, hnodup, hready⟩

end CacheManagerEvictionQueue

end CachePolicies
