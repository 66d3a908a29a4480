import CachePolicies.EvictionQueues
import CachePolicies.MQStrays
import CachePolicies.Policies

/-!
# What pruning does to a manager

`evict` removes a node from the queue and also from the manager, so a node which the
manager keeps as a ghost is forgotten. A run with prunings goes on like the run without them
exactly as long as each pruned node is in no queue of the manager.
-/

namespace CachePolicies

variable {α : Type} [DecidableEq α]

/-- What pruning needs of a manager: visits and removals of keys in no queue keep related
states related, and a removal that is not seen was one of such a key. -/
structure Prunable (P : CacheManager α) (Related Same : P.State → P.State → Prop)
    (InNoQueue : α → P.State → Prop) : Prop where
  initial : Related P.initial P.initial
  same : ∀ {m m' : P.State}, Related m m' → Same m m'
  visit : ∀ {L : Type} {listeners : List (CacheManagerListener α P.State L)} {onEvict onLoad : α → L → L},
    Responds listeners (fun _ m => m) onEvict onLoad →
    ∀ {m m' : P.State} (k : α) (l l' : L), Related m m' →
      Agree (fun w w' => Related w.1 w'.1) (P.visit listeners k (m, l)) (P.visit listeners k (m', l'))
  remove : ∀ {m m' : P.State} {k : α}, Related m m' → InNoQueue k m →
    ∃ m₁, P.remove k m = .ok m₁ ∧ Related m₁ m'
  inNoQueue : ∀ {m m' m₁ : P.State} {k : α}, Related m m' → P.remove k m = .ok m₁ → Same m₁ m' →
    InNoQueue k m

section Locations

open MultipleQueueCacheManager

variable {Q X : Type} [DecidableEq Q] {m m' : MultipleQueueCacheManager Q α X} {sub : Subclass Q α X}
  {k : α}

/-- With exact locations, a key in no queue has none. -/
theorem MultipleQueueCacheManager.Located.remove_eq (h : m.Located) (hk : ∀ q, k ∉ m.queues q) :
    MultipleQueueCacheManager.remove sub k m = m := by
  rw [MultipleQueueCacheManager.remove]
  split
  · rfl
  · next q hlookup => exact absurd ((h k q).mp hlookup) (hk q)

/-- The removal of a queued key shows in its queue. -/
theorem MultipleQueueCacheManager.Filed.notMem_of_remove (h : m.Filed)
    (hsame : (MultipleQueueCacheManager.remove sub k m).queues = m.queues) (q : Q) : k ∉ m.queues q := by
  intro hmem
  have hgone := congrFun hsame q
  rw [remove_of_lookup (h hmem), queues_forget_self] at hgone
  rw [← hgone, LinkedHashSet.mem_remove] at hmem
  exact hmem.1 rfl

end Locations

namespace AdaptiveReplacementCacheManager

open MultipleQueueCacheManager

variable {L : Type} {config : AdaptiveReplacementConfiguration} {onEvict onLoad : α → L → L}
  {hitList : Option AdaptiveReplacementQueue} {k : α} {m m' : AdaptiveReplacementCacheManager α}
  {l l₁ : L}

theorem Freed.relisten (h : Freed (fun _ m => m) onEvict hitList m l m' l₁) (l' : L) :
    ∃ l₁', Freed (fun _ m => m) onEvict hitList m l' m' l₁' := by
  cases h with
  | fromT1 htake hx => exact ⟨_, .fromT1 htake hx⟩
  | fromT2 htake hx => exact ⟨_, .fromT2 htake hx⟩
  | nothing htake hempty => exact ⟨_, .nothing htake hempty⟩

/-- What a visit does to the manager does not depend on what the listeners remember. -/
theorem Visited.relisten (h : Visited config (fun _ m => m) onEvict onLoad k m l m' l₁) (l' : L) :
    ∃ l₁', Visited config (fun _ m => m) onEvict onLoad k m l' m' l₁' := by
  cases h with
  | hit hs hk => exact ⟨_, .hit hs hk⟩
  | ghostHit hs hk htarget hfreed =>
    obtain ⟨_, hfreed'⟩ := hfreed.relisten l'
    exact ⟨_, .ghostHit hs hk htarget hfreed'⟩
  | sideFull hk hside ht1 hx hfreed =>
    obtain ⟨_, hfreed'⟩ := hfreed.relisten l'
    exact ⟨_, .sideFull hk hside ht1 hx hfreed'⟩
  | t1Full hk hside ht1 hx => exact ⟨_, .t1Full hk hside ht1 hx⟩
  | directoryFull hk hside hcache hdirectory hx hfreed =>
    obtain ⟨_, hfreed'⟩ := hfreed.relisten l'
    exact ⟨_, .directoryFull hk hside hcache hdirectory hx hfreed'⟩
  | cacheFull hk hside hcache hdirectory hfreed =>
    obtain ⟨_, hfreed'⟩ := hfreed.relisten l'
    exact ⟨_, .cacheFull hk hside hcache hdirectory hfreed'⟩
  | room hk hside hcache => exact ⟨_, .room hk hside hcache⟩

theorem prunable (config : AdaptiveReplacementConfiguration) :
    Prunable (manager config (α := α)) (fun m m' => m = m' ∧ m.Located)
      (fun m m' => m.queues = m'.queues ∧ m.own.targetT1Size = m'.own.targetT1Size)
      (fun k m => ∀ q, k ∉ m.queues q) where
  initial := ⟨rfl, located_empty⟩
  same := by
    rintro m m' ⟨rfl, -⟩
    exact ⟨rfl, rfl⟩
  visit := by
    rintro L listeners onEvict onLoad hr m m' k l l' ⟨rfl, hm⟩
    rcases visit_cases config hr (.inl rfl) hm k l with ⟨m₁, l₁, hok, hv⟩ | ⟨herror, hstarved⟩
    · obtain ⟨l₁', hv'⟩ := hv.relisten l'
      rw [hok, hv'.visit_eq hr (.inl rfl) hm.filed]
      exact .ok ⟨rfl, (hv.effect (.inl rfl) hm).1⟩
    · rw [herror, hstarved.visit_error l']
      exact .error _
  remove := by
    rintro m m' k ⟨rfl, hm⟩ hk
    refine ⟨m, ?_, rfl, hm⟩
    show Except.ok (remove subclass k m) = _
    rw [hm.remove_eq hk]
  inNoQueue := by
    rintro m m' m₁ k ⟨rfl, hm⟩ hok ⟨hsame, -⟩
    cases hok
    exact hm.filed.notMem_of_remove hsame

end AdaptiveReplacementCacheManager

namespace TwoQCacheManager

open MultipleQueueCacheManager TwoQQueue

variable {L : Type} {config : TwoQConfiguration} {onEvict onLoad : α → L → L}
  {k x y : α} {m m' m₁ : TwoQCacheManager α} {l l' l₁ : L}

/-- What making room leaves of the locations, whatever the thresholds are. -/
structure Reclaims (m m' : TwoQCacheManager α) : Prop where
  located : m'.Located
  missed : ∀ k, m.currentLocations.lookup k = none → m'.currentLocations.lookup k = none
  watched : ∀ k, m.currentLocations.lookup k = some a1Out → ∀ q, k ∈ m'.queues q → q = a1Out

theorem Reclaims.forget (h : Reclaims m m') {s : TwoQQueue} (hy : y ∈ m'.queues s) :
    Reclaims m (forget subclass y s m') := by
  refine ⟨h.located.forget (h.located.only (h.located.filed hy)), fun k hk => ?_,
    fun k hk q hq => ?_⟩
  · rw [lookup_forget, h.missed k hk, ite_self]
  · exact h.watched k hk q (mem_forget.mp hq).1

theorem reclaims_demote (hm : m.Located) (hx : x ∈ m.queues a1In) :
    Reclaims m (m.relocate x a1In a1Out) := by
  have hxloc := hm.filed hx
  have hlocated := hm.relocate (d := a1Out) (hm.only hxloc)
  have hne {k : α} {location : Option TwoQQueue} (hk : m.currentLocations.lookup k = location)
      (hlocation : location ≠ some a1In) : k ≠ x := by
    rintro rfl
    exact hlocation (hk.symm.trans hxloc)
  refine ⟨hlocated, fun k hk => ?_, fun k hk => ?_⟩
  · rw [lookup_relocate, if_neg (hne hk (by simp)), hk]
  · apply hlocated.only
    rw [lookup_relocate, if_neg (hne hk (by simp)), hk]

theorem Reclaimed.reclaims (hm : m.Located)
    (h : Reclaimed config (fun _ m => m) onEvict m l m' l₁) : Reclaims m m' := by
  have hrefl : Reclaims m m := ⟨hm, fun _ hk => hk, fun k hk => hm.only hk⟩
  cases h with
  | room => exact hrefl
  | demoted hfull hin hx htrimmed =>
    have hdemoted := reclaims_demote hm (LinkedHashSet.mem_of_toList_cons hx)
    cases htrimmed with
    | kept => exact hdemoted
    | dropped hsize hy => exact hdemoted.forget (LinkedHashSet.mem_of_toList_cons hy)
  | evicted hfull hin hx => exact hrefl.forget (LinkedHashSet.mem_of_toList_cons hx)

theorem Visited.located (hm : m.Located)
    (h : Visited config (fun _ m => m) onEvict onLoad k m l m' l₁) : m'.Located := by
  cases h with
  | hitAm hk => exact hm.relocate (hm.only hk)
  | hitA1In => exact hm
  | ghostHit hk hreclaimed =>
    have hreclaims := hreclaimed.reclaims hm
    exact hreclaims.located.relocate (hreclaims.watched k hk)
  | missed hk hreclaimed =>
    have hreclaims := hreclaimed.reclaims hm
    exact hreclaims.located.enqueue (hreclaims.missed k hk)

theorem Reclaimed.relisten (h : Reclaimed config (fun _ m => m) onEvict m l m' l₁) (l' : L) :
    ∃ l₁', Reclaimed config (fun _ m => m) onEvict m l' m' l₁' := by
  cases h with
  | room hroom => exact ⟨_, .room hroom⟩
  | demoted hfull hin hx htrimmed => exact ⟨_, .demoted hfull hin hx htrimmed⟩
  | evicted hfull hin hx => exact ⟨_, .evicted hfull hin hx⟩

theorem Visited.relisten (h : Visited config (fun _ m => m) onEvict onLoad k m l m' l₁) (l' : L) :
    ∃ l₁', Visited config (fun _ m => m) onEvict onLoad k m l' m' l₁' := by
  cases h with
  | hitAm hk => exact ⟨_, .hitAm hk⟩
  | hitA1In hk => exact ⟨_, .hitA1In hk⟩
  | ghostHit hk hreclaimed =>
    obtain ⟨_, hreclaimed'⟩ := hreclaimed.relisten l'
    exact ⟨_, .ghostHit hk hreclaimed'⟩
  | missed hk hreclaimed =>
    obtain ⟨_, hreclaimed'⟩ := hreclaimed.relisten l'
    exact ⟨_, .missed hk hreclaimed'⟩

/-- Room is made, or a queue is empty that should have given up its head. -/
theorem reclaimed_or_error
    (listeners : List (CacheManagerListener α (TwoQCacheManager α) L)) (onEvict : α → L → L)
    (config : TwoQConfiguration) (m : TwoQCacheManager α) (l : L) :
    (∃ m' l₁, Reclaimed config (fun _ m => m) onEvict m l m' l₁) ∨
      ∀ l, reclaimForEntry config listeners (m, l) = .error .noSuchElement := by
  by_cases hroom : cacheSize m < config.maxNodes.val
  · exact .inl ⟨m, l, .room hroom⟩
  · by_cases hin : (m.queues a1In).size > config.kIn.val
    · cases hx : (m.queues a1In).toList with
      | nil =>
        refine .inr fun l => ?_
        have hempty : m.queues a1In = ∅ := LinkedHashSet.ext hx
        have hhead : moveHead a1In a1Out m = .error .noSuchElement := by
          rw [moveHead, hempty, LinkedHashSet.take_empty]
          rfl
        simp only [reclaimForEntry, if_neg hroom, if_pos hin, hhead, Java.error_bind]
      | cons x xs =>
        by_cases hout : ((m.relocate x a1In a1Out).queues a1Out).size > config.kOut.val
        · have hmem : x ∈ (m.relocate x a1In a1Out).queues a1Out :=
            mem_relocate.mpr (.inr ⟨rfl, rfl⟩)
          obtain ⟨y, ys, hy⟩ :=
            LinkedHashSet.exists_cons_of_length_pos (LinkedHashSet.length_pos_of_mem hmem)
          exact .inl ⟨_, _, .demoted (not_lt.mp hroom) hin hx (.dropped hout hy)⟩
        · exact .inl ⟨_, _, .demoted (not_lt.mp hroom) hin hx (.kept (not_lt.mp hout))⟩
    · cases hx : (m.queues am).toList with
      | nil =>
        refine .inr fun l => ?_
        simp only [reclaimForEntry, if_neg hroom, if_neg hin]
        exact evictNode_empty (LinkedHashSet.ext hx)
      | cons x xs => exact .inl ⟨_, _, .evicted (not_lt.mp hroom) (not_lt.mp hin) hx⟩

/-- A visit has one of the effects listed by `Visited`, or takes a head where there is none. -/
theorem visited_or_error
    (listeners : List (CacheManagerListener α (TwoQCacheManager α) L)) (onEvict onLoad : α → L → L)
    (config : TwoQConfiguration) (k : α) (m : TwoQCacheManager α) (l : L) :
    (∃ m' l₁, Visited config (fun _ m => m) onEvict onLoad k m l m' l₁) ∨
      ∀ l, (manager config).visit listeners k (m, l) = .error .noSuchElement := by
  rcases reclaimed_or_error listeners onEvict config m l with ⟨m', l₁, hreclaimed⟩ | herror
  · left
    cases hk : m.currentLocations.lookup k with
    | none => exact ⟨_, _, .missed hk hreclaimed⟩
    | some s =>
      cases s with
      | am => exact ⟨_, _, .hitAm hk⟩
      | a1In => exact ⟨_, _, .hitA1In hk⟩
      | a1Out => exact ⟨_, _, .ghostHit hk hreclaimed⟩
  · cases hk : m.currentLocations.lookup k with
    | none =>
      refine .inr fun l => ?_
      simp only [manager, MultipleQueueCacheManager.visit, hk, onMiss, herror, Java.error_bind]
    | some s =>
      cases s with
      | am => exact .inl ⟨_, _, .hitAm hk⟩
      | a1In => exact .inl ⟨_, _, .hitA1In hk⟩
      | a1Out =>
        refine .inr fun l => ?_
        simp only [manager, MultipleQueueCacheManager.visit, hk, onHit,
          if_neg (show a1Out ≠ am by decide), if_neg (show a1Out ≠ a1In by decide), herror,
          Java.error_bind]

theorem prunable (config : TwoQConfiguration) :
    Prunable (manager config (α := α)) (fun m m' => m = m' ∧ m.Located)
      (fun m m' => m.queues = m'.queues) (fun k m => ∀ q, k ∉ m.queues q) where
  initial := ⟨rfl, located_empty⟩
  same := by
    rintro m m' ⟨rfl, -⟩
    rfl
  visit := by
    rintro L listeners onEvict onLoad hr m m' k l l' ⟨rfl, hm⟩
    rcases visited_or_error listeners onEvict onLoad config k m l with ⟨m₁, l₁, hv⟩ | herror
    · obtain ⟨l₁', hv'⟩ := hv.relisten l'
      rw [hv.visit_eq hr (.inl rfl) hm.filed, hv'.visit_eq hr (.inl rfl) hm.filed]
      exact .ok ⟨rfl, hv.located hm⟩
    · rw [herror l, herror l']
      exact .error _
  remove := by
    rintro m m' k ⟨rfl, hm⟩ hk
    exact ⟨_, rfl, hm.remove_eq hk, hm.remove k⟩
  inNoQueue := by
    rintro m m' m₁ k ⟨rfl, hm⟩ hok hsame
    cases hok
    exact hm.filed.notMem_of_remove hsame

end TwoQCacheManager

theorem MQCacheManager.prunable {config : MQConfiguration} (hc : 2 ≤ config.maxNodes.val) :
    Prunable (manager config (α := α)) (Twins config) (fun m m' => m.queues = m'.queues)
      (fun k m => ∀ q, k ∉ m.queues q) where
  initial := by
    have hsound : Sound config (initial (α := α)) := sound_initial (by omega)
    exact ⟨.refl _, hsound, hsound, fun k hk => by cases hk⟩
  same h := h.alike.queues.symm
  visit hr _ _ k l l' h := h.visit hr hc k l l'
  remove h hk := ⟨_, rfl, h.remove hk⟩
  inNoQueue := by
    intro m m' m₁ k h hok hsame
    cases hok
    exact h.sound.tidy.filed.notMem_of_remove (hsame.trans h.alike.queues)

/-! ## All policies -/

namespace Policy

/-- The policies whose managers keep evicted keys as ghosts. -/
def HasGhosts : Policy α → Prop
  | adaptiveReplacement _ | twoQ _ => True
  | mq config => 2 ≤ config.maxNodes.val
  | lru _ | fifo _ | fixedReplacement _ | directMapped _ | lfu _ => False

/-- The queues are the same, and so is the target of the adaptive manager. -/
def SameQueuesAndTarget : (p : Policy α) → p.manager.State → p.manager.State → Prop
  | adaptiveReplacement _ => fun m m' : AdaptiveReplacementCacheManager α =>
    m.queues = m'.queues ∧ m.own.targetT1Size = m'.own.targetT1Size
  | twoQ _ => fun m m' : TwoQCacheManager α => m.queues = m'.queues
  | mq _ => fun m m' : MQCacheManager α => m.queues = m'.queues
  | lru _ | fifo _ | fixedReplacement _ | directMapped _ | lfu _ => Eq

/-- The key is in no queue of the manager, neither as a resident nor as a ghost. -/
def InNoQueue : (p : Policy α) → α → p.manager.State → Prop
  | adaptiveReplacement _ => fun k (m : AdaptiveReplacementCacheManager α) => ∀ q, k ∉ m.queues q
  | twoQ _ => fun k (m : TwoQCacheManager α) => ∀ q, k ∉ m.queues q
  | mq _ => fun k (m : MQCacheManager α) => ∀ q, k ∉ m.queues q
  | p => fun k m => k ∉ p.manager.resident m

theorem exists_prunable {p : Policy α} (hp : p.HasGhosts) :
    ∃ Related, Prunable p.manager Related p.SameQueuesAndTarget p.InNoQueue := by
  cases p with
  | adaptiveReplacement config => exact ⟨_, AdaptiveReplacementCacheManager.prunable config⟩
  | twoQ config => exact ⟨_, TwoQCacheManager.prunable config⟩
  | mq config => exact ⟨_, MQCacheManager.prunable hp⟩
  | lru config => exact hp.elim
  | fifo config => exact hp.elim
  | fixedReplacement config => exact hp.elim
  | directMapped config => exact hp.elim
  | lfu config => exact hp.elim

end Policy

/-! ## Runs with prunings -/

namespace CacheManagerEvictionAlgorithm

/-- Two queues over related managers, neither of which was given an entry. -/
structure Beside {P : CacheManager α} (Related : P.State → P.State → Prop)
    (s s' : CacheManagerEvictionQueue P) : Prop where
  related : Related s.cacheManager s'.cacheManager
  byFqn : s.byFqn = ∅
  byFqn' : s'.byFqn = ∅

section Calls

variable {P : CacheManager α} {Related Same : P.State → P.State → Prop}
  {InNoQueue : α → P.State → Prop} {toString : α → String} {s s' t : CacheManagerEvictionQueue P}
  {ne : NodeEntry α} {events : List (Event α)}

theorem Beside.processVisit (hP : Prunable P Related Same InNoQueue) (h : Beside Related s s')
    (fqn : α) : Agree (fun r r' => Beside Related r.1 r'.1) (perform toString s (.processVisit fqn))
      (perform toString s' (.processVisit fqn)) := by
  have hentry {s : CacheManagerEvictionQueue P} (hs : s.byFqn = ∅) :
      s.getNodeEntry toString fqn = none := by
    rw [CacheManagerEvictionQueue.getNodeEntry, hs]
    rfl
  have hagree := hP.visit (CacheManagerEvictionQueue.listeners_responds P) fqn (s.toEvict, [])
    (s'.toEvict, []) h.related
  simp only [perform, CacheManagerEvictionQueue.processVisit, hentry h.byFqn, hentry h.byFqn',
    Option.getD_none]
  generalize P.visit _ fqn (s.cacheManager, s.toEvict, []) = x at hagree
  generalize P.visit _ fqn (s'.cacheManager, s'.toEvict, []) = y at hagree
  cases hagree with
  | error e => exact .error e
  | ok hrelated => exact .ok ⟨hrelated, h.byFqn, h.byFqn'⟩

theorem Beside.evict (hP : Prunable P Related Same InNoQueue) (h : Beside Related s s')
    (hk : InNoQueue ne.fqn s.cacheManager) :
    ∃ t events, perform toString s (.evict ne) = .ok (t, events) ∧ Beside Related t s' := by
  obtain ⟨m, hok, hrelated⟩ := hP.remove h.related hk
  refine ⟨⟨m, s.toEvict.remove ne.fqn, s.byFqn.erase (.entry ne.fqn), s.numberOfElements⟩, [], ?_,
    hrelated, ?_, h.byFqn'⟩
  · simp only [perform, CacheManagerEvictionAlgorithm.evict,
      CacheManagerEvictionQueue.removeNodeEntry, hok, Java.ok_bind]
  · show Finmap.erase _ s.byFqn = ∅
    rw [h.byFqn]
    rfl

theorem Beside.inNoQueue (hP : Prunable P Related Same InNoQueue) (h : Beside Related s s')
    (hok : perform toString s (.evict ne) = .ok (t, events))
    (hsame : Same t.cacheManager s'.cacheManager) : InNoQueue ne.fqn s.cacheManager := by
  obtain ⟨s₁, hevict, hok⟩ := Java.bind_eq_ok.mp hok
  obtain ⟨m, hremove, hs₁⟩ := Java.bind_eq_ok.mp hevict
  cases hs₁
  cases hok
  exact hP.inNoQueue h.related hremove hsame

end Calls

def isVisit : AlgorithmCall α → Bool
  | .processVisit _ => true
  | .evict _ => false

/-- A pruned node is one which the queue offers. -/
def EvictsOffered {P : CacheManager α} (s : CacheManagerEvictionQueue P) : AlgorithmCall α → Prop
  | .processVisit _ => True
  | .evict ne => ne.fqn ∈ s.toEvict

instance {P : CacheManager α} (s : CacheManagerEvictionQueue P) :
    (call : AlgorithmCall α) → Decidable (EvictsOffered s call)
  | .processVisit _ => .isTrue trivial
  | .evict ne => inferInstanceAs (Decidable (ne.fqn ∈ s.toEvict))

/-- A pruned node is in no queue of the manager. -/
def EvictsForgotten (p : Policy α) (s : CacheManagerEvictionQueue p.manager) : AlgorithmCall α → Prop
  | .processVisit _ => True
  | .evict ne => p.InNoQueue ne.fqn s.cacheManager

open CacheManagerEvictionQueue (initial)

/-- A run with prunings has the queues of the run without them after every call exactly when no
pruned node is a ghost or resident of the manager. -/
theorem sameQueues_iff_forgotten (toString : α → String) (p : Policy α) (hp : p.HasGhosts)
    (calls : List (AlgorithmCall α)) :
    (∀ start, start <+: calls →
      Agree (fun r r' => p.SameQueuesAndTarget r.2.cacheManager r'.2.cacheManager)
        (replay (perform toString) (initial p.manager) start)
        (replay (perform toString) (initial p.manager) (start.filter isVisit))) ↔
    Admitted (perform toString) (EvictsForgotten p) (initial p.manager) calls := by
  obtain ⟨Related, hP⟩ := p.exists_prunable hp
  have hbeside : Beside Related (initial p.manager) (initial p.manager) := ⟨hP.initial, rfl, rfl⟩
  refine agree_filter_iff_admitted (fun s s' h => hP.same h.related) ?_ ?_ ?_ ?_ [] [] hbeside
  · intro s c hc
    cases c with
    | processVisit fqn => trivial
    | evict ne => cases hc
  · intro s s' c hc h
    cases c with
    | processVisit fqn => exact h.processVisit hP fqn
    | evict ne => cases hc
  · intro s s' c hc h hforgotten
    cases c with
    | processVisit fqn => cases hc
    | evict ne => exact h.evict hP hforgotten
  · intro s s' c t events hc h hok hsame
    cases c with
    | processVisit fqn => cases hc
    | evict ne => exact h.inNoQueue hP hok hsame

/-- The adaptive manager drops the head of a full `t1` without keeping it as a ghost. -/
theorem sameQueues_adaptiveTwoNodes :
    Admitted (perform Nat.repr)
      (EvictsForgotten (.adaptiveReplacement AdaptiveReplacementCacheManager.twoNodes)) (initial _)
      [.processVisit 1, .processVisit 2, .processVisit 3, .evict ⟨1, 0⟩] ∧
    ∀ start, start <+: [AlgorithmCall.processVisit 1, .processVisit 2, .processVisit 3,
      .evict ⟨1, 0⟩] →
      Agree (fun r r' => (Policy.adaptiveReplacement AdaptiveReplacementCacheManager.twoNodes
          ).SameQueuesAndTarget r.2.cacheManager r'.2.cacheManager)
        (replay (perform Nat.repr) (initial _) start)
        (replay (perform Nat.repr) (initial _) (start.filter isVisit)) := by
  have hforgotten : Admitted (perform Nat.repr)
      (EvictsForgotten (.adaptiveReplacement AdaptiveReplacementCacheManager.twoNodes)) (initial _)
      [.processVisit 1, .processVisit 2, .processVisit 3, .evict ⟨1, 0⟩] := by
    refine (admitted_cons_of_ok rfl).mpr ⟨trivial, (admitted_cons_of_ok rfl).mpr ⟨trivial,
      (admitted_cons_of_ok rfl).mpr ⟨trivial, (admitted_cons_of_ok rfl).mpr ⟨?_, trivial⟩⟩⟩⟩
    intro q
    rcases q with _ | _ | _ | _ <;> decide
  exact ⟨hforgotten, (sameQueues_iff_forgotten Nat.repr
    (.adaptiveReplacement AdaptiveReplacementCacheManager.twoNodes) trivial _).mpr hforgotten⟩

/-- The pruned node 2 was a ghost in `b1`: when it is visited again, the target stays at 0. -/
theorem not_sameQueues_ghost :
    ¬∀ calls : List (AlgorithmCall ℕ),
      Admitted (perform Nat.repr) EvictsOffered (initial (Policy.adaptiveReplacement
        AdaptiveReplacementCacheManager.twoNodes).manager) calls →
      Agree (fun r r' => (Policy.adaptiveReplacement
        AdaptiveReplacementCacheManager.twoNodes).SameQueuesAndTarget r.2.cacheManager r'.2.cacheManager)
        (replay (perform Nat.repr) (initial _) calls)
        (replay (perform Nat.repr) (initial _) (calls.filter isVisit)) := by
  intro h
  have hagree := h [.processVisit 1, .processVisit 1, .processVisit 2, .processVisit 3,
    .evict ⟨2, 0⟩, .processVisit 2] (by decide)
  obtain ⟨-, htarget⟩ := hagree.related rfl rfl
  exact absurd htarget (by decide)

end CacheManagerEvictionAlgorithm

end CachePolicies
