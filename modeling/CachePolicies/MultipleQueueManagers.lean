import CachePolicies.CacheManagers
import CachePolicies.HashMaps
import CachePolicies.LinkedHashSets
import Mathlib.Logic.Function.Basic

/-!
# The base class of the multiple-queue managers

`MultipleQueueCacheManager` keeps its keys in several queues and remembers in
`currentLocations` which queue holds each key. Queue objects are values of an
enumeration `Q`, and `own` holds the fields which a subclass adds.
-/

namespace CachePolicies

structure MultipleQueueCacheManager (Q α X : Type) where
  queues : Q → LinkedHashSet α
  currentLocations : HashMap α Q
  own : X

/-- What a subclass overrides: whether `afterInsert` calls `load(entry)` for a source
and a destination, and what `afterRemove` does to the fields of the subclass. -/
structure Subclass (Q α X : Type) where
  afterInsert : Option Q → Q → Bool
  afterRemove : α → X → X

namespace MultipleQueueCacheManager

variable {Q α X L : Type} [DecidableEq Q] [DecidableEq α]

def setQueue (q : Q) (s : LinkedHashSet α) (m : MultipleQueueCacheManager Q α X) :
    MultipleQueueCacheManager Q α X :=
  { m with queues := Function.update m.queues q s }

/-- `destination.add(entry); currentLocations.put(entry, destination)`. -/
def enqueue (entry : α) (destination : Q) (m : MultipleQueueCacheManager Q α X) :
    MultipleQueueCacheManager Q α X :=
  { m.setQueue destination ((m.queues destination).add entry) with
    currentLocations := m.currentLocations.insert entry destination }

/-- `currentLocations.remove(entry); afterRemove(entry)`. -/
def untrack (sub : Subclass Q α X) (entry : α) (m : MultipleQueueCacheManager Q α X) :
    MultipleQueueCacheManager Q α X :=
  { m with
    currentLocations := m.currentLocations.erase entry
    own := sub.afterRemove entry m.own }

/-- Take `entry` out of `source` and stop tracking it. -/
def forget (sub : Subclass Q α X) (entry : α) (source : Q) (m : MultipleQueueCacheManager Q α X) :
    MultipleQueueCacheManager Q α X :=
  untrack sub entry (m.setQueue source ((m.queues source).remove entry))

/-- Take `entry` out of `source` and append it to `destination`. -/
def relocate (entry : α) (source destination : Q) (m : MultipleQueueCacheManager Q α X) :
    MultipleQueueCacheManager Q α X :=
  (m.setQueue source ((m.queues source).remove entry)).enqueue entry destination

def remove (sub : Subclass Q α X) (hit : α) (m : MultipleQueueCacheManager Q α X) :
    MultipleQueueCacheManager Q α X :=
  match m.currentLocations.lookup hit with
  | none => m
  | some currentLocation => forget sub hit currentLocation m

/-- `visit`, given the two methods it dispatches to. -/
def visit (onHit : α → Q → MultipleQueueCacheManager Q α X × L →
      Java (MultipleQueueCacheManager Q α X × L))
    (onMiss : α → MultipleQueueCacheManager Q α X × L → Java (MultipleQueueCacheManager Q α X × L))
    (hit : α) (w : MultipleQueueCacheManager Q α X × L) :
    Java (MultipleQueueCacheManager Q α X × L) :=
  match w.1.currentLocations.lookup hit with
  | some currentLocation => onHit hit currentLocation w
  | none => onMiss hit w

section Methods

variable (sub : Subclass Q α X)
  (listeners : List (CacheManagerListener α (MultipleQueueCacheManager Q α X) L))

def afterInsert (entry : α) (source : Option Q) (destination : Q)
    (w : MultipleQueueCacheManager Q α X × L) : Java (MultipleQueueCacheManager Q α X × L) :=
  if sub.afterInsert source destination then load listeners entry w else .ok w

def insertNode (entry : α) (destination : Q) (w : MultipleQueueCacheManager Q α X × L) :
    Java (MultipleQueueCacheManager Q α X × L) :=
  afterInsert sub listeners entry none destination (w.1.enqueue entry destination, w.2)

def moveNode (entry : α) (currentLocation destination : Q) (w : MultipleQueueCacheManager Q α X × L) :
    Java (MultipleQueueCacheManager Q α X × L) :=
  afterInsert sub listeners entry (some currentLocation) destination
    (w.1.relocate entry currentLocation destination, w.2)

/-- While the listeners run, the head has left its queue but is still located there. -/
def evictNode (source : Q) (w : MultipleQueueCacheManager Q α X × L) :
    Java (MultipleQueueCacheManager Q α X × L) := do
  let (node, rest) ← (w.1.queues source).take
  let w ← evict listeners node (w.1.setQueue source rest, w.2)
  .ok (untrack sub node w.1, w.2)

def removeNode (source : Q) (m : MultipleQueueCacheManager Q α X) :
    Java (MultipleQueueCacheManager Q α X) := do
  let (node, rest) ← (m.queues source).take
  .ok (untrack sub node (m.setQueue source rest))

def moveHead (source destination : Q) (m : MultipleQueueCacheManager Q α X) :
    Java (α × MultipleQueueCacheManager Q α X) := do
  let (item, rest) ← (m.queues source).take
  .ok (item, (m.setQueue source rest).enqueue item destination)

end Methods

/-! ## The queues after each change -/

section Queues

variable {m : MultipleQueueCacheManager Q α X} {sub : Subclass Q α X} {k y : α} {q s d : Q}

@[simp] theorem mem_enqueue :
    y ∈ (m.enqueue k d).queues q ↔ y ∈ m.queues q ∨ q = d ∧ y = k := by
  by_cases h : q = d
  · subst h
    simp [enqueue, setQueue]
  · simp [enqueue, setQueue, h]

@[simp] theorem mem_forget :
    y ∈ (forget sub k s m).queues q ↔ y ∈ m.queues q ∧ (q = s → y ≠ k) := by
  by_cases h : q = s
  · subst h
    simp [forget, untrack, setQueue, and_comm]
  · simp [forget, untrack, setQueue, h]

@[simp] theorem mem_relocate :
    y ∈ (m.relocate k s d).queues q ↔ (y ∈ m.queues q ∧ (q = s → y ≠ k)) ∨ q = d ∧ y = k := by
  rw [relocate, mem_enqueue]
  by_cases h : q = s
  · subst h
    simp [setQueue, and_comm]
  · simp [setQueue, h]

@[simp] theorem lookup_enqueue :
    (m.enqueue k d).currentLocations.lookup y =
      if y = k then some d else m.currentLocations.lookup y := by
  simp [enqueue]

@[simp] theorem lookup_relocate :
    (m.relocate k s d).currentLocations.lookup y =
      if y = k then some d else m.currentLocations.lookup y := by
  simp [relocate, setQueue]

@[simp] theorem lookup_forget :
    (forget sub k s m).currentLocations.lookup y =
      if y = k then none else m.currentLocations.lookup y := by
  simp [forget, untrack, setQueue]

theorem lookup_enqueue_eq_none : (m.enqueue k d).currentLocations.lookup y = none ↔
    y ≠ k ∧ m.currentLocations.lookup y = none := by
  rw [lookup_enqueue]
  split <;> simp [*]

theorem lookup_relocate_eq_none : (m.relocate k s d).currentLocations.lookup y = none ↔
    y ≠ k ∧ m.currentLocations.lookup y = none := by
  rw [lookup_relocate]
  split <;> simp [*]

@[simp] theorem own_enqueue : (m.enqueue k d).own = m.own := rfl

@[simp] theorem own_relocate : (m.relocate k s d).own = m.own := rfl

@[simp] theorem own_forget : (forget sub k s m).own = sub.afterRemove k m.own := rfl

theorem queues_enqueue_of_ne (h : q ≠ d) : (m.enqueue k d).queues q = m.queues q := by
  simp [enqueue, setQueue, h]

theorem queues_enqueue_self : (m.enqueue k d).queues d = (m.queues d).add k := by
  simp [enqueue, setQueue]

theorem queues_forget_of_ne (h : q ≠ s) : (forget sub k s m).queues q = m.queues q := by
  simp [forget, untrack, setQueue, h]

theorem queues_forget_self : (forget sub k s m).queues s = (m.queues s).remove k := by
  simp [forget, untrack, setQueue]

theorem queues_relocate_of_ne (hs : q ≠ s) (hd : q ≠ d) :
    (m.relocate k s d).queues q = m.queues q := by
  simp [relocate, enqueue, setQueue, hs, hd]

theorem queues_relocate_source (h : s ≠ d) :
    (m.relocate k s d).queues s = (m.queues s).remove k := by
  simp [relocate, enqueue, setQueue, h]

theorem queues_relocate_destination (h : s ≠ d) :
    (m.relocate k s d).queues d = (m.queues d).add k := by
  simp [relocate, enqueue, setQueue, h.symm]

theorem queues_relocate_self : (m.relocate k s s).queues s = ((m.queues s).remove k).add k := by
  simp [relocate, enqueue, setQueue]

end Queues

/-! ## Keys and their locations -/

/-- Every queued key is located in its queue; in particular no two queues share a key. -/
def Filed (m : MultipleQueueCacheManager Q α X) : Prop :=
  ∀ ⦃k q⦄, k ∈ m.queues q → m.currentLocations.lookup k = some q

/-- The locations are exact: `currentLocations` maps the queued keys, each to its queue. -/
def Located (m : MultipleQueueCacheManager Q α X) : Prop :=
  ∀ k q, m.currentLocations.lookup k = some q ↔ k ∈ m.queues q

section Locations

variable {m : MultipleQueueCacheManager Q α X} {sub : Subclass Q α X} {k : α} {q s d : Q}

omit [DecidableEq Q] in
theorem Located.filed (h : m.Located) : m.Filed := fun k q => (h k q).mpr

omit [DecidableEq Q] in
theorem Filed.eq_of_mem (h : m.Filed) (hq : k ∈ m.queues q) (hs : k ∈ m.queues s) : q = s :=
  Option.some.inj ((h hq).symm.trans (h hs))

omit [DecidableEq Q] in
theorem Filed.notMem_of_lookup (h : m.Filed) (hk : m.currentLocations.lookup k = some s)
    (hq : q ≠ s) : k ∉ m.queues q :=
  fun hm => hq (Option.some.inj ((h hm).symm.trans hk))

omit [DecidableEq Q] in
/-- A located key lies in its queue only. -/
theorem Filed.only (h : m.Filed) (hk : m.currentLocations.lookup k = some s) :
    ∀ q, k ∈ m.queues q → q = s :=
  fun _ hq => Option.some.inj ((h hq).symm.trans hk)

omit [DecidableEq Q] in
theorem Located.only (h : m.Located) (hk : m.currentLocations.lookup k = some s) :
    ∀ q, k ∈ m.queues q → q = s :=
  h.filed.only hk

omit [DecidableEq Q] in
theorem Filed.notMem_of_none (h : m.Filed) (hk : m.currentLocations.lookup k = none) (q : Q) :
    k ∉ m.queues q :=
  fun hm => Option.some_ne_none q ((h hm).symm.trans hk)

omit [DecidableEq Q] in
theorem Filed.disjoint (h : m.Filed) (hq : q ≠ s) :
    Disjoint (m.queues q).toFinset (m.queues s).toFinset := by
  rw [Finset.disjoint_left]
  intro x hx hs
  exact hq (h.eq_of_mem (LinkedHashSet.mem_toFinset.mp hx) (LinkedHashSet.mem_toFinset.mp hs))

theorem Filed.enqueue (h : m.Filed) (hk : ∀ q, k ∈ m.queues q → q = d) :
    (m.enqueue k d).Filed := by
  intro y q hy
  rw [lookup_enqueue]
  rcases mem_enqueue.mp hy with hy | ⟨rfl, rfl⟩
  · split
    · next he => rw [hk q (he ▸ hy)]
    · exact h hy
  · rw [if_pos rfl]

theorem Filed.relocate (h : m.Filed) (hk : ∀ q, k ∈ m.queues q → q = s) :
    (m.relocate k s d).Filed := by
  intro y q hy
  rw [lookup_relocate]
  rcases mem_relocate.mp hy with ⟨hy, hne⟩ | ⟨rfl, rfl⟩
  · have hyk : y ≠ k := fun he => hne (hk q (he ▸ hy)) he
    rw [if_neg hyk, h hy]
  · rw [if_pos rfl]

theorem Filed.forget (h : m.Filed) (hk : ∀ q, k ∈ m.queues q → q = s) :
    (forget sub k s m).Filed := by
  intro y q hy
  obtain ⟨hy, hne⟩ := mem_forget.mp hy
  have hyk : y ≠ k := fun he => hne (hk q (he ▸ hy)) he
  rw [lookup_forget, if_neg hyk, h hy]

omit [DecidableEq Q] in
theorem located_empty {own : X} :
    Located (⟨fun _ : Q => ∅, ∅, own⟩ : MultipleQueueCacheManager Q α X) := by
  intro k q
  simp

theorem Located.enqueue (h : m.Located) (hk : m.currentLocations.lookup k = none) :
    (m.enqueue k d).Located := by
  intro y q
  rw [lookup_enqueue, mem_enqueue]
  by_cases hy : y = k
  · subst hy
    simp [h.filed.notMem_of_none hk, eq_comm]
  · simp [hy, h y q]

theorem Located.relocate (h : m.Located) (hk : ∀ q, k ∈ m.queues q → q = s) :
    (m.relocate k s d).Located := by
  intro y q
  rw [lookup_relocate, mem_relocate]
  by_cases hy : y = k
  · subst hy
    have hgone : ¬(y ∈ m.queues q ∧ (q = s → y ≠ y)) := fun hm => hm.2 (hk q hm.1) rfl
    rw [if_pos rfl, or_iff_right hgone]
    simp [eq_comm]
  · simp [hy, h y q]

theorem Located.forget (h : m.Located) (hk : ∀ q, k ∈ m.queues q → q = s) :
    (forget sub k s m).Located := by
  intro y q
  rw [lookup_forget, mem_forget]
  by_cases hy : y = k
  · subst hy
    have hgone : ¬(y ∈ m.queues q ∧ (q = s → y ≠ y)) := fun hm => hm.2 (hk q hm.1) rfl
    rw [if_pos rfl]
    exact iff_of_false (by simp) hgone
  · simp [hy, h y q]

theorem Located.remove (h : m.Located) (k : α) : (remove sub k m).Located := by
  unfold MultipleQueueCacheManager.remove
  split
  · exact h
  · next q hk => exact h.forget (h.only hk)

end Locations

/-! ## Queues as lists -/

section Lists

variable {m : MultipleQueueCacheManager Q α X} {sub : Subclass Q α X} {k x : α} {s d : Q} {xs : List α}

theorem toList_enqueue (hk : k ∉ m.queues d) :
    ((m.enqueue k d).queues d).toList = (m.queues d).toList ++ [k] := by
  rw [queues_enqueue_self, LinkedHashSet.toList_add hk]

theorem toList_forget : ((forget sub k s m).queues s).toList = (m.queues s).toList.erase k := by
  rw [queues_forget_self, LinkedHashSet.toList_remove]

theorem toList_relocate_source (h : s ≠ d) :
    ((m.relocate k s d).queues s).toList = (m.queues s).toList.erase k := by
  rw [queues_relocate_source h, LinkedHashSet.toList_remove]

theorem toList_relocate_destination (h : s ≠ d) (hk : k ∉ m.queues d) :
    ((m.relocate k s d).queues d).toList = (m.queues d).toList ++ [k] := by
  rw [queues_relocate_destination h, LinkedHashSet.toList_add hk]

/-- A move within one queue takes the key to its tail. -/
theorem toList_relocate_self :
    ((m.relocate k s s).queues s).toList = (m.queues s).toList.erase k ++ [k] := by
  rw [queues_relocate_self, LinkedHashSet.toList_add (by simp), LinkedHashSet.toList_remove]

theorem toList_forget_sublist (sub : Subclass Q α X) (k : α) (s : Q)
    (m : MultipleQueueCacheManager Q α X) (q : Q) :
    ((forget sub k s m).queues q).toList.Sublist (m.queues q).toList := by
  by_cases hq : q = s
  · rw [hq, toList_forget]
    exact List.erase_sublist
  · rw [queues_forget_of_ne hq]

/-- Only the destination of a move gets a new key. -/
theorem toList_relocate_sublist {q : Q} (hq : q ≠ d) :
    ((m.relocate k s d).queues q).toList.Sublist (m.queues q).toList := by
  by_cases hs : q = s
  · rw [hs, toList_relocate_source (hs ▸ hq)]
    exact List.erase_sublist
  · rw [queues_relocate_of_ne hs hq]

/-- Two queues read one after the other do not change when the head of the second moves to
the tail of the first. -/
theorem toList_relocate_head (hm : m.Filed) (hsd : s ≠ d) (hx : (m.queues s).toList = x :: xs) :
    ((m.relocate x s d).queues d).toList ++ ((m.relocate x s d).queues s).toList =
      (m.queues d).toList ++ (m.queues s).toList := by
  have hxd : x ∉ m.queues d :=
    hm.notMem_of_lookup (hm (LinkedHashSet.mem_of_toList_cons hx)) hsd.symm
  rw [toList_relocate_destination hsd hxd, toList_relocate_source hsd, hx, List.erase_cons_head,
    List.append_assoc, List.singleton_append]

end Lists

section Sizes

variable {m : MultipleQueueCacheManager Q α X} {sub : Subclass Q α X} {k : α} {q s d : Q}

theorem length_enqueue (hk : k ∉ m.queues d) :
    ((m.enqueue k d).queues q).length = (m.queues q).length + if q = d then 1 else 0 := by
  by_cases h : q = d
  · subst h
    rw [queues_enqueue_self, LinkedHashSet.length_add hk, if_pos rfl]
  · rw [queues_enqueue_of_ne h, if_neg h, add_zero]

theorem length_forget (sub : Subclass Q α X) (hk : k ∈ m.queues s) :
    ((forget sub k s m).queues q).length = (m.queues q).length - if q = s then 1 else 0 := by
  by_cases h : q = s
  · subst h
    rw [queues_forget_self, LinkedHashSet.length_remove hk, if_pos rfl]
  · rw [queues_forget_of_ne h, if_neg h, sub_zero]

theorem relocate_of_notMem (hk : k ∉ m.queues s) : m.relocate k s d = m.enqueue k d := by
  rw [relocate, LinkedHashSet.remove_of_notMem hk, setQueue, Function.update_eq_self]

theorem length_relocate (h : m.Filed) (hk : k ∈ m.queues s) :
    ((m.relocate k s d).queues q).length =
      (m.queues q).length + (if q = d then 1 else 0) - if q = s then 1 else 0 := by
  have hgone : k ∉ (m.setQueue s ((m.queues s).remove k)).queues d := by
    by_cases hd : d = s
    · subst hd
      simp [setQueue]
    · have hkd : k ∉ m.queues d := h.notMem_of_lookup (h hk) hd
      simpa [setQueue, hd] using hkd
  rw [relocate, length_enqueue hgone]
  by_cases hq : q = s
  · subst hq
    simp [setQueue, LinkedHashSet.length_remove hk]
    omega
  · simp [setQueue, hq]

end Sizes

/-! ## Under listeners that only record, or that remove what is evicted -/

section Listeners

variable {m : MultipleQueueCacheManager Q α X} {sub : Subclass Q α X} {k x : α} {q s d : Q}
  {xs : List α} {l : L}
  {listeners : List (CacheManagerListener α (MultipleQueueCacheManager Q α X) L)}
  {settle : α → MultipleQueueCacheManager Q α X → MultipleQueueCacheManager Q α X}
  {onEvict onLoad : α → L → L}

/-- An eviction leaves the manager alone, or removes the evicted key from it. -/
def Settles (sub : Subclass Q α X)
    (settle : α → MultipleQueueCacheManager Q α X → MultipleQueueCacheManager Q α X) : Prop :=
  settle = (fun _ m => m) ∨ settle = remove sub

theorem remove_of_lookup (hk : m.currentLocations.lookup k = some q) :
    remove sub k m = forget sub k q m := by
  rw [remove, hk]

/-- A key that is moved to an empty queue and removed at once has only left its first queue. -/
theorem queues_remove_relocate (hd : m.queues d = ∅) (hsd : s ≠ d) (hq : q ≠ s) :
    (remove sub x (m.relocate x s d)).queues q = m.queues q := by
  have hmoved : (m.relocate x s d).currentLocations.lookup x = some d := by simp
  rw [remove_of_lookup hmoved]
  by_cases hqd : q = d
  · subst hqd
    rw [queues_forget_self, queues_relocate_destination hsd, hd]
    refine LinkedHashSet.ext ?_
    rw [LinkedHashSet.toList_remove, LinkedHashSet.toList_add (LinkedHashSet.notMem_empty x)]
    simp
  · rw [queues_forget_of_ne hqd, queues_relocate_of_ne hq hqd]

theorem Settles.eq_or (h : Settles sub settle) (hx : m.currentLocations.lookup x = some q) :
    settle x m = m ∨ settle x m = forget sub x q m := by
  rcases h with rfl | rfl
  · exact .inl rfl
  · exact .inr (remove_of_lookup hx)

theorem Settles.located (h : Settles sub settle) (hm : m.Located) (x : α) : (settle x m).Located := by
  rcases h with rfl | rfl
  · exact hm
  · exact hm.remove x

theorem Settles.lookup_of_ne (h : Settles sub settle) (hx : m.currentLocations.lookup x = some q)
    (hk : k ≠ x) : (settle x m).currentLocations.lookup k = m.currentLocations.lookup k := by
  rcases h.eq_or hx with he | he
  · rw [he]
  · rw [he, lookup_forget, if_neg hk]

theorem Settles.queues_of_ne (h : Settles sub settle) (hx : m.currentLocations.lookup x = some q)
    (hs : s ≠ q) : (settle x m).queues s = m.queues s := by
  rcases h.eq_or hx with he | he
  · rw [he]
  · rw [he, queues_forget_of_ne hs]

theorem length_remove_le (sub : Subclass Q α X) (k : α) (m : MultipleQueueCacheManager Q α X) (q : Q) :
    ((remove sub k m).queues q).length ≤ (m.queues q).length := by
  rw [remove]
  split
  · exact le_refl _
  · next s _ =>
    by_cases hq : q = s
    · subst hq
      rw [queues_forget_self]
      exact LinkedHashSet.length_remove_le _ _
    · rw [queues_forget_of_ne hq]

theorem Settles.length_le (h : Settles sub settle) (x : α) (q : Q) :
    ((settle x m).queues q).length ≤ (m.queues q).length := by
  rcases h with rfl | rfl
  · exact le_refl _
  · exact length_remove_le sub x m q

theorem moveNode_ok (h : Responds listeners settle onEvict onLoad) :
    moveNode sub listeners k s d (m, l) =
      .ok (m.relocate k s d, if sub.afterInsert (some s) d then onLoad k l else l) := by
  rw [moveNode, afterInsert]
  split
  · exact h.load _ _ _
  · rfl

theorem insertNode_ok (h : Responds listeners settle onEvict onLoad) :
    insertNode sub listeners k d (m, l) =
      .ok (m.enqueue k d, if sub.afterInsert none d then onLoad k l else l) := by
  rw [insertNode, afterInsert]
  split
  · exact h.load _ _ _
  · rfl

theorem moveHead_cons (h : (m.queues s).toList = x :: xs) :
    moveHead s d m = .ok (x, m.relocate x s d) := by
  rw [moveHead, LinkedHashSet.take_cons h]
  rfl

theorem removeNode_cons (h : (m.queues s).toList = x :: xs) :
    removeNode sub s m = .ok (forget sub x s m) := by
  rw [removeNode, LinkedHashSet.take_cons h]
  rfl

theorem removeNode_empty (h : m.queues s = ∅) : removeNode sub s m = .error .noSuchElement := by
  rw [removeNode, h, LinkedHashSet.take_empty]
  rfl

theorem evictNode_empty (h : m.queues s = ∅) :
    evictNode sub listeners s (m, l) = .error .noSuchElement := by
  simp only [evictNode, h, LinkedHashSet.take_empty, Java.error_bind]

/-- Removing the evicted key from within `evictNode` anticipates what `evictNode` does
next, so both kinds of listener leave the same state. -/
theorem evictNode_cons (h : Responds listeners settle onEvict onLoad) (hs : Settles sub settle)
    (hidem : ∀ x f, sub.afterRemove x (sub.afterRemove x f) = sub.afterRemove x f)
    (hf : m.Filed) (hx : (m.queues s).toList = x :: xs) :
    evictNode sub listeners s (m, l) = .ok (forget sub x s m, onEvict x l) := by
  have hmem : x ∈ m.queues s := LinkedHashSet.mem_of_toList_cons hx
  have hloc : (m.setQueue s ((m.queues s).remove x)).currentLocations.lookup x = some s := hf hmem
  have hagain : untrack sub x (settle x (m.setQueue s ((m.queues s).remove x))) =
      forget sub x s m := by
    rcases hs.eq_or hloc with he | he
    · rw [he, forget]
    · have htwice : ((m.queues s).remove x).remove x = (m.queues s).remove x :=
        LinkedHashSet.remove_of_notMem (by simp)
      rw [he]
      simp [forget, untrack, setQueue, htwice, hidem, HashMap.erase_idem]
  rw [evictNode, LinkedHashSet.take_cons hx]
  simp only [Java.ok_bind, h.evict, hagain]

end Listeners

end MultipleQueueCacheManager

end CachePolicies
