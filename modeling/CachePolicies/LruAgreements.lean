import CachePolicies.LruSets
import CachePolicies.SimpleManagers

/-!
# The LRU implementations of the repository

The LRU manager keeps an insertion-ordered set which it trims after the insertion, the sets
of the LRU cache an access-ordered map that is searched by key, and the sets of its first
version one that is searched by value and maps every address to itself. Fed the same
addresses, all three hold what is kept of the recency stack.
-/

namespace CachePolicies

/-! ## The manager -/

namespace LruCacheManager

/-- A visit keeps the queue at what is kept of the visited addresses, the latest last, and
loads the address unless it was there. -/
theorem visit_kept {config : LruConfiguration} (hn : 0 ≤ config.maxNodes.val)
    {addresses : List ℤ} {queue : LinkedHashSet ℤ}
    (hqueue : queue.toList = (LruSet.kept config.maxNodes addresses).reverse) (address : ℤ) :
    ∃ queue' events, visit config [recorder] address (queue, []) = .ok (queue', events) ∧
      queue'.toList = (LruSet.kept config.maxNodes (address :: addresses)).reverse ∧
      loads events = if address ∈ LruSet.kept config.maxNodes addresses then [] else [address] := by
  have hmem : address ∈ queue ↔ address ∈ LruSet.kept config.maxNodes addresses := by
    rw [LinkedHashSet.mem_def, hqueue, List.mem_reverse]
  by_cases hk : address ∈ LruSet.kept config.maxNodes addresses
  · refine ⟨(queue.remove address).add address, [], ?_, ?_, (if_pos hk).symm⟩
    · rw [visit, if_pos (hmem.mpr hk)]
    · rw [LinkedHashSet.toList_add (by simp), LinkedHashSet.toList_remove, hqueue,
        LruSet.kept_cons_of_mem hk, List.reverse_cons, (LruSet.nodup_kept _).erase_eq_filter,
        ← List.filter_reverse]
      rw [List.Nodup.erase_eq_filter (List.nodup_reverse.mpr (LruSet.nodup_kept _))]
  · have hnew : address ∉ queue := fun h => hk (hmem.mp h)
    have hlist : (queue.add address).toList =
        (LruSet.kept config.maxNodes addresses).reverse ++ [address] := by
      rw [LinkedHashSet.toList_add hnew, hqueue]
    have hsize : (queue.add address).size =
        min (((LruSet.kept config.maxNodes addresses).length + 1 : ℕ) : ℤ) 2147483647 := by
      rw [LinkedHashSet.size, LinkedHashSet.length, hlist, List.length_append,
        List.length_reverse, List.length_singleton]
    have hkept := LruSet.kept_cons_of_notMem hn hk
    rw [visit, if_neg hnew, LinkedHashSet.remove_of_notMem hnew, loadAndTrim]
    simp only [recorder_responds.load, Java.ok_bind, hsize]
    by_cases hfull : config.maxNodes.val <
        min (((LruSet.kept config.maxNodes addresses).length + 1 : ℕ) : ℤ) 2147483647
    · obtain ⟨x, xs, hx⟩ : ∃ x xs, (queue.add address).toList = x :: xs :=
        List.exists_cons_of_ne_nil (by simp [hlist])
      refine ⟨(queue.add address).remove x, recordEviction x (recordLoad address []), ?_, ?_, ?_⟩
      · rw [if_pos hfull, LinkedHashSet.take_cons hx]
        simp only [Java.ok_bind, recorder_responds.evict]
      · rw [hkept, if_pos hfull, LinkedHashSet.toList_remove, hx, List.erase_cons_head,
          ← List.tail_reverse, List.reverse_cons, ← hlist, hx, List.tail_cons]
      · rw [if_neg hk, loads_recordEviction, loads_recordLoad, loads_nil, List.nil_append]
    · refine ⟨queue.add address, recordLoad address [], if_neg hfull, ?_, ?_⟩
      · rw [hkept, if_neg hfull, List.reverse_cons, hlist]
      · rw [if_neg hk, loads_recordLoad, loads_nil, List.nil_append]

end LruCacheManager

/-! ## The sets of the first version -/

/-- The class `Set` of the first version, whose addresses are of type `int`. -/
structure LruAddressSet where
  setLength : JavaInt
  blocks : LRU ℤ ℤ

namespace LruAddressSet

/-- The constructor `Set(int setLength)`. -/
def new (setLength : JavaInt) : Java LruAddressSet := do
  let blocks ← LRU.newInstance setLength
  .ok ⟨setLength, blocks.setMaxSize setLength⟩

def insertWithLRU (address : ℤ) (s : LruAddressSet) : LruAddressSet :=
  { s with blocks := s.blocks.put address address }

def updateQueue (mostRecent : ℤ) (s : LruAddressSet) : LruAddressSet :=
  insertWithLRU mostRecent { s with blocks := s.blocks.remove mostRecent }

def checkQueue (blockAddress : ℤ) (s : LruAddressSet) : Bool × LruAddressSet :=
  if s.blocks.containsValue blockAddress then (true, updateQueue blockAddress s)
  else (false, insertWithLRU blockAddress s)

/-- The set holds what is to be kept of the checked addresses, each mapped to itself. -/
def Holds (setLength : JavaInt) (addresses : List ℤ) (s : LruAddressSet) : Prop :=
  LruSet.Keeps setLength addresses id s.blocks

variable {setLength : JavaInt} {addresses : List ℤ} {s : LruAddressSet}

theorem Holds.containsValue_iff (h : Holds setLength addresses s) (address : ℤ) :
    s.blocks.containsValue address = true ↔ address ∈ LruSet.kept setLength addresses := by
  have hvalue := h.stores.containsValue_iff (v := address)
  simpa using hvalue

theorem Holds.checkQueue (hn : 0 ≤ setLength.val) (h : Holds setLength addresses s)
    (address : ℤ) :
    ((LruAddressSet.checkQueue address s).1 = true ↔
        address ∈ LruSet.kept setLength addresses) ∧
      Holds setLength (address :: addresses) (LruAddressSet.checkQueue address s).2 := by
  have hself : Function.update (id : ℤ → ℤ) address address = id := Function.update_eq_self _ _
  rw [LruAddressSet.checkQueue]
  by_cases hmem : address ∈ LruSet.kept setLength addresses
  · have hkeeps := LruSet.Keeps.remove_put hn h hmem address
    rw [hself] at hkeeps
    rw [if_pos ((h.containsValue_iff address).mpr hmem)]
    exact ⟨iff_of_true rfl hmem, hkeeps⟩
  · have hkeeps := LruSet.Keeps.put hn h hmem address
    rw [hself] at hkeeps
    rw [if_neg fun hvalue => hmem ((h.containsValue_iff address).mp hvalue)]
    exact ⟨iff_of_false (by simp) hmem, hkeeps⟩

theorem new_ok (hn : 0 ≤ setLength.val) : ∃ s, new setLength = .ok s ∧ Holds setLength [] s := by
  refine ⟨⟨setLength, ⟨.empty, setLength⟩⟩, ?_, LruSet.Keeps.empty⟩
  rw [new, LRU.newInstance, if_neg (by omega)]
  rfl

end LruAddressSet

/-! ## The three side by side -/

structure LruImplementations where
  manager : LinkedHashSet ℤ
  keySet : LruSet
  valueSet : LruAddressSet

/-- What the three answer to one address: the events of the manager, and whether each of the
sets had a hit. -/
structure LruAnswers where
  events : List (Event ℤ)
  keyHit : Bool
  valueHit : Bool

namespace LruImplementations

def new (n : JavaInt) : Java LruImplementations := do
  let keySet ← LruSet.new n
  let valueSet ← LruAddressSet.new n
  .ok ⟨∅, keySet, valueSet⟩

/-- One address, with the data which only one of the three stores. -/
def check (n : JavaInt) (s : LruImplementations) (c : ℤ × JavaString) :
    Java (LruImplementations × LruAnswers) := do
  let visited ← LruCacheManager.visit ⟨n⟩ [recorder] c.1 (s.manager, [])
  let keyed := LruSet.checkQueue c.1 c.2 s.keySet
  let valued := LruAddressSet.checkQueue c.1 s.valueSet
  .ok (⟨visited.1, keyed.2, valued.2⟩, ⟨visited.2, keyed.1, valued.1⟩)

/-- The three hold the same addresses in the same order. -/
def SameAddresses (s : LruImplementations) : Prop :=
  s.manager.toList = s.keySet.blocks.keys ∧ s.manager.toList = s.valueSet.blocks.keys

/-- After a step the three hold the same addresses, and the manager has loaded the address,
and only it, exactly if both sets had a miss. -/
def Agrees (r : Record LruImplementations (ℤ × JavaString) LruAnswers) : Prop :=
  r.after.SameAddresses ∧
    loads r.output.events =
      if r.output.keyHit = false ∧ r.output.valueHit = false then [r.call.1] else []

/-- All three hold what is kept of the addresses so far. -/
def Hold (n : JavaInt) (s : LruImplementations) : Prop :=
  ∃ checks, s.manager.toList = (LruSet.kept n (LruSet.checked checks)).reverse ∧
    LruSet.Holds n checks s.keySet ∧ LruAddressSet.Holds n (LruSet.checked checks) s.valueSet

variable {n : JavaInt} {s : LruImplementations}

theorem Hold.sameAddresses (h : Hold n s) : s.SameAddresses := by
  obtain ⟨checks, hmanager, hkey, hvalue⟩ := h
  constructor
  · rw [hmanager, hkey.stores.keys_eq]
  · rw [hmanager, hvalue.stores.keys_eq]

theorem Hold.check (hn : 0 ≤ n.val) (h : Hold n s) (c : ℤ × JavaString) :
    ∃ s' o, LruImplementations.check n s c = .ok (s', o) ∧ Hold n s' ∧ Agrees ⟨s, c, o, s'⟩ := by
  obtain ⟨checks, hmanager, hkey, hvalue⟩ := h
  obtain ⟨queue, events, hok, hqueue, hloads⟩ :=
    LruCacheManager.visit_kept hn hmanager c.1
  obtain ⟨hkeyHit, hkey'⟩ := hkey.checkQueue hn c.1 c.2
  obtain ⟨hvalueHit, hvalue'⟩ := hvalue.checkQueue hn c.1
  have hold : Hold n ⟨queue, (LruSet.checkQueue c.1 c.2 s.keySet).2,
      (LruAddressSet.checkQueue c.1 s.valueSet).2⟩ := ⟨c :: checks, hqueue, hkey', hvalue'⟩
  refine ⟨_, ⟨events, (LruSet.checkQueue c.1 c.2 s.keySet).1,
    (LruAddressSet.checkQueue c.1 s.valueSet).1⟩, ?_, hold, hold.sameAddresses, ?_⟩
  · rw [LruImplementations.check, hok]
    rfl
  · have hiff : ((LruSet.checkQueue c.1 c.2 s.keySet).1 = false ∧
        (LruAddressSet.checkQueue c.1 s.valueSet).1 = false) ↔
        c.1 ∉ LruSet.kept n (LruSet.checked checks) := by
      rw [← Bool.not_eq_true, ← Bool.not_eq_true, hkeyHit, hvalueHit, and_self]
    simp only [hloads, hiff, ite_not]

theorem new_ok (hn : 0 ≤ n.val) : ∃ s, new n = .ok s ∧ Hold n s := by
  obtain ⟨keySet, hkeyNew, hkey⟩ := LruSet.new_ok hn
  obtain ⟨valueSet, hvalueNew, hvalue⟩ := LruAddressSet.new_ok hn
  refine ⟨⟨∅, keySet, valueSet⟩, ?_, [], ?_, hkey, hvalue⟩
  · rw [new, hkeyNew, hvalueNew]
    rfl
  · rw [LruSet.checked, List.map_nil, LruSet.kept_nil]
    rfl

/-- The three implementations agree on every sequence of addresses, whatever their bound. -/
theorem agree (n : JavaInt) (hn : 0 ≤ n.val) (checks : List (ℤ × JavaString)) :
    ∃ s, new n = .ok s ∧ s.SameAddresses ∧ Succeeds (check n) Agrees s checks := by
  obtain ⟨s, hnew, hold⟩ := new_ok hn
  exact ⟨s, hnew, hold.sameAddresses,
    Succeeds.of_invariant (fun _ c h => h.check hn c) hold checks⟩

theorem agree_pair :
    ∃ s, new 1 = .ok s ∧ s.SameAddresses ∧
      Succeeds (check 1) Agrees s [(5, ['a']), (6, []), (6, ['b']), (5, [])] :=
  agree 1 (by decide) _

end LruImplementations

end CachePolicies
