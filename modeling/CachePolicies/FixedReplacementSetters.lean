import CachePolicies.FixedReplacementVisits
import CachePolicies.PartialRuns

/-!
# The fixed manager under a configuration made by setters

The setters check less than the constructor of the configuration: `setT1Size` only raises
a negative size to zero. Whether a full cache finds a victim then depends on how its keys
are split between `t1` and `t2`.
-/

namespace CachePolicies

namespace FixedReplacementConfiguration

/-- The constructor without arguments. -/
def noArguments : FixedReplacementConfiguration := ⟨0, 0⟩

def setMaxNodes (maxNodes : JavaInt) (c : FixedReplacementConfiguration) :
    FixedReplacementConfiguration :=
  { c with maxNodes := maxNodes }

def setT1Size (fixedT1Size : JavaInt) (c : FixedReplacementConfiguration) :
    FixedReplacementConfiguration :=
  { c with t1Size := if fixedT1Size.val < 0 then 0 else fixedT1Size }

/-- The configuration that `parseXMLConfig` leaves for the values of the two attributes. -/
def parseXMLConfig (maxNodes fixedT1Size : JavaInt) : FixedReplacementConfiguration :=
  (noArguments.setMaxNodes maxNodes).setT1Size fixedT1Size

theorem t1Size_parseXMLConfig (maxNodes fixedT1Size : JavaInt) :
    (parseXMLConfig maxNodes fixedT1Size).t1Size.val = max fixedT1Size.val 0 := by
  have hzero : (0 : JavaInt).val = 0 := rfl
  rw [parseXMLConfig, setT1Size]
  split
  · next hneg => exact hzero.trans (max_eq_right hneg.le).symm
  · next hnonneg => exact (max_eq_left (not_lt.mp hnonneg)).symm

end FixedReplacementConfiguration

namespace FixedReplacementCacheManager

open MultipleQueueCacheManager ReplacementCacheManager ReplacementQueue
open FixedReplacementConfiguration (parseXMLConfig t1Size_parseXMLConfig)

variable {α : Type} [DecidableEq α]

def visiting (config : FixedReplacementConfiguration) (m : FixedReplacementCacheManager α) (k : α) :
    Java (FixedReplacementCacheManager α × List (Event α)) :=
  (manager config).perform m (.visit k)

/-- The visited key is resident after its visit, and the cache within its bound. -/
def Served (maxNodes : JavaInt)
    (r : Record (FixedReplacementCacheManager α) α (List (Event α))) : Prop :=
  r.call ∈ resident r.after ∧ cacheSize r.after ≤ maxNodes.val

/-- The full cache has a victim for a key which is not resident: unless the size that was set is
not positive and `t1` empty, or the size is above `maxNodes` and `t2` empty. -/
def FindsVictim (maxNodes fixedT1Size : JavaInt) (m : FixedReplacementCacheManager α) (k : α) :
    Prop :=
  ¬(k ∉ resident m ∧ (m.queues t1).length + (m.queues t2).length = maxNodes.val ∧
    (fixedT1Size.val ≤ 0 ∧ (m.queues t1).length = 0 ∨
      maxNodes.val < fixedT1Size.val ∧ (m.queues t2).length = 0))

instance (maxNodes fixedT1Size : JavaInt) (m : FixedReplacementCacheManager α) (k : α) :
    Decidable (FindsVictim maxNodes fixedT1Size m k) :=
  inferInstanceAs (Decidable (¬(_ ∧ _ ∧ (_ ∧ _ ∨ _ ∧ _))))

variable {maxNodes fixedT1Size : JavaInt} {k : α} {m m' : FixedReplacementCacheManager α}
  {events : List (Event α)}

omit [DecidableEq α] in
/-- The queue which a full cache evicts from is empty in two cases only. -/
theorem size_victimQueue_eq_zero (hc : 1 ≤ maxNodes.val)
    (hfull : (m.queues t1).length + (m.queues t2).length = maxNodes.val) :
    (m.queues (victimQueue (parseXMLConfig maxNodes fixedT1Size) m)).length = 0 ↔
      fixedT1Size.val ≤ 0 ∧ (m.queues t1).length = 0 ∨
        maxNodes.val < fixedT1Size.val ∧ (m.queues t2).length = 0 := by
  have hsize := t1Size_parseXMLConfig maxNodes fixedT1Size
  have ht2 := (m.queues t2).length_nonneg
  have hbound := maxNodes.property.2
  have ht1 : (m.queues t1).size = (m.queues t1).length :=
    LinkedHashSet.size_of_le (by omega)
  rw [victimQueue]
  split
  · constructor
    · intro hempty
      omega
    · omega
  · constructor
    · intro hempty
      omega
    · omega

theorem Served.of_visited {config : FixedReplacementConfiguration}
    (h : Sound config m) (hv : Visited config k m m' events) :
    Sound config m' ∧ Served config.maxNodes ⟨m, k, events, m'⟩ := by
  obtain ⟨hsound, heffect⟩ := hv.effect h
  have hreported := hv.reported h
  refine ⟨hsound, ?_, hreported.size_le⟩
  rw [show resident m' = _ from hreported.resident, Finset.mem_sdiff]
  refine ⟨Finset.mem_insert_self _ _, ?_⟩
  rw [List.mem_toFinset]
  exact fun hin => (hreported.evicts_resident k hin).2 rfl

theorem Sound.visiting (hc : 1 ≤ maxNodes.val) (h : Sound (parseXMLConfig maxNodes fixedT1Size) m)
    (hvictim : FindsVictim maxNodes fixedT1Size m k) :
    ∃ m' events, FixedReplacementCacheManager.visiting (parseXMLConfig maxNodes fixedT1Size) m k =
        .ok (m', events) ∧ Sound (parseXMLConfig maxNodes fixedT1Size) m' ∧
      Served maxNodes ⟨m, k, events, m'⟩ := by
  rcases visit_cases (parseXMLConfig maxNodes fixedT1Size) h.located k with
    ⟨m', events, hok, hv⟩ | ⟨hk, hfull, hempty, -⟩
  · obtain ⟨hsound, hserved⟩ := Served.of_visited h hv
    exact ⟨m', events, hok, hsound, hserved⟩
  · have hheld : (m.queues t1).length + (m.queues t2).length = maxNodes.val := by
      have hle := h.held_le
      rw [h.cacheSize_eq] at hfull
      exact le_antisymm hle hfull
    refine absurd ⟨notMem_resident_of_none h.located.filed hk, hheld, ?_⟩ hvictim
    rw [← size_victimQueue_eq_zero hc hheld, hempty, LinkedHashSet.length_empty]

/-- A visit that returns has found a victim, where it needed one. -/
theorem Sound.findsVictim (hc : 1 ≤ maxNodes.val)
    (h : Sound (parseXMLConfig maxNodes fixedT1Size) m)
    (hok : FixedReplacementCacheManager.visiting (parseXMLConfig maxNodes fixedT1Size) m k =
      .ok (m', events)) : FindsVictim maxNodes fixedT1Size m k := by
  rintro ⟨hk, hheld, hsplit⟩
  have hzero := (size_victimQueue_eq_zero hc hheld).mpr hsplit
  rcases visit_cases (parseXMLConfig maxNodes fixedT1Size) h.located k with
    ⟨m₁, events₁, hok₁, hv⟩ | ⟨-, -, -, herror⟩
  · cases hv with
    | hit hlookup => exact hk (h.promote hlookup).1
    | room hlookup hroom =>
      rw [h.cacheSize_eq, hheld] at hroom
      exact lt_irrefl _ hroom
    | replaced hlookup hfull hx =>
      have hpos := LinkedHashSet.length_pos_of_mem (LinkedHashSet.mem_of_toList_cons hx)
      omega
  · cases herror.symm.trans hok

/-- Under a configuration made by setters every visit of a sequence is served exactly when each
one finds a victim, where it needs one. -/
theorem served_iff_findsVictim (maxNodes fixedT1Size : JavaInt) (hc : 1 ≤ maxNodes.val)
    (keys : List α) :
    Succeeds (visiting (parseXMLConfig maxNodes fixedT1Size)) (Served maxNodes) initial keys ↔
      Admitted (visiting (parseXMLConfig maxNodes fixedT1Size))
        (FindsVictim maxNodes fixedT1Size) initial keys := by
  have hinitial : Sound (parseXMLConfig maxNodes fixedT1Size) (initial (α := α)) :=
    sound_initial ((by decide : (0 : ℤ) ≤ 1).trans hc)
  exact succeeds_iff_admitted (fun m k h hvictim => h.visiting hc hvictim)
    (fun m k m' events h hok _ => h.findsVictim hc hok) hinitial

/-- A negative size counts as zero, and does no harm as long as `t1` holds a key. -/
theorem served_twoNodes :
    Succeeds (visiting (parseXMLConfig 2 ⟨-5, by decide⟩)) (Served 2) initial [1, 1, 2, 3, 1, 4] :=
  (served_iff_findsVictim 2 ⟨-5, by decide⟩ (by decide) _).mpr (by decide)

/-- A size of zero sends a full cache to an empty `t1`, once its keys have been visited twice. -/
theorem not_served_oneNode :
    ¬∀ keys : List ℕ, Succeeds (visiting (parseXMLConfig 1 0)) (Served 1) initial keys := by
  intro h
  obtain ⟨m₁, _, h₁, -, m₂, _, h₂, -, m₃, _, h₃, -⟩ := h [1, 1, 2]
  cases h₁
  cases h₂
  cases h₃

end FixedReplacementCacheManager

end CachePolicies
