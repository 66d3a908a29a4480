import CachePolicies.AdaptiveReplacementInvariants
import CachePolicies.FixedReplacementVisits
import CachePolicies.MQInvariants
import CachePolicies.TwoQManagers

/-!
# The load and evict protocol of the managers with ghost queues

Their invariants are those of the modules imported here. Only the adaptive manager and
the MQ manager need a condition on their visits, which keeps their `int` sums in range.
-/

namespace CachePolicies

open MultipleQueueCacheManager

variable {α : Type} [DecidableEq α]

namespace AdaptiveReplacementCacheManager

open ReplacementCacheManager

theorem Sound.cacheSize_eq {config : AdaptiveReplacementConfiguration}
    {m : AdaptiveReplacementCacheManager α} (h : Sound config m) :
    cacheSize m = (resident m).card := by
  have ht1 := (m.queues ReplacementQueue.t1).length_nonneg
  have ht2 := (m.queues ReplacementQueue.t2).length_nonneg
  have hheld := h.held_le
  have hc := config.maxNodes.property
  rw [cacheSize, h.size_eq, h.size_eq, card_resident h.located.filed, int32_of_isInt]
  unfold IsInt at hc ⊢
  omega

theorem protocol (config : AdaptiveReplacementConfiguration) (hc : 1 ≤ config.maxNodes.val) :
    Protocol (manager config (α := α)) config.maxNodes.val (Sound config) (Fits config)
      (Settles subclass) where
  initial := sound_initial hc
  visit hr hs _ _ _ h hfits := h.visit hr hs hc hfits
  remove h _ := ⟨_, rfl, h.remove _, resident_remove h.located.filed subclass _⟩
  clear h := ⟨h.clear hc, rfl⟩
  size h := by
    refine ⟨h.cacheSize_eq, h.cacheSize_eq.trans_le ?_⟩
    rw [card_resident h.located.filed]
    exact h.held_le

end AdaptiveReplacementCacheManager

namespace TwoQCacheManager

theorem protocol (config : TwoQConfiguration) (hc : Admissible config) :
    Protocol (manager config (α := α)) config.maxNodes.val (Sound config) (fun _ _ => True)
      (Settles subclass) where
  initial := sound_empty hc
  visit hr hs _ _ l h _ := h.visit hr hs hc _ l
  remove h _ := ⟨_, rfl, h.remove _, resident_remove h.located.filed⟩
  clear _ := ⟨sound_empty hc, rfl⟩
  size h := ⟨h.cacheSize_eq.trans (card_resident h.located.filed).symm,
    h.cacheSize_eq.trans_le h.held_le⟩

end TwoQCacheManager

namespace MQCacheManager

theorem protocol (config : MQConfiguration) (hc : 1 ≤ config.maxNodes.val)
    (hn : 1 ≤ queuesSize config) :
    Protocol (manager config (α := α)) config.maxNodes.val (Sound config) (Fits config)
      (Settles subclass) where
  initial := sound_initial hc
  visit hr hs _ _ l h hfits := h.visit hr hs hc hn hfits l
  remove h _ := ⟨_, rfl, h.remove _, resident_remove h.tidy.filed⟩
  clear _ := by
    refine ⟨sound_initial hc, ?_⟩
    ext k
    simp [MQCacheManager.mem_resident, clear, initial]
  size h := ⟨h.cacheSize_eq, h.cacheSize_eq.trans_le h.held_le⟩

end MQCacheManager

end CachePolicies
