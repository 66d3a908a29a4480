import CachePolicies.AdaptiveReplacementRestarts
import CachePolicies.Policies

/-!
# Clearing a policy

A policy that is cleared should work like a new one. The adaptive manager keeps its target,
all others forget everything.
-/

namespace CachePolicies.Policy

variable {α : Type} [DecidableEq α]

/-- The policies hold the same keys in the same order, in each of their queues. -/
def SameQueues : (p : Policy α) → p.manager.State → p.manager.State → Prop
  | lru _ => fun queue queue' : LinkedHashSet α => queue = queue'
  | fifo _ => fun queue queue' : LinkedHashSet α => queue = queue'
  | fixedReplacement _ => fun m m' : FixedReplacementCacheManager α => m.queues = m'.queues
  | adaptiveReplacement _ => fun m m' : AdaptiveReplacementCacheManager α => m.queues = m'.queues
  | twoQ _ => fun m m' : TwoQCacheManager α => m.queues = m'.queues
  | mq _ => fun m m' : MQCacheManager α => m.queues = m'.queues
  | directMapped _ => fun m m' : DirectMappedCacheManager α => m.storage = m'.storage
  | lfu _ => fun m m' : LfuCacheManager α => m.priorityQueue = m'.priorityQueue

/-- After `clear`, every sequence of visits fires the same events, or throws, as it does on a
new manager, and leaves the same queues. -/
def Restarts (p : Policy α) (m : p.manager.State) : Prop :=
  ∀ keys : List α, Agree (fun r r' => outputs r.1 = outputs r'.1 ∧ p.SameQueues r.2 r'.2)
    (replay p.manager.perform (p.manager.clear m) (keys.map Call.visit))
    (replay p.manager.perform p.manager.initial (keys.map Call.visit))

/-- The target has its first value, or does not matter. -/
def Unadapted : (p : Policy α) → p.manager.State → Prop
  | adaptiveReplacement config => fun m : AdaptiveReplacementCacheManager α =>
    config.maxNodes.val = 1 ∨ m.own.targetT1Size = 0
  | lru _ | fifo _ | fixedReplacement _ | twoQ _ | mq _ | directMapped _ | lfu _ => fun _ => True

theorem sameQueues_refl (p : Policy α) (m : p.manager.State) : p.SameQueues m m := by
  cases p <;> exact Eq.refl _

theorem restarts_of_clear {p : Policy α} {m : p.manager.State}
    (h : p.manager.clear m = p.manager.initial) : p.Restarts m := by
  intro keys
  rw [h]
  exact Agree.refl (fun r => ⟨rfl, p.sameQueues_refl r.2⟩) _

/-- A policy works like a new one after `clear`, if it is not an adaptive one whose target has
moved and matters, and only then where there are enough keys to tell. -/
theorem restarts_of_reaches (p : Policy α) (hc : 1 ≤ p.maxNodes)
    {history : List (Record p.manager.State (Call α) (List (Event α)))} {m : p.manager.State}
    (hrun : p.manager.Reaches history m) :
    (p.Unadapted m → p.Restarts m) ∧ (Infinite α → p.Restarts m → p.Unadapted m) := by
  cases p with
  | adaptiveReplacement config => exact AdaptiveReplacementCacheManager.clear_agrees config hc hrun
  | lru config => exact ⟨fun _ => restarts_of_clear rfl, fun _ _ => trivial⟩
  | fifo config => exact ⟨fun _ => restarts_of_clear rfl, fun _ _ => trivial⟩
  | fixedReplacement config => exact ⟨fun _ => restarts_of_clear rfl, fun _ _ => trivial⟩
  | twoQ config => exact ⟨fun _ => restarts_of_clear rfl, fun _ _ => trivial⟩
  | mq config => exact ⟨fun _ => restarts_of_clear rfl, fun _ _ => trivial⟩
  | directMapped config => exact ⟨fun _ => restarts_of_clear rfl, fun _ _ => trivial⟩
  | lfu config => exact ⟨fun _ => restarts_of_clear rfl, fun _ _ => trivial⟩

def adaptiveTwoNodes : Policy ℕ := adaptiveReplacement AdaptiveReplacementCacheManager.twoNodes

/-- Without a hit on `b1` the target stays at zero. -/
theorem restarts_adaptiveTwoNodes : ∃ history m,
    adaptiveTwoNodes.manager.Reaches history m ∧ history.length = 4 ∧ adaptiveTwoNodes.Restarts m := by
  have hrun : adaptiveTwoNodes.manager.Reaches _ _ :=
    run_of_replay [.visit 1, .visit 1, .visit 2, .visit 3] rfl
  exact ⟨_, _, hrun, rfl, (restarts_of_reaches adaptiveTwoNodes (by decide) hrun).1 (.inr rfl)⟩

/-- A hit on the ghost 2 raises the target, and a cleared manager evicts 0 instead of 1. -/
theorem not_restarts_adaptiveTwoNodes :
    ¬∀ history m, adaptiveTwoNodes.manager.Reaches history m → adaptiveTwoNodes.Restarts m := by
  intro h
  have hagree := h _ _ (run_of_replay [.visit 1, .visit 1, .visit 2, .visit 3, .visit 2] rfl)
    [0, 0, 1, 2]
  exact absurd (hagree.related rfl rfl).1 (by decide)

end CachePolicies.Policy
