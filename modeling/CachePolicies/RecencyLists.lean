import Mathlib.Data.List.Basic
import Mathlib.Order.Basic

/-!
# Lists ordered by a stamp

A queue is in order of recency when a stamp, such as the time of the last visit,
strictly increases from its head to its tail. Taking elements out keeps the order,
and so does appending the element with the newest stamp.
-/

namespace CachePolicies

variable {α T : Type*} [Preorder T]

def Increasing (stamp : α → T) (l : List α) : Prop := l.Pairwise (fun x y => stamp x < stamp y)

namespace Increasing

variable {stamp stamp' : α → T} {l l' : List α} {k x : α}

@[simp] theorem nil : Increasing stamp ([] : List α) := List.Pairwise.nil

theorem sublist (h : Increasing stamp l) (hsub : l'.Sublist l) : Increasing stamp l' :=
  List.Pairwise.sublist hsub h

theorem congr (h : Increasing stamp l) (heq : ∀ x ∈ l, stamp' x = stamp x) :
    Increasing stamp' l := by
  refine List.Pairwise.imp_of_mem ?_ h
  intro x y hx hy hlt
  rwa [heq x hx, heq y hy]

theorem snoc (h : Increasing stamp l) (hk : ∀ x ∈ l, stamp x < stamp k) :
    Increasing stamp (l ++ [k]) := by
  refine List.pairwise_append.mpr ⟨h, List.pairwise_singleton _ _, ?_⟩
  intro x hx y hy
  rw [List.mem_singleton.mp hy]
  exact hk x hx

/-- Restamping an element which is appended last. -/
theorem touch (h : Increasing stamp l) (heq : ∀ x ∈ l, stamp' x = stamp x)
    (hk : ∀ x ∈ l, stamp x < stamp' k) : Increasing stamp' (l ++ [k]) := by
  apply (h.congr heq).snoc
  intro x hx
  rw [heq x hx]
  exact hk x hx

theorem head_le (h : Increasing stamp (x :: l)) : ∀ y ∈ x :: l, stamp x ≤ stamp y := by
  intro y hy
  rcases List.mem_cons.mp hy with rfl | hy
  · exact le_refl _
  · exact ((List.pairwise_cons.mp h).1 y hy).le

end Increasing

end CachePolicies
