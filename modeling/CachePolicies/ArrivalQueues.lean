import Mathlib.Data.Finset.Dedup
import Mathlib.Data.Finset.Card
import Mathlib.Tactic.Ring

/-!
# Queues that evict in the order of arrival

A queue of at most `n` elements takes a new element in at its tail, in the place of its head
once it is full, and is left alone by a request for an element it holds. Such a queue may
lose by growing: there are requests, as many as one likes, that a queue of `n + 1` places
misses more often than one of `n` places.
-/

namespace CachePolicies

variable {α : Type*}

/-- The requests of a list take a queue to another one, with so many misses. -/
inductive Passes (n : ℕ) : List α → List α → ℕ → List α → Prop
  | done (queue : List α) : Passes n queue [] 0 queue
  | hit {k : α} {queue trace final : List α} {misses : ℕ} (hk : k ∈ queue)
      (rest : Passes n queue trace misses final) : Passes n queue (k :: trace) misses final
  | grow {k : α} {queue trace final : List α} {misses : ℕ} (hk : k ∉ queue)
      (hroom : queue.length < n) (rest : Passes n (queue ++ [k]) trace misses final) :
      Passes n queue (k :: trace) (misses + 1) final
  | replace {k x : α} {queue trace final : List α} {misses : ℕ} (hk : k ∉ x :: queue)
      (hfull : (x :: queue).length = n) (rest : Passes n (queue ++ [k]) trace misses final) :
      Passes n (x :: queue) (k :: trace) (misses + 1) final

namespace Passes

variable {n : ℕ} {queue mid final final' trace trace' : List α} {misses misses' : ℕ} {k : α}

theorem append (h : Passes n queue trace misses mid) (h' : Passes n mid trace' misses' final) :
    Passes n queue (trace ++ trace') (misses + misses') final := by
  induction h with
  | done => simpa using h'
  | hit hk _ ih => exact .hit hk (ih h')
  | grow hk hroom _ ih =>
    rw [Nat.add_right_comm]
    exact .grow hk hroom (ih h')
  | replace hk hfull _ ih =>
    rw [Nat.add_right_comm]
    exact .replace hk hfull (ih h')

/-- The misses and the last queue are determined by the first one and the requests. -/
theorem unique (h : Passes n queue trace misses final) (h' : Passes n queue trace misses' final') :
    misses = misses' ∧ final = final' := by
  induction h generalizing misses' final' with
  | done =>
    cases h'
    exact ⟨rfl, rfl⟩
  | hit hk _ ih =>
    cases h' with
    | hit _ h' => exact ih h'
    | grow hk' => exact absurd hk hk'
    | replace hk' => exact absurd hk hk'
  | grow hk hroom _ ih =>
    cases h' with
    | hit hk' => exact absurd hk' hk
    | grow _ _ h' =>
      obtain ⟨rfl, rfl⟩ := ih h'
      exact ⟨rfl, rfl⟩
    | replace _ hfull => omega
  | replace hk hfull _ ih =>
    cases h' with
    | hit hk' => exact absurd hk' hk
    | grow _ hroom => omega
    | replace _ _ h' =>
      obtain ⟨rfl, rfl⟩ := ih h'
      exact ⟨rfl, rfl⟩

theorem nodup (h : Passes n queue trace misses final) (hqueue : queue.Nodup) : final.Nodup := by
  induction h with
  | done => exact hqueue
  | hit _ _ ih => exact ih hqueue
  | grow hk _ _ ih =>
    apply ih
    exact hqueue.append (List.nodup_singleton _) (by simpa using hk)
  | replace hk _ _ ih =>
    apply ih
    exact hqueue.of_cons.append (List.nodup_singleton _) (by simpa using (not_or.mp (by simpa using hk)).2)

theorem length_le (h : Passes n queue trace misses final) (hqueue : queue.length ≤ n) :
    final.length ≤ n := by
  induction h with
  | done => exact hqueue
  | hit _ _ ih => exact ih hqueue
  | grow _ hroom _ ih =>
    apply ih
    simp
    omega
  | replace _ _ _ ih =>
    apply ih
    simpa using hqueue

/-- Requests for what the queue holds. -/
theorem hits (h : ∀ k ∈ trace, k ∈ queue) : Passes n queue trace 0 queue := by
  induction trace with
  | nil => exact .done queue
  | cons k trace ih => exact .hit (h k (by simp)) (ih fun y hy => h y (by simp [hy]))

/-- Requests for distinct elements that the queue does not hold. -/
theorem arrivals (hnodup : (queue ++ trace).Nodup) (hn : 1 ≤ n) (hqueue : queue.length ≤ n) :
    Passes n queue trace trace.length ((queue ++ trace).drop (queue.length + trace.length - n)) := by
  induction trace generalizing queue with
  | nil =>
    have hzero : queue.length + ([] : List α).length - n = 0 := by
      simp
      omega
    rw [hzero, List.append_nil, List.drop_zero]
    exact .done queue
  | cons k trace ih =>
    have hk : k ∉ queue := fun hmem => (List.nodup_append.mp hnodup).2.2 k hmem k (by simp) rfl
    have hassoc : queue ++ k :: trace = queue ++ [k] ++ trace := by simp
    rcases Nat.lt_or_ge queue.length n with hroom | hfull
    · rw [hassoc] at hnodup ⊢
      have hrest := ih hnodup (by simp; omega)
      have hlength : (queue ++ [k]).length + trace.length = queue.length + (k :: trace).length := by
        simp
        omega
      rw [hlength] at hrest
      exact .grow hk hroom hrest
    · cases queue with
      | nil => exact absurd hfull (by simp; omega)
      | cons x queue =>
        have hnodup' : (queue ++ [k] ++ trace).Nodup := by
          simp only [List.cons_append, List.append_assoc, List.nodup_cons] at hnodup ⊢
          simpa using hnodup.2
        have hrest := ih hnodup' (by simpa using hqueue)
        have hfull' : (x :: queue).length = n := Nat.le_antisymm hqueue hfull
        have hdrop : (x :: queue ++ k :: trace).drop ((x :: queue).length + (k :: trace).length - n) =
            (queue ++ [k] ++ trace).drop ((queue ++ [k]).length + trace.length - n) := by
          rw [← hfull']
          simp
        rw [hdrop]
        exact .replace hk hfull' hrest

/-- Requests that always ask for what was evicted last. -/
theorem chase {a z : α} {ms zs : List α} (hnodup : (a :: ms ++ z :: zs).Nodup)
    (hfull : (ms ++ z :: zs).length = n) :
    Passes n (ms ++ z :: zs) (a :: ms) (a :: ms).length (zs ++ a :: ms) := by
  induction ms generalizing a zs with
  | nil =>
    have ha : a ∉ z :: zs := (List.nodup_cons.mp hnodup).1
    exact .replace ha hfull (.done _)
  | cons m ms ih =>
    have ha : a ∉ m :: (ms ++ z :: zs) := (List.nodup_cons.mp hnodup).1
    have hnodup' : (m :: ms ++ z :: (zs ++ [a])).Nodup := by
      have hperm : List.Perm (a :: m :: ms ++ z :: zs) (m :: ms ++ z :: (zs ++ [a])) := by
        have hlist : m :: ms ++ z :: (zs ++ [a]) = (m :: ms ++ z :: zs) ++ [a] := by simp
        rw [hlist]
        exact (List.perm_append_singleton a _).symm
      exact hperm.nodup_iff.mp hnodup
    have hrest := ih hnodup' (by simp at hfull ⊢; omega)
    have hqueue : ms ++ z :: zs ++ [a] = ms ++ z :: (zs ++ [a]) := by simp
    have hfinal : zs ++ [a] ++ m :: ms = zs ++ a :: m :: ms := by simp
    rw [hfinal] at hrest
    exact .replace ha hfull (hqueue ▸ hrest)

end Passes

/-! ## Growing -/

/-- `n + 2` distinct elements, of which the last three have names. -/
structure Cohort (α : Type*) (n : ℕ) where
  front : List α
  a : α
  b : α
  c : α
  two_le : 2 ≤ front.length
  length : front.length + 1 = n
  nodup : (front ++ [a, b, c]).Nodup

namespace Cohort

variable {n : ℕ} (g : Cohort α n) {queue : List α}

def elements : List α := g.front ++ [g.a, g.b, g.c]

/-- The requests of one round. -/
def requests : List α :=
  g.front ++ [g.a, g.b] ++ (g.front ++ (g.c :: (g.front ++ [g.a, g.b, g.c])))

theorem rotated_nodup : (g.c :: (g.front ++ [g.a, g.b])).Nodup := by
  have hlist : g.front ++ [g.a, g.b, g.c] = g.front ++ [g.a, g.b] ++ [g.c] := by simp
  have hnodup := g.nodup
  rw [hlist] at hnodup
  exact (List.perm_append_singleton g.c _).nodup_iff.mp hnodup

theorem short_subset : g.front ++ [g.a, g.b] ⊆ g.elements := by
  intro k hk
  simp only [elements, List.mem_append, List.mem_cons] at hk ⊢
  tauto

theorem exists_front : ∃ x y rest, g.front = x :: y :: rest := by
  have hlength := g.two_le
  cases hfront : g.front with
  | nil => simp [hfront] at hlength
  | cons x front =>
    cases front with
    | nil => simp [hfront] at hlength
    | cons y rest => exact ⟨x, y, rest, rfl⟩

/-- A round at a queue of `n` places. -/
theorem passes_small (hqueue : queue.length ≤ n) (hdisjoint : List.Disjoint queue g.elements)
    (hqueue' : queue.Nodup) :
    ∃ final, Passes n queue g.requests (2 * n + 3) final ∧ final ⊆ g.elements := by
  obtain ⟨x, y, rest, hfront⟩ := g.exists_front
  have hlength := g.length
  have hrotated := g.rotated_nodup
  have hshort_subset := g.short_subset
  rw [elements, hfront] at hdisjoint hshort_subset
  rw [hfront] at hlength hrotated
  rw [requests, elements, hfront]
  simp only [List.length_cons] at hlength
  obtain ⟨hc, hshort⟩ := List.nodup_cons.mp hrotated
  have harrive : Passes n queue (x :: y :: rest ++ [g.a, g.b]) (n + 1) (y :: rest ++ [g.a, g.b]) := by
    have hnodup' : (queue ++ (x :: y :: rest ++ [g.a, g.b])).Nodup := by
      apply hqueue'.append hshort
      exact List.disjoint_of_subset_right hshort_subset hdisjoint
    have hpasses := Passes.arrivals hnodup' (by omega) hqueue
    have htrace : (x :: y :: rest ++ [g.a, g.b]).length = n + 1 := by
      simp
      omega
    have hdrop : queue.length + (n + 1) - n = queue.length + 1 := by omega
    rw [htrace, hdrop] at hpasses
    rw [List.drop_length_add_append] at hpasses
    exact hpasses
  have hchase : Passes n (y :: rest ++ [g.a, g.b]) (x :: y :: rest) (n - 1) (g.b :: x :: y :: rest) := by
    have hmisses : n - 1 = (x :: y :: rest).length := by
      simp
      omega
    rw [hmisses]
    apply Passes.chase (z := g.a)
    · exact hshort
    · simp
      omega
  have hnew : Passes n (g.b :: x :: y :: rest) [g.c] 1 (x :: y :: rest ++ [g.c]) := by
    apply Passes.replace
    · intro hmem
      apply hc
      simp only [List.mem_append, List.mem_cons] at hmem ⊢
      grind
    · simp
      omega
    · exact .done _
  have hagain : Passes n (x :: y :: rest ++ [g.c]) (x :: y :: rest) 0 (x :: y :: rest ++ [g.c]) :=
    Passes.hits fun k hk => List.mem_append_left _ hk
  have hback : Passes n (x :: y :: rest ++ [g.c]) [g.a, g.b] 2 (rest ++ [g.c, g.a, g.b]) := by
    have hnodup' : (x :: y :: rest ++ [g.c] ++ [g.a, g.b]).Nodup := by
      have hperm : List.Perm (g.c :: (x :: y :: rest ++ [g.a, g.b]))
          (x :: y :: rest ++ [g.c] ++ [g.a, g.b]) := by
        rw [List.append_assoc]
        exact List.perm_middle.symm
      exact hperm.nodup_iff.mp hrotated
    have hpasses := Passes.arrivals (n := n) hnodup' (by omega) (by simp; omega)
    have hdrop : (x :: y :: rest ++ [g.c]).length + [g.a, g.b].length - n = 2 := by
      simp
      omega
    rw [hdrop] at hpasses
    simpa using hpasses
  have hlast : Passes n (rest ++ [g.c, g.a, g.b]) [g.c] 0 (rest ++ [g.c, g.a, g.b]) :=
    Passes.hits (by simp)
  have hall := harrive.append (hchase.append (hnew.append (hagain.append (hback.append hlast))))
  have hmisses : n + 1 + (n - 1 + (1 + (0 + (2 + 0)))) = 2 * n + 3 := by omega
  rw [hmisses] at hall
  refine ⟨_, by simpa using hall, ?_⟩
  intro k hk
  simp only [List.mem_append, List.mem_cons] at hk ⊢
  grind

/-- A round at a queue of `n + 1` places. -/
theorem passes_large (hqueue : queue.length ≤ n + 1) (hdisjoint : List.Disjoint queue g.elements)
    (hqueue' : queue.Nodup) :
    ∃ final, Passes (n + 1) queue g.requests (2 * n + 4) final ∧ final ⊆ g.elements := by
  obtain ⟨x, y, rest, hfront⟩ := g.exists_front
  have hlength := g.length
  have hrotated := g.rotated_nodup
  have hshort_subset := g.short_subset
  rw [elements, hfront] at hdisjoint hshort_subset
  rw [hfront] at hlength hrotated
  rw [requests, elements, hfront]
  simp only [List.length_cons] at hlength
  obtain ⟨hc, hshort⟩ := List.nodup_cons.mp hrotated
  have harrive : Passes (n + 1) queue (x :: y :: rest ++ [g.a, g.b]) (n + 1)
      (x :: y :: rest ++ [g.a, g.b]) := by
    have hnodup' : (queue ++ (x :: y :: rest ++ [g.a, g.b])).Nodup := by
      apply hqueue'.append hshort
      exact List.disjoint_of_subset_right hshort_subset hdisjoint
    have hpasses := Passes.arrivals hnodup' (by omega) hqueue
    have htrace : (x :: y :: rest ++ [g.a, g.b]).length = n + 1 := by
      simp
      omega
    rw [htrace, Nat.add_sub_cancel, List.drop_left] at hpasses
    exact hpasses
  have hagain : Passes (n + 1) (x :: y :: rest ++ [g.a, g.b]) (x :: y :: rest) 0
      (x :: y :: rest ++ [g.a, g.b]) :=
    Passes.hits fun k hk => List.mem_append_left _ hk
  have hchase : Passes (n + 1) (x :: y :: rest ++ [g.a, g.b]) (g.c :: (x :: y :: rest ++ [g.a])) (n + 1)
      (g.c :: (x :: y :: rest ++ [g.a])) := by
    have hpasses : Passes (n + 1) (x :: y :: rest ++ [g.a] ++ g.b :: [])
        (g.c :: (x :: y :: rest ++ [g.a])) (g.c :: (x :: y :: rest ++ [g.a])).length
        ([] ++ g.c :: (x :: y :: rest ++ [g.a])) := by
      apply Passes.chase
      · simpa using hrotated
      · simp
        omega
    have hmisses : (g.c :: (x :: y :: rest ++ [g.a])).length = n + 1 := by
      simp
      omega
    rw [hmisses] at hpasses
    simpa using hpasses
  have hlast : Passes (n + 1) (g.c :: (x :: y :: rest ++ [g.a])) [g.b, g.c] 2
      (y :: rest ++ [g.a, g.b, g.c]) := by
    have hpasses : Passes (n + 1) (g.c :: (x :: y :: rest ++ [g.a])) [g.b, g.c] 2
        (y :: rest ++ [g.a] ++ [g.b] ++ [g.c]) := by
      apply Passes.replace
      · have hperm := List.perm_append_singleton g.b (g.c :: (x :: y :: rest ++ [g.a]))
        exact (List.nodup_cons.mp (hperm.nodup_iff.mp (by simpa using hrotated))).1
      · simp
        omega
      apply Passes.replace (k := g.c)
      · simpa using hc
      · simp
        omega
      exact .done _
    simpa using hpasses
  have hall := harrive.append (hagain.append (hchase.append hlast))
  have hmisses : n + 1 + (0 + (n + 1 + 2)) = 2 * n + 4 := by omega
  rw [hmisses] at hall
  exact ⟨_, by simpa using hall, List.subset_cons_self x _⟩

theorem length_requests : g.requests.length = 3 * n + 3 := by
  have hlength := g.length
  simp [requests]
  omega

theorem requests_subset : g.requests ⊆ g.elements := by
  intro k hk
  simp only [requests, elements, List.mem_append, List.mem_cons] at hk ⊢
  tauto

theorem exists_of_list {l : List α} (hn : 3 ≤ n) (hlength : l.length = n + 2) (hnodup : l.Nodup) :
    ∃ g : Cohort α n, g.elements = l := by
  have hdrop : (l.drop (n - 1)).length = 3 := by
    rw [List.length_drop]
    omega
  obtain ⟨a, b, c, habc⟩ := List.length_eq_three.mp hdrop
  have htake : (l.take (n - 1)).length = n - 1 := by
    rw [List.length_take]
    omega
  have hsplit : l.take (n - 1) ++ [a, b, c] = l := by rw [← habc, List.take_append_drop]
  exact ⟨⟨l.take (n - 1), a, b, c, by omega, by omega, hsplit.symm ▸ hnodup⟩, hsplit⟩

end Cohort

/-- Rounds of two cohorts in turn. -/
def rounds {n : ℕ} : ℕ → Cohort α n → Cohort α n → List α
  | 0, _, _ => []
  | i + 1, g, g' => g.requests ++ rounds i g' g

section Rounds

variable {n : ℕ} {g g' : Cohort α n}

theorem length_rounds (i : ℕ) : (rounds i g g').length = i * (3 * n + 3) := by
  induction i generalizing g g' with
  | zero => simp [rounds]
  | succ i ih =>
    rw [rounds, List.length_append, g.length_requests, ih]
    ring

theorem rounds_subset (i : ℕ) : rounds i g g' ⊆ g.elements ++ g'.elements := by
  induction i generalizing g g' with
  | zero => simp [rounds]
  | succ i ih =>
    rw [rounds]
    apply List.append_subset.mpr
    constructor
    · exact List.subset_append_of_subset_left _ g.requests_subset
    · intro k hk
      have hmem := ih hk
      simp only [List.mem_append] at hmem ⊢
      tauto

/-- In each round the larger queue misses once more. -/
theorem rounds_pass (i : ℕ) (hcohorts : List.Disjoint g.elements g'.elements) {queue queue' : List α}
    (hqueue : queue.Nodup) (hlength : queue.length ≤ n) (hdisjoint : List.Disjoint queue g.elements)
    (hqueue' : queue'.Nodup) (hlength' : queue'.length ≤ n + 1)
    (hdisjoint' : List.Disjoint queue' g.elements) :
    ∃ final final', Passes n queue (rounds i g g') (i * (2 * n + 3)) final ∧
      Passes (n + 1) queue' (rounds i g g') (i * (2 * n + 4)) final' := by
  induction i generalizing g g' queue queue' with
  | zero =>
    simp only [Nat.zero_mul, rounds]
    exact ⟨queue, queue', .done queue, .done queue'⟩
  | succ i ih =>
    obtain ⟨mid, hsmall, hmid⟩ := g.passes_small hlength hdisjoint hqueue
    obtain ⟨mid', hlarge, hmid'⟩ := g.passes_large hlength' hdisjoint' hqueue'
    obtain ⟨final, final', hrest, hrest'⟩ := ih hcohorts.symm (hsmall.nodup hqueue)
      (hsmall.length_le hlength) (fun k hk => hcohorts (hmid hk)) (hlarge.nodup hqueue')
      (hlarge.length_le hlength') (fun k hk => hcohorts (hmid' hk))
    have hmisses (m : ℕ) : (i + 1) * m = m + i * m := by ring
    rw [rounds, hmisses, hmisses]
    exact ⟨final, final', hsmall.append hrest, hlarge.append hrest'⟩

/-- A queue that evicts in the order of arrival may miss more often for having grown. -/
theorem exists_anomaly {elements : Finset α} (hn : 3 ≤ n) (hcard : elements.card = 2 * (n + 2))
    (i : ℕ) :
    ∃ trace final final', trace.length = i * (3 * n + 3) ∧ (∀ k ∈ trace, k ∈ elements) ∧
      Passes n [] trace (i * (2 * n + 3)) final ∧ Passes (n + 1) [] trace (i * (2 * n + 4)) final' := by
  have hlength : elements.toList.length = 2 * (n + 2) := by rw [Finset.length_toList, hcard]
  have hnodup : (elements.toList.take (n + 2) ++ elements.toList.drop (n + 2)).Nodup := by
    rw [List.take_append_drop]
    exact elements.nodup_toList
  obtain ⟨hfirst, hsecond, hdisjoint⟩ := List.nodup_append'.mp hnodup
  obtain ⟨g, hg⟩ := Cohort.exists_of_list (l := elements.toList.take (n + 2)) hn
    (by rw [List.length_take]; omega) hfirst
  obtain ⟨g', hg'⟩ := Cohort.exists_of_list (l := elements.toList.drop (n + 2)) hn
    (by rw [List.length_drop]; omega) hsecond
  obtain ⟨final, final', hsmall, hlarge⟩ : ∃ final final',
      Passes n [] (rounds i g g') (i * (2 * n + 3)) final ∧
        Passes (n + 1) [] (rounds i g g') (i * (2 * n + 4)) final' := by
    apply rounds_pass i
    · rwa [hg, hg']
    · exact List.nodup_nil
    · exact Nat.zero_le _
    · exact List.disjoint_nil_left _
    · exact List.nodup_nil
    · exact Nat.zero_le _
    · exact List.disjoint_nil_left _
  refine ⟨rounds i g g', final, final', length_rounds i, ?_, hsmall, hlarge⟩
  intro k hk
  have hmem := rounds_subset i hk
  rw [hg, hg', List.take_append_drop] at hmem
  exact Finset.mem_toList.mp hmem

end Rounds

end CachePolicies
