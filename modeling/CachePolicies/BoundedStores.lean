import Mathlib.Algebra.Order.Ring.Nat
import Mathlib.Data.Finset.Card
import Mathlib.Data.List.Infix
import Mathlib.Tactic.Linarith
import Mathlib.Tactic.Ring

/-!
# Serving requests from a bounded store

A store of at most `h` elements serves a list of requests: it holds each element when
that is requested, and pays for what it brings in. Nothing else restricts it, so that it may
know the requests in advance and bring in elements before they are asked for.

Against all such stores stands a queue of bounded length that evicts its head on a miss
and puts what it has missed at its tail. Two misses of one element are far apart there, and a
run of which this is true costs no store much less.
-/

namespace CachePolicies

variable {α : Type*} [DecidableEq α]

/-- `Serves h held requests loads final`: a store of at most `h` elements that holds `held`
serves the requests with a number of loads, and holds `final` afterwards. -/
inductive Serves (h : ℕ) : Finset α → List α → ℕ → Finset α → Prop
  | done (held : Finset α) : Serves h held [] 0 held
  | request {held next final : Finset α} {k : α} {requests : List α} {loads : ℕ}
      (hk : k ∈ next) (hcard : next.card ≤ h) (rest : Serves h next requests loads final) :
      Serves h held (k :: requests) ((next \ held).card + loads) final

namespace Serves

variable {h loads loads' : ℕ} {held mid next final : Finset α} {xs ys : List α} {k : α}

theorem append (hxs : Serves h held xs loads mid) (hys : Serves h mid ys loads' final) :
    Serves h held (xs ++ ys) (loads + loads') final := by
  induction hxs with
  | done => rwa [Nat.zero_add]
  | request hk hcard rest ih =>
    rw [Nat.add_assoc]
    exact .request hk hcard (ih hys)

/-- One more request, for which at most the requested element is brought in. -/
theorem snoc (hxs : Serves h held xs loads mid) (hk : k ∈ next) (hcard : next.card ≤ h)
    (hsub : next ⊆ insert k mid) :
    Serves h held (xs ++ [k]) (loads + if k ∈ mid then 0 else 1) next := by
  have hone : (next \ mid).card = if k ∈ mid then 0 else 1 := by
    by_cases hmid : k ∈ mid
    · rw [if_pos hmid, Finset.card_eq_zero, Finset.sdiff_eq_empty_iff_subset]
      rwa [Finset.insert_eq_of_mem hmid] at hsub
    · have hdiff : next \ mid = {k} := by
        ext x
        rw [Finset.mem_sdiff, Finset.mem_singleton]
        constructor
        · rintro ⟨hx, hnot⟩
          exact (Finset.mem_insert.mp (hsub hx)).resolve_right hnot
        · rintro rfl
          exact ⟨hk, hmid⟩
      rw [if_neg hmid, hdiff, Finset.card_singleton]
  have hlast := hxs.append (.request hk hcard (.done next))
  rwa [Nat.add_zero, hone] at hlast

theorem split (hserves : Serves h held (xs ++ ys) loads final) :
    ∃ mid m n, Serves h held xs m mid ∧ Serves h mid ys n final ∧ loads = m + n := by
  induction xs generalizing held loads with
  | nil => exact ⟨held, 0, loads, .done held, hserves, (Nat.zero_add _).symm⟩
  | cons k xs ih =>
    rw [List.cons_append] at hserves
    cases hserves with
    | request hk hcard rest =>
      obtain ⟨mid, m, n, hm, hn, hsum⟩ := ih rest
      exact ⟨mid, _, n, .request hk hcard hm, hn, by rw [hsum, Nat.add_assoc]⟩

/-- What is requested and was not held has been brought in. -/
theorem card_sdiff_le (hserves : Serves h held xs loads final) :
    (xs.toFinset \ held).card ≤ loads := by
  induction hserves with
  | done held => simp
  | @request held next final k requests loads hk hcard rest ih =>
    have hsub : (k :: requests).toFinset \ held ⊆ (next \ held) ∪ (requests.toFinset \ next) := by
      intro x hx
      simp only [List.toFinset_cons, Finset.mem_sdiff, Finset.mem_insert] at hx
      rw [Finset.mem_union, Finset.mem_sdiff, Finset.mem_sdiff]
      by_cases hnext : x ∈ next
      · exact .inl ⟨hnext, hx.2⟩
      · exact .inr ⟨hx.1.resolve_left fun he => hnext (he ▸ hk), hnext⟩
    calc ((k :: requests).toFinset \ held).card
        ≤ ((next \ held) ∪ (requests.toFinset \ next)).card := Finset.card_le_card hsub
      _ ≤ (next \ held).card + (requests.toFinset \ next).card := Finset.card_union_le _ _
      _ ≤ (next \ held).card + loads := Nat.add_le_add_left ih _

/-- A bounded store which holds the requested element already pays for all others but `h`. -/
theorem card_le_add (hserves : Serves h held xs loads final) (hk : k ∈ held)
    (hcard : held.card ≤ h) : (insert k xs.toFinset).card ≤ loads + h := by
  have hle := hserves.card_sdiff_le
  have hinsert : insert k xs.toFinset ⊆ (xs.toFinset \ held) ∪ held := by
    intro x hx
    rw [Finset.sdiff_union_self_eq_union, Finset.mem_union]
    rcases Finset.mem_insert.mp hx with rfl | hx
    · exact .inr hk
    · exact .inl hx
  calc (insert k xs.toFinset).card
      ≤ ((xs.toFinset \ held) ∪ held).card := Finset.card_le_card hinsert
    _ ≤ (xs.toFinset \ held).card + held.card := Finset.card_union_le _ _
    _ ≤ loads + h := Nat.add_le_add hle hcard

/-- The store holds what was requested last, and is still bounded. -/
theorem mem_final (hserves : Serves h held (xs ++ [k]) loads final) :
    k ∈ final ∧ final.card ≤ h := by
  obtain ⟨mid, m, n, -, hlast, -⟩ := hserves.split
  cases hlast with
  | request hk hcard rest =>
    cases rest
    exact ⟨hk, hcard⟩

/-- A store that holds all that is requested brings nothing in. -/
theorem idle (hxs : ∀ x ∈ xs, x ∈ held) (hcard : held.card ≤ h) : Serves h held xs 0 held := by
  induction xs with
  | nil => exact .done held
  | cons x xs ih =>
    have hrest := ih fun y hy => hxs y (List.mem_cons_of_mem _ hy)
    have hserves : Serves h held (x :: xs) ((held \ held).card + 0) held :=
      .request (hxs x List.mem_cons_self) hcard hrest
    rwa [sdiff_self, Finset.bot_eq_empty, Finset.card_empty] at hserves

/-- A store that brings in all it needs at once. -/
theorem switch (hne : xs ≠ []) (hxs : ∀ x ∈ xs, x ∈ next) (hcard : next.card ≤ h) :
    Serves h held xs (next \ held).card next := by
  cases xs with
  | nil => exact absurd rfl hne
  | cons x xs =>
    have hrest := idle (fun y hy => hxs y (List.mem_cons_of_mem x hy)) hcard
    exact .request (hxs x List.mem_cons_self) hcard hrest

/-- A store that keeps nothing loads what is requested. -/
theorem exists_of_length (hh : 1 ≤ h) (held : Finset α) (xs : List α) :
    ∃ loads final, Serves h held xs loads final ∧ loads ≤ xs.length := by
  induction xs generalizing held with
  | nil => exact ⟨0, held, .done held, le_rfl⟩
  | cons x xs ih =>
    obtain ⟨loads, final, hrest, hle⟩ := ih {x}
    have hone : ({x} \ held).card ≤ 1 :=
      (Finset.card_le_card Finset.sdiff_subset).trans (Finset.card_singleton x).le
    refine ⟨_, final, .request (Finset.mem_singleton_self x) ?_ hrest, ?_⟩
    · rwa [Finset.card_singleton]
    · rw [List.length_cons]
      omega

/-- A store that has room for all that is requested loads it once. -/
theorem exists_of_subset {elements : Finset α} (hxs : ∀ x ∈ xs, x ∈ elements)
    (hcard : elements.card ≤ h) :
    ∃ loads final, Serves h held xs loads final ∧ loads ≤ elements.card := by
  by_cases hne : xs = []
  · subst hne
    exact ⟨0, held, .done held, Nat.zero_le _⟩
  · exact ⟨_, elements, switch hne hxs hcard, Finset.card_le_card Finset.sdiff_subset⟩

/-- Requests for one element more than fit into the store: one load in every `h` requests
will do, as `h` requests leave out one of the elements. -/
theorem exists_of_card {elements : Finset α} (hh : 1 ≤ h) (helements : elements.card = h + 1)
    (hxs : ∀ x ∈ xs, x ∈ elements) :
    ∃ loads final, Serves h held xs loads final ∧
      h * loads ≤ h * (elements \ held).card + xs.length := by
  induction hlength : xs.length using Nat.strong_induction_on generalizing xs held with
  | _ length ih =>
    cases xs with
    | nil => exact ⟨0, held, .done held, by simp⟩
    | cons x xs =>
      obtain ⟨y, hy, hnot⟩ : ∃ y ∈ elements, y ∉ ((x :: xs).take h).toFinset := by
        apply Finset.exists_mem_notMem_of_card_lt_card
        have hle := List.toFinset_card_le ((x :: xs).take h)
        have htake := List.length_take_le h (x :: xs)
        omega
      have hblock : ∀ z ∈ (x :: xs).take h, z ∈ elements.erase y := by
        intro z hz
        refine Finset.mem_erase.mpr ⟨?_, hxs z (List.mem_of_mem_take hz)⟩
        rintro rfl
        exact hnot (List.mem_toFinset.mpr hz)
      have hcard : (elements.erase y).card ≤ h := by
        rw [Finset.card_erase_of_mem hy, helements, Nat.add_sub_cancel]
      have hne : (x :: xs).take h ≠ [] := by
        rw [Ne, List.take_eq_nil_iff]
        simp only [reduceCtorEq, or_false]
        omega
      have hfirst : Serves h held ((x :: xs).take h) (elements.erase y \ held).card
          (elements.erase y) := switch hne hblock hcard
      have hsub : (elements.erase y \ held).card ≤ (elements \ held).card :=
        Finset.card_le_card (Finset.sdiff_subset_sdiff (Finset.erase_subset y elements)
          (Finset.Subset.refl held))
      by_cases hshort : length ≤ h
      · rw [List.take_of_length_le (hlength.trans_le hshort)] at hfirst
        exact ⟨_, _, hfirst, (Nat.mul_le_mul_left h hsub).trans (Nat.le_add_right _ _)⟩
      · have hdrop : ((x :: xs).drop h).length = length - h := by rw [List.length_drop, hlength]
        obtain ⟨loads, final, hrest, hle⟩ : ∃ loads final,
            Serves h (elements.erase y) ((x :: xs).drop h) loads final ∧
              h * loads ≤ h * (elements \ elements.erase y).card + (length - h) :=
          ih (length - h) (by omega) (fun z hz => hxs z (List.mem_of_mem_drop hz)) hdrop
        refine ⟨_, final, List.take_append_drop h (x :: xs) ▸ hfirst.append hrest, ?_⟩
        have hone : (elements \ elements.erase y).card = 1 := by
          rw [Finset.sdiff_erase_self hy, Finset.card_singleton]
        rw [hone, Nat.mul_one] at hle
        calc h * ((elements.erase y \ held).card + loads)
            = h * (elements.erase y \ held).card + h * loads := by ring
          _ ≤ h * (elements \ held).card + (h + (length - h)) :=
            Nat.add_le_add (Nat.mul_le_mul_left h hsub) hle
          _ = h * (elements \ held).card + length := by omega

end Serves

/-! ## Runs whose misses are far apart -/

section Marks

/-- The requests of a run, whose elements are marked as misses or not. -/
def requests (run : List (α × Bool)) : List α := run.map Prod.fst

def misses (run : List (α × Bool)) : ℕ := run.countP Prod.snd

/-- Between two misses of an element at least `n` others are requested. -/
def MissesApart (n : ℕ) (run : List (α × Bool)) : Prop :=
  ∀ a between, ((a, true) :: (between ++ [(a, true)])) <:+: run →
    n ≤ ((requests between).toFinset.erase a).card

variable {n h loads : ℕ} {run run' : List (α × Bool)} {held final : Finset α} {x : α × Bool}

omit [DecidableEq α] in
@[simp] theorem requests_append (run run' : List (α × Bool)) :
    requests (run ++ run') = requests run ++ requests run' := List.map_append

omit [DecidableEq α] in
@[simp] theorem requests_cons (x : α × Bool) (run : List (α × Bool)) :
    requests (x :: run) = x.1 :: requests run := rfl

omit [DecidableEq α] in
@[simp] theorem requests_nil : requests ([] : List (α × Bool)) = [] := rfl

omit [DecidableEq α] in
@[simp] theorem misses_append (run run' : List (α × Bool)) :
    misses (run ++ run') = misses run + misses run' := List.countP_append

omit [DecidableEq α] in
/-- The missed elements, in order. -/
theorem misses_eq (run : List (α × Bool)) :
    misses run = ((run.filter Prod.snd).map Prod.fst).length := by
  rw [List.length_map, misses, List.countP_eq_length_filter]

namespace MissesApart

theorem of_infix (hapart : MissesApart n run) (hsub : run' <:+: run) : MissesApart n run' :=
  fun a between h => hapart a between (h.trans hsub)

/-- In a stretch of at most `n` elements no element is missed twice. -/
theorem nodup (hapart : MissesApart n run) (hcard : (requests run).toFinset.card ≤ n) :
    ((run.filter Prod.snd).map Prod.fst).Nodup := by
  induction run with
  | nil => exact List.nodup_nil
  | cons x run ih =>
    have htail := ih (hapart.of_infix (List.suffix_cons x run).isInfix)
      ((Finset.card_le_card (by simp)).trans hcard)
    obtain ⟨a, missed⟩ := x
    cases missed with
    | false => simpa using htail
    | true =>
      rw [List.filter_cons_of_pos rfl, List.map_cons, List.nodup_cons]
      refine ⟨fun hmem => ?_, htail⟩
      -- a second miss would have `n` other elements before it, so `n + 1` in the stretch
      obtain ⟨⟨b, missed⟩, hy, hb⟩ := List.mem_map.mp hmem
      obtain rfl : b = a := hb
      obtain ⟨hy, htrue⟩ := List.mem_filter.mp hy
      obtain rfl : missed = true := htrue
      obtain ⟨between, rest, rfl⟩ := List.append_of_mem hy
      have hbetween := hapart b between ⟨[], rest, by simp⟩
      have hsub : insert b ((requests between).toFinset.erase b) ⊆
          (requests ((b, true) :: (between ++ (b, true) :: rest))).toFinset := by
        intro z hz
        simp only [Finset.mem_insert, Finset.mem_erase, List.mem_toFinset] at hz
        simp only [requests_cons, requests_append, List.mem_toFinset, List.mem_cons,
          List.mem_append]
        rcases hz with rfl | ⟨-, hz⟩
        · exact .inl rfl
        · exact .inr (.inl hz)
      have hle := Finset.card_le_card hsub
      rw [Finset.card_insert_of_notMem (Finset.notMem_erase b _)] at hle
      omega

theorem misses_le (hapart : MissesApart n run) (hcard : (requests run).toFinset.card ≤ n) :
    misses run ≤ (requests run).toFinset.card := by
  rw [misses_eq, ← List.toFinset_card_of_nodup (hapart.nodup hcard)]
  apply Finset.card_le_card
  intro z hz
  obtain ⟨y, hy, rfl⟩ := List.mem_map.mp (List.mem_toFinset.mp hz)
  exact List.mem_toFinset.mpr (List.mem_map.mpr ⟨y, List.mem_of_mem_filter hy, rfl⟩)

end MissesApart

/-- A run has no more than `n` elements, or a first phase of `n` elements that ends before
another one is requested. -/
theorem exists_phase (x : α × Bool) (run : List (α × Bool)) (hn : 1 ≤ n) :
    (requests (x :: run)).toFinset.card ≤ n ∨
      ∃ phase y rest, run = phase ++ y :: rest ∧ (requests (x :: phase)).toFinset.card = n ∧
        y.1 ∉ requests (x :: phase) := by
  induction run using List.reverseRecOn with
  | nil =>
    left
    rw [requests_cons, requests_nil, List.toFinset_cons, List.toFinset_nil, insert_empty_eq,
      Finset.card_singleton]
    exact hn
  | append_singleton run y ih =>
    rcases ih with hle | ⟨phase, z, rest, rfl, hcard, hz⟩
    · have hlist : (requests (x :: (run ++ [y]))).toFinset =
          insert y.1 (requests (x :: run)).toFinset := by
        ext z
        simp [or_left_comm]
      by_cases hy : y.1 ∈ requests (x :: run)
      · left
        rwa [hlist, Finset.insert_eq_of_mem (List.mem_toFinset.mpr hy)]
      · rcases Nat.lt_or_eq_of_le hle with hlt | heq
        · left
          rw [hlist]
          exact (Finset.card_insert_le _ _).trans hlt
        · exact .inr ⟨run, y, [], rfl, heq, hy⟩
    · exact .inr ⟨phase, z, rest ++ [y], by simp, hcard, hz⟩

namespace MissesApart

/-- The misses of a run against the loads of a store that begins with the first request. -/
theorem misses_le_of_held (hh : 1 ≤ h) (hn : h ≤ n) (hapart : MissesApart n (x :: run))
    (hx : x.1 ∈ held) (hcard : held.card ≤ h) (hserves : Serves h held (requests run) loads final) :
    (n - h + 1) * misses (x :: run) ≤ n * loads + (n - h + 1) * h := by
  obtain ⟨e, rfl⟩ := Nat.exists_eq_add_of_le hn
  rw [Nat.add_sub_cancel_left]
  induction hlength : run.length using Nat.strong_induction_on generalizing x run held loads with
  | _ length ih =>
    rcases exists_phase x run (by omega : 1 ≤ h + e) with hlast | ⟨phase, y, rest, rfl, hphase, hy⟩
    · have hmisses := hapart.misses_le hlast
      have hloads : (requests (x :: run)).toFinset.card ≤ loads + h := by
        rw [requests_cons, List.toFinset_cons]
        exact hserves.card_le_add hx hcard
      calc (e + 1) * misses (x :: run)
          ≤ (e + 1) * (loads + h) := Nat.mul_le_mul_left _ (hmisses.trans hloads)
        _ = (e + 1) * loads + (e + 1) * h := Nat.mul_add _ _ _
        _ ≤ (h + e) * loads + (e + 1) * h :=
          Nat.add_le_add_right (Nat.mul_le_mul_right _ (by omega)) _
    · have hsplit : requests (phase ++ y :: rest) = (requests phase ++ [y.1]) ++ requests rest := by
        simp
      rw [hsplit] at hserves
      obtain ⟨mid, m, k, hm, hk, rfl⟩ := hserves.split
      obtain ⟨hymid, hmidcard⟩ := hm.mem_final
      -- the phase and the request after it are for `n + 1` elements, of which `h` may be held
      have hpaid : h + e + 1 ≤ m + h := by
        have hle := hm.card_le_add hx hcard
        have hnew : insert x.1 (requests phase ++ [y.1]).toFinset =
            insert y.1 (requests (x :: phase)).toFinset := by
          ext z
          simp [or_left_comm]
        rw [hnew, Finset.card_insert_of_notMem (by simpa using hy), hphase] at hle
        exact hle
      have hmisses : misses (x :: phase) ≤ h + e :=
        ((hapart.of_infix ⟨[], y :: rest, by simp⟩).misses_le hphase.le).trans hphase.le
      have hshorter : rest.length < length := by
        rw [← hlength, List.length_append, List.length_cons]
        omega
      have hrest := ih rest.length hshorter hymid hmidcard hk
        (hapart.of_infix ⟨x :: phase, [], by simp⟩) rfl
      have hsum : misses (x :: (phase ++ y :: rest)) = misses (x :: phase) + misses (y :: rest) := by
        rw [← misses_append, List.cons_append]
      calc (e + 1) * misses (x :: (phase ++ y :: rest))
          = (e + 1) * misses (x :: phase) + (e + 1) * misses (y :: rest) := by
            rw [hsum, Nat.mul_add]
        _ ≤ (e + 1) * (h + e) + ((h + e) * k + (e + 1) * h) :=
          Nat.add_le_add (Nat.mul_le_mul_left _ hmisses) hrest
        _ ≤ m * (h + e) + ((h + e) * k + (e + 1) * h) :=
          Nat.add_le_add_right (Nat.mul_le_mul_right _ (by omega)) _
        _ = (h + e) * (m + k) + (e + 1) * h := by ring

/-- The misses of a run against the loads of a store which is empty at first. -/
theorem misses_le_of_loads (hh : 1 ≤ h) (hn : h ≤ n) (hapart : MissesApart n run)
    (hserves : Serves h ∅ (requests run) loads final) :
    (n - h + 1) * misses run ≤ n * loads + (h - 1) * (n - h) := by
  cases run with
  | nil => simp [misses]
  | cons x run =>
    cases hserves with
    | @request _ next _ _ _ m hk hcard rest =>
      have hmisses := hapart.misses_le_of_held hh hn hk hcard rest
      have hfirst : 1 ≤ (next \ ∅).card := by
        rw [Finset.sdiff_empty]
        exact Finset.card_pos.mpr ⟨_, hk⟩
      obtain ⟨e, rfl⟩ := Nat.exists_eq_add_of_le hn
      obtain ⟨g, rfl⟩ := Nat.exists_eq_add_of_le' hh
      rw [Nat.add_sub_cancel_left] at hmisses ⊢
      rw [Nat.add_sub_cancel]
      calc (e + 1) * misses (x :: run)
          ≤ (g + 1 + e) * m + (e + 1) * (g + 1) := hmisses
        _ = (g + 1 + e) * (1 + m) + g * e := by ring
        _ ≤ (g + 1 + e) * ((next \ ∅).card + m) + g * e :=
          Nat.add_le_add_right (Nat.mul_le_mul_left _ (by omega)) _

end MissesApart

end Marks

/-! ## Queues that evict their head -/

/-- A request to a queue. A hit leaves the queue alone or moves the element to the tail. A
miss puts it there, and may evict the head if the queue has `n` elements. -/
inductive QueueStep (n : ℕ) (k : α) : List α → List α → Prop
  | stays {l : List α} (hk : k ∈ l) : QueueStep n k l l
  | moves {l : List α} (hk : k ∈ l) : QueueStep n k l (l.erase k ++ [k])
  | grows {l : List α} (hk : k ∉ l) : QueueStep n k l (l ++ [k])
  | evicts {x : α} {l : List α} (hk : k ∉ x :: l) (hfull : n ≤ (x :: l).length) :
      QueueStep n k (x :: l) (l ++ [k])

/-- The requests that an empty queue has served, the latest first, and what they leave. -/
inductive QueueRun (n : ℕ) : List (α × Bool) → List α → Prop
  | start : QueueRun n [] []
  | request {run : List (α × Bool)} {l l' : List α} {k : α} (rest : QueueRun n run l)
      (hstep : QueueStep n k l l') : QueueRun n ((k, decide (k ∉ l)) :: run) l'

section Queues

variable {n : ℕ} {run : List (α × Bool)} {l l' : List α} {a k : α} {since : List α}

/-- The elements behind `a` in a queue have been requested since, or `n` others have. -/
def Behind (n : ℕ) (a : α) (since : List α) (l : List α) : Prop :=
  (∃ before behind, l = before ++ a :: behind ∧ ∀ y ∈ behind, y ∈ since) ∨
    n ≤ (since.toFinset.erase a).card

theorem QueueStep.nodup (h : QueueStep n k l l') (hl : l.Nodup) : l'.Nodup := by
  cases h with
  | stays => exact hl
  | moves hk =>
    refine List.nodup_append.mpr ⟨hl.erase k, List.nodup_singleton k, ?_⟩
    rintro x hx y hy rfl
    exact hl.not_mem_erase (List.mem_singleton.mp hy ▸ hx)
  | grows hk =>
    refine List.nodup_append.mpr ⟨hl, List.nodup_singleton k, ?_⟩
    rintro x hx y hy rfl
    exact hk (List.mem_singleton.mp hy ▸ hx)
  | evicts hk =>
    refine List.nodup_append.mpr ⟨hl.of_cons, List.nodup_singleton k, ?_⟩
    rintro x hx y hy rfl
    exact hk (List.mem_cons_of_mem _ (List.mem_singleton.mp hy ▸ hx))

/-- An element that is missed goes to the tail. -/
theorem QueueStep.behind_self (h : QueueStep n a l l') (ha : a ∉ l) : Behind n a [] l' := by
  cases h with
  | stays hk => exact absurd hk ha
  | moves hk => exact absurd hk ha
  | grows => exact .inl ⟨_, [], rfl, by simp⟩
  | evicts => exact .inl ⟨_, [], rfl, by simp⟩

/-- Whatever comes behind `a` later has been requested, until `n` others have been. -/
theorem QueueStep.behind (h : QueueStep n k l l') (hl : l.Nodup) (hbehind : Behind n a since l) :
    Behind n a (k :: since) l' := by
  rcases hbehind with ⟨before, behind, rfl, hsince⟩ | hmany
  · have hlater : ∀ y ∈ behind, y ∈ k :: since := fun y hy => List.mem_cons_of_mem k (hsince y hy)
    have htail : ∀ y ∈ behind ++ [k], y ∈ k :: since := by
      intro y hy
      rcases List.mem_append.mp hy with hy | hy
      · exact hlater y hy
      · exact List.mem_singleton.mp hy ▸ List.mem_cons_self
    generalize hqueue : before ++ a :: behind = queue at h hl
    cases h with
    | stays => exact .inl ⟨before, behind, hqueue.symm, hlater⟩
    | moves hk =>
      subst hqueue
      by_cases hbefore : k ∈ before
      · refine .inl ⟨before.erase k, behind ++ [k], ?_, htail⟩
        rw [List.erase_append_left _ hbefore, List.append_assoc, List.cons_append]
      · rw [List.erase_append_right _ hbefore]
        by_cases ha : a = k
        · subst ha
          exact .inl ⟨before ++ behind, [], by simp, by simp⟩
        · refine .inl ⟨before, behind.erase k ++ [k], ?_, ?_⟩
          · rw [List.erase_cons_tail (by simpa using ha), List.append_assoc, List.cons_append]
          · intro y hy
            refine htail y ?_
            rcases List.mem_append.mp hy with hy | hy
            · exact List.mem_append_left _ (List.mem_of_mem_erase hy)
            · exact List.mem_append_right _ hy
    | grows => exact .inl ⟨before, behind ++ [k], by simp [← hqueue], htail⟩
    | @evicts x rest hk hfull =>
      cases before with
      | cons b before =>
        rw [List.cons_append, List.cons.injEq] at hqueue
        obtain ⟨rfl, rfl⟩ := hqueue
        exact .inl ⟨before, behind ++ [k], by simp, htail⟩
      | nil =>
        rw [List.nil_append, List.cons.injEq] at hqueue
        obtain ⟨rfl, rfl⟩ := hqueue
        -- all that was behind `a` and the missed element have been requested since
        have hk' : k ∉ behind := fun hmem => hk (List.mem_cons_of_mem _ hmem)
        have ha : a ∉ behind := (List.nodup_cons.mp hl).1
        have hak : k ≠ a := fun he => hk (he ▸ List.mem_cons_self)
        have hsub : insert k behind.toFinset ⊆ (k :: since).toFinset.erase a := by
          intro y hy
          rw [Finset.mem_erase, List.mem_toFinset]
          rcases Finset.mem_insert.mp hy with rfl | hy
          · exact ⟨hak, List.mem_cons_self⟩
          · have hy := List.mem_toFinset.mp hy
            exact ⟨fun he => ha (he ▸ hy), hlater y hy⟩
        have hcard := Finset.card_le_card hsub
        rw [Finset.card_insert_of_notMem (by simpa using hk'),
          List.toFinset_card_of_nodup hl.of_cons] at hcard
        exact .inr (hfull.trans hcard)
  · refine .inr (hmany.trans (Finset.card_le_card (Finset.erase_subset_erase a ?_)))
    rw [List.toFinset_cons]
    exact Finset.subset_insert k _

/-- What is behind a missed element in the queue, at any time after the miss. -/
theorem QueueRun.behind (h : QueueRun n run l) : l.Nodup ∧
    ∀ a between, (between ++ [(a, true)]) <+: run → Behind n a (requests between) l := by
  induction h with
  | start =>
    refine ⟨List.nodup_nil, fun a between hprefix => ?_⟩
    exact absurd (List.prefix_nil.mp hprefix) (by simp)
  | @request run l l' k rest hstep ih =>
    refine ⟨hstep.nodup ih.1, fun a between hprefix => ?_⟩
    cases between with
    | nil =>
      obtain ⟨hmark, -⟩ := List.cons_prefix_cons.mp hprefix
      obtain ⟨rfl, hmiss⟩ := Prod.mk.injEq .. ▸ hmark
      exact hstep.behind_self (of_decide_eq_true hmiss.symm)
    | cons x between =>
      obtain ⟨rfl, hearlier⟩ := List.cons_prefix_cons.mp hprefix
      exact hstep.behind ih.1 (ih.2 a between hearlier)

/-- The misses of a queue that evicts its head are far apart. -/
theorem QueueRun.missesApart (h : QueueRun n run l) : MissesApart n run := by
  induction h with
  | start => exact fun a between hinfix => absurd (List.infix_nil.mp hinfix) (by simp)
  | @request run l l' k rest hstep ih =>
    intro a between hinfix
    rcases List.infix_cons_iff.mp hinfix with hprefix | hinfix
    · obtain ⟨hmark, hearlier⟩ := List.cons_prefix_cons.mp hprefix
      obtain ⟨rfl, hmiss⟩ := Prod.mk.injEq .. ▸ hmark
      rcases rest.behind.2 a between hearlier with ⟨before, behind, rfl, -⟩ | hmany
      · exact absurd (of_decide_eq_true hmiss.symm) (by simp)
      · exact hmany
    · exact ih a between hinfix

end Queues

/-- The order of a run does not matter. -/
theorem MissesApart.reverse {n : ℕ} {run : List (α × Bool)} (h : MissesApart n run) :
    MissesApart n run.reverse := by
  intro a between hinfix
  have hreverse := List.reverse_infix.mpr hinfix
  rw [List.reverse_reverse, List.reverse_cons, List.reverse_append, List.reverse_singleton,
    List.singleton_append, List.cons_append] at hreverse
  have hle := h a between.reverse hreverse
  rwa [requests, List.map_reverse, List.toFinset_reverse] at hle

/-- A queue of `n` elements that evicts its head misses at most `n / (n - h + 1)` times what
a store of `h` elements that knows the requests has to load, up to a constant. -/
theorem QueueRun.misses_le {n h loads : ℕ} {run : List (α × Bool)} {l : List α} {final : Finset α}
    (hrun : QueueRun n run l) (hh : 1 ≤ h) (hn : h ≤ n)
    (hserves : Serves h ∅ (requests run).reverse loads final) :
    (n - h + 1) * misses run ≤ n * loads + (h - 1) * (n - h) := by
  have hreverse : (requests run).reverse = requests run.reverse := (List.map_reverse ..).symm
  rw [hreverse] at hserves
  have hle := hrun.missesApart.reverse.misses_le_of_loads hh hn hserves
  rwa [misses, List.countP_reverse] at hle

end CachePolicies
