import CachePolicies.CacheManagers

/-!
# The load and evict protocol

`Protocol` collects what a manager owes those who listen to it: an invariant which every
call keeps, visits whose events and residents follow `VisitEffect`, and a reported size
which is the number of residents. What follows from it for whole runs is proved once,
for all managers.
-/

namespace CachePolicies

variable {α : Type} [DecidableEq α]

/-- `Inv` is kept by every call that is made where `Fits` holds, under listeners whose
reaction to an eviction is among `settles`. -/
structure Protocol (P : CacheManager α) (maxNodes : ℤ) (Inv : P.State → Prop)
    (Fits : P.State → Call α → Prop) (settles : (α → P.State → P.State) → Prop) : Prop where
  initial : Inv P.initial
  visit : ∀ {L : Type} {listeners : List (CacheManagerListener α P.State L)}
    {settle : α → P.State → P.State} {onEvict onLoad : α → L → L},
    Responds listeners settle onEvict onLoad → settles settle →
    ∀ {m : P.State} {k : α} (l : L), Inv m → Fits m (.visit k) →
      ∃ m' l', P.visit listeners k (m, l) = .ok (m', l') ∧ Inv m' ∧
        VisitEffect (P.resident m) k onEvict onLoad l (P.resident m') l'
  remove : ∀ {m : P.State} {k : α}, Inv m → Fits m (.remove k) →
    ∃ m', P.remove k m = .ok m' ∧ Inv m' ∧ P.resident m' = (P.resident m).erase k
  clear : ∀ {m : P.State}, Inv m → Inv (P.clear m) ∧ P.resident (P.clear m) = ∅
  size : ∀ {m : P.State}, Inv m →
    P.cacheSize m = (P.resident m).card ∧ P.cacheSize m ≤ maxNodes

/-- What one visit tells a recording listener, and what it makes of the residents. -/
structure Reported (P : CacheManager α) (maxNodes : ℤ) (m : P.State) (k : α) (m' : P.State)
    (events : List (Event α)) : Prop where
  loads : loads events = if k ∈ P.resident m then [] else [k]
  evicts_once : (evictions events).length ≤ 1
  evicts_on_miss : k ∈ P.resident m → evictions events = []
  evicts_resident : ∀ x ∈ evictions events, x ∈ P.resident m ∧ x ≠ k
  resident : P.resident m' = insert k (P.resident m) \ (evictions events).toFinset
  size : P.cacheSize m' = (P.resident m').card
  size_le : P.cacheSize m' ≤ maxNodes

/-- The visits of a history which found their key resident. -/
def residentVisits (P : CacheManager α) :
    List (Record P.State (Call α) (List (Event α))) → ℕ
  | [] => 0
  | r :: history =>
    match r.call with
    | .visit k => residentVisits P history + if k ∈ P.resident r.before then 1 else 0
    | _ => residentVisits P history

/-- The number of times that `objectLoaded` was fired. -/
def loadCount {S : Type} : List (Record S (Call α) (List (Event α))) → ℕ
  | [] => 0
  | r :: history => loadCount history + (loads r.output).length

namespace Protocol

variable {P : CacheManager α} {maxNodes : ℤ} {Inv : P.State → Prop}
  {Fits : P.State → Call α → Prop} {settles : (α → P.State → P.State) → Prop} {k : α}
  {m m' : P.State} {history : List (Record P.State (Call α) (List (Event α)))}
  {events : List (Event α)}

/-- A stronger condition on the calls may be asked for. -/
theorem of_fits {Fits' : P.State → Call α → Prop} (h : Protocol P maxNodes Inv Fits settles)
    (hfits : ∀ m call, Fits' m call → Fits m call) : Protocol P maxNodes Inv Fits' settles where
  initial := h.initial
  visit hr hs _ _ l hm hf := h.visit hr hs l hm (hfits _ _ hf)
  remove hm hf := h.remove hm (hfits _ _ hf)
  clear := h.clear
  size := h.size

/-- One of the reactions to an eviction may be singled out. -/
theorem of_settles {settle : α → P.State → P.State} (h : Protocol P maxNodes Inv Fits settles)
    (hsettle : settles settle) :
    Protocol P maxNodes Inv Fits fun settle' => settle' = settle where
  initial := h.initial
  visit hr hs _ _ l hm hf := h.visit hr (hs ▸ hsettle) l hm hf
  remove := h.remove
  clear := h.clear
  size := h.size

theorem erase_insert {s : Finset α} {x : α} (hk : k ∉ s) (hx : x ∈ s) :
    insert k (s.erase x) = insert k s \ {x} := by
  have hxk : x ≠ k := fun he => hk (he ▸ hx)
  ext y
  simp only [Finset.mem_insert, Finset.mem_erase, Finset.mem_sdiff, Finset.mem_singleton]
  constructor
  · rintro (rfl | ⟨hne, hy⟩)
    · exact ⟨.inl rfl, hxk.symm⟩
    · exact ⟨.inr hy, hne⟩
  · rintro ⟨rfl | hy, hne⟩
    · exact .inl rfl
    · exact .inr ⟨hne, hy⟩

/-- The effect of a visit, as a recording listener sees it. -/
theorem reported_of_effect (hsize : P.cacheSize m' = (P.resident m').card)
    (hle : P.cacheSize m' ≤ maxNodes)
    (h : VisitEffect (P.resident m) k recordEviction recordLoad [] (P.resident m') events) :
    Reported P maxNodes m k m' events := by
  generalize hr : P.resident m' = r' at h
  cases h with
  | hit hk =>
    exact ⟨by rw [if_pos hk]; rfl, by simp, fun _ => rfl, by simp,
      by rw [hr, Finset.insert_eq_of_mem hk]; simp, hsize, hle⟩
  | miss hk hroom =>
    cases hroom with
    | kept =>
      exact ⟨by rw [if_neg hk]; simp, by simp, fun h => absurd h hk, by simp, by rw [hr]; simp,
        hsize, hle⟩
    | @evicted x hx =>
      refine ⟨by rw [if_neg hk]; simp, by simp, fun h => absurd h hk, ?_, ?_, hsize, hle⟩
      · intro y hy
        simp only [evictions_recordLoad, evictions_recordEviction, evictions_nil, List.nil_append,
          List.mem_singleton] at hy
        subst hy
        exact ⟨hx, fun he => hk (he ▸ hx)⟩
      · rw [hr, erase_insert hk hx]
        simp
  | @trimmed x hk hx =>
    refine ⟨by rw [if_neg hk]; simp, by simp, fun h => absurd h hk, ?_, ?_, hsize, hle⟩
    · intro y hy
      simp only [evictions_recordLoad, evictions_recordEviction, evictions_nil, List.nil_append,
        List.mem_singleton] at hy
      subst hy
      exact ⟨hx, fun he => hk (he ▸ hx)⟩
    · rw [hr, erase_insert hk hx]
      simp

section Runs

variable (h : Protocol P maxNodes Inv Fits settles) (hs : settles (fun _ m => m))

include h hs

theorem visit_reported (hm : Inv m) (hfits : Fits m (.visit k)) :
    ∃ m' events, P.perform m (.visit k) = .ok (m', events) ∧ Inv m' ∧
      Reported P maxNodes m k m' events := by
  obtain ⟨m', events, hok, hm', heffect⟩ := h.visit recorder_responds hs [] hm hfits
  obtain ⟨hsize, hle⟩ := h.size hm'
  exact ⟨m', events, hok, hm', reported_of_effect hsize hle heffect⟩

theorem perform {call : Call α} (hm : Inv m) (hfits : Fits m call) :
    ∃ m' events, P.perform m call = .ok (m', events) ∧ Inv m' := by
  cases call with
  | visit k =>
    obtain ⟨m', events, hok, hm', -⟩ := h.visit_reported hs hm hfits
    exact ⟨m', events, hok, hm'⟩
  | remove k =>
    obtain ⟨m', hok, hm', -⟩ := h.remove hm hfits
    refine ⟨m', [], ?_, hm'⟩
    rw [CacheManager.perform, hok]
    rfl
  | clear => exact ⟨_, _, rfl, (h.clear hm).1⟩

theorem invariant (hrun : P.Reaches history m) (hfits : Meets Fits history) : Inv m := by
  refine Run.invariant h.initial ?_ hrun hfits
  intro m call m' events hm hfit hok
  obtain ⟨m₁, events₁, hok₁, hm₁⟩ := h.perform hs hm hfit
  cases hok₁.symm.trans hok
  exact hm₁

/-- In a run of visits each visit either loads its key or finds it resident. -/
theorem loads_add_residentVisits (hrun : P.Reaches history m) (hfits : Meets Fits history)
    (hvisits : ∀ r ∈ history, ∃ k, r.call = .visit k) :
    loadCount history + residentVisits P history = history.length := by
  induction hrun with
  | start => rfl
  | @call history m m' call events run hok ih =>
    obtain ⟨hfit, hrest⟩ := meets_cons.mp hfits
    obtain ⟨k, hk⟩ := hvisits _ List.mem_cons_self
    obtain rfl : call = .visit k := hk
    have hinv := h.invariant hs run hrest
    obtain ⟨m₁, events₁, hok₁, -, hreported⟩ := h.visit_reported hs hinv hfit
    cases hok₁.symm.trans hok
    have hih := ih hrest fun r hr => hvisits r (List.mem_cons_of_mem _ hr)
    have hloads := congrArg List.length hreported.loads
    simp only [loadCount, residentVisits, List.length_cons]
    split at hloads
    · next hres =>
      rw [if_pos hres, hloads, List.length_nil]
      omega
    · next hres =>
      rw [if_neg hres, hloads, List.length_singleton]
      omega

end Runs

end Protocol

end CachePolicies
