import Mathlib.Data.List.Basic

/-!
# Runs of a step function that may fail

A machine takes a call in a state, and either fails or answers with an output and
a new state. A run is the list of its records, the latest first. The invariant
rule lets the steps of a run be restricted by a condition on the state in which a
call is made.
-/

namespace CachePolicies

universe u v w x

variable {S : Type u} {C : Type v} {O : Type w} {E : Type x}

/-- One completed call of a run. -/
structure Record (S : Type u) (C : Type v) (O : Type w) where
  before : S
  call : C
  output : O
  after : S

/-- `Run step init history s`: the calls recorded in `history` succeed one after
the other and lead from `init` to `s`. -/
inductive Run (step : S → C → Except E (S × O)) (init : S) : List (Record S C O) → S → Prop
  | start : Run step init [] init
  | call {history : List (Record S C O)} {s s' : S} {c : C} {o : O}
      (run : Run step init history s) (hstep : step s c = .ok (s', o)) :
      Run step init (⟨s, c, o, s'⟩ :: history) s'

/-- Every recorded call was made in a state where the condition held. -/
def Meets (condition : S → C → Prop) (history : List (Record S C O)) : Prop :=
  ∀ r ∈ history, condition r.before r.call

instance (condition : S → C → Prop) [∀ s c, Decidable (condition s c)]
    (history : List (Record S C O)) : Decidable (Meets condition history) :=
  inferInstanceAs (Decidable (∀ r ∈ history, condition r.before r.call))

variable {step : S → C → Except E (S × O)} {init : S} {condition : S → C → Prop}
  {history : List (Record S C O)} {s : S}

@[simp] theorem meets_nil : Meets condition ([] : List (Record S C O)) := by simp [Meets]

@[simp] theorem meets_cons {r : Record S C O} :
    Meets condition (r :: history) ↔ condition r.before r.call ∧ Meets condition history := by
  simp [Meets]

namespace Run

/-- What holds initially and survives every admitted step holds in every state reached. -/
theorem invariant {Inv : S → Prop} (hinit : Inv init)
    (hstep : ∀ s c s' o, Inv s → condition s c → step s c = .ok (s', o) → Inv s')
    (hrun : Run step init history s) (hmeets : Meets condition history) : Inv s := by
  induction hrun with
  | start => exact hinit
  | call run hok ih =>
    obtain ⟨hc, hm⟩ := meets_cons.mp hmeets
    exact hstep _ _ _ _ (ih hm) hc hok

/-- A property of admitted steps from good states holds of every record of a run. -/
theorem records {Inv : S → Prop} {Good : Record S C O → Prop} (hinit : Inv init)
    (hstep : ∀ s c s' o, Inv s → condition s c → step s c = .ok (s', o) →
      Inv s' ∧ Good ⟨s, c, o, s'⟩)
    (hrun : Run step init history s) (hmeets : Meets condition history) :
    ∀ r ∈ history, Good r := by
  induction hrun with
  | start => simp
  | call run hok ih =>
    obtain ⟨hc, hm⟩ := meets_cons.mp hmeets
    have hinv := invariant hinit (fun s c s' o hi hc h => (hstep s c s' o hi hc h).1) run hm
    intro r hr
    rcases List.mem_cons.mp hr with rfl | hr
    · exact (hstep _ _ _ _ hinv hc hok).2
    · exact ih hm r hr

end Run

/-- The calls succeed one after the other, and `P` holds of every state on the way. -/
def Throughout (step : S → C → Except E (S × O)) (P : S → Prop) : S → List C → Prop
  | s, [] => P s
  | s, c :: calls => P s ∧ ∃ s' o, step s c = .ok (s', o) ∧ Throughout step P s' calls

theorem Throughout.head {P : S → Prop} {calls : List C} (h : Throughout step P s calls) : P s := by
  cases calls with
  | nil => exact h
  | cons _ _ => exact h.1

/-- Each of the calls, as far as they succeed, is made in a state where the condition holds. -/
def Admitted (step : S → C → Except E (S × O)) (condition : S → C → Prop) : S → List C → Prop
  | _, [] => True
  | s, c :: calls =>
    condition s c ∧ ∀ s' o, step s c = .ok (s', o) → Admitted step condition s' calls

theorem admitted_cons_of_ok {c : C} {calls : List C} {s' : S} {o : O}
    (hok : step s c = .ok (s', o)) :
    Admitted step condition s (c :: calls) ↔
      condition s c ∧ Admitted step condition s' calls := by
  constructor
  · rintro ⟨hc, hrest⟩
    exact ⟨hc, hrest s' o hok⟩
  · rintro ⟨hc, hrest⟩
    refine ⟨hc, fun s₁ o₁ h₁ => ?_⟩
    cases hok.symm.trans h₁
    exact hrest

theorem admitted_cons_of_error {c : C} {calls : List C} {e : E} (herror : step s c = .error e) :
    Admitted step condition s (c :: calls) ↔ condition s c := by
  constructor
  · exact And.left
  · intro hc
    refine ⟨hc, fun s₁ o₁ h₁ => ?_⟩
    cases herror.symm.trans h₁

theorem Admitted.mono {other : S → C → Prop} (hother : ∀ s c, condition s c → other s c)
    {calls : List C} (h : Admitted step condition s calls) : Admitted step other s calls := by
  induction calls generalizing s with
  | nil => trivial
  | cons c calls ih => exact ⟨hother s c h.1, fun s' o hok => ih (h.2 s' o hok)⟩

theorem admitted_true (s : S) (calls : List C) : Admitted step (fun _ _ => True) s calls := by
  induction calls generalizing s with
  | nil => trivial
  | cons c calls ih => exact ⟨trivial, fun s' _ _ => ih s'⟩

instance instDecidableAdmitted [∀ s c, Decidable (condition s c)] :
    ∀ (s : S) (calls : List C), Decidable (Admitted step condition s calls)
  | _, [] => .isTrue trivial
  | s, c :: calls =>
    match hok : step s c with
    | .error _ => decidable_of_iff _ (admitted_cons_of_error hok).symm
    | .ok (s', _) =>
      have := instDecidableAdmitted s' calls
      decidable_of_iff _ (admitted_cons_of_ok hok).symm

/-- Where the condition is exactly what one step needs to reach a good state from an
invariant one, the calls that keep to it are exactly those that stay good throughout. -/
theorem throughout_iff_admitted {Inv P : S → Prop} (hgood : ∀ s, Inv s → P s)
    (hstep : ∀ s c, Inv s → condition s c → ∃ s' o, step s c = .ok (s', o) ∧ Inv s')
    (hneed : ∀ s c s' o, Inv s → step s c = .ok (s', o) → P s' → condition s c)
    {calls : List C} (hinv : Inv s) :
    Throughout step P s calls ↔ Admitted step condition s calls := by
  induction calls generalizing s with
  | nil => exact ⟨fun _ => trivial, fun _ => hgood s hinv⟩
  | cons c calls ih =>
    constructor
    · rintro ⟨-, s', o, hok, hrest⟩
      have hc := hneed s c s' o hinv hok hrest.head
      obtain ⟨s'', o'', hok', hinv'⟩ := hstep s c hinv hc
      rw [hok] at hok'
      cases hok'
      refine ⟨hc, fun s₁ o₁ h₁ => ?_⟩
      rw [hok] at h₁
      cases h₁
      exact (ih hinv').mp hrest
    · rintro ⟨hc, hrest⟩
      obtain ⟨s', o, hok, hinv'⟩ := hstep s c hinv hc
      exact ⟨hgood s hinv, s', o, hok, (ih hinv').mpr (hrest s' o hok)⟩

/-- The calls succeed one after the other, and each of them leaves a good record. -/
def Succeeds (step : S → C → Except E (S × O)) (Good : Record S C O → Prop) : S → List C → Prop
  | _, [] => True
  | s, c :: calls =>
    ∃ s' o, step s c = .ok (s', o) ∧ Good ⟨s, c, o, s'⟩ ∧ Succeeds step Good s' calls

/-- Where every call leaves a good record and keeps the invariant, all calls succeed. -/
theorem Succeeds.of_invariant {Inv : S → Prop} {Good : Record S C O → Prop}
    (hstep : ∀ s c, Inv s →
      ∃ s' o, step s c = .ok (s', o) ∧ Inv s' ∧ Good ⟨s, c, o, s'⟩)
    (hinv : Inv s) (calls : List C) : Succeeds step Good s calls := by
  induction calls generalizing s with
  | nil => trivial
  | cons c calls ih =>
    obtain ⟨s', o, hok, hinv', hgood⟩ := hstep s c hinv
    exact ⟨s', o, hok, hgood, ih hinv'⟩

/-- Among the calls that are allowed, those that keep to the condition are those that succeed. -/
theorem succeeds_iff_of_admitted {allowed : S → C → Prop} {Inv : S → Prop}
    {Good : Record S C O → Prop}
    (hstep : ∀ s c, Inv s → allowed s c → condition s c →
      ∃ s' o, step s c = .ok (s', o) ∧ Inv s' ∧ Good ⟨s, c, o, s'⟩)
    (hneed : ∀ s c s' o, Inv s → allowed s c → step s c = .ok (s', o) → Good ⟨s, c, o, s'⟩ →
      condition s c)
    {calls : List C} (hinv : Inv s) (hallowed : Admitted step allowed s calls) :
    Succeeds step Good s calls ↔ Admitted step condition s calls := by
  induction calls generalizing s with
  | nil => exact iff_of_true trivial trivial
  | cons c calls ih =>
    obtain ⟨hallow, hallowed⟩ := hallowed
    constructor
    · rintro ⟨s', o, hok, hgood, hrest⟩
      have hc := hneed s c s' o hinv hallow hok hgood
      obtain ⟨s'', o'', hok', hinv', -⟩ := hstep s c hinv hallow hc
      cases hok.symm.trans hok'
      rw [admitted_cons_of_ok hok]
      exact ⟨hc, (ih hinv' (hallowed s' o hok)).mp hrest⟩
    · rintro ⟨hc, hrest⟩
      obtain ⟨s', o, hok, hinv', hgood⟩ := hstep s c hinv hallow hc
      exact ⟨s', o, hok, hgood, (ih hinv' (hallowed s' o hok)).mpr (hrest s' o hok)⟩

/-- Where an allowed call always succeeds, and its record is good just where the condition
holds, the calls that succeed throughout are those that keep to the condition. -/
theorem succeeds_iff_of_step {allowed : S → C → Prop} {Inv : S → Prop}
    {Good : Record S C O → Prop}
    (hstep : ∀ s c, Inv s → allowed s c →
      ∃ s' o, step s c = .ok (s', o) ∧ (condition s c → Inv s') ∧
        (Good ⟨s, c, o, s'⟩ ↔ condition s c))
    {calls : List C} (hinv : Inv s) (hallowed : Admitted step allowed s calls) :
    Succeeds step Good s calls ↔ Admitted step condition s calls := by
  refine succeeds_iff_of_admitted ?_ ?_ hinv hallowed
  · intro s c hinv hallow hc
    obtain ⟨s', o, hok, hnext, hiff⟩ := hstep s c hinv hallow
    exact ⟨s', o, hok, hnext hc, hiff.mpr hc⟩
  · intro s c s' o hinv hallow hok hgood
    obtain ⟨s'', o', hok', -, hiff⟩ := hstep s c hinv hallow
    cases hok.symm.trans hok'
    exact hiff.mp hgood

/-- Where the condition is exactly what one step needs to leave a good record, the calls that
keep to it are exactly those that succeed. -/
theorem succeeds_iff_admitted {Inv : S → Prop} {Good : Record S C O → Prop}
    (hstep : ∀ s c, Inv s → condition s c →
      ∃ s' o, step s c = .ok (s', o) ∧ Inv s' ∧ Good ⟨s, c, o, s'⟩)
    (hneed : ∀ s c s' o, Inv s → step s c = .ok (s', o) → Good ⟨s, c, o, s'⟩ → condition s c)
    {calls : List C} (hinv : Inv s) :
    Succeeds step Good s calls ↔ Admitted step condition s calls := by
  have hallowed : Admitted step (fun _ _ => True) s calls := admitted_true s calls
  exact succeeds_iff_of_admitted (fun s c hi _ hc => hstep s c hi hc)
    (fun s c s' o hi _ hok hgood => hneed s c s' o hi hok hgood) hinv hallowed

/-- Where the condition is one on the calls alone, all of them have to meet it. -/
theorem succeeds_iff_forall {Inv : S → Prop} {Good : Record S C O → Prop} {accepted : C → Prop}
    (hstep : ∀ s c, Inv s → accepted c →
      ∃ s' o, step s c = .ok (s', o) ∧ Inv s' ∧ Good ⟨s, c, o, s'⟩)
    (hneed : ∀ s c s' o, Inv s → step s c = .ok (s', o) → Good ⟨s, c, o, s'⟩ → accepted c)
    {calls : List C} (hinv : Inv s) :
    Succeeds step Good s calls ↔ ∀ c ∈ calls, accepted c := by
  induction calls generalizing s with
  | nil => exact iff_of_true trivial (by simp)
  | cons c calls ih =>
    rw [List.forall_mem_cons]
    constructor
    · rintro ⟨s', o, hok, hgood, hrest⟩
      have hc := hneed s c s' o hinv hok hgood
      obtain ⟨s'', o'', hok', hinv', -⟩ := hstep s c hinv hc
      cases hok.symm.trans hok'
      exact ⟨hc, (ih hinv').mp hrest⟩
    · rintro ⟨hc, hrest⟩
      obtain ⟨s', o, hok, hinv', hgood⟩ := hstep s c hinv hc
      exact ⟨s', o, hok, hgood, (ih hinv').mpr hrest⟩

/-- Run a list of calls, the first one first, behind a given history. -/
def replayFrom (step : S → C → Except E (S × O)) :
    List (Record S C O) → S → List C → Except E (List (Record S C O) × S)
  | history, s, [] => .ok (history, s)
  | history, s, c :: calls =>
    match step s c with
    | .error e => .error e
    | .ok (s', o) => replayFrom step (⟨s, c, o, s'⟩ :: history) s' calls

def replay (step : S → C → Except E (S × O)) (init : S) (calls : List C) :
    Except E (List (Record S C O) × S) :=
  replayFrom step [] init calls

theorem Run.replayFrom {history' : List (Record S C O)} {s' : S} {calls : List C}
    (hrun : Run step init history s)
    (h : replayFrom step history s calls = .ok (history', s')) : Run step init history' s' := by
  induction calls generalizing history s with
  | nil =>
    cases h
    exact hrun
  | cons c calls ih =>
    rw [CachePolicies.replayFrom] at h
    split at h
    · cases h
    · next hok => exact ih (hrun.call hok) h

theorem replayFrom_append {history' : List (Record S C O)} {s' : S} {calls more : List C}
    (h : replayFrom step history s calls = .ok (history', s')) :
    replayFrom step history s (calls ++ more) = replayFrom step history' s' more := by
  induction calls generalizing history s with
  | nil =>
    cases h
    rfl
  | cons c calls ih =>
    rw [replayFrom] at h
    rw [List.cons_append, replayFrom]
    split at h
    · cases h
    · exact ih h

theorem replay_concat {calls : List C} {c : C} {s' : S} {o : O}
    (h : replay step init calls = .ok (history, s)) (hok : step s c = .ok (s', o)) :
    replay step init (calls ++ [c]) = .ok (⟨s, c, o, s'⟩ :: history, s') := by
  rw [replay, replayFrom_append h, replayFrom, hok]
  rfl

/-- The records of a replay are those of its calls. -/
theorem calls_of_replayFrom {history' : List (Record S C O)} {s' : S} {calls : List C}
    (h : replayFrom step history s calls = .ok (history', s')) :
    (history'.map Record.call).reverse = (history.map Record.call).reverse ++ calls := by
  induction calls generalizing history s with
  | nil =>
    cases h
    rw [List.append_nil]
  | cons c calls ih =>
    rw [replayFrom] at h
    split at h
    · cases h
    · rw [ih h, List.map_cons, List.reverse_cons, List.append_assoc, List.singleton_append]

/-- Calls that are admitted leave records that meet the condition. -/
theorem Admitted.meets {history' : List (Record S C O)} {s' : S} {calls : List C}
    (h : replayFrom step history s calls = .ok (history', s')) (hmeets : Meets condition history)
    (hadmitted : Admitted step condition s calls) : Meets condition history' := by
  induction calls generalizing history s with
  | nil =>
    cases h
    exact hmeets
  | cons c calls ih =>
    rw [replayFrom] at h
    split at h
    · cases h
    · next hok => exact ih h (meets_cons.mpr ⟨hadmitted.1, hmeets⟩) (hadmitted.2 _ _ hok)

/-- What is admitted is so after the first calls. -/
theorem Admitted.of_append {history' : List (Record S C O)} {s' : S} {calls more : List C}
    (h : replayFrom step history s calls = .ok (history', s'))
    (hadmitted : Admitted step condition s (calls ++ more)) : Admitted step condition s' more := by
  induction calls generalizing history s with
  | nil =>
    cases h
    exact hadmitted
  | cons c calls ih =>
    rw [replayFrom] at h
    split at h
    · cases h
    · next hok => exact ih h (hadmitted.2 _ _ hok)

theorem Throughout.replayFrom {P : S → Prop} {calls : List C} (history : List (Record S C O))
    (h : Throughout step P s calls) :
    ∃ r, replayFrom step history s calls = .ok r := by
  induction calls generalizing history s with
  | nil => exact ⟨_, rfl⟩
  | cons c calls ih =>
    obtain ⟨-, s', o, hok, hrest⟩ := h
    obtain ⟨r, hr⟩ := ih (⟨s, c, o, s'⟩ :: history) hrest
    exact ⟨r, by rw [CachePolicies.replayFrom, hok]; exact hr⟩

/-- Where no call fails and each keeps the invariant, every list of calls can be run. -/
theorem exists_replayFrom {Inv : List (Record S C O) → S → Prop}
    (hstep : ∀ history s c, Inv history s →
      ∃ s' o, step s c = .ok (s', o) ∧ Inv (⟨s, c, o, s'⟩ :: history) s')
    (h : Inv history s) (calls : List C) :
    ∃ history' s', replayFrom step history s calls = .ok (history', s') ∧
      Inv history' s' := by
  induction calls generalizing history s with
  | nil => exact ⟨history, s, rfl, h⟩
  | cons c calls ih =>
    obtain ⟨s', o, hok, h'⟩ := hstep history s c h
    obtain ⟨history'', s'', hreplay, h''⟩ := ih h'
    refine ⟨history'', s'', ?_, h''⟩
    rw [replayFrom, hok]
    exact hreplay

/-- Where the condition is exactly what a call needs to return, the calls that keep to it are
exactly those that all return. -/
theorem returns_iff_admitted {Inv : S → Prop}
    (hstep : ∀ s c, Inv s → condition s c → ∃ s' o, step s c = .ok (s', o) ∧ Inv s')
    (hneed : ∀ s c s' o, Inv s → step s c = .ok (s', o) → condition s c)
    (history : List (Record S C O)) {calls : List C} (hinv : Inv s) :
    (∃ r, replayFrom step history s calls = .ok r) ↔ Admitted step condition s calls := by
  induction calls generalizing history s with
  | nil => exact iff_of_true ⟨_, rfl⟩ trivial
  | cons c calls ih =>
    constructor
    · rintro ⟨r, hr⟩
      rw [replayFrom] at hr
      split at hr
      · cases hr
      · next s' o hok =>
        have hcondition := hneed s c s' o hinv hok
        obtain ⟨s'', o'', hok', hinv'⟩ := hstep s c hinv hcondition
        cases hok'.symm.trans hok
        rw [admitted_cons_of_ok hok]
        exact ⟨hcondition, (ih _ hinv').mp ⟨r, hr⟩⟩
    · rintro ⟨hcondition, hrest⟩
      obtain ⟨s', o, hok, hinv'⟩ := hstep s c hinv hcondition
      obtain ⟨r, hr⟩ := (ih (⟨s, c, o, s'⟩ :: history) hinv').mpr (hrest s' o hok)
      exact ⟨r, by rw [replayFrom, hok]; exact hr⟩

/-- Where the condition is exactly what a call needs to keep the run good, the calls that keep to
it are those whose first calls, however many, all leave a good run. -/
theorem prefixes_iff_admitted {Inv Good : List (Record S C O) → S → Prop}
    (hgood : ∀ history s, Inv history s → Good history s)
    (hstep : ∀ history s c, Inv history s → condition s c →
      ∃ s' o, step s c = .ok (s', o) ∧ Inv (⟨s, c, o, s'⟩ :: history) s')
    (hneed : ∀ history s c s' o, Inv history s → step s c = .ok (s', o) →
      Good (⟨s, c, o, s'⟩ :: history) s' → condition s c)
    {calls : List C} (hinv : Inv history s) :
    (∀ start, start <+: calls → ∃ history' s',
      replayFrom step history s start = .ok (history', s') ∧ Good history' s') ↔
    Admitted step condition s calls := by
  induction calls generalizing history s with
  | nil =>
    refine iff_of_true (fun start hstart => ?_) trivial
    cases List.prefix_nil.mp hstart
    exact ⟨history, s, rfl, hgood history s hinv⟩
  | cons c calls ih =>
    constructor
    · intro h
      obtain ⟨history₁, s₁, hreplay, hgood₁⟩ := h [c] ⟨calls, rfl⟩
      simp only [replayFrom] at hreplay
      split at hreplay
      · cases hreplay
      · next s' o hok =>
        cases hreplay
        have hcondition := hneed history s c _ o hinv hok hgood₁
        obtain ⟨s'', o', hok', hinv'⟩ := hstep history s c hinv hcondition
        cases hok'.symm.trans hok
        rw [admitted_cons_of_ok hok]
        refine ⟨hcondition, (ih hinv').mp fun start hstart => ?_⟩
        obtain ⟨history₂, s₂, hreplay, hgood₂⟩ :=
          h (c :: start) (List.cons_prefix_cons.mpr ⟨rfl, hstart⟩)
        rw [replayFrom, hok] at hreplay
        exact ⟨history₂, s₂, hreplay, hgood₂⟩
    · rintro ⟨hcondition, hrest⟩ start hstart
      obtain ⟨s', o, hok, hinv'⟩ := hstep history s c hinv hcondition
      cases start with
      | nil => exact ⟨history, s, rfl, hgood history s hinv⟩
      | cons d start =>
        obtain ⟨rfl, htail⟩ := List.cons_prefix_cons.mp hstart
        obtain ⟨history₁, s₁, hreplay, hgood₁⟩ := (ih hinv').mpr (hrest s' o hok) start htail
        refine ⟨history₁, s₁, ?_, hgood₁⟩
        rw [replayFrom, hok]
        exact hreplay

/-- Two machines which are fed the same inputs look the same after each of them exactly when
every input meets the condition that keeps related states related. -/
theorem agree_iff_admitted {S' : Type*} {C' : Type*} {O' : Type*} {E' : Type*} {I : Type*}
    {step' : S' → C' → Except E' (S' × O')} {f : I → C} {g : I → C'} (Related Same : S → S' → Prop)
    (hsame : ∀ s s', Related s s' → Same s s')
    (hkeep : ∀ s s' i, Related s s' → condition s (f i) → ∃ t o t' o',
      step s (f i) = .ok (t, o) ∧ step' s' (g i) = .ok (t', o') ∧ Related t t')
    (hneed : ∀ s s' i t o t' o', Related s s' → step s (f i) = .ok (t, o) →
      step' s' (g i) = .ok (t', o') → Same t t' → condition s (f i))
    (history : List (Record S C O)) (history' : List (Record S' C' O')) {s' : S'} {inputs : List I}
    (hrelated : Related s s') :
    (∀ start, start <+: inputs → ∃ r r', replayFrom step history s (start.map f) = .ok r ∧
      replayFrom step' history' s' (start.map g) = .ok r' ∧ Same r.2 r'.2) ↔
    Admitted step condition s (inputs.map f) := by
  induction inputs generalizing s s' history history' with
  | nil =>
    refine iff_of_true (fun start hstart => ?_) trivial
    cases List.prefix_nil.mp hstart
    exact ⟨_, _, rfl, rfl, hsame s s' hrelated⟩
  | cons i inputs ih =>
    constructor
    · intro h
      obtain ⟨r, r', hr, hr', hlike⟩ := h [i] ⟨inputs, rfl⟩
      simp only [List.map_cons, List.map_nil, replayFrom] at hr hr'
      split at hr
      · cases hr
      · next t o hok =>
        split at hr'
        · cases hr'
        · next t' o' hok' =>
          cases hr
          cases hr'
          have hcondition := hneed s s' i t o t' o' hrelated hok hok' hlike
          obtain ⟨t₁, o₁, t₁', o₁', hok₁, hok₁', hrelated₁⟩ := hkeep s s' i hrelated hcondition
          cases hok₁.symm.trans hok
          cases hok₁'.symm.trans hok'
          rw [List.map_cons, admitted_cons_of_ok hok]
          refine ⟨hcondition, (ih (⟨s, f i, o, t⟩ :: history) (⟨s', g i, o', t'⟩ :: history')
            hrelated₁).mp fun start hstart => ?_⟩
          obtain ⟨r, r', hr, hr', hlike⟩ := h (i :: start) (List.cons_prefix_cons.mpr ⟨rfl, hstart⟩)
          rw [List.map_cons, replayFrom, hok] at hr
          rw [List.map_cons, replayFrom, hok'] at hr'
          exact ⟨r, r', hr, hr', hlike⟩
    · rintro ⟨hcondition, hrest⟩ start hstart
      obtain ⟨t, o, t', o', hok, hok', hrelated'⟩ := hkeep s s' i hrelated hcondition
      cases start with
      | nil => exact ⟨_, _, rfl, rfl, hsame s s' hrelated⟩
      | cons j start =>
        obtain ⟨rfl, htail⟩ := List.cons_prefix_cons.mp hstart
        obtain ⟨r, r', hr, hr', hlike⟩ := (ih (⟨s, f j, o, t⟩ :: history)
          (⟨s', g j, o', t'⟩ :: history') hrelated').mpr (hrest t o hok) start htail
        refine ⟨r, r', ?_, ?_, hlike⟩
        · rw [List.map_cons, replayFrom, hok]
          exact hr
        · rw [List.map_cons, replayFrom, hok']
          exact hr'

/-- Two outcomes agree when both fail alike, or both succeed with related results. -/
inductive Agree {A : Type*} {B : Type*} (Related : A → B → Prop) : Except E A → Except E B → Prop
  | error (e : E) : Agree Related (.error e) (.error e)
  | ok {a : A} {b : B} (h : Related a b) : Agree Related (.ok a) (.ok b)

theorem Agree.related {A : Type*} {B : Type*} {Related : A → B → Prop} {a : A} {b : B}
    {x : Except E A} {y : Except E B} (h : Agree Related x y) (hx : x = .ok a) (hy : y = .ok b) :
    Related a b := by
  subst hx hy
  cases h with
  | ok h => exact h

theorem Agree.mono {A : Type*} {B : Type*} {Related Weaker : A → B → Prop} {x : Except E A}
    {y : Except E B} (h : Agree Related x y) (hweaker : ∀ a b, Related a b → Weaker a b) :
    Agree Weaker x y := by
  cases h with
  | error e => exact .error e
  | ok h => exact .ok (hweaker _ _ h)

theorem Agree.refl {A : Type*} {Related : A → A → Prop} (hrefl : ∀ a, Related a a)
    (x : Except E A) : Agree Related x x := by
  cases x with
  | error e => exact .error e
  | ok a => exact .ok (hrefl a)

/-- The outputs of a run, the latest first. -/
def outputs (history : List (Record S C O)) : List O := history.map Record.output

/-- Where every call keeps related machines related and gets the same output from both, whole
runs of the two agree. -/
theorem replayFrom_agree {S' : Type*} {step' : S' → C → Except E (S' × O)}
    {Related : S → S' → Prop}
    (hstep : ∀ s s' c, Related s s' →
      Agree (fun r r' => r.2 = r'.2 ∧ Related r.1 r'.1) (step s c) (step' s' c))
    {history' : List (Record S' C O)} {s' : S'} (hrelated : Related s s')
    (houtputs : outputs history = outputs history') (calls : List C) :
    Agree (fun r r' => outputs r.1 = outputs r'.1 ∧ Related r.2 r'.2)
      (replayFrom step history s calls) (replayFrom step' history' s' calls) := by
  induction calls generalizing history history' s s' with
  | nil => exact .ok ⟨houtputs, hrelated⟩
  | cons c calls ih =>
    have hagree := hstep s s' c hrelated
    rw [replayFrom, replayFrom]
    generalize step s c = x at hagree
    generalize step' s' c = y at hagree
    cases hagree with
    | error e => exact .error e
    | @ok a b h =>
      obtain ⟨t, o⟩ := a
      obtain ⟨t', o'⟩ := b
      obtain ⟨rfl, h⟩ := h
      refine ih h ?_
      simp only [outputs, List.map_cons] at houtputs ⊢
      rw [houtputs]

/-- Where both machines return from a call that meets the conditions of the two, and stay
related, what they record of whole runs is alike. -/
theorem replayFrom_forall₂ {S' : Type*} {O' : Type*} {E' : Type*}
    {step' : S' → C → Except E' (S' × O')} {condition' : S' → C → Prop} {Related : S → S' → Prop}
    {Same : Record S C O → Record S' C O' → Prop}
    (hstep : ∀ s s' c, Related s s' → condition s c → condition' s' c → ∃ t o t' o',
      step s c = .ok (t, o) ∧ step' s' c = .ok (t', o') ∧ Related t t' ∧
        Same ⟨s, c, o, t⟩ ⟨s', c, o', t'⟩)
    {history' : List (Record S' C O')} {s' : S'} (hrelated : Related s s')
    (hsame : List.Forall₂ Same history history') {calls : List C}
    (hcalls : Admitted step condition s calls) (hcalls' : Admitted step' condition' s' calls) :
    ∃ history₁ t history₁' t', replayFrom step history s calls = .ok (history₁, t) ∧
      replayFrom step' history' s' calls = .ok (history₁', t') ∧ Related t t' ∧
      List.Forall₂ Same history₁ history₁' := by
  induction calls generalizing history history' s s' with
  | nil => exact ⟨history, s, history', s', rfl, rfl, hrelated, hsame⟩
  | cons c calls ih =>
    obtain ⟨hcall, hrest⟩ := hcalls
    obtain ⟨hcall', hrest'⟩ := hcalls'
    obtain ⟨t, o, t', o', hok, hok', hrelated', hsame'⟩ := hstep s s' c hrelated hcall hcall'
    rw [replayFrom, hok, replayFrom, hok']
    exact ih hrelated' (.cons hsame' hsame) (hrest t o hok) (hrest' t' o' hok')

/-- Two runs from related states, of which the second leaves out the calls not to be kept, look
the same after each call exactly when every call left out meets the condition that keeps the
states related. -/
theorem agree_filter_iff_admitted {Related Same : S → S → Prop} {keep : C → Bool}
    (hsame : ∀ s s', Related s s' → Same s s')
    (hkept : ∀ s c, keep c = true → condition s c)
    (hkeep : ∀ s s' c, keep c = true → Related s s' →
      Agree (fun r r' => Related r.1 r'.1) (step s c) (step s' c))
    (hdrop : ∀ s s' c, keep c = false → Related s s' → condition s c →
      ∃ t o, step s c = .ok (t, o) ∧ Related t s')
    (hneed : ∀ s s' c t o, keep c = false → Related s s' → step s c = .ok (t, o) → Same t s' →
      condition s c)
    (history history' : List (Record S C O)) {s' : S} {calls : List C} (hrelated : Related s s') :
    (∀ start, start <+: calls → Agree (fun r r' => Same r.2 r'.2)
      (replayFrom step history s start) (replayFrom step history' s' (start.filter keep))) ↔
    Admitted step condition s calls := by
  induction calls generalizing s s' history history' with
  | nil =>
    refine iff_of_true (fun start hstart => ?_) trivial
    cases List.prefix_nil.mp hstart
    exact .ok (hsame s s' hrelated)
  | cons c calls ih =>
    cases hc : keep c with
    | true =>
      have hagree := hkeep s s' c hc hrelated
      have hfilter (start : List C) : (c :: start).filter keep = c :: start.filter keep :=
        List.filter_cons_of_pos hc
      generalize hx : step s c = x at hagree
      generalize hy : step s' c = y at hagree
      cases hagree with
      | error e =>
        rw [admitted_cons_of_error hx]
        refine iff_of_true (fun start hstart => ?_) (hkept s c hc)
        cases start with
        | nil => exact .ok (hsame s s' hrelated)
        | cons j start =>
          obtain ⟨rfl, -⟩ := List.cons_prefix_cons.mp hstart
          rw [hfilter, replayFrom, replayFrom, hx, hy]
          exact .error e
      | @ok r r' hnext =>
        obtain ⟨t, o⟩ := r
        obtain ⟨t', o'⟩ := r'
        rw [admitted_cons_of_ok hx, and_iff_right (hkept s c hc),
          ← ih (⟨s, c, o, t⟩ :: history) (⟨s', c, o', t'⟩ :: history') hnext]
        constructor
        · intro h start hstart
          have hall := h (c :: start) (List.cons_prefix_cons.mpr ⟨rfl, hstart⟩)
          rwa [hfilter, replayFrom, replayFrom, hx, hy] at hall
        · intro h start hstart
          cases start with
          | nil => exact .ok (hsame s s' hrelated)
          | cons j start =>
            obtain ⟨rfl, htail⟩ := List.cons_prefix_cons.mp hstart
            rw [hfilter, replayFrom, replayFrom, hx, hy]
            exact h start htail
    | false =>
      have hfilter (start : List C) : (c :: start).filter keep = start.filter keep := by
        rw [List.filter_cons_of_neg]
        simp [hc]
      constructor
      · intro h
        have hfirst := h [c] ⟨calls, rfl⟩
        rw [hfilter, List.filter_nil, replayFrom, replayFrom] at hfirst
        cases hx : step s c with
        | error e =>
          rw [hx] at hfirst
          cases hfirst
        | ok r =>
          obtain ⟨t, o⟩ := r
          rw [hx] at hfirst
          have hcondition := hneed s s' c t o hc hrelated hx (hfirst.related rfl rfl)
          obtain ⟨t₁, o₁, hx₁, hnext⟩ := hdrop s s' c hc hrelated hcondition
          cases hx₁.symm.trans hx
          rw [admitted_cons_of_ok hx]
          refine ⟨hcondition, (ih (⟨s, c, o, t⟩ :: history) history' hnext).mp fun start hstart => ?_⟩
          have hall := h (c :: start) (List.cons_prefix_cons.mpr ⟨rfl, hstart⟩)
          rwa [hfilter, replayFrom, hx] at hall
      · rintro ⟨hcondition, hrest⟩ start hstart
        obtain ⟨t, o, hx, hnext⟩ := hdrop s s' c hc hrelated hcondition
        cases start with
        | nil => exact .ok (hsame s s' hrelated)
        | cons j start =>
          obtain ⟨rfl, htail⟩ := List.cons_prefix_cons.mp hstart
          rw [hfilter, replayFrom, hx]
          exact (ih (⟨s, j, o, t⟩ :: history) history' hnext).mpr (hrest t o hx) start htail

/-- `P` holds of every state which the calls reach, as far as they succeed. -/
def Always (step : S → C → Except E (S × O)) (P : S → Prop) : S → List C → Prop
  | s, [] => P s
  | s, c :: calls => P s ∧ ∀ s' o, step s c = .ok (s', o) → Always step P s' calls

theorem Always.head {P : S → Prop} {calls : List C} (h : Always step P s calls) : P s := by
  cases calls with
  | nil => exact h
  | cons _ _ => exact h.1

/-- Where the condition is exactly what a call that returns needs to keep the invariant, the
property holds of every state reached exactly when the calls keep to it. -/
theorem always_iff_admitted {Inv P : S → Prop} (hgood : ∀ s, Inv s → P s)
    (hstep : ∀ s c s' o, Inv s → condition s c → step s c = .ok (s', o) → Inv s')
    (hneed : ∀ s c s' o, Inv s → step s c = .ok (s', o) → P s' → condition s c)
    {calls : List C} (hinv : Inv s) :
    Always step P s calls ↔
      Admitted step (fun s c => (∃ r, step s c = .ok r) → condition s c) s calls := by
  induction calls generalizing s with
  | nil => exact iff_of_true (hgood s hinv) trivial
  | cons c calls ih =>
    constructor
    · rintro ⟨-, hrest⟩
      have hcondition (s' : S) (o : O) (hok : step s c = .ok (s', o)) : condition s c :=
        hneed s c s' o hinv hok (hrest s' o hok).head
      refine ⟨?_, fun s' o hok => ?_⟩
      · rintro ⟨⟨s', o⟩, hok⟩
        exact hcondition s' o hok
      · exact (ih (hstep s c s' o hinv (hcondition s' o hok) hok)).mp (hrest s' o hok)
    · rintro ⟨hcondition, hrest⟩
      refine ⟨hgood s hinv, fun s' o hok => ?_⟩
      have hinv' := hstep s c s' o hinv (hcondition ⟨_, hok⟩) hok
      exact (ih hinv').mpr (hrest s' o hok)

/-- The calls return one after the other and lead to a state where `P` holds. -/
def LeadsTo (step : S → C → Except E (S × O)) (P : S → Prop) : S → List C → Prop
  | s, [] => P s
  | s, c :: calls => ∃ s' o, step s c = .ok (s', o) ∧ LeadsTo step P s' calls

namespace LeadsTo

variable {P Q : S → Prop} {calls more : List C}

theorem append (h : LeadsTo step Q s calls) (hmore : ∀ s', Q s' → LeadsTo step P s' more) :
    LeadsTo step P s (calls ++ more) := by
  induction calls generalizing s with
  | nil => exact hmore s h
  | cons c calls ih =>
    obtain ⟨s', o, hok, hrest⟩ := h
    exact ⟨s', o, hok, ih hrest⟩

/-- One stage of calls after the other. -/
theorem stages {Stage : ℕ → S → Prop} {calls : ℕ → List C} {n : ℕ}
    (hstage : ∀ i < n, ∀ s, Stage i s → LeadsTo step (Stage (i + 1)) s (calls i))
    (h : Stage 0 s) : LeadsTo step (Stage n) s ((List.range n).flatMap calls) := by
  induction n with
  | zero => exact h
  | succ n ih =>
    rw [List.range_succ, List.flatMap_append, List.flatMap_singleton]
    exact (ih fun i hi => hstage i (by omega)).append fun s' hs' => hstage n (by omega) s' hs'

theorem replayFrom (h : LeadsTo step P s calls) (history : List (Record S C O)) :
    ∃ history' s', replayFrom step history s calls = .ok (history', s') ∧ P s' := by
  induction calls generalizing history s with
  | nil => exact ⟨history, s, rfl, h⟩
  | cons c calls ih =>
    obtain ⟨s', o, hok, hrest⟩ := h
    obtain ⟨history', s'', hreplay, hs''⟩ := ih hrest (⟨s, c, o, s'⟩ :: history)
    refine ⟨history', s'', ?_, hs''⟩
    rw [CachePolicies.replayFrom, hok]
    exact hreplay

end LeadsTo

/-- Replaying a list of calls gives a run. -/
theorem run_of_replay (calls : List C) (h : replay step init calls = .ok (history, s)) :
    Run step init history s :=
  Run.start.replayFrom h

end CachePolicies
