import CachePolicies.AdaptiveReplacementInvariants
import Mathlib.Data.Fintype.EquivFin

/-!
# Clearing the adaptive manager

`clear` empties the queues and keeps `targetT1Size`. A cache of one node never compares a
target that can still differ, so there the target does not matter. In any larger cache it is
seen as soon as a full cache has to choose between the head of `t1` and that of `t2`.
-/

namespace CachePolicies.AdaptiveReplacementCacheManager

open MultipleQueueCacheManager ReplacementCacheManager ReplacementQueue

variable {α L : Type} [DecidableEq α]

def withTarget (target : ℤ) (m : AdaptiveReplacementCacheManager α) :
    AdaptiveReplacementCacheManager α :=
  { m with own := ⟨target⟩ }

/-- An empty manager with some target. -/
def start (target : ℤ) : AdaptiveReplacementCacheManager α := withTarget target initial

omit [DecidableEq α] in
theorem clear_eq_start (m : AdaptiveReplacementCacheManager α) :
    ReplacementCacheManager.clear m = start m.own.targetT1Size := rfl

/-- Two runs which fire the same events and leave the same queues. -/
abbrev SameRun (r r' : List (Record (AdaptiveReplacementCacheManager α) (Call α) (List (Event α))) ×
    AdaptiveReplacementCacheManager α) : Prop :=
  outputs r.1 = outputs r'.1 ∧ r.2.queues = r'.2.queues

/-! ## The targets that can be reached -/

section Targets

variable {config : AdaptiveReplacementConfiguration}
  {settle : α → AdaptiveReplacementCacheManager α → AdaptiveReplacementCacheManager α}
  {onEvict onLoad : α → L → L} {k : α} {m m' : AdaptiveReplacementCacheManager α} {l l' : L}

/-- Only a hit on a ghost changes the target. -/
theorem Visited.own_eq (hs : Settles subclass settle) (hm : m.Located)
    (hv : Visited config settle onEvict onLoad k m l m' l') :
    m'.own = m.own ∨ ∃ s target, (s = b1 ∨ s = b2) ∧ k ∈ m.queues s ∧
      adaptedTarget config s m = .ok target ∧ m'.own = ⟨target⟩ := by
  cases hv with
  | hit hq hk => exact .inl rfl
  | @ghostHit s target m' l' hq hk ht hf =>
    exact .inr ⟨s, target, hq, (hm k s).mp hk, ht,
      (hf.after (m := { m with own := ⟨target⟩ }) hs hm).own⟩
  | sideFull hk hside ht1 hx hf => exact .inl (hf.after hs (resident_dropGhost hm (.inl rfl) hx).1).own
  | t1Full hk hside ht1 hx => exact .inl rfl
  | directoryFull hk hside hcache hdirectory hx hf =>
    exact .inl (hf.after hs (resident_dropGhost hm (.inr rfl) hx).1).own
  | cacheFull hk hside hcache hdirectory hf => exact .inl (hf.after hs hm).own
  | room hk hside hcache => exact .inl rfl

omit [DecidableEq α] in
theorem isInt_adaptedTarget {s : AdaptiveReplacementQueue} {target : ℤ}
    (h : adaptedTarget config s m = .ok target) : IsInt target := by
  have hc := config.maxNodes.property
  rw [adaptedTarget] at h
  split at h
  all_goals
    obtain ⟨ratio, -, h⟩ := Java.bind_eq_ok.mp h
    cases h
  · have hsum := isInt_int32 (m.own.targetT1Size + max ratio 1)
    unfold IsInt at hc hsum ⊢
    omega
  · have hdifference := isInt_int32 (m.own.targetT1Size - max ratio 1)
    unfold IsInt at hdifference ⊢
    omega

/-- What holds of every state of every run, whether or not its sums fit. Where `maxNodes * 2`
overflows there are no ghosts, so that the target keeps its first value. -/
structure Reached (config : AdaptiveReplacementConfiguration)
    (m : AdaptiveReplacementCacheManager α) : Prop where
  located : m.Located
  target_isInt : IsInt m.own.targetT1Size
  unadapted : 2147483647 < 2 * config.maxNodes.val → Sound config m ∧ m.own.targetT1Size = 0

theorem Reached.visited (hc : 1 ≤ config.maxNodes.val) (h : Reached config m)
    {events : List (Event α)} (hok : (manager config).perform m (.visit k) = .ok (m', events))
    (hv : Visited config (fun _ m => m) recordEviction recordLoad k m [] m' events) :
    Reached config m' := by
  have hs : Settles subclass fun (_ : α) (m : AdaptiveReplacementCacheManager α) => m := .inl rfl
  have hown := hv.own_eq hs h.located
  refine ⟨(hv.effect hs h.located).1, ?_, fun hbig => ?_⟩
  · rcases hown with he | ⟨s, target, -, -, htarget, he⟩
    · rw [he]
      exact h.target_isInt
    · rw [he]
      exact isInt_adaptedTarget htarget
  · obtain ⟨hsound, hzero⟩ := h.unadapted hbig
    have hempty := hsound.unghosted hbig
    have hn1 := (m.queues b1).length_nonneg
    have hn2 := (m.queues b2).length_nonneg
    have hghost {s : AdaptiveReplacementQueue} (hq : s = b1 ∨ s = b2) : k ∉ m.queues s := by
      intro hmem
      have hpos := LinkedHashSet.length_pos_of_mem hmem
      rcases hq with rfl | rfl <;> omega
    have hfits : Fits config m (.visit k) :=
      ⟨hsound.capacity_fits hok, fun hk => absurd ((hsound.located k b1).mp hk) (hghost (.inl rfl))⟩
    refine ⟨hv.sound hc hs hsound hfits, ?_⟩
    rcases hown with he | ⟨s, target, hq, hmem, -, -⟩
    · rw [he, hzero]
    · exact absurd hmem (hghost hq)

theorem reached_of_reaches (hc : 1 ≤ config.maxNodes.val)
    {history : List (Record _ (Call α) (List (Event α)))}
    (hrun : (manager config).Reaches history m) : Reached config m := by
  have hmeets : Meets (fun _ _ => True) history := fun _ _ => trivial
  refine Run.invariant ⟨located_empty, (by decide : IsInt 0), fun _ => ⟨sound_initial hc, rfl⟩⟩ ?_
    hrun hmeets
  intro m call m' events h _ hok
  cases call with
  | visit k =>
    rcases visit_cases config recorder_responds (.inl rfl) h.located k ([] : List (Event α)) with
      ⟨m₁, events₁, hok₁, hv⟩ | ⟨herror, -⟩
    · cases hok₁.symm.trans hok
      exact h.visited hc hok hv
    · cases herror.symm.trans hok
  | remove k =>
    cases hok
    have hown : (MultipleQueueCacheManager.remove subclass k m).own = m.own := by
      rw [MultipleQueueCacheManager.remove]
      split <;> rfl
    refine ⟨h.located.remove k, ?_, fun hbig => ⟨(h.unadapted hbig).1.remove k, ?_⟩⟩
    · rw [hown]
      exact h.target_isInt
    · rw [hown]
      exact (h.unadapted hbig).2
  | clear =>
    cases hok
    exact ⟨located_empty, h.target_isInt,
      fun hbig => ⟨(h.unadapted hbig).1.clear hc, (h.unadapted hbig).2⟩⟩

end Targets

/-! ## A cache of one node -/

section OneNode

variable {config : AdaptiveReplacementConfiguration} {onEvict onLoad : α → L → L}
  {hitList : Option AdaptiveReplacementQueue} {k : α} {target : ℤ}
  {m m' : AdaptiveReplacementCacheManager α} {l l' : L}

/-- With `t1` empty, `freeRoom` does not look at the target. -/
theorem Freed.retarget (hf : Freed (fun _ m => m) onEvict hitList m l m' l')
    (hempty : m.queues t1 = ∅) (target : ℤ) :
    Freed (fun _ m => m) onEvict hitList (withTarget target m) l (withTarget target m') l' := by
  have hnot {m : AdaptiveReplacementCacheManager α} (hempty : m.queues t1 = ∅) :
      ¬TakesT1 hitList m := by
    rintro ⟨hne, -⟩
    simp [hempty, LinkedHashSet.isEmpty] at hne
  cases hf with
  | fromT1 htake hx => exact absurd htake (hnot hempty)
  | fromT2 htake hx => exact .fromT2 (m := withTarget target m) (hnot hempty) hx
  | nothing htake hnone => exact .nothing (m := withTarget target m) (hnot hempty) hnone

omit [DecidableEq α] in
/-- A hit on `b2` lowers every target of at most one to zero. -/
theorem adaptedTarget_zero (htarget : 0 ≤ m.own.targetT1Size ∧ m.own.targetT1Size ≤ 1)
    (hlength : (m.queues b1).length ≤ 1) (hk : k ∈ m.queues b2) :
    adaptedTarget config b2 m = .ok 0 := by
  have hpos := LinkedHashSet.length_pos_of_mem hk
  have hsize := (m.queues b1).size_le_length
  have hratio : (m.queues b1).size.tdiv (m.queues b2).size ≤ (m.queues b1).size :=
    Int.tdiv_le_self _ (LinkedHashSet.size_nonneg _)
  have hnonneg : 0 ≤ (m.queues b1).size.tdiv (m.queues b2).size :=
    Int.tdiv_nonneg (LinkedHashSet.size_nonneg _) (LinkedHashSet.size_nonneg _)
  rw [adaptedTarget_b2 hpos, int32_of_isInt (by unfold IsInt; omega)]
  congr 1
  omega

/-- Whatever the target, a visit takes the same branch and the same head. -/
theorem Visited.retarget (hone : config.maxNodes.val = 1) (h : Sound config m)
    (htarget : 0 ≤ target ∧ target ≤ 1)
    (hv : Visited config (fun _ m => m) onEvict onLoad k m l m' l') :
    ∃ target', Visited config (fun _ m => m) onEvict onLoad k (withTarget target m) l
      (withTarget target' m') l' := by
  have hl := h.left_le
  have hn1 := (m.queues t1).length_nonneg
  have hn2 := (m.queues b1).length_nonneg
  cases hv with
  | hit hq hk => exact ⟨target, .hit (m := withTarget target m) hq hk⟩
  | @ghostHit s raised m' l' hq hk ht hf =>
    have hmem := (h.located k s).mp hk
    have hpos := LinkedHashSet.length_pos_of_mem hmem
    rcases hq with rfl | rfl
    · have hempty : m.queues t1 = ∅ := LinkedHashSet.eq_empty_of_length (by omega)
      obtain ⟨target', htarget'⟩ := adaptedTarget_ok config
        (m := withTarget target m) (.inl rfl) hmem
      exact ⟨target', .ghostHit (m := withTarget target m)
        (.inl rfl) hk htarget' (hf.retarget hempty target')⟩
    · have hbound := h.target_le
      have hzero : adaptedTarget config b2 m = .ok 0 :=
        adaptedTarget_zero ⟨h.target_nonneg, by omega⟩ (by omega) hmem
      have hzero' : adaptedTarget config b2 (withTarget target m) = .ok 0 :=
        adaptedTarget_zero htarget (show (m.queues b1).length ≤ 1 by omega) hmem
      cases hzero.symm.trans ht
      exact ⟨m'.own.targetT1Size,
        .ghostHit (m := withTarget target m) (.inr rfl) hk hzero' hf⟩
  | @sideFull x xs m' l' hk hside ht1 hx hf =>
    have hempty : (forget subclass x b1 m).queues t1 = ∅ := by
      rw [queues_forget_of_ne (by simp)]
      exact LinkedHashSet.eq_empty_of_length (by omega)
    exact ⟨target, .sideFull (m := withTarget target m) hk hside ht1 hx
      (hf.retarget hempty target)⟩
  | t1Full hk hside ht1 hx =>
    exact ⟨target, .t1Full (m := withTarget target m) hk hside ht1 hx⟩
  | @directoryFull x xs m' l' hk hside hcache hdirectory hx hf =>
    rw [h.leftSideSize_eq] at hside
    have hempty : (forget subclass x b2 m).queues t1 = ∅ := by
      rw [queues_forget_of_ne (by simp)]
      exact LinkedHashSet.eq_empty_of_length (by omega)
    rw [← h.leftSideSize_eq] at hside
    exact ⟨target, .directoryFull (m := withTarget target m) hk hside hcache
      hdirectory hx (hf.retarget hempty target)⟩
  | cacheFull hk hside hcache hdirectory hf =>
    rw [h.leftSideSize_eq] at hside
    have hempty : m.queues t1 = ∅ := LinkedHashSet.eq_empty_of_length (by omega)
    rw [← h.leftSideSize_eq] at hside
    exact ⟨target, .cacheFull (m := withTarget target m) hk hside hcache
      hdirectory (hf.retarget hempty target)⟩
  | room hk hside hcache =>
    exact ⟨target, .room (m := withTarget target m) hk hside hcache⟩

/-- No sum of a visit overflows in a cache of one node. -/
theorem fits_oneNode (hone : config.maxNodes.val = 1) (h : Sound config m) (k : α) :
    Fits config m (.visit k) := by
  refine ⟨fun _ _ _ => by omega, fun hk => ?_⟩
  have hpos := LinkedHashSet.length_pos_of_mem ((h.located k b1).mp hk)
  have hratio : (m.queues b2).length.tdiv (m.queues b1).length ≤ (m.queues b2).length :=
    Int.tdiv_le_self _ (LinkedHashSet.length_nonneg _)
  have hd := h.directory_le
  have ht := h.target_le
  have hn1 := (m.queues t1).length_nonneg
  have hn2 := (m.queues t2).length_nonneg
  omega

/-- The two managers differ in their targets at most. -/
structure Twins (config : AdaptiveReplacementConfiguration)
    (m m' : AdaptiveReplacementCacheManager α) : Prop where
  left : Sound config m
  right : Sound config m'
  eq : m' = withTarget m'.own.targetT1Size m

theorem Twins.visit (hone : config.maxNodes.val = 1) (h : Twins config m m') (k : α) :
    Agree (fun r r' => r.2 = r'.2 ∧ Twins config r.1 r'.1)
      ((manager config).perform m (.visit k)) ((manager config).perform m' (.visit k)) := by
  have hs : Settles subclass fun (_ : α) (m : AdaptiveReplacementCacheManager α) => m := .inl rfl
  have hc : 1 ≤ config.maxNodes.val := by omega
  rcases visit_cases config recorder_responds hs h.left.located k ([] : List (Event α)) with
    ⟨m₁, events, hok, hv⟩ | ⟨-, hstarved⟩
  · have hbound := h.right.target_le
    obtain ⟨target', hv'⟩ := hv.retarget hone h.left ⟨h.right.target_nonneg, by omega⟩
    rw [← h.eq] at hv'
    have hok' := hv'.visit_eq (recorder_responds (α := α)) hs h.right.located.filed
    rw [CacheManager.perform, CacheManager.perform, hok, hok']
    exact .ok ⟨rfl, hv.sound hc hs h.left (fits_oneNode hone h.left k),
      hv'.sound hc hs h.right (fits_oneNode hone h.right k), rfl⟩
  · exact absurd hstarved (h.left.not_starved hc (fits_oneNode hone h.left k))

theorem remove_withTarget (k : α) (target : ℤ) (m : AdaptiveReplacementCacheManager α) :
    MultipleQueueCacheManager.remove subclass k (withTarget target m) =
      withTarget target (MultipleQueueCacheManager.remove subclass k m) := by
  have hlocations : (withTarget target m).currentLocations = m.currentLocations := rfl
  rw [MultipleQueueCacheManager.remove, MultipleQueueCacheManager.remove, hlocations]
  cases m.currentLocations.lookup k <;> rfl

theorem Twins.perform (hone : config.maxNodes.val = 1) (h : Twins config m m') (call : Call α) :
    Agree (fun r r' => r.2 = r'.2 ∧ Twins config r.1 r'.1)
      ((manager config).perform m call) ((manager config).perform m' call) := by
  cases call with
  | visit k => exact h.visit hone k
  | remove k =>
    have heq := congrArg (MultipleQueueCacheManager.remove subclass k) h.eq
    rw [remove_withTarget] at heq
    refine .ok ⟨rfl, h.left.remove k, h.right.remove k, ?_⟩
    rw [heq]
    rfl
  | clear => exact .ok ⟨rfl, h.left.clear (by omega), h.right.clear (by omega), rfl⟩

/-- Every run of a cache of one node keeps its target within the bounds. -/
theorem sound_oneNode (hone : config.maxNodes.val = 1)
    {history : List (Record _ (Call α) (List (Event α)))}
    (hrun : (manager config).Reaches history m) : Sound config m := by
  have hmeets : Meets (fun _ _ => True) history := fun _ _ => trivial
  refine Run.invariant (sound_initial (by omega)) ?_ hrun hmeets
  intro m call m' events h _ hok
  have hfits : Fits config m call := by
    cases call with
    | visit k => exact fits_oneNode hone h k
    | remove k => trivial
    | clear => trivial
  obtain ⟨m₁, events₁, hok₁, h₁⟩ := h.perform (by omega) hfits
  cases hok₁.symm.trans hok
  exact h₁

end OneNode

/-! ## A larger cache -/

section Divergence

variable {config : AdaptiveReplacementConfiguration} {key : ℕ → α} {n : ℕ} {target : ℤ}
  {m : AdaptiveReplacementCacheManager α}

/-- The keys `0, …, n - 1` have been visited twice. -/
structure Paired (key : ℕ → α) (target : ℤ) (n : ℕ) (m : AdaptiveReplacementCacheManager α) :
    Prop where
  located : m.Located
  t1 : m.queues t1 = ∅
  t2 : (m.queues t2).toList = (List.range n).map key
  ghosts : ∀ g, m.queues (ghost g) = ∅
  own : m.own = ⟨target⟩

/-- Then the key `n` has been visited once. -/
structure Loaded (key : ℕ → α) (target : ℤ) (n : ℕ) (m : AdaptiveReplacementCacheManager α) :
    Prop where
  located : m.Located
  t1 : (m.queues t1).toList = [key n]
  t2 : (m.queues t2).toList = (List.range n).map key
  ghosts : ∀ g, m.queues (ghost g) = ∅
  own : m.own = ⟨target⟩

theorem Paired.missed (hkey : Function.Injective key) (h : Paired key target n m) :
    m.currentLocations.lookup (key n) = none := by
  rw [Option.eq_none_iff_forall_ne_some]
  intro q hq
  have hmem := (h.located _ q).mp hq
  rcases q with _ | _ | g
  · rw [h.t1] at hmem
    exact LinkedHashSet.notMem_empty _ hmem
  · rw [LinkedHashSet.mem_def, h.t2, List.mem_map] at hmem
    obtain ⟨i, hi, he⟩ := hmem
    rw [hkey he, List.mem_range] at hi
    exact lt_irrefl _ hi
  · rw [h.ghosts g] at hmem
    exact LinkedHashSet.notMem_empty _ hmem

theorem Loaded.missed (hkey : Function.Injective key) (h : Loaded key target n m) :
    m.currentLocations.lookup (key (n + 1)) = none := by
  rw [Option.eq_none_iff_forall_ne_some]
  intro q hq
  have hmem := (h.located _ q).mp hq
  rcases q with _ | _ | g
  · rw [LinkedHashSet.mem_def, h.t1, List.mem_singleton] at hmem
    exact absurd (hkey hmem) (by omega)
  · rw [LinkedHashSet.mem_def, h.t2, List.mem_map] at hmem
    obtain ⟨i, hi, he⟩ := hmem
    rw [hkey he, List.mem_range] at hi
    omega
  · rw [h.ghosts g] at hmem
    exact LinkedHashSet.notMem_empty _ hmem

theorem Paired.load (hkey : Function.Injective key) (h : Paired key target n m)
    (hn : (n : ℤ) < config.maxNodes.val) :
    (manager config).perform m (.visit (key n)) =
        .ok (m.enqueue (key n) ReplacementQueue.t1, [.objectLoaded (key n)]) ∧
      Loaded key target n (m.enqueue (key n) ReplacementQueue.t1) := by
  have hmissed := h.missed hkey
  have hc := config.maxNodes.property
  have hint : IsInt n := ⟨by omega, by unfold IsInt at hc; omega⟩
  have hlength : (m.queues ReplacementQueue.t2).length = n := by
    simp [LinkedHashSet.length, h.t2]
  have hsize : (m.queues ReplacementQueue.t2).size = n := by
    rw [LinkedHashSet.size_of_le (hlength ▸ hint.2), hlength]
  have hleft : leftSideSize m < config.maxNodes.val := by
    rw [leftSideSize, h.t1, h.ghosts, LinkedHashSet.size_empty, add_zero, int32_of_isInt (by decide)]
    omega
  have hdirectory : directorySize m < config.maxNodes.val := by
    rw [directorySize, h.t1, h.ghosts, h.ghosts, LinkedHashSet.size_empty, hsize]
    simp only [add_zero, zero_add, int32_of_isInt hint, int32_of_isInt (by decide : IsInt 0)]
    exact hn
  refine ⟨perform_room config hmissed hleft hdirectory, h.located.enqueue hmissed, ?_, ?_, ?_, h.own⟩
  · rw [toList_enqueue (by rw [h.t1]; exact LinkedHashSet.notMem_empty _), h.t1]
    rfl
  · rw [queues_enqueue_of_ne (by simp), h.t2]
  · intro g
    rw [queues_enqueue_of_ne (by simp), h.ghosts g]

variable (config) in
/-- A second visit sends the key to `t2`. -/
theorem Loaded.pair (h : Loaded key target n m) :
    (manager config).perform m (.visit (key n)) =
        .ok (m.relocate (key n) ReplacementQueue.t1 ReplacementQueue.t2, []) ∧
      Paired key target (n + 1) (m.relocate (key n) ReplacementQueue.t1 ReplacementQueue.t2) := by
  have hmem : key n ∈ m.queues ReplacementQueue.t1 := LinkedHashSet.mem_of_toList_cons h.t1
  have hlookup := h.located.filed hmem
  refine ⟨perform_hit hlookup, h.located.relocate (h.located.only hlookup), ?_, ?_, ?_, h.own⟩
  · apply LinkedHashSet.ext
    rw [toList_relocate_source (by simp), h.t1, List.erase_cons_head]
    rfl
  · rw [toList_relocate_destination (by simp) (h.located.filed.notMem_of_lookup hlookup (by simp)),
      h.t2, List.range_succ, List.map_append]
    rfl
  · intro g
    rw [queues_relocate_of_ne (by simp) (by simp), h.ghosts g]

/-- Two visits to each of the first `n` keys, and one to the next. -/
def pairKeys (key : ℕ → α) (n : ℕ) : List α := (List.range n).flatMap fun i => [key i, key i]

variable (target) in
theorem exists_loaded (hkey : Function.Injective key) (hn : (n : ℤ) < config.maxNodes.val) :
    ∃ history m, replay (manager config).perform (start target)
      ((pairKeys key n ++ [key n]).map Call.visit) = .ok (history, m) ∧ Loaded key target n m := by
  suffices hpaired : ∃ history m, replay (manager config).perform (start target)
      ((pairKeys key n).map Call.visit) = .ok (history, m) ∧ Paired key target n m by
    obtain ⟨history, m, hreplay, h⟩ := hpaired
    obtain ⟨hok, hloaded⟩ := h.load hkey hn
    rw [List.map_append]
    exact ⟨_, _, replay_concat hreplay hok, hloaded⟩
  induction n with
  | zero => exact ⟨[], start target, rfl, located_empty, rfl, rfl, fun _ => rfl, rfl⟩
  | succ n ih =>
    obtain ⟨history, m, hreplay, h⟩ := ih (by omega)
    obtain ⟨hok, hloaded⟩ := h.load hkey (by omega)
    obtain ⟨hok', hpaired⟩ := hloaded.pair config
    have hkeys : (pairKeys key (n + 1)).map Call.visit =
        (pairKeys key n).map Call.visit ++ [.visit (key n)] ++ [.visit (key n)] := by
      simp [pairKeys, List.range_succ]
    rw [hkeys]
    exact ⟨_, _, replay_concat (replay_concat hreplay hok) hok', hpaired⟩

/-- Then the key `n + 1` has taken the place of the key `n`. -/
structure Replaced (key : ℕ → α) (target : ℤ) (n : ℕ) (m : AdaptiveReplacementCacheManager α) :
    Prop where
  located : m.Located
  t1 : (m.queues t1).toList = [key (n + 1)]
  t2 : (m.queues t2).toList = (List.range n).map key
  b1 : (m.queues b1).toList = [key n]
  b2 : m.queues b2 = ∅
  own : m.own = ⟨target⟩

omit [DecidableEq α] in
theorem toList_range (key : ℕ → α) (hn : 1 ≤ n) :
    ∃ keys, (List.range n).map key = key 0 :: keys := by
  obtain ⟨n, rfl⟩ := Nat.exists_eq_add_of_le' hn
  rw [List.range_succ_eq_map, List.map_cons]
  exact ⟨_, rfl⟩

/-- The key `n + 1` finds the cache full, whose target chooses the head of `t1` or of `t2`. -/
theorem Loaded.replace (hkey : Function.Injective key) (h : Loaded key target n m) (hn : 1 ≤ n)
    (hc : (n : ℤ) + 1 = config.maxNodes.val) (hsmall : 2 * config.maxNodes.val ≤ 2147483647) :
    ∃ m', (manager config).perform m (.visit (key (n + 1))) =
        .ok (m', [.objectReadyForEviction (if target ≤ 0 then key n else key 0),
          .objectLoaded (key (n + 1))]) ∧
      (target ≤ 0 → Replaced key target n m') := by
  have hmissed := h.missed hkey
  have hs : Settles subclass fun (_ : α) (m : AdaptiveReplacementCacheManager α) => m := .inl rfl
  have h1 : (m.queues ReplacementQueue.t1).size = 1 := by
    simp [LinkedHashSet.size, LinkedHashSet.length, h.t1]
  have hlength : (m.queues ReplacementQueue.t2).length = n := by
    simp [LinkedHashSet.length, h.t2]
  have h2 : (m.queues ReplacementQueue.t2).size = n := by
    rw [LinkedHashSet.size_of_le (by omega), hlength]
  have hside : leftSideSize m = 1 := by
    rw [leftSideSize, h1, h.ghosts, LinkedHashSet.size_empty]
    decide
  have hdirectory : directorySize m = config.maxNodes.val := by
    rw [directorySize, h1, h2, h.ghosts, h.ghosts, LinkedHashSet.size_empty, int32_int32_add,
      add_assoc (int32 _), int32_int32_add, int32_of_isInt]
    · omega
    · unfold IsInt
      omega
  have hcapacity : directorySize m < directoryCapacity config := by
    rw [hdirectory, directoryCapacity_eq hsmall (by omega)]
    omega
  have hnot : (m.queues ReplacementQueue.t1).isEmpty = false := by
    rw [LinkedHashSet.isEmpty, h.t1]
    rfl
  have htake : TakesT1 none m ↔ target ≤ 0 := by
    simp only [TakesT1, hnot, h1, h.own, Bool.not_false, true_and, reduceCtorEq, and_false, or_false]
    omega
  by_cases htarget : target ≤ 0
  · have hfreed : Freed (fun _ m => m) recordEviction none m [] _ _ :=
      .fromT1 (htake.mpr htarget) h.t1
    have hv : Visited config (fun _ m => m) recordEviction recordLoad (key (n + 1)) m [] _ _ :=
      .cacheFull hmissed (hside ▸ by omega) hdirectory.ge hcapacity hfreed
    rw [if_pos htarget]
    have hmem := LinkedHashSet.mem_of_toList_cons h.t1
    have hlookup := h.located.filed hmem
    have hmoved := h.located.relocate (d := CachePolicies.b1)
      (h.located.only hlookup)
    have hnone : (m.relocate (key n) ReplacementQueue.t1
        CachePolicies.b1).currentLocations.lookup (key (n + 1)) = none := by
      rw [lookup_relocate_eq_none]
      exact ⟨fun he => absurd (hkey he) (by omega), hmissed⟩
    have hempty : (m.relocate (key n) ReplacementQueue.t1
        CachePolicies.b1).queues ReplacementQueue.t1 = ∅ := by
      apply LinkedHashSet.ext
      rw [toList_relocate_source (by simp), h.t1, List.erase_cons_head]
      rfl
    refine ⟨_, hv.visit_eq recorder_responds hs h.located.filed, fun _ =>
      ⟨hmoved.enqueue hnone, ?_, ?_, ?_, ?_, h.own⟩⟩
    · rw [toList_enqueue (by rw [hempty]; exact LinkedHashSet.notMem_empty _), hempty]
      rfl
    · rw [queues_enqueue_of_ne (by simp), queues_relocate_of_ne (by simp) (by simp), h.t2]
    · rw [queues_enqueue_of_ne (by simp), toList_relocate_destination (by simp)
        (by rw [h.ghosts]; exact LinkedHashSet.notMem_empty _), h.ghosts]
      rfl
    · rw [queues_enqueue_of_ne (by simp), queues_relocate_of_ne (by simp) (by simp), h.ghosts]
  · obtain ⟨keys, hkeys⟩ := toList_range key hn
    have hfreed : Freed (fun _ m => m) recordEviction none m [] _ _ :=
      .fromT2 (fun h => htarget (htake.mp h)) (h.t2.trans hkeys)
    have hv : Visited config (fun _ m => m) recordEviction recordLoad (key (n + 1)) m [] _ _ :=
      .cacheFull hmissed (hside ▸ by omega) hdirectory.ge hcapacity hfreed
    rw [if_neg htarget]
    exact ⟨_, hv.visit_eq recorder_responds hs h.located.filed, fun h => absurd h htarget⟩

/-- A hit on the ghost `n` raises the target to one, unless it is negative. -/
theorem Replaced.ghostHit (h : Replaced key target n m) (hn : 1 ≤ n)
    (hc : 1 ≤ config.maxNodes.val) (hnonpos : target ≤ 0) (hint : IsInt target) :
    ∃ m', (manager config).perform m (.visit (key n)) =
      .ok (m', [.objectReadyForEviction (if target = 0 then key 0 else key (n + 1)),
        .objectLoaded (key n)]) := by
  have hs : Settles subclass fun (_ : α) (m : AdaptiveReplacementCacheManager α) => m := .inl rfl
  have hmem := LinkedHashSet.mem_of_toList_cons h.b1
  have hpos := LinkedHashSet.length_pos_of_mem hmem
  have htarget : adaptedTarget config CachePolicies.b1 m = .ok (target + 1) := by
    have hown : m.own.targetT1Size = target := by rw [h.own]
    rw [adaptedTarget_b1 hpos, h.b2, LinkedHashSet.size_empty, Int.zero_tdiv, hown,
      int32_of_isInt (by unfold IsInt at hint ⊢; omega)]
    congr 1
    omega
  have h1 : (m.queues ReplacementQueue.t1).size = 1 := by
    simp [LinkedHashSet.size, LinkedHashSet.length, h.t1]
  have hnot : (m.queues ReplacementQueue.t1).isEmpty = false := by
    rw [LinkedHashSet.isEmpty, h.t1]
    rfl
  have htake : TakesT1 (some CachePolicies.b1) (withTarget (target + 1) m) ↔
      target ≠ 0 := by
    have hne : (some CachePolicies.b1 : Option AdaptiveReplacementQueue) ≠ some CachePolicies.b2 := by
      decide
    simp only [TakesT1, withTarget, hnot, h1, Bool.not_false, true_and, hne, and_false, or_false]
    omega
  by_cases hzero : target = 0
  · obtain ⟨keys, hkeys⟩ := toList_range key hn
    have hfreed : Freed (fun _ m => m) recordEviction (some CachePolicies.b1)
        (withTarget (target + 1) m) [] _ _ :=
      .fromT2 (fun hf => htake.mp hf hzero) (h.t2.trans hkeys)
    have hv : Visited config (fun _ m => m) recordEviction recordLoad (key n) m [] _ _ :=
      .ghostHit (.inl rfl) (h.located.filed hmem) htarget hfreed
    rw [if_pos hzero]
    exact ⟨_, hv.visit_eq recorder_responds hs h.located.filed⟩
  · have hfreed : Freed (fun _ m => m) recordEviction (some CachePolicies.b1)
        (withTarget (target + 1) m) [] _ _ := .fromT1 (htake.mpr hzero) h.t1
    have hv : Visited config (fun _ m => m) recordEviction recordLoad (key n) m [] _ _ :=
      .ghostHit (.inl rfl) (h.located.filed hmem) htarget hfreed
    rw [if_neg hzero]
    exact ⟨_, hv.visit_eq recorder_responds hs h.located.filed⟩

/-- In a cache of two or more nodes, a run from any other target than zero fires other events. -/
theorem diverges (hkey : Function.Injective key) (hc : 2 ≤ config.maxNodes.val)
    (hsmall : 2 * config.maxNodes.val ≤ 2147483647) (hint : IsInt target) (hne : target ≠ 0) :
    ∃ keys : List α, ¬Agree SameRun
      (replay (manager config).perform (start target) (keys.map Call.visit))
      (replay (manager config).perform (manager config).initial (keys.map Call.visit)) := by
  obtain ⟨n, hn⟩ := Int.eq_ofNat_of_zero_le (by omega : 0 ≤ config.maxNodes.val - 1)
  have hfirst : 1 ≤ n := by omega
  have hfull : (n : ℤ) + 1 = config.maxNodes.val := by omega
  obtain ⟨history, m, hreplay, h⟩ := exists_loaded target hkey
    (show (n : ℤ) < config.maxNodes.val by omega)
  obtain ⟨history₀, m₀, hreplay₀, h₀⟩ := exists_loaded 0 hkey
    (show (n : ℤ) < config.maxNodes.val by omega)
  obtain ⟨m', hok, hreplaced⟩ := h.replace hkey hfirst hfull hsmall
  obtain ⟨m₀', hok₀, hreplaced₀⟩ := h₀.replace hkey hfirst hfull hsmall
  have hstep := replay_concat hreplay hok
  have hstep₀ := replay_concat hreplay₀ hok₀
  by_cases hpositive : 0 < target
  · refine ⟨pairKeys key n ++ [key n] ++ [key (n + 1)], fun hagree => ?_⟩
    rw [List.map_append] at hagree
    have houtput := (List.cons.inj (hagree.related hstep hstep₀).1).1
    rw [if_neg (not_le.mpr hpositive), if_pos le_rfl] at houtput
    have hkeys := Event.objectReadyForEviction.inj (List.cons.inj houtput).1
    exact absurd (hkey hkeys) (by omega)
  · obtain ⟨m'', hok'⟩ := (hreplaced (not_lt.mp hpositive)).ghostHit hfirst
      (show 1 ≤ config.maxNodes.val by omega) (not_lt.mp hpositive) hint
    obtain ⟨m₀'', hok₀'⟩ := (hreplaced₀ le_rfl).ghostHit hfirst
      (show 1 ≤ config.maxNodes.val by omega) le_rfl (by decide)
    refine ⟨pairKeys key n ++ [key n] ++ [key (n + 1)] ++ [key n], fun hagree => ?_⟩
    rw [List.map_append, List.map_append] at hagree
    have houtput := (List.cons.inj
      (hagree.related (replay_concat hstep hok') (replay_concat hstep₀ hok₀')).1).1
    rw [if_neg hne, if_pos rfl] at houtput
    have hkeys := Event.objectReadyForEviction.inj (List.cons.inj houtput).1
    exact absurd (hkey hkeys) (by omega)

end Divergence

/-- A cleared adaptive manager works like a new one, on every sequence of visits, if it has one
node or its target is zero, and only then where there are enough keys to tell. -/
theorem clear_agrees (config : AdaptiveReplacementConfiguration) (hc : 1 ≤ config.maxNodes.val)
    {history : List (Record _ (Call α) (List (Event α)))} {m : AdaptiveReplacementCacheManager α}
    (hrun : (manager config).Reaches history m) :
    (config.maxNodes.val = 1 ∨ m.own.targetT1Size = 0 → ∀ keys : List α, Agree SameRun
      (replay (manager config).perform (ReplacementCacheManager.clear m) (keys.map Call.visit))
      (replay (manager config).perform (manager config).initial (keys.map Call.visit))) ∧
    (Infinite α → (∀ keys : List α, Agree SameRun
      (replay (manager config).perform (ReplacementCacheManager.clear m) (keys.map Call.visit))
      (replay (manager config).perform (manager config).initial (keys.map Call.visit))) →
      config.maxNodes.val = 1 ∨ m.own.targetT1Size = 0) := by
  constructor
  · rintro (hone | hzero) keys
    · have htwins : Twins config (ReplacementCacheManager.clear m) (initial (α := α)) :=
        ⟨(sound_oneNode hone hrun).clear hc, sound_initial hc, rfl⟩
      refine (replayFrom_agree (fun _ _ call h => h.perform hone call) htwins rfl _).mono ?_
      rintro r r' ⟨houtputs, h⟩
      refine ⟨houtputs, ?_⟩
      rw [h.eq]
      rfl
    · rw [clear_eq_start, hzero]
      exact Agree.refl (fun _ => ⟨rfl, rfl⟩) _
  · intro hinfinite h
    by_contra hnot
    rw [not_or] at hnot
    have hreached := reached_of_reaches hc hrun
    have hsmall : 2 * config.maxNodes.val ≤ 2147483647 := by
      by_contra hbig
      exact hnot.2 (hreached.unadapted (by omega)).2
    obtain ⟨keys, hdiverges⟩ := diverges (Infinite.natEmbedding α).injective (by omega) hsmall
      hreached.target_isInt hnot.2
    exact hdiverges (h keys)

end CachePolicies.AdaptiveReplacementCacheManager
