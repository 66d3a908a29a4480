import CachePolicies.MQManagers

/-!
# What a visit of the MQ manager does

The demotions after a visit fire no event, whoever listens, so they are a function of the state.
`Entered` lists what `visit` can do before them.
-/

namespace CachePolicies.MQCacheManager

open MultipleQueueCacheManager MQQueue

variable {α L : Type} [DecidableEq α]

section Metadata

variable {m : MQCacheManager α} {k : α} {data : MQMetadata}

@[simp] theorem queues_getMetadata : (getMetadata k m).2.queues = m.queues := by
  rw [getMetadata]
  split <;> rfl

@[simp] theorem currentLocations_getMetadata :
    (getMetadata k m).2.currentLocations = m.currentLocations := by
  rw [getMetadata]
  split <;> rfl

@[simp] theorem queues_setMetadata : (setMetadata k data m).queues = m.queues := by
  rw [setMetadata]
  split <;> rfl

@[simp] theorem currentLocations_setMetadata :
    (setMetadata k data m).currentLocations = m.currentLocations := by
  rw [setMetadata]
  split <;> rfl

end Metadata

section Demotions

variable (clock : ℤ → ℤ) (config : MQConfiguration)

/-- The state after one round of `checkForDemotions`. -/
def demote (i : ℕ) (m : MQCacheManager α) : MQCacheManager α :=
  match (m.queues (level i)).peek with
  | none => m
  | some entry =>
    if (getMetadata entry m).1.isExpired (getMetadata entry m).2.own.currentTime then
      setMetadata entry
        ((getMetadata entry m).1.markAsModified clock config
          (getMetadata entry m).2.own.currentTime)
        ((getMetadata entry m).2.relocate entry (level i) (level (i - 1)))
    else (getMetadata entry m).2

def tick (m : MQCacheManager α) : MQCacheManager α :=
  { m with own := { m.own with currentTime := clock (m.own.currentTime + 1) } }

def demotions (m : MQCacheManager α) : MQCacheManager α :=
  (List.range' 1 (queuesSize config - 1)).foldl (fun m i => demote clock config i m) (tick clock m)

variable {clock config} {listeners : List (CacheManagerListener α (MQCacheManager α) L)}
  {settle : α → MQCacheManager α → MQCacheManager α} {onEvict onLoad : α → L → L}
  {m : MQCacheManager α} {l : L}

theorem checkForDemotion_ok (h : Responds listeners settle onEvict onLoad) (i : ℕ) :
    checkForDemotion clock config listeners i (m, l) = .ok (demote clock config i m, l) := by
  rw [checkForDemotion, demote]
  cases hpeek : (m.queues (level i)).peek with
  | none => rfl
  | some entry =>
    simp only [moveNode_ok h, Java.ok_bind]
    split
    · rfl
    · rfl

theorem checkForDemotions_ok (h : Responds listeners settle onEvict onLoad) :
    checkForDemotions clock config listeners (m, l) = .ok (demotions clock config m, l) := by
  have hfold (is : List ℕ) (m : MQCacheManager α) :
      is.foldlM (fun w i => checkForDemotion clock config listeners i w) (m, l) =
        .ok (is.foldl (fun m i => demote clock config i m) m, l) := by
    induction is generalizing m with
    | nil => rfl
    | cons i is ih =>
      rw [List.foldlM_cons, List.foldl_cons, checkForDemotion_ok h, Java.ok_bind, ih]
  exact hfold _ _

/-- What holds after the tick and survives the demotion from each level in turn holds in the end
of the highest level. -/
theorem demotions_stages {P : ℕ → MQCacheManager α → Prop} (htick : P 0 (tick clock m))
    (hdemote : ∀ i m, i + 1 < queuesSize config → P i m →
      P (i + 1) (demote clock config (i + 1) m)) :
    P (queuesSize config - 1) (demotions clock config m) := by
  have hfold (n : ℕ) (hn : n ≤ queuesSize config - 1) :
      P n ((List.range' 1 n).foldl (fun m i => demote clock config i m) (tick clock m)) := by
    induction n with
    | zero => exact htick
    | succ n ih =>
      rw [List.range'_concat, List.foldl_append, one_mul, add_comm 1 n]
      exact hdemote n _ (by omega) (ih (by omega))
  exact hfold _ (le_refl _)

/-- What holds after the tick and survives each demotion holds after all of them. -/
theorem demotions_induction {P : MQCacheManager α → Prop} (htick : P (tick clock m))
    (hdemote : ∀ i m, 1 ≤ i → i < queuesSize config → P m → P (demote clock config i m)) :
    P (demotions clock config m) :=
  demotions_stages (P := fun _ => P) htick fun i m hi hm => hdemote (i + 1) m (by omega) hi hm

end Demotions

/-! ## Making room -/

/-- The state after the head of `qOut` is dropped, which still locates it there. -/
def dropHead (item : α) (m : MQCacheManager α) : MQCacheManager α :=
  { m.setQueue qOut ((m.queues qOut).remove item) with own := afterRemove item m.own }

/-- Making room in `qOut` for one more key. -/
inductive Trimmed (config : MQConfiguration) (m : MQCacheManager α) : MQCacheManager α → Prop
  | kept (hsize : (m.queues qOut).length < qOutMax config) : Trimmed config m m
  | dropped {y : α} {ys : List α} (hsize : (m.queues qOut).length ≥ qOutMax config)
      (hy : (m.queues qOut).toList = y :: ys) : Trimmed config m (dropHead y m)

/-- The effect of `freeUpSpace`. -/
inductive FreedUp (config : MQConfiguration) (settle : α → MQCacheManager α → MQCacheManager α)
    (onEvict : α → L → L) (m : MQCacheManager α) (l : L) : MQCacheManager α → L → Prop
  | room (hroom : cacheSize config m < config.maxNodes.val) : FreedUp config settle onEvict m l m l
  | pushed {i : ℕ} {x : α} {xs : List α} {m' : MQCacheManager α}
      (hfull : cacheSize config m ≥ config.maxNodes.val)
      (hfirst : getFirstNonEmptyQueue config m = some (level i))
      (hx : (m.queues (level i)).toList = x :: xs) (htrimmed : Trimmed config m m') :
      FreedUp config settle onEvict m l (settle x (m'.relocate x (level i) qOut)) (onEvict x l)

section Freeing

variable {config : MQConfiguration} {listeners : List (CacheManagerListener α (MQCacheManager α) L)}
  {settle : α → MQCacheManager α → MQCacheManager α} {onEvict onLoad : α → L → L} {k : α}
  {m m' : MQCacheManager α} {l l' : L}

theorem mem_resident : k ∈ resident config m ↔ ∃ i < queuesSize config, k ∈ m.queues (level i) := by
  simp [resident]

omit [DecidableEq α] in
theorem getFirstNonEmptyQueue_some {q : MQQueue} (h : getFirstNonEmptyQueue config m = some q) :
    ∃ i x xs, q = level i ∧ i < queuesSize config ∧ (m.queues (level i)).toList = x :: xs := by
  obtain ⟨i, hfind, rfl⟩ := Option.map_eq_some_iff.mp h
  have hmem := List.mem_range.mp (List.mem_of_find?_eq_some hfind)
  have hempty := List.find?_some hfind
  cases hx : (m.queues (level i)).toList with
  | nil => simp [LinkedHashSet.isEmpty, hx] at hempty
  | cons x xs => exact ⟨i, x, xs, rfl, hmem, hx⟩

theorem getFirstNonEmptyQueue_none (h : getFirstNonEmptyQueue config m = none) :
    resident config m = ∅ := by
  rw [Finset.eq_empty_iff_forall_notMem]
  intro k hk
  obtain ⟨i, hi, hmem⟩ := mem_resident.mp hk
  have hempty := List.find?_eq_none.mp (Option.map_eq_none_iff.mp h) i (List.mem_range.mpr hi)
  rw [Bool.not_eq_true, Bool.not_eq_false'] at hempty
  rw [LinkedHashSet.isEmpty_iff.mp hempty] at hmem
  exact LinkedHashSet.notMem_empty k hmem

theorem dropGhost_cons {y : α} {ys : List α} (hy : (m.queues qOut).toList = y :: ys) :
    dropGhost m = .ok (dropHead y m) := by
  rw [dropGhost, LinkedHashSet.take_cons hy]
  rfl

theorem queues_dropHead (y : α) (i : ℕ) : (dropHead y m).queues (level i) = m.queues (level i) := by
  simp [dropHead, setQueue]

theorem Trimmed.queues_level (h : Trimmed config m m') (i : ℕ) :
    m'.queues (level i) = m.queues (level i) := by
  cases h with
  | kept => rfl
  | dropped => exact queues_dropHead _ i

omit [DecidableEq α] in
theorem size_lt_qOutMax : (m.queues qOut).size < qOutMax config ↔
    (m.queues qOut).length < qOutMax config := by
  have hmax := config.maxNodes.property
  unfold IsInt at hmax
  apply LinkedHashSet.size_lt_iff
  rw [qOutMax, Int.tdiv_eq_ediv, show Int.sign 2 = 1 from rfl]
  split <;> omega

theorem FreedUp.freeUpSpace_eq (hr : Responds listeners settle onEvict onLoad)
    (h : FreedUp config settle onEvict m l m' l') :
    freeUpSpace config listeners (m, l) = .ok (m', l') := by
  cases h with
  | room hroom => rw [freeUpSpace, if_pos hroom]
  | pushed hfull hfirst hx htrimmed =>
    have hhead := moveHead_cons (d := qOut) ((htrimmed.queues_level _).symm ▸ hx)
    cases htrimmed with
    | kept hsize =>
      simp only [freeUpSpace, if_neg (not_lt.mpr hfull),
        if_neg (not_le.mpr (size_lt_qOutMax.mpr hsize)), Java.ok_bind, hfirst, hhead, hr.evict]
    | dropped hsize hy =>
      have hsize' := not_lt.mp (mt size_lt_qOutMax.mp (not_lt.mpr hsize))
      simp only [freeUpSpace, if_neg (not_lt.mpr hfull), if_pos hsize', dropGhost_cons hy,
        Java.ok_bind, hfirst, hhead, hr.evict]

/-- Nothing prevents `freeUpSpace` when `qOut` may hold keys and there is a resident key. -/
theorem exists_freedUp (hmax : cacheSize config m < config.maxNodes.val ∨ 0 < qOutMax config)
    (hne : cacheSize config m ≥ config.maxNodes.val → resident config m ≠ ∅) (l : L) :
    ∃ m' l', FreedUp config settle onEvict m l m' l' := by
  by_cases hroom : cacheSize config m < config.maxNodes.val
  · exact ⟨m, l, .room hroom⟩
  · cases hfirst : getFirstNonEmptyQueue config m with
    | none => exact absurd (getFirstNonEmptyQueue_none hfirst) (hne (not_lt.mp hroom))
    | some q =>
      obtain ⟨i, x, xs, rfl, hi, hx⟩ := getFirstNonEmptyQueue_some hfirst
      by_cases hsize : (m.queues qOut).length ≥ qOutMax config
      · obtain ⟨y, ys, hy⟩ :=
          LinkedHashSet.exists_cons_of_length_pos (q := m.queues qOut) (by omega)
        exact ⟨_, _, .pushed (not_lt.mp hroom) hfirst hx (.dropped hsize hy)⟩
      · exact ⟨_, _, .pushed (not_lt.mp hroom) hfirst hx (.kept (not_le.mp hsize))⟩

/-- Where `qOut` may hold no key, there is no head to drop from it. -/
theorem freeUpSpace_error (hfull : cacheSize config m ≥ config.maxNodes.val)
    (hmax : qOutMax config ≤ 0) (hempty : m.queues qOut = ∅) (l : L) :
    freeUpSpace config listeners (m, l) = .error .noSuchElement := by
  have hsize : (m.queues qOut).size ≥ qOutMax config := by
    rw [hempty, LinkedHashSet.size_empty]
    exact hmax
  simp only [freeUpSpace, if_neg (not_lt.mpr hfull), if_pos hsize]
  simp only [dropGhost, hempty, LinkedHashSet.take_empty, Java.error_bind]

end Freeing

/-! ## Visits -/

/-- The manager once the visit to a tracked key has been counted. -/
def logged (k : α) (m : MQCacheManager α) : MQCacheManager α :=
  setMetadata k (getMetadata k m).1.logVisit (getMetadata k m).2

/-- The metadata of a key once the visit to it has been counted. -/
def loggedData (k : α) (m : MQCacheManager α) : MQMetadata := (getMetadata k m).1.logVisit

/-- The metadata of a missed key. -/
def notedData (clock : ℤ → ℤ) (config : MQConfiguration) (k : α) (m : MQCacheManager α) :
    MQMetadata :=
  { (getMetadata k m).1 with numberOfNodeVisits := 1 }.markAsModified clock config m.own.currentTime

/-- The manager once the metadata of a missed key has been set. -/
def noted (clock : ℤ → ℤ) (config : MQConfiguration) (k : α) (m : MQCacheManager α) :
    MQCacheManager α :=
  setMetadata k (notedData clock config k m) (getMetadata k m).2

def modified (clock : ℤ → ℤ) (config : MQConfiguration) (k : α) (data : MQMetadata)
    (m : MQCacheManager α) : MQCacheManager α :=
  setMetadata k (data.markAsModified clock config m.own.currentTime) m

/-- The effect of `visit(k)` before the demotions, by where the key is found. -/
inductive Entered (clock : ℤ → ℤ) (config : MQConfiguration)
    (settle : α → MQCacheManager α → MQCacheManager α) (onEvict onLoad : α → L → L) (k : α)
    (m : MQCacheManager α) (l : L) : MQCacheManager α → L → Prop
  | hit {i j : ℕ} (hk : m.currentLocations.lookup k = some (level i))
      (hj : getDesiredQueue config (loggedData k m) = .ok (level j)) :
      Entered clock config settle onEvict onLoad k m l
        (modified clock config k (loggedData k m) ((logged k m).relocate k (level i) (level j))) l
  | ghostHit {j : ℕ} {m' : MQCacheManager α} {l' : L} (hk : m.currentLocations.lookup k = some qOut)
      (hfreed : FreedUp config settle onEvict (logged k m) l m' l')
      (hj : getDesiredQueue config (loggedData k m) = .ok (level j)) :
      Entered clock config settle onEvict onLoad k m l
        (modified clock config k (loggedData k m) (m'.relocate k qOut (level j))) (onLoad k l')
  | missed {m' : MQCacheManager α} {l' : L} (hk : m.currentLocations.lookup k = none)
      (hfreed : FreedUp config settle onEvict m l m' l') :
      Entered clock config settle onEvict onLoad k m l
        ((noted clock config k m').enqueue k (level 0)) (onLoad k l')

/-- The effect of `visit(k)`: the key is entered, and then heads are demoted. -/
inductive Visited (clock : ℤ → ℤ) (config : MQConfiguration)
    (settle : α → MQCacheManager α → MQCacheManager α) (onEvict onLoad : α → L → L) (k : α)
    (m : MQCacheManager α) (l : L) : MQCacheManager α → L → Prop
  | entered {m' : MQCacheManager α} {l' : L}
      (h : Entered clock config settle onEvict onLoad k m l m' l') :
      Visited clock config settle onEvict onLoad k m l (demotions clock config m') l'

section Visits

variable {clock : ℤ → ℤ} {config : MQConfiguration}
  {listeners : List (CacheManagerListener α (MQCacheManager α) L)}
  {settle : α → MQCacheManager α → MQCacheManager α} {onEvict onLoad : α → L → L} {k : α}
  {m m' : MQCacheManager α} {l l' : L}

theorem one_le_queuesSize (hn : 1 ≤ config.queueCount.val) : 1 ≤ queuesSize config := by
  unfold queuesSize
  omega

/-- The number of a level fits an `int`. -/
theorem getQueueNumber_eq (data : MQMetadata) (hn : 1 ≤ queuesSize config) :
    getQueueNumber config data = min (logToBase2 data.numberOfNodeVisits) (queuesSize config - 1) := by
  have hcount := config.queueCount.property
  unfold IsInt at hcount
  rw [getQueueNumber, int32_of_isInt]
  unfold queuesSize at hn ⊢
  unfold IsInt
  omega

theorem logToBase2_nonneg {value : ℤ} (h : value ≠ 0) : 0 ≤ logToBase2 value := by
  rw [logToBase2, if_neg h]
  split
  · exact Int.natCast_nonneg _
  · exact le_refl 0

theorem getDesiredQueue_ok {data : MQMetadata} (hn : 1 ≤ queuesSize config)
    (h : data.numberOfNodeVisits ≠ 0) :
    ∃ j < queuesSize config, getDesiredQueue config data = .ok (level j) := by
  have hlog := logToBase2_nonneg h
  have hnumber := getQueueNumber_eq data hn
  refine ⟨(getQueueNumber config data).toNat, by omega, ?_⟩
  rw [getDesiredQueue, if_pos (by omega)]

/-- The logarithm of zero is no index of a queue. -/
theorem getDesiredQueue_error {data : MQMetadata} (hn : 1 ≤ queuesSize config)
    (h : data.numberOfNodeVisits = 0) :
    getDesiredQueue config data = .error .indexOutOfBounds := by
  have hnumber := getQueueNumber_eq data hn
  rw [h, show logToBase2 0 = -2147483648 from rfl] at hnumber
  rw [getDesiredQueue, if_neg (by omega)]

theorem getDesiredQueue_notedData (hn : 1 ≤ queuesSize config) :
    getDesiredQueue config (notedData clock config k m) = .ok (level 0) := by
  have hzero : getQueueNumber config (notedData clock config k m) = 0 := by
    rw [getQueueNumber_eq _ hn]
    show min (logToBase2 1) _ = 0
    rw [show logToBase2 1 = 0 from rfl]
    omega
  rw [getDesiredQueue, hzero]
  rfl

theorem Entered.visit_eq (hr : Responds listeners settle onEvict onLoad)
    (hn : 1 ≤ queuesSize config) (h : Entered clock config settle onEvict onLoad k m l m' l') :
    (Clocked.manager clock config).visit listeners k (m, l) =
      .ok (demotions clock config m', l') := by
  cases h with
  | @hit i j hk hj =>
    have hne : ¬level i = qOut := by simp
    rw [loggedData] at hj
    simp only [Clocked.manager, MultipleQueueCacheManager.visit, hk, onHit, if_neg hne,
      Java.ok_bind, hj, moveNode_ok hr, checkForDemotions_ok hr]
    rfl
  | ghostHit hk hfreed hj =>
    have hok := hfreed.freeUpSpace_eq hr
    rw [loggedData] at hj
    rw [logged] at hok
    simp only [Clocked.manager, MultipleQueueCacheManager.visit, hk, onHit, if_true, hok,
      Java.ok_bind, hj, moveNode_ok hr, checkForDemotions_ok hr]
    rfl
  | @missed m₁ l₁ hk hfreed =>
    have hj : getDesiredQueue config (notedData clock config k m₁) = .ok (level 0) :=
      getDesiredQueue_notedData hn
    rw [notedData] at hj
    simp only [Clocked.manager, MultipleQueueCacheManager.visit, hk, onMiss,
      hfreed.freeUpSpace_eq hr, Java.ok_bind, hj, insertNode_ok hr, checkForDemotions_ok hr]
    rfl

theorem Visited.visit_eq (hr : Responds listeners settle onEvict onLoad)
    (hn : 1 ≤ queuesSize config) (h : Visited clock config settle onEvict onLoad k m l m' l') :
    (Clocked.manager clock config).visit listeners k (m, l) = .ok (m', l') := by
  obtain ⟨hentered⟩ := h
  exact hentered.visit_eq hr hn

/-- Without a queue there is none to which a visited key could be sent. -/
theorem visit_queueless (hc : 1 ≤ config.maxNodes.val) (hn : queuesSize config = 0) (k : α)
    (m : MQCacheManager α) (l : L) :
    (Clocked.manager clock config).visit listeners k (m, l) = .error .indexOutOfBounds := by
  have hroom (m : MQCacheManager α) (l : L) : freeUpSpace config listeners (m, l) = .ok (m, l) := by
    rw [freeUpSpace, if_pos]
    rw [cacheSize, hn]
    show (0 : ℤ) < _
    omega
  have hindex (data : MQMetadata) : getDesiredQueue config data = .error .indexOutOfBounds := by
    have hnumber : getQueueNumber config data ≤ -1 := by
      rw [getQueueNumber, hn]
      exact min_le_right _ _
    rw [getDesiredQueue, if_neg (by omega)]
  simp only [Clocked.manager, MultipleQueueCacheManager.visit]
  split
  · simp only [onHit, hroom, ite_self, Java.ok_bind, hindex, Java.error_bind]
  · simp only [onMiss, hroom, Java.ok_bind, hindex, Java.error_bind]

end Visits

end CachePolicies.MQCacheManager
