import CachePolicies.MQRuns

/-!
# Stale locations of the MQ manager

A key which was dropped from `qOut` may still be located there. A visit takes it for a ghost,
and yet does to the queues and the fields of the manager what it does to a missed key, so two
managers that differ only in such locations stay alike.
-/

namespace CachePolicies.MQCacheManager

open MultipleQueueCacheManager MQQueue

variable {α L : Type} [DecidableEq α] {clock : ℤ → ℤ} {config : MQConfiguration}
  {listeners : List (CacheManagerListener α (MQCacheManager α) L)} {onEvict onLoad : α → L → L}
  {k x : α} {data : MQMetadata} {m m' m₁ : MQCacheManager α} {l l' l₁ : L}

/-- The managers differ in their locations at most. -/
structure Alike (m m' : MQCacheManager α) : Prop where
  queues : m'.queues = m.queues
  own : m'.own = m.own

/-! ## Steps that do not read the locations -/

omit [DecidableEq α] in
theorem Alike.refl (m : MQCacheManager α) : Alike m m := ⟨rfl, rfl⟩

omit [DecidableEq α] in
theorem Alike.symm (h : Alike m m') : Alike m' m := ⟨h.queues.symm, h.own.symm⟩

omit [DecidableEq α] in
theorem Alike.trans (h : Alike m m') (h' : Alike m' m₁) : Alike m m₁ :=
  ⟨h'.queues.trans h.queues, h'.own.trans h.own⟩

theorem Alike.enqueue (h : Alike m m') (k : α) (d : MQQueue) :
    Alike (m.enqueue k d) (m'.enqueue k d) := by
  refine ⟨?_, h.own⟩
  rw [MultipleQueueCacheManager.enqueue, MultipleQueueCacheManager.enqueue, setQueue, setQueue,
    h.queues]

theorem Alike.relocate (h : Alike m m') (k : α) (s d : MQQueue) :
    Alike (m.relocate k s d) (m'.relocate k s d) := by
  apply Alike.enqueue
  exact ⟨by rw [setQueue, setQueue, h.queues], h.own⟩

theorem Alike.putMetadata (h : Alike m m') (k : α) (data : MQMetadata) :
    Alike (putMetadata k data m) (putMetadata k data m') := by
  refine ⟨h.queues, ?_⟩
  rw [MQCacheManager.putMetadata, MQCacheManager.putMetadata, h.own]

theorem Alike.setMetadata (h : Alike m m') (k : α) (data : MQMetadata) :
    Alike (setMetadata k data m) (setMetadata k data m') := by
  rw [MQCacheManager.setMetadata, MQCacheManager.setMetadata, h.own]
  split
  · exact h.putMetadata k data
  · exact h

theorem Alike.getMetadata (h : Alike m m') (k : α) :
    (getMetadata k m').1 = (getMetadata k m).1 ∧
      Alike (getMetadata k m).2 (getMetadata k m').2 := by
  rw [MQCacheManager.getMetadata, MQCacheManager.getMetadata, h.own]
  split
  · exact ⟨rfl, h⟩
  · exact ⟨rfl, h.putMetadata k _⟩

theorem Alike.logged (h : Alike m m') (k : α) : Alike (logged k m) (logged k m') := by
  obtain ⟨hdata, hm⟩ := h.getMetadata k
  rw [MQCacheManager.logged, MQCacheManager.logged, hdata]
  exact hm.setMetadata k _

theorem Alike.loggedData (h : Alike m m') (k : α) : loggedData k m' = loggedData k m := by
  rw [MQCacheManager.loggedData, MQCacheManager.loggedData, (h.getMetadata k).1]

theorem Alike.noted (h : Alike m m') (k : α) : Alike (noted clock config k m) (noted clock config k m') := by
  obtain ⟨hdata, hm⟩ := h.getMetadata k
  rw [MQCacheManager.noted, MQCacheManager.noted, notedData, notedData, hdata, h.own]
  exact hm.setMetadata k _

theorem Alike.modified (h : Alike m m') (k : α) (data : MQMetadata) :
    Alike (modified clock config k data m) (modified clock config k data m') := by
  rw [MQCacheManager.modified, MQCacheManager.modified, h.own]
  exact h.setMetadata k _

theorem Alike.dropHead (h : Alike m m') (y : α) : Alike (dropHead y m) (dropHead y m') := by
  refine ⟨?_, ?_⟩
  · rw [MQCacheManager.dropHead, MQCacheManager.dropHead, setQueue, setQueue, h.queues]
  · rw [MQCacheManager.dropHead, MQCacheManager.dropHead, h.own]

theorem Alike.demote (h : Alike m m') (i : ℕ) :
    Alike (demote clock config i m) (demote clock config i m') := by
  rw [MQCacheManager.demote, MQCacheManager.demote, h.queues]
  split
  · exact h
  · next entry _ =>
    obtain ⟨hdata, hm⟩ := h.getMetadata entry
    rw [hdata, hm.own]
    split
    · exact (hm.relocate entry _ _).setMetadata entry _
    · exact hm

theorem Alike.demotions (h : Alike m m') :
    Alike (demotions clock config m) (demotions clock config m') := by
  have hfold (is : List ℕ) {m m' : MQCacheManager α} (h : Alike m m') :
      Alike (is.foldl (fun m i => MQCacheManager.demote clock config i m) m)
        (is.foldl (fun m i => MQCacheManager.demote clock config i m) m') := by
    induction is generalizing m m' with
    | nil => exact h
    | cons i is ih => exact ih (h.demote i)
  apply hfold
  refine ⟨h.queues, ?_⟩
  rw [tick, tick, h.own]

omit [DecidableEq α] in
theorem Alike.getFirstNonEmptyQueue (h : Alike m m') :
    getFirstNonEmptyQueue config m' = getFirstNonEmptyQueue config m := by
  rw [MQCacheManager.getFirstNonEmptyQueue, MQCacheManager.getFirstNonEmptyQueue, h.queues]

theorem Alike.trimmed (h : Alike m m') (ht : Trimmed config m m₁) :
    ∃ m₁', Trimmed config m' m₁' ∧ Alike m₁ m₁' := by
  cases ht with
  | kept hsize => exact ⟨m', .kept (by rwa [h.queues]), h⟩
  | dropped hsize hy =>
    exact ⟨_, .dropped (by rwa [h.queues]) (by rw [h.queues]; exact hy), h.dropHead _⟩

/-- Room is made in the same way, whoever listens. -/
theorem Alike.freedUp (h : Alike m m') (hf : FreedUp config (fun _ m => m) onEvict m l m₁ l₁) (l' : L) :
    ∃ m₁' l₁', FreedUp config (fun _ m => m) onEvict m' l' m₁' l₁' ∧ Alike m₁ m₁' := by
  have hsize : cacheSize config m' = cacheSize config m := cacheSize_congr h.queues
  cases hf with
  | room hroom => exact ⟨m', l', .room (hsize ▸ hroom), h⟩
  | @pushed i x xs m₂ hfull hfirst hx htrimmed =>
    obtain ⟨m₂', htrimmed', hm₂⟩ := h.trimmed htrimmed
    have hx' : (m'.queues (level i)).toList = x :: xs := by
      rw [h.queues]
      exact hx
    exact ⟨_, _, .pushed (hsize ▸ hfull) (h.getFirstNonEmptyQueue.trans hfirst) hx' htrimmed',
      hm₂.relocate x _ _⟩

/-! ## Metadata of queued keys -/

/-- Only keys in some queue have metadata. -/
def Noted (m : MQCacheManager α) : Prop :=
  ∀ k, (m.own.metadata.lookup k).isSome → ∃ q, k ∈ m.queues q

theorem Noted.getMetadata (h : Noted m) {q : MQQueue} (hk : k ∈ m.queues q) :
    Noted (getMetadata k m).2 := by
  intro x hx
  rw [lookup_getMetadata, Bool.or_eq_true, decide_eq_true_iff] at hx
  rw [queues_getMetadata]
  rcases hx with rfl | hx
  · exact ⟨q, hk⟩
  · exact h x hx

theorem Noted.setMetadata (h : Noted m) (k : α) (data : MQMetadata) : Noted (setMetadata k data m) := by
  intro x hx
  rw [lookup_setMetadata] at hx
  rw [queues_setMetadata]
  exact h x hx

theorem Noted.logged (h : Noted m) {q : MQQueue} (hk : k ∈ m.queues q) : Noted (logged k m) :=
  (h.getMetadata hk).setMetadata k _

/-- A key that moves stays in some queue. -/
theorem Noted.relocate (h : Noted m) (k : α) (s d : MQQueue) : Noted (m.relocate k s d) := by
  intro x hx
  obtain ⟨q, hq⟩ := h x hx
  by_cases hxk : x = k
  · exact ⟨d, mem_relocate.mpr (.inr ⟨rfl, hxk⟩)⟩
  · exact ⟨q, mem_relocate.mpr (.inl ⟨hq, fun _ => hxk⟩)⟩

theorem Noted.enqueue (h : Noted m) (k : α) (d : MQQueue) :
    Noted ((noted clock config k m).enqueue k d) := by
  intro x hx
  rw [own_enqueue, noted, lookup_setMetadata, lookup_getMetadata, Bool.or_eq_true,
    decide_eq_true_iff] at hx
  rcases hx with rfl | hx
  · exact ⟨d, mem_enqueue.mpr (.inr ⟨rfl, rfl⟩)⟩
  · obtain ⟨q, hq⟩ := h x hx
    refine ⟨q, mem_enqueue.mpr (.inl ?_)⟩
    rw [noted, queues_setMetadata, queues_getMetadata]
    exact hq

theorem Noted.demotions (h : Noted m) : Noted (demotions clock config m) := by
  refine demotions_induction h ?_
  intro i m _ _ hm
  rw [demote]
  split
  · exact hm
  · next x hpeek =>
    have hx : x ∈ m.queues (level i) := List.mem_of_head? hpeek
    split
    · exact ((hm.getMetadata hx).relocate x _ _).setMetadata x _
    · exact hm.getMetadata hx

theorem lookup_dropHead (y : α) : (dropHead y m).own.metadata.lookup x =
    if x = y then none else m.own.metadata.lookup x :=
  HashMap.lookup_erase_eq m.own.metadata y x

theorem Noted.dropHead (h : Noted m) (y : α) : Noted (dropHead y m) := by
  intro x hx
  rw [lookup_dropHead] at hx
  split at hx
  · cases hx
  · next hxy =>
    obtain ⟨q, hq⟩ := h x hx
    refine ⟨q, ?_⟩
    by_cases hout : q = qOut
    · subst hout
      simp [MQCacheManager.dropHead, setQueue, hxy, hq]
    · simp [MQCacheManager.dropHead, setQueue, hout, hq]

theorem Noted.freedUp (h : Noted m) (hf : FreedUp config (fun _ m => m) onEvict m l m₁ l₁) :
    Noted m₁ := by
  cases hf with
  | room => exact h
  | pushed hfull hfirst hx htrimmed =>
    apply Noted.relocate
    cases htrimmed with
    | kept => exact h
    | dropped => exact h.dropHead _

theorem Noted.visited (h : Noted m) (hsound : Sound config m)
    (hv : Visited clock config (fun _ m => m) onEvict onLoad k m l m' l') (hk : ∃ q, k ∈ m.queues q) :
    Noted m' := by
  obtain ⟨q, hk⟩ := hk
  have hlogged := h.logged hk
  obtain ⟨hentered⟩ := hv
  apply Noted.demotions
  cases hentered with
  | hit => exact (hlogged.relocate k _ _).setMetadata k _
  | ghostHit _ hfreed => exact ((hlogged.freedUp hfreed).relocate k _ _).setMetadata k _
  | missed hnone => exact absurd hk (hsound.tidy.filed.notMem_of_none hnone q)

theorem Noted.remove (h : Noted m) (k : α) :
    Noted (MultipleQueueCacheManager.remove subclass k m) := by
  rw [MultipleQueueCacheManager.remove]
  split
  · exact h
  · next s hk =>
    intro x hx
    have hlookup : (forget subclass k s m).own.metadata.lookup x =
        if x = k then none else m.own.metadata.lookup x :=
      HashMap.lookup_erase_eq m.own.metadata k x
    rw [hlookup] at hx
    split at hx
    · cases hx
    · next hxk =>
      obtain ⟨q, hq⟩ := h x hx
      exact ⟨q, mem_forget.mpr ⟨hq, fun _ => hxk⟩⟩

/-! ## A visit to a key in no queue -/

theorem lookup_putMetadata : (putMetadata k data m).own.metadata.lookup x =
    if x = k then some data else m.own.metadata.lookup x :=
  HashMap.lookup_insert_eq m.own.metadata k x data

/-- Only the last object stored for a key is there to be found. -/
theorem putMetadata_putMetadata (data' : MQMetadata) :
    putMetadata k data' (putMetadata k data m) = putMetadata k data' m := by
  simp only [putMetadata, Finmap.insert_insert]

theorem setMetadata_putMetadata (data' : MQMetadata) :
    setMetadata k data' (putMetadata k data m) = putMetadata k data' m := by
  have hsome : ((putMetadata k data m).own.metadata.lookup k).isSome := by
    rw [lookup_putMetadata, if_pos rfl]
    rfl
  rw [setMetadata, if_pos hsome, putMetadata_putMetadata]

theorem getMetadata_of_none (hk : m.own.metadata.lookup k = none) :
    getMetadata k m = (⟨0, 0⟩, putMetadata k ⟨0, 0⟩ m) := by
  rw [getMetadata, hk]

/-- The first visit to be counted is the only one. -/
theorem logged_of_none (hk : m.own.metadata.lookup k = none) :
    loggedData k m = ⟨1, 0⟩ ∧ logged k m = putMetadata k ⟨1, 0⟩ m := by
  rw [loggedData, logged, getMetadata_of_none hk, setMetadata_putMetadata]
  exact ⟨rfl, rfl⟩

theorem noted_of_none (hk : m.own.metadata.lookup k = none) : noted clock config k m =
    putMetadata k ((⟨1, 0⟩ : MQMetadata).markAsModified clock config m.own.currentTime) m := by
  rw [noted, notedData, getMetadata_of_none hk, setMetadata_putMetadata]

theorem getDesiredQueue_one (hn : 1 ≤ queuesSize config) (hdata : data.numberOfNodeVisits = 1) :
    getDesiredQueue config data = .ok (level 0) := by
  have hzero : getQueueNumber config data = 0 := by
    rw [getQueueNumber_eq _ hn, hdata, show logToBase2 1 = 0 from rfl]
    omega
  rw [getDesiredQueue, hzero]
  rfl

theorem putMetadata_dropHead {y : α} (hy : y ≠ k) :
    Alike (putMetadata k data (dropHead y m)) (dropHead y (putMetadata k data m)) := by
  refine ⟨rfl, ?_⟩
  have hmetadata : (m.own.metadata.insert k data).erase y = (m.own.metadata.erase y).insert k data := by
    apply Finmap.ext_lookup
    intro x
    rw [HashMap.lookup_erase_eq, HashMap.lookup_insert_eq, HashMap.lookup_insert_eq,
      HashMap.lookup_erase_eq]
    by_cases hx : x = y
    · rw [if_pos hx, if_pos hx, if_neg (hx ▸ hy)]
    · rw [if_neg hx, if_neg hx]
  simp only [dropHead, putMetadata, afterRemove, setQueue, hmetadata]

/-- Room is made in the same way when a key outside `qOut` has metadata. -/
theorem FreedUp.putMetadata (hf : FreedUp config (fun _ m => m) onEvict m l m₁ l₁)
    (hk : k ∉ m.queues qOut) (data : MQMetadata) :
    ∃ m₂ l₂, FreedUp config (fun _ m => m) onEvict (putMetadata k data m) l m₂ l₂ ∧
      Alike (MQCacheManager.putMetadata k data m₁) m₂ := by
  cases hf with
  | room hroom => exact ⟨_, _, .room hroom, Alike.refl _⟩
  | pushed hfull hfirst hx htrimmed =>
    cases htrimmed with
    | kept hsize =>
      exact ⟨_, _, .pushed hfull hfirst hx (.kept hsize), Alike.refl _⟩
    | @dropped y ys hsize hy =>
      have hyk : y ≠ k := fun he => hk (he ▸ LinkedHashSet.mem_of_toList_cons hy)
      exact ⟨_, _, .pushed hfull hfirst hx (.dropped hsize hy),
        (putMetadata_dropHead hyk).relocate _ _ _⟩

/-- Making room neither queues a key that was in no queue nor notes it. -/
theorem FreedUp.strayed (hf : FreedUp config (fun _ m => m) onEvict m l m₁ l₁)
    (hk : ∀ q, k ∉ m.queues q) (hnone : m.own.metadata.lookup k = none) :
    k ∉ m₁.queues qOut ∧ m₁.own.metadata.lookup k = none := by
  cases hf with
  | room => exact ⟨hk qOut, hnone⟩
  | @pushed i x xs m₂ hfull hfirst hx htrimmed =>
    have hkx : k ≠ x := fun he => hk (level i) (he ▸ LinkedHashSet.mem_of_toList_cons hx)
    rw [mem_relocate, own_relocate]
    cases htrimmed with
    | kept => exact ⟨fun h => h.elim (fun h => hk qOut h.1) fun h => hkx h.2, hnone⟩
    | dropped hsize hy =>
      rw [lookup_dropHead, hnone, ite_self]
      refine ⟨fun h => h.elim (fun h => ?_) fun h => hkx h.2, rfl⟩
      have hmem := h.1
      simp only [dropHead, setQueue, Function.update_self, LinkedHashSet.mem_remove] at hmem
      exact hk qOut hmem.2

/-- What a hit on the stale location of a key leaves is what a miss leaves. -/
theorem alike_enqueue_relocate (hk : k ∉ m.queues qOut) (hnone : m.own.metadata.lookup k = none) :
    Alike ((noted clock config k m).enqueue k (level 0))
      (modified clock config k ⟨1, 0⟩ ((putMetadata k ⟨1, 0⟩ m).relocate k qOut (level 0))) := by
  have hmoved : (putMetadata k ⟨1, 0⟩ m).relocate k qOut (level 0) =
      putMetadata k ⟨1, 0⟩ (m.enqueue k (level 0)) :=
    relocate_of_notMem (m := putMetadata k ⟨1, 0⟩ m) hk
  rw [noted_of_none hnone, hmoved, modified, setMetadata_putMetadata]
  exact Alike.refl _

/-- A visit to a key in no queue does what a miss does, wherever the key is located. -/
theorem Sound.visit_strayed (clock : ℤ → ℤ) (hr : Responds listeners (fun _ m => m) onEvict onLoad)
    (hc : 2 ≤ config.maxNodes.val) (hn : 1 ≤ queuesSize config) (h : Sound config m)
    (hnoted : Noted m) (hk : ∀ q, k ∉ m.queues q) (l : L) :
    ∃ m₁ l₁ m₂ l₂, FreedUp config (fun _ m => m) onEvict m l m₁ l₁ ∧
      (Clocked.manager clock config).visit listeners k (m, l) = .ok (m₂, l₂) ∧ Sound config m₂ ∧
      Alike (MQCacheManager.demotions clock config
        ((MQCacheManager.noted clock config k m₁).enqueue k (level 0))) m₂ := by
  have hnone : m.own.metadata.lookup k = none := by
    by_contra hsome
    obtain ⟨q, hq⟩ := hnoted k (Option.isSome_iff_ne_none.mpr hsome)
    exact hk q hq
  obtain ⟨m₁, l₁, hfreed⟩ :
      ∃ m₁ l₁, FreedUp config (fun _ m => m) onEvict m l m₁ l₁ :=
    h.exists_freedUp (by omega) (.inr hc) l
  obtain ⟨hk₁, hnone₁⟩ := hfreed.strayed hk hnone
  cases hlookup : m.currentLocations.lookup k with
  | none =>
    have hv : Visited clock config (fun _ m => m) onEvict onLoad k m l _ _ :=
      .entered (.missed hlookup hfreed)
    exact ⟨m₁, l₁, _, _, hfreed, hv.visit_eq hr hn, (hv.sound (.inl rfl) hn h).1, Alike.refl _⟩
  | some s =>
    cases s with
    | level i => exact absurd (h.tidy.placed k i hlookup) (hk (level i))
    | qOut =>
      obtain ⟨hdata, hlogged⟩ := logged_of_none hnone
      obtain ⟨m₂, l₂, hfreed₂, hm₂⟩ := hfreed.putMetadata (hk qOut) ⟨1, 0⟩
      rw [← hlogged] at hfreed₂
      have hj : getDesiredQueue config (MQCacheManager.loggedData k m) = .ok (level 0) :=
        getDesiredQueue_one hn (by rw [hdata])
      have hv : Visited clock config (fun _ m => m) onEvict onLoad k m l _ _ :=
        .entered (.ghostHit hlookup hfreed₂ hj)
      refine ⟨m₁, l₁, _, _, hfreed, hv.visit_eq hr hn, (hv.sound (.inl rfl) hn h).1, ?_⟩
      apply Alike.demotions
      rw [hdata]
      exact (alike_enqueue_relocate hk₁ hnone₁).trans ((hm₂.relocate k _ _).modified k _)

/-! ## Two managers side by side -/

/-- Two managers that may differ in stale locations. -/
structure Twins (config : MQConfiguration) (m m' : MQCacheManager α) : Prop where
  alike : Alike m m'
  sound : Sound config m
  sound' : Sound config m'
  noted : Noted m

theorem Twins.noted' (h : Twins config m m') : Noted m' := by
  intro x hx
  rw [h.alike.own] at hx
  rw [h.alike.queues]
  exact h.noted x hx

theorem Sound.visit_uncounted (hc : 2 ≤ config.maxNodes.val) (hn : 1 ≤ queuesSize config)
    (h : Sound config m) {q : MQQueue} (hk : m.currentLocations.lookup k = some q)
    (hcounts : ¬Counts k m) (l : L) (hr : Responds listeners (fun _ m => m) onEvict onLoad) :
    (Clocked.manager clock config).visit listeners k (m, l) = .error .indexOutOfBounds := by
  have hindex : getDesiredQueue config (MQCacheManager.getMetadata k m).1.logVisit =
      .error .indexOutOfBounds := getDesiredQueue_error hn (not_not.mp hcounts)
  cases q with
  | level i =>
    simp only [Clocked.manager, MultipleQueueCacheManager.visit, hk, onHit,
      if_neg (show ¬level i = qOut by simp), Java.ok_bind, hindex, Java.error_bind]
  | qOut =>
    obtain ⟨m₁, l₁, hfreed⟩ :
        ∃ m₁ l₁, FreedUp config (fun _ m => m) onEvict (MQCacheManager.logged k m) l m₁ l₁ :=
      (h.logged k).exists_freedUp (by omega) (.inr hc) l
    have hok := hfreed.freeUpSpace_eq hr
    rw [MQCacheManager.logged] at hok
    simp only [Clocked.manager, MultipleQueueCacheManager.visit, hk, onHit, if_true, hok,
      Java.ok_bind, hindex, Java.error_bind]

/-- The visits of a queued key meet it in the same queue, with the same metadata. -/
theorem Twins.visited (hn : 1 ≤ queuesSize config) (h : Twins config m m')
    (hv : Visited clock config (fun _ m => m) onEvict onLoad k m l m₁ l₁) (hk : ∃ q, k ∈ m.queues q)
    (l' : L) : ∃ m₁' l₁', Visited clock config (fun _ m => m) onEvict onLoad k m' l' m₁' l₁' ∧
      Twins config m₁ m₁' := by
  obtain ⟨m₁', l₁', hv', halike⟩ : ∃ m₁' l₁',
      Visited clock config (fun _ m => m) onEvict onLoad k m' l' m₁' l₁' ∧ Alike m₁ m₁' := by
    obtain ⟨q, hmem⟩ := hk
    have hlookup := h.sound.tidy.filed hmem
    have hlookup' : m'.currentLocations.lookup k = some q :=
      h.sound'.tidy.filed (by rw [h.alike.queues]; exact hmem)
    have hlogged := h.alike.logged k
    have hdata := h.alike.loggedData k
    obtain ⟨hentered⟩ := hv
    cases hentered with
    | hit hi hj =>
      cases hi.symm.trans hlookup
      refine ⟨_, _, .entered (.hit hlookup' (by rw [hdata]; exact hj)), ?_⟩
      rw [hdata]
      exact ((hlogged.relocate k _ _).modified k _).demotions
    | ghostHit hi hfreed hj =>
      cases hi.symm.trans hlookup
      obtain ⟨m₂, l₂, hfreed', hm₂⟩ := hlogged.freedUp hfreed l'
      refine ⟨_, _, .entered (.ghostHit hlookup' hfreed' (by rw [hdata]; exact hj)), ?_⟩
      rw [hdata]
      exact ((hm₂.relocate k _ _).modified k _).demotions
    | missed hi => cases hi.symm.trans hlookup
  exact ⟨m₁', l₁', hv', halike, (hv.sound (.inl rfl) hn h.sound).1,
    (hv'.sound (.inl rfl) hn h.sound').1, h.noted.visited h.sound hv hk⟩

/-- A visit keeps two managers alike, or fails in both. -/
theorem Twins.visit (hr : Responds listeners (fun _ m => m) onEvict onLoad)
    (hc : 2 ≤ config.maxNodes.val) (h : Twins config m m') (k : α) (l l' : L) :
    Agree (fun w w' => Twins config w.1 w'.1)
      ((Clocked.manager clock config).visit listeners k (m, l))
      ((Clocked.manager clock config).visit listeners k (m', l')) := by
  by_cases hn : 1 ≤ queuesSize config
  · by_cases hk : ∃ q, k ∈ m.queues q
    · obtain ⟨q, hmem⟩ := hk
      have hlookup := h.sound.tidy.filed hmem
      by_cases hcounts : Counts k m
      · have hfits : Fits config m (.visit k) := by
          change FitsAt config k m (m.currentLocations.lookup k)
          rw [hlookup]
          cases q with
          | level i => exact hcounts
          | qOut => exact ⟨.inr hc, hcounts⟩
        obtain ⟨m₁, l₁, hv⟩ :
            ∃ m₁ l₁, Visited clock config (fun _ m => m) onEvict onLoad k m l m₁ l₁ :=
          h.sound.exists_visited (by omega) hn hfits l
        obtain ⟨m₁', l₁', hv', htwins⟩ := h.visited hn hv ⟨q, hmem⟩ l'
        rw [hv.visit_eq hr hn, hv'.visit_eq hr hn]
        exact .ok htwins
      · have hcounts' : ¬Counts k m' := by
          rw [Counts, h.alike.loggedData k]
          exact hcounts
        have hlookup' : m'.currentLocations.lookup k = some q :=
          h.sound'.tidy.filed (by rw [h.alike.queues]; exact hmem)
        rw [h.sound.visit_uncounted hc hn hlookup hcounts l hr,
          h.sound'.visit_uncounted hc hn hlookup' hcounts' l' hr]
        exact .error _
    · have hk := not_exists.mp hk
      have hk' (q) : k ∉ m'.queues q := by
        rw [h.alike.queues]
        exact hk q
      obtain ⟨m₁, l₁, m₂, l₂, hfreed, hok, hsound, hm₂⟩ :=
        h.sound.visit_strayed clock hr hc hn h.noted hk l
      obtain ⟨m₁', l₁', m₂', l₂', hfreed', hok', hsound', hm₂'⟩ :=
        h.sound'.visit_strayed clock hr hc hn h.noted' hk' l'
      obtain ⟨m₃, l₃, hfreed₃, hm₃⟩ := h.alike.freedUp hfreed l'
      have hsame : m₃ = m₁' := by
        have hfreeUp := (hfreed₃.freeUpSpace_eq hr).symm.trans (hfreed'.freeUpSpace_eq hr)
        exact congrArg Prod.fst (Except.ok.inj hfreeUp)
      subst hsame
      have halike : Alike m₂ m₂' :=
        hm₂.symm.trans (((hm₃.noted k).enqueue k (level 0)).demotions.trans hm₂')
      have hnoted : Noted m₂ := by
        intro x hx
        rw [hm₂.own] at hx
        rw [hm₂.queues]
        exact ((h.noted.freedUp hfreed).enqueue k (level 0)).demotions x hx
      rw [hok, hok']
      exact .ok ⟨halike, hsound, hsound', hnoted⟩
  · have hn : queuesSize config = 0 := by omega
    rw [visit_queueless (by omega) hn, visit_queueless (by omega) hn]
    exact .error _

/-- The removal of a key from no queue leaves its stale location behind at most. -/
theorem Twins.remove (h : Twins config m m') (hk : ∀ q, k ∉ m.queues q) :
    Twins config (MultipleQueueCacheManager.remove subclass k m) m' := by
  refine ⟨?_, h.sound.remove k, h.sound', h.noted.remove k⟩
  rw [MultipleQueueCacheManager.remove]
  split
  · exact h.alike
  · next s hs =>
    have hnone : k ∉ m.own.metadata := by
      intro hmem
      obtain ⟨q, hq⟩ := h.noted k (Finmap.lookup_isSome.mpr hmem)
      exact hk q hq
    refine ⟨?_, ?_⟩
    · rw [h.alike.queues]
      funext q
      by_cases hq : q = s
      · rw [hq, queues_forget_self, LinkedHashSet.remove_of_notMem (hk s)]
      · rw [queues_forget_of_ne hq]
    · rw [h.alike.own, own_forget]
      show m.own = { m.own with metadata := m.own.metadata.erase k }
      rw [HashMap.erase_of_notMem hnone]

end CachePolicies.MQCacheManager
