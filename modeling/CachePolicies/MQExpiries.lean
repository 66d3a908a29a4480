import CachePolicies.MQGhostHits

/-!
# Expiry times of the MQ manager

Whatever moves a key to the tail of a level gives it the latest expiry time there is, so the
times in a level increase from its head, and the head is the first key to expire. The times are
without bound here; the counts are those of the source.
-/

namespace CachePolicies.MQCacheManager

open MultipleQueueCacheManager MQQueue

variable {α L : Type} [DecidableEq α]

/-- The expiry time that `checkForDemotions` reads for a key. -/
def expiryTime (k : α) (m : MQCacheManager α) : ℤ := (getMetadata k m).1.expiryTime

/-- The metadata of the keys agree with the clock and with the levels. -/
structure Timely (config : MQConfiguration) (m : MQCacheManager α) : Prop where
  started : 0 ≤ m.own.currentTime
  counted : ∀ k data, m.own.metadata.lookup k = some data →
    1 ≤ data.numberOfNodeVisits ∧ data.numberOfNodeVisits ≤ 2147483647
  due : ∀ k data, m.own.metadata.lookup k = some data →
    data.expiryTime ≤ m.own.currentTime + config.lifetime.val
  noted : ∀ q k, k ∈ m.queues q → ∃ data, m.own.metadata.lookup k = some data
  level_le : ∀ i k data, k ∈ m.queues (level i) → m.own.metadata.lookup k = some data →
    i ≤ Nat.log 2 data.numberOfNodeVisits.toNat
  sorted : ∀ i, (m.queues (level i)).toList.Pairwise
    fun x y => expiryTime x m ≤ expiryTime y m

section Steps

variable {config : MQConfiguration} {k x : α} {i j : ℕ} {s : MQQueue} {data : MQMetadata}
  {m m' : MQCacheManager α} {onEvict onLoad : α → L → L} {l l' : L}

theorem expiryTime_of_some (hk : m.own.metadata.lookup k = some data) :
    expiryTime k m = data.expiryTime := by
  rw [expiryTime, getMetadata_of_some hk]

theorem expiryTime_congr (hk : m'.own.metadata.lookup k = m.own.metadata.lookup k) :
    expiryTime k m' = expiryTime k m := by
  rw [expiryTime, expiryTime, getMetadata, getMetadata, hk]
  split <;> rfl

/-- Keys may leave the levels, and time may pass. -/
theorem Timely.shrunk (h : Timely config m) (htime : m.own.currentTime ≤ m'.own.currentTime)
    (hmetadata : ∀ k data, m'.own.metadata.lookup k = some data →
      m.own.metadata.lookup k = some data)
    (hnoted : ∀ q k, k ∈ m'.queues q → (∃ q, k ∈ m.queues q) ∧
      m'.own.metadata.lookup k = m.own.metadata.lookup k)
    (hlevels : ∀ i, (m'.queues (level i)).toList.Sublist (m.queues (level i)).toList) :
    Timely config m' := by
  refine ⟨h.started.trans htime, ?_, ?_, ?_, ?_, ?_⟩
  · exact fun k data hk => h.counted k data (hmetadata k data hk)
  · intro k data hk
    have hdue := h.due k data (hmetadata k data hk)
    omega
  · intro q k hk
    obtain ⟨⟨q', hq'⟩, hsame⟩ := hnoted q k hk
    rw [hsame]
    exact h.noted q' k hq'
  · exact fun i k data hk hdata => h.level_le i k data ((hlevels i).subset hk) (hmetadata k data hdata)
  · intro i
    have hsame (x : α) (hx : x ∈ (m'.queues (level i)).toList) : expiryTime x m' = expiryTime x m :=
      expiryTime_congr (hnoted (level i) x hx).2
    refine ((h.sorted i).sublist (hlevels i)).imp_of_mem fun hx hy hle => ?_
    rw [hsame _ hx, hsame _ hy]
    exact hle

theorem Timely.tick (h : Timely config m) : Timely config (tick id m) := by
  refine h.shrunk ?_ (fun _ _ hk => hk) (fun q k hk => ⟨⟨q, hk⟩, rfl⟩) fun i => List.Sublist.refl _
  show m.own.currentTime ≤ m.own.currentTime + 1
  omega

/-- The count of a key that is visited is in the range of `int` and at least one. -/
theorem Timely.loggedData (h : Timely config m)
    (hcount : ∀ data, m.own.metadata.lookup k = some data → data.numberOfNodeVisits ≠ 2147483647) :
    (loggedData k m).numberOfNodeVisits = (getMetadata k m).1.numberOfNodeVisits + 1 ∧
      1 ≤ (loggedData k m).numberOfNodeVisits ∧
      (loggedData k m).numberOfNodeVisits ≤ 2147483647 := by
  have hbounds : 0 ≤ (getMetadata k m).1.numberOfNodeVisits ∧
      (getMetadata k m).1.numberOfNodeVisits < 2147483647 := by
    rw [getMetadata]
    split
    · next data hk =>
      have hrange := h.counted k data hk
      have hmax := hcount data hk
      show 0 ≤ data.numberOfNodeVisits ∧ data.numberOfNodeVisits < 2147483647
      omega
    · show (0 : ℤ) ≤ 0 ∧ (0 : ℤ) < 2147483647
      omega
  have hlogged : (MQCacheManager.loggedData k m).numberOfNodeVisits =
      (getMetadata k m).1.numberOfNodeVisits + 1 := int32_of_isInt ⟨by omega, by omega⟩
  omega

/-- Metadata put for one key leave the metadata of all keys within their bounds. -/
theorem Timely.bounded (h : Timely config m)
    (hlookup : ∀ x, m'.own.metadata.lookup x =
      if x = k then some data else m.own.metadata.lookup x)
    (hcount : 1 ≤ data.numberOfNodeVisits ∧ data.numberOfNodeVisits ≤ 2147483647)
    (hdue : data.expiryTime ≤ m.own.currentTime + config.lifetime.val) {data' : MQMetadata}
    (hx : m'.own.metadata.lookup x = some data') :
    (1 ≤ data'.numberOfNodeVisits ∧ data'.numberOfNodeVisits ≤ 2147483647) ∧
      data'.expiryTime ≤ m.own.currentTime + config.lifetime.val := by
  rw [hlookup] at hx
  split at hx
  · cases hx
    exact ⟨hcount, hdue⟩
  · exact ⟨h.counted x data' hx, h.due x data' hx⟩

/-- A visit that is counted leaves the expiry times as they are. -/
theorem Timely.logged (h : Timely config m) (hl : 1 ≤ config.lifetime.val)
    (hcount : ∀ data, m.own.metadata.lookup k = some data → data.numberOfNodeVisits ≠ 2147483647) :
    Timely config (logged k m) := by
  obtain ⟨hlogged, hpos, hmax⟩ := h.loggedData hcount
  have hstarted := h.started
  have hexpiry : (MQCacheManager.loggedData k m).expiryTime = expiryTime k m := rfl
  have hdue : expiryTime k m ≤ m.own.currentTime + config.lifetime.val := by
    rw [expiryTime, getMetadata]
    split
    · next data hk => exact h.due k data hk
    · show 0 ≤ m.own.currentTime + config.lifetime.val
      omega
  have hsame (x : α) : expiryTime x (MQCacheManager.logged k m) = expiryTime x m := by
    by_cases hx : x = k
    · subst hx
      rw [logged_eq, expiryTime_of_some (by rw [lookup_putMetadata, if_pos rfl]), hexpiry]
    · rw [logged_eq]
      exact expiryTime_congr (by rw [lookup_putMetadata, if_neg hx])
  rw [logged_eq] at hsame ⊢
  refine ⟨hstarted, ?_, ?_, ?_, ?_, ?_⟩
  · exact fun x data hx => (h.bounded (fun _ => lookup_putMetadata) ⟨hpos, hmax⟩ hdue hx).1
  · exact fun x data hx => (h.bounded (fun _ => lookup_putMetadata) ⟨hpos, hmax⟩ hdue hx).2
  · intro q x hx
    rw [lookup_putMetadata]
    split
    · exact ⟨_, rfl⟩
    · exact h.noted q x hx
  · intro i x data hx hdata
    rw [lookup_putMetadata] at hdata
    split at hdata
    · next he =>
      subst he
      cases hdata
      obtain ⟨data, hdata⟩ := h.noted (level i) x hx
      have hle := h.level_le i x data hx hdata
      rw [hlogged, getMetadata_of_some hdata]
      show i ≤ Nat.log 2 (data.numberOfNodeVisits + 1).toNat
      exact hle.trans (Nat.log_mono_right (by omega))
    · exact h.level_le i x data hx hdata
  · intro i
    exact (h.sorted i).imp fun hle => by rwa [hsame, hsame]

theorem mem_place (honly : ∀ q, k ∈ m.queues q → q = s) {q : MQQueue}
    (hx : x ∈ (place k s j data m).queues q) :
    x ≠ k ∧ x ∈ m.queues q ∨ x = k ∧ q = level j := by
  rcases mem_relocate.mp hx with ⟨hx, hne⟩ | ⟨rfl, rfl⟩
  · exact .inl ⟨fun he => hne (honly q (he ▸ hx)) he, hx⟩
  · exact .inr ⟨rfl, rfl⟩

/-- The tail of a level has the latest expiry time. -/
theorem Timely.sorted_place (h : Timely config m) (honly : ∀ q, k ∈ m.queues q → q = s)
    (hdue : data.expiryTime = m.own.currentTime + config.lifetime.val) (i : ℕ) :
    ((place k s j data m).queues (level i)).toList.Pairwise fun x y =>
      expiryTime x (place k s j data m) ≤ expiryTime y (place k s j data m) := by
  have hold {x : α} (hx : x ≠ k) :
      expiryTime x (place k s j data m) = expiryTime x m :=
    expiryTime_congr (by rw [lookup_place, if_neg hx])
  have hnew : expiryTime k (place k s j data m) = data.expiryTime :=
    expiryTime_of_some (by rw [lookup_place, if_pos rfl])
  have hrest {xs : List α} (hk : k ∉ xs) (hsub : xs.Sublist (m.queues (level i)).toList) :
      xs.Pairwise fun x y => expiryTime x (place k s j data m) ≤
        expiryTime y (place k s j data m) := by
    refine ((h.sorted i).sublist hsub).imp_of_mem fun hx hy hle => ?_
    rw [hold fun he => hk (he ▸ hx), hold fun he => hk (he ▸ hy)]
    exact hle
  by_cases hi : i = j
  · subst hi
    obtain ⟨xs, htail, hk, hsub⟩ :
        ∃ xs, ((place k s i data m).queues (level i)).toList = xs ++ [k] ∧ k ∉ xs ∧
          xs.Sublist (m.queues (level i)).toList := toList_place honly
    rw [htail, List.pairwise_append]
    refine ⟨hrest hk hsub, List.pairwise_singleton _ _, ?_⟩
    intro x hx y hy
    cases List.mem_singleton.mp hy
    have hqueued : x ∈ m.queues (level i) := hsub.subset hx
    obtain ⟨data', hdata'⟩ := h.noted (level i) x hqueued
    have hle := h.due x data' hdata'
    rw [hnew, hold fun he => hk (he ▸ hx), expiryTime_of_some hdata']
    omega
  · have hne : level i ≠ level j := fun he => hi (by cases he; rfl)
    have hk : k ∉ ((place k s j data m).queues (level i)).toList := by
      intro hk
      rcases mem_place honly hk with ⟨hkk, -⟩ | ⟨-, hq⟩
      · exact hkk rfl
      · exact hne hq
    exact hrest hk (toList_relocate_sublist hne)

theorem Timely.place (h : Timely config m) (honly : ∀ q, k ∈ m.queues q → q = s)
    (hcount : 1 ≤ data.numberOfNodeVisits ∧ data.numberOfNodeVisits ≤ 2147483647)
    (hdue : data.expiryTime = m.own.currentTime + config.lifetime.val)
    (hlevel : j ≤ Nat.log 2 data.numberOfNodeVisits.toNat) :
    Timely config (place k s j data m) := by
  refine ⟨h.started, ?_, ?_, ?_, ?_, h.sorted_place honly hdue⟩
  · exact fun x data' hx => (h.bounded (fun _ => lookup_place) hcount hdue.le hx).1
  · exact fun x data' hx => (h.bounded (fun _ => lookup_place) hcount hdue.le hx).2
  · intro q x hx
    rw [lookup_place]
    rcases mem_place honly hx with ⟨hne, hx⟩ | ⟨rfl, -⟩
    · rw [if_neg hne]
      exact h.noted q x hx
    · exact ⟨data, if_pos rfl⟩
  · intro i x data' hx hdata
    rw [lookup_place] at hdata
    rcases mem_place honly hx with ⟨hne, hx⟩ | ⟨rfl, hq⟩
    · rw [if_neg hne] at hdata
      exact h.level_le i x data' hx hdata
    · rw [if_pos rfl] at hdata
      cases hdata
      cases hq
      exact hlevel

/-! ## Demotions -/

/-- A demotion moves the head of a level to the tail of the one below. -/
theorem Timely.demotion (h : Timely config m) (hsound : Sound config m)
    (hd : Demotion id config (i + 1) m m') : Timely config m' := by
  cases hd with
  | kept => exact h
  | made hx hnone =>
    obtain ⟨data, hdata⟩ := h.noted _ _ hx
    cases hdata.symm.trans hnone
  | @moved x xs hx hexpired =>
    have hmem : x ∈ m.queues (level (i + 1)) := LinkedHashSet.mem_of_toList_cons hx
    obtain ⟨data, hdata⟩ := h.noted _ _ hmem
    have hlevel := h.level_le (i + 1) x data hmem hdata
    rw [getMetadata_of_some hdata]
    refine h.place (hsound.tidy.filed.only (hsound.tidy.filed hmem)) (h.counted x data hdata) rfl ?_
    show i + 1 - 1 ≤ Nat.log 2 data.numberOfNodeVisits.toNat
    omega

/-- What the demotions of one visit do from the state `m`. -/
structure DemotedOnce (config : MQConfiguration) (m : MQCacheManager α) (i : ℕ)
    (m' : MQCacheManager α) : Prop where
  sound : Sound config m'
  timely : Timely config m'
  ghosts : m'.queues qOut = m.queues qOut
  lowered : ∀ x j, x ∈ m.queues (level j) →
    x ∈ m'.queues (level j) ∨ 1 ≤ j ∧ j ≤ i ∧ x ∈ m'.queues (level (j - 1))

/-- The loop goes up while keys come down, so it meets none of them twice. -/
theorem demotedOnce (hsound : Sound config m) (h : Timely config m) :
    DemotedOnce config m (queuesSize config - 1) (demotions id config m) := by
  refine demotions_rounds (P := DemotedOnce config m)
    ⟨hsound.congr rfl rfl, h.tick, rfl, fun x j hx => .inl hx⟩ fun i m' m'' hi hm hd => ?_
  have htimely := hm.timely.demotion hm.sound hd
  cases hd with
  | kept =>
    refine ⟨hm.sound, htimely, hm.ghosts, fun x j hx => ?_⟩
    rcases hm.lowered x j hx with hx | ⟨hpos, hle, hx⟩
    · exact .inl hx
    · exact .inr ⟨hpos, by omega, hx⟩
  | made hx hnone =>
    obtain ⟨data, hdata⟩ := hm.timely.noted _ _ hx
    cases hdata.symm.trans hnone
  | @moved y ys hy hexpired =>
    have hmem : y ∈ m'.queues (level (i + 1)) := LinkedHashSet.mem_of_toList_cons hy
    have hloc := hm.sound.tidy.filed hmem
    refine ⟨(hm.sound.hit hloc (by omega)).1.congr rfl rfl, htimely, ?_, fun x j hx => ?_⟩
    · show (m'.relocate y (level (i + 1)) (level (i + 1 - 1))).queues qOut = m.queues qOut
      rw [queues_relocate_of_ne (by simp) (by simp), hm.ghosts]
    · have hkept (a : ℕ) (ha : a ≠ i + 1) (hx : x ∈ m'.queues (level a)) :
          x ∈ (m'.relocate y (level (i + 1)) (level (i + 1 - 1))).queues (level a) := by
        refine mem_relocate.mpr (.inl ⟨hx, fun he => ?_⟩)
        cases he
        exact absurd rfl ha
      rcases hm.lowered x j hx with hx | ⟨hpos, hle, hx⟩
      · by_cases hj : j = i + 1
        · subst hj
          by_cases hxy : x = y
          · exact .inr ⟨by omega, le_refl _, mem_relocate.mpr (.inr ⟨rfl, hxy⟩)⟩
          · exact .inl (mem_relocate.mpr (.inl ⟨hx, fun _ => hxy⟩))
        · exact .inl (hkept j hj hx)
      · exact .inr ⟨hpos, by omega, hkept (j - 1) (by omega) hx⟩

/-! ## Visits and removals -/

theorem mem_dropHead {y : α} {q : MQQueue} :
    k ∈ (dropHead y m).queues q ↔ k ∈ m.queues q ∧ (q = qOut → k ≠ y) := by
  by_cases hq : q = qOut
  · subst hq
    simp [dropHead, setQueue, and_comm]
  · simp [dropHead, setQueue, hq]

/-- Making room moves keys from the levels to `qOut` at most. -/
theorem FreedUp.kept (hf : FreedUp config (fun _ m => m) onEvict m l m' l')
    (hx : x ∈ m.queues (level i)) : x ∈ m'.queues (level i) ∨ x ∈ m'.queues qOut := by
  cases hf with
  | room => exact .inl hx
  | @pushed j y ys m₁ hfull hfirst hy htrimmed =>
    by_cases hxy : x = y
    · exact .inr (mem_relocate.mpr (.inr ⟨rfl, hxy⟩))
    · refine .inl (mem_relocate.mpr (.inl ⟨?_, fun _ => hxy⟩))
      rw [htrimmed.queues_level]
      exact hx

theorem Timely.freedUp (h : Timely config m) (hsound : Sound config m)
    (hf : FreedUp config (fun _ m => m) onEvict m l m' l') : Timely config m' := by
  cases hf with
  | room => exact h
  | @pushed j y ys m₁ hfull hfirst hy htrimmed =>
    have hhead : y ∈ m.queues (level j) := LinkedHashSet.mem_of_toList_cons hy
    have hlevels (i : ℕ) : ((m₁.relocate y (level j) qOut).queues (level i)).toList.Sublist
        (m.queues (level i)).toList := by
      rw [← htrimmed.queues_level i]
      exact toList_relocate_sublist (by simp)
    cases htrimmed with
    | kept =>
      refine h.shrunk (le_refl _) (fun _ _ hk => hk) (fun q k hk => ⟨?_, rfl⟩) hlevels
      rcases mem_relocate.mp hk with ⟨hk, -⟩ | ⟨-, rfl⟩
      · exact ⟨q, hk⟩
      · exact ⟨_, hhead⟩
    | @dropped z zs hsize hz =>
      have hout : z ∈ m.queues qOut := LinkedHashSet.mem_of_toList_cons hz
      refine h.shrunk (le_refl _) (fun k data hk => ?_) (fun q k hk => ?_) hlevels
      · rw [own_relocate, lookup_dropHead] at hk
        split at hk
        · cases hk
        · exact hk
      · have hne : k ≠ z ∧ ∃ q, k ∈ m.queues q := by
          rcases mem_relocate.mp hk with ⟨hk, -⟩ | ⟨-, rfl⟩
          · obtain ⟨hqueued, hdropped⟩ := mem_dropHead.mp hk
            refine ⟨?_, q, hqueued⟩
            rintro rfl
            exact hdropped (hsound.tidy.filed.eq_of_mem hqueued hout) rfl
          · refine ⟨?_, _, hhead⟩
            rintro rfl
            cases hsound.tidy.filed.eq_of_mem hhead hout
        exact ⟨hne.2, by rw [own_relocate, lookup_dropHead, if_neg hne.1]⟩

theorem Timely.remove (h : Timely config m) (hsound : Sound config m) (k : α) :
    Timely config (MultipleQueueCacheManager.remove subclass k m) := by
  rw [MultipleQueueCacheManager.remove]
  split
  · exact h
  · next s hs =>
    have hlookup (x : α) : (forget subclass k s m).own.metadata.lookup x =
        if x = k then none else m.own.metadata.lookup x :=
      HashMap.lookup_erase_eq m.own.metadata k x
    refine h.shrunk (le_refl _) (fun x data hx => ?_) (fun q x hx => ?_)
      fun i => toList_forget_sublist subclass k s m (level i)
    · rw [hlookup] at hx
      split at hx
      · cases hx
      · exact hx
    · obtain ⟨hqueued, hgone⟩ := mem_forget.mp hx
      have hne : x ≠ k := by
        rintro rfl
        exact hgone (hsound.tidy.filed.only hs q hqueued) rfl
      exact ⟨⟨q, hqueued⟩, by rw [hlookup, if_neg hne]⟩

/-- The count of a visited key that is located is not the greatest `int`. -/
def Countable (m : MQCacheManager α) : Call α → Prop
  | .visit k => (m.currentLocations.lookup k).isSome →
      ∀ data ∈ m.own.metadata.lookup k, data.numberOfNodeVisits ≠ 2147483647
  | _ => True

instance (m : MQCacheManager α) : (call : Call α) → Decidable (Countable m call)
  | .visit _ => inferInstanceAs (Decidable (_ → _))
  | .remove _ => .isTrue trivial
  | .clear => .isTrue trivial

/-- Keys rise to a level of their counts or leave the levels when a key is entered. -/
structure EnteredTimely (config : MQConfiguration) (m m' : MQCacheManager α) : Prop where
  timely : Timely config m'
  raised : ∀ x i, x ∈ m.queues (level i) → x ∈ m'.queues qOut ∨ ∃ j, i ≤ j ∧ x ∈ m'.queues (level j)

theorem setMetadata_getMetadata (k : α) (data : MQMetadata) (m : MQCacheManager α) :
    setMetadata k data (getMetadata k m).2 = putMetadata k data m := by
  rw [getMetadata]
  split
  · next data' hk => exact setMetadata_of_some hk
  · exact setMetadata_putMetadata _

theorem Timely.hit (h : Timely config m) (hl : 1 ≤ config.lifetime.val)
    (hn : 1 ≤ queuesSize config) (hsound : Sound config m)
    (hcount : ∀ data, m.own.metadata.lookup k = some data → data.numberOfNodeVisits ≠ 2147483647)
    (hk : m.currentLocations.lookup k = some (level i))
    (hj : getDesiredQueue config (MQCacheManager.loggedData k m) = .ok (level j)) :
    EnteredTimely config m (modified id config k (MQCacheManager.loggedData k m)
      ((MQCacheManager.logged k m).relocate k (level i) (level j))) := by
  have hlogged := h.logged hl hcount
  obtain ⟨-, hpos, hmax⟩ := h.loggedData hcount
  have hmem := hsound.tidy.placed k i hk
  have hmem' : k ∈ (MQCacheManager.logged k m).queues (level i) := by rwa [queues_logged]
  have hdata : (MQCacheManager.logged k m).own.metadata.lookup k =
      some (MQCacheManager.loggedData k m) := lookup_logged k m
  have hlevel := hlogged.level_le i k _ hmem' hdata
  cases (getDesiredQueue_of_pos hn (by omega)).symm.trans hj
  rw [modified, setMetadata_of_some
    (m := (MQCacheManager.logged k m).relocate k (level i) (level _)) hdata]
  have honly : ∀ q, k ∈ (MQCacheManager.logged k m).queues q → q = level i := by
    rw [queues_logged]
    exact hsound.tidy.filed.only hk
  refine ⟨hlogged.place honly ⟨hpos, hmax⟩ rfl (min_le_left _ _), fun x a hx => .inr ?_⟩
  by_cases hxk : x = k
  · subst hxk
    cases hsound.tidy.filed.eq_of_mem hx hmem
    have hlt := hsound.tidy.level_lt hmem
    exact ⟨_, by omega, mem_relocate.mpr (.inr ⟨rfl, rfl⟩)⟩
  · refine ⟨a, le_refl _, mem_relocate.mpr (.inl ⟨?_, fun _ => hxk⟩)⟩
    rw [queues_logged]
    exact hx

theorem Timely.ghostHit (h : Timely config m) (hl : 1 ≤ config.lifetime.val)
    (hn : 1 ≤ queuesSize config) (hsound : Sound config m) (hspared : ¬Displaced config k m)
    (hcount : ∀ data, m.own.metadata.lookup k = some data → data.numberOfNodeVisits ≠ 2147483647)
    (hk : m.currentLocations.lookup k = some qOut)
    (hfreed : FreedUp config (fun _ m => m) onEvict (MQCacheManager.logged k m) l m' l')
    (hj : getDesiredQueue config (MQCacheManager.loggedData k m) = .ok (level j)) :
    EnteredTimely config m
      (modified id config k (MQCacheManager.loggedData k m) (m'.relocate k qOut (level j))) := by
  have hlogged := h.logged hl hcount
  obtain ⟨-, hpos, hmax⟩ := h.loggedData hcount
  have hafter := hfreed.after (.inl rfl) (hsound.logged k)
  have htimely := hlogged.freedUp (hsound.logged k) hfreed
  have hdata := hfreed.lookup_logged hsound hspared
  have hnot : k ∉ resident config (MQCacheManager.logged k m) := by
    rw [(hsound.logged k).tidy.mem_resident_iff, currentLocations_logged, hk]
    simp
  have hk' : m'.currentLocations.lookup k = some qOut := by
    rw [hafter.lookup k hnot, currentLocations_logged, hk]
  cases (getDesiredQueue_of_pos hn (by omega)).symm.trans hj
  rw [modified, setMetadata_of_some (m := m'.relocate k qOut (level _)) hdata]
  refine ⟨htimely.place (hafter.tidy.filed.only hk') ⟨hpos, hmax⟩ rfl (min_le_left _ _),
    fun x i hx => ?_⟩
  have hxk : x ≠ k := by
    rintro rfl
    cases hk.symm.trans (hsound.tidy.filed hx)
  have hx' : x ∈ (MQCacheManager.logged k m).queues (level i) := by rwa [queues_logged]
  rcases hfreed.kept hx' with hx' | hx'
  · exact .inr ⟨i, le_refl _, mem_relocate.mpr (.inl ⟨hx', fun _ => hxk⟩)⟩
  · exact .inl (mem_relocate.mpr (.inl ⟨hx', fun _ => hxk⟩))

theorem Timely.missed (h : Timely config m) (hsound : Sound config m)
    (hk : m.currentLocations.lookup k = none)
    (hfreed : FreedUp config (fun _ m => m) onEvict m l m' l') :
    EnteredTimely config m ((MQCacheManager.noted id config k m').enqueue k (level 0)) := by
  have hafter := hfreed.after (.inl rfl) hsound
  have htimely := h.freedUp hsound hfreed
  have hnot : k ∉ resident config m := by
    rw [hsound.tidy.mem_resident_iff, hk]
    simp
  have hk' : m'.currentLocations.lookup k = none := by rw [hafter.lookup k hnot, hk]
  have hunqueued := hafter.tidy.filed.notMem_of_none hk'
  have hplaced (data : MQMetadata) :
      (putMetadata k data m').enqueue k (level 0) = MQCacheManager.place k qOut 0 data m' := by
    rw [MQCacheManager.place, relocate_of_notMem (hunqueued qOut)]
    rfl
  rw [MQCacheManager.noted, setMetadata_getMetadata, hplaced]
  have hmax : (1 : ℤ) ≤ 2147483647 := by decide
  refine ⟨htimely.place (fun q hq => absurd hq (hunqueued q)) ⟨le_refl _, hmax⟩ rfl
    (Nat.zero_le _), fun x i hx => ?_⟩
  have hxk : x ≠ k := fun he => hsound.tidy.filed.notMem_of_none hk (level i) (he ▸ hx)
  rcases hfreed.kept hx with hx' | hx'
  · exact .inr ⟨i, le_refl _, mem_relocate.mpr (.inl ⟨hx', fun _ => hxk⟩)⟩
  · exact .inl (mem_relocate.mpr (.inl ⟨hx', fun _ => hxk⟩))

theorem Timely.entered (h : Timely config m) (hl : 1 ≤ config.lifetime.val)
    (hn : 1 ≤ queuesSize config) (hsound : Sound config m) (hspared : ¬Displaced config k m)
    (hcount : Countable m (.visit k))
    (he : Entered id config (fun _ m => m) onEvict onLoad k m l m' l') :
    EnteredTimely config m m' := by
  cases he with
  | hit hk hj => exact h.hit hl hn hsound (hcount (by rw [hk]; rfl)) hk hj
  | ghostHit hk hfreed hj =>
    exact h.ghostHit hl hn hsound hspared (hcount (by rw [hk]; rfl)) hk hfreed hj
  | missed hk hfreed => exact h.missed hsound hk hfreed

end Steps

/-! ## Whole runs -/

/-- The heads of the levels are enough to find the expired keys. -/
structure HeadsSuffice (config : MQConfiguration) (m : MQCacheManager α) : Prop where
  noted : ∀ k ∈ resident config m, (m.own.metadata.lookup k).isSome
  sorted : ∀ i < queuesSize config, (m.queues (level i)).toList.Pairwise
    fun x y => expiryTime x m ≤ expiryTime y m
  due : ∀ k data, m.own.metadata.lookup k = some data →
    data.expiryTime ≤ m.own.currentTime + config.lifetime.val
  level_le : ∀ i k data, k ∈ m.queues (level i) → m.own.metadata.lookup k = some data →
    ∃ j : ℕ, (2 : ℤ) ^ j ≤ data.numberOfNodeVisits ∧ data.numberOfNodeVisits < 2 ^ (j + 1) ∧
      i ≤ min j (queuesSize config - 1)
  heads : ∀ i < queuesSize config,
    (∃ x ∈ m.queues (level i), (getMetadata x m).1.isExpired m.own.currentTime = true) ↔
      ∃ x, (m.queues (level i)).peek = some x ∧
        (getMetadata x m).1.isExpired m.own.currentTime = true

/-- After a call the heads suffice, and no key has come down by more than one level. -/
structure WellTimed (config : MQConfiguration)
    (r : Record (MQCacheManager α) (Call α) (List (Event α))) : Prop where
  heads : HeadsSuffice config r.after
  lowered : ∀ x i j, x ∈ r.before.queues (level i) → x ∈ r.after.queues (level j) → i ≤ j + 1

section Runs

variable {config : MQConfiguration} {k : α} {m m' : MQCacheManager α} {events : List (Event α)}

theorem Timely.headsSuffice (h : Timely config m) (hsound : Sound config m) :
    HeadsSuffice config m := by
  refine ⟨?_, fun i _ => h.sorted i, h.due, ?_, ?_⟩
  · intro k hk
    obtain ⟨i, hmem⟩ := hsound.tidy.mem_resident.mp hk
    obtain ⟨data, hdata⟩ := h.noted _ k hmem
    rw [hdata]
    rfl
  · intro i k data hk hdata
    obtain ⟨hpos, -⟩ := h.counted k data hdata
    obtain ⟨hle, hlt⟩ := log_bounds (n := data.numberOfNodeVisits) (by omega)
    have hlevel := h.level_le i k data hk hdata
    have hsize := hsound.tidy.level_lt hk
    exact ⟨_, hle, hlt, by omega⟩
  · intro i _
    constructor
    · rintro ⟨x, hx, hexpired⟩
      cases hy : (m.queues (level i)).toList with
      | nil =>
        rw [LinkedHashSet.mem_def, hy] at hx
        cases hx
      | cons y ys =>
        refine ⟨y, by rw [LinkedHashSet.peek, hy]; rfl, ?_⟩
        have hsorted := h.sorted i
        rw [hy, List.pairwise_cons] at hsorted
        rw [LinkedHashSet.mem_def, hy, List.mem_cons] at hx
        rcases hx with rfl | hx
        · exact hexpired
        · have hle : (getMetadata y m).1.expiryTime ≤ (getMetadata x m).1.expiryTime :=
            hsorted.1 x hx
          rw [MQMetadata.isExpired, decide_eq_true_iff] at hexpired ⊢
          omega
    · rintro ⟨x, hx, hexpired⟩
      exact ⟨x, List.mem_of_head? hx, hexpired⟩

theorem timely_initial : Timely config (initial (α := α)) := by
  refine ⟨le_refl _, ?_, ?_, ?_, ?_, fun i => List.Pairwise.nil⟩
  · intro k data hk
    cases hk
  · intro k data hk
    cases hk
  · intro q k hk
    cases hk
  · intro i k data hk
    cases hk

/-- A visit that counts leaves the manager timely, and lowers its keys by one level at most. -/
theorem Timely.visit (h : Timely config m) (hc : 2 ≤ config.maxNodes.val)
    (hn : 1 ≤ queuesSize config) (hl : 1 ≤ config.lifetime.val) (hsound : Sound config m)
    (hspared : ¬Displaced config k m) (hcount : Countable m (.visit k)) :
    ∃ m' events, (Clocked.manager id config).perform m (.visit k) = .ok (m', events) ∧
      (Sound config m' ∧ Timely config m') ∧ WellTimed config ⟨m, .visit k, events, m'⟩ := by
  have hcounts : (∃ q, m.currentLocations.lookup k = some q) → Counts k m := by
    rintro ⟨q, hq⟩
    obtain ⟨-, hpos, -⟩ := h.loggedData (hcount (by rw [hq]; rfl))
    rw [Counts]
    omega
  obtain ⟨m₁, events, hentered⟩ :
      ∃ m₁ l₁, Entered id config (fun _ m => m) recordEviction recordLoad k m [] m₁ l₁ :=
    hsound.exists_entered id (by omega) hn (fits_of_counts hc hcounts) []
  have hsound₁ := (hentered.sound (.inl rfl) hn hsound).1
  obtain ⟨htimely₁, hraised⟩ := h.entered hl hn hsound hspared hcount hentered
  obtain ⟨hsound', htimely', hghosts, hlowered⟩ := demotedOnce hsound₁ htimely₁
  refine ⟨_, events, hentered.visit_eq recorder_responds hn, ⟨hsound', htimely'⟩,
    htimely'.headsSuffice hsound', fun x i j hi hj => ?_⟩
  have heq {q : MQQueue} (hq : x ∈ (demotions id config m₁).queues q) : q = level j :=
    hsound'.tidy.filed.eq_of_mem hq hj
  rcases hraised x i hi with hout | ⟨a, hle, ha⟩
  · rw [← hghosts] at hout
    cases heq hout
  · rcases hlowered x a ha with ha | ⟨hpos, -, ha⟩
    · cases heq ha
      omega
    · cases heq ha
      omega

theorem Timely.removed (h : Timely config m) (hsound : Sound config m) (k : α) :
    WellTimed config ⟨m, .remove k, events, MultipleQueueCacheManager.remove subclass k m⟩ := by
  refine ⟨(h.remove hsound k).headsSuffice (hsound.remove k), fun x i j hi hj => ?_⟩
  have hmem : x ∈ m.queues (level j) := by
    change x ∈ (MultipleQueueCacheManager.remove subclass k m).queues (level j) at hj
    rw [MultipleQueueCacheManager.remove] at hj
    split at hj
    · exact hj
    · exact (mem_forget.mp hj).1
  cases hsound.tidy.filed.eq_of_mem hi hmem
  omega

/-- Demotions leave counted visits counted, and keys in the levels. -/
theorem demotions_counted (clock : ℤ → ℤ) (config : MQConfiguration) {n : ℤ} {i : ℕ}
    {data : MQMetadata} (hk : m.own.metadata.lookup k = some data) (hn : data.numberOfNodeVisits = n)
    (hmem : k ∈ m.queues (level i)) :
    ∃ data i, (demotions clock config m).own.metadata.lookup k = some data ∧
      data.numberOfNodeVisits = n ∧ k ∈ (demotions clock config m).queues (level i) := by
  refine demotions_rounds (P := fun _ m => ∃ data i, m.own.metadata.lookup k = some data ∧
    data.numberOfNodeVisits = n ∧ k ∈ m.queues (level i)) ⟨data, i, hk, hn, hmem⟩ ?_
  rintro a m m' ha ⟨data, i, hk, hn, hmem⟩ hd
  cases hd with
  | kept => exact ⟨data, i, hk, hn, hmem⟩
  | @made x hx hnone =>
    have hne : k ≠ x := by
      rintro rfl
      cases hk.symm.trans hnone
    exact ⟨data, i, by rw [lookup_putMetadata, if_neg hne, hk], hn, hmem⟩
  | @moved x xs hx hexpired =>
    by_cases hne : k = x
    · subst hne
      refine ⟨_, _, by rw [lookup_place, if_pos rfl], ?_, mem_relocate.mpr (.inr ⟨rfl, rfl⟩)⟩
      rw [getMetadata_of_some hk]
      exact hn
    · exact ⟨data, i, by rw [lookup_place, if_neg hne, hk], hn,
        mem_relocate.mpr (.inl ⟨hmem, fun _ => hne⟩)⟩

/-- A visited key that was located is resident with its visit counted. -/
theorem entered_counted {clock : ℤ → ℤ} {onEvict onLoad : α → L → L} {l l' : L}
    (hsound : Sound config m) (hspared : ¬Displaced config k m) {q : MQQueue}
    (hk : m.currentLocations.lookup k = some q)
    (he : Entered clock config (fun _ m => m) onEvict onLoad k m l m' l') :
    ∃ data i, m'.own.metadata.lookup k = some data ∧
      data.numberOfNodeVisits = (loggedData k m).numberOfNodeVisits ∧ k ∈ m'.queues (level i) := by
  cases he with
  | @hit i j hi hj =>
    rw [modified, setMetadata_of_some (m := (logged k m).relocate k (level i) (level j))
      (lookup_logged k m)]
    refine ⟨_, j, by rw [lookup_putMetadata, if_pos rfl], ?_, mem_relocate.mpr (.inr ⟨rfl, rfl⟩)⟩
    rfl
  | @ghostHit j m₂ l₂ hi hfreed hj =>
    have hkept := hfreed.lookup_logged hsound hspared
    rw [modified, setMetadata_of_some (m := m₂.relocate k qOut (level j)) hkept]
    refine ⟨_, j, by rw [lookup_putMetadata, if_pos rfl], ?_, mem_relocate.mpr (.inr ⟨rfl, rfl⟩)⟩
    rfl
  | missed hi => cases hk.symm.trans hi

/-- A visit to a key that is located counts. -/
theorem visit_counted (hc : 2 ≤ config.maxNodes.val) (hn : 1 ≤ queuesSize config)
    (hsound : Sound config m) (hspared : ¬Displaced config k m) {q : MQQueue}
    (hk : m.currentLocations.lookup k = some q) (hcounts : Counts k m)
    (hok : (Clocked.manager id config).perform m (.visit k) = .ok (m', events)) :
    ∃ data i, m'.own.metadata.lookup k = some data ∧
      data.numberOfNodeVisits = (loggedData k m).numberOfNodeVisits ∧ k ∈ m'.queues (level i) := by
  obtain ⟨m₁, l₁, hentered⟩ :
      ∃ m₁ l₁, Entered id config (fun _ m => m) recordEviction recordLoad k m [] m₁ l₁ :=
    hsound.exists_entered id (by omega) hn (fits_of_counts hc fun _ => hcounts) []
  cases (hentered.visit_eq recorder_responds hn).symm.trans hok
  obtain ⟨data, i, hdata, hcount, hmem⟩ := entered_counted hsound hspared hk hentered
  exact demotions_counted id config hdata hcount hmem

/-- The visit after the greatest count leaves a negative one, which belongs in no level. -/
theorem countable_of_wellTimed (hc : 2 ≤ config.maxNodes.val) (hn : 1 ≤ queuesSize config)
    (hsound : Sound config m) (hspared : ¬Displaced config k m)
    (hok : (Clocked.manager id config).perform m (.visit k) = .ok (m', events))
    (h : HeadsSuffice config m') : Countable m (.visit k) := by
  intro hlocated data hdata hmax
  obtain ⟨q, hq⟩ := Option.isSome_iff_exists.mp hlocated
  have hwrapped : (loggedData k m).numberOfNodeVisits = -2147483648 := by
    rw [(loggedData_of_some hdata).1, MQMetadata.logVisit, hmax]
    rfl
  have hcounts : Counts k m := by
    rw [Counts, hwrapped]
    decide
  obtain ⟨data', i, hdata', hcount, hmem⟩ := visit_counted hc hn hsound hspared hq hcounts hok
  obtain ⟨j, hle, -, -⟩ := h.level_le i k data' hmem hdata'
  have hpos : (0 : ℤ) < 2 ^ j := Int.pow_pos (by decide)
  omega

/-- The call does not make `freeUpSpace` drop the key that is visited from `qOut`. -/
def Spares (config : MQConfiguration) (m : MQCacheManager α) : Call α → Prop
  | .visit k => ¬Displaced config k m
  | _ => True

instance (config : MQConfiguration) (m : MQCacheManager α) :
    (call : Call α) → Decidable (Spares config m call)
  | .visit _ => inferInstanceAs (Decidable (¬_))
  | .remove _ => .isTrue trivial
  | .clear => .isTrue trivial

/-- With a time without bound, in every run that visits no head of a full `qOut` beside a full
cache, the heads tell which keys have expired exactly as long as no count overflows. -/
theorem wellTimed_iff_countable (config : MQConfiguration) (hc : 2 ≤ config.maxNodes.val)
    (hn : 2 ≤ config.queueCount.val) (hl : 1 ≤ config.lifetime.val) (calls : List (Call α))
    (hspares : Admitted (Clocked.manager id config).perform (Spares config)
      (Clocked.manager id config).initial calls) :
    HeadsSuffice config (initial (α := α)) ∧
      (Succeeds (Clocked.manager id config).perform (WellTimed config)
          (Clocked.manager id config).initial calls ↔
        Admitted (Clocked.manager id config).perform Countable
          (Clocked.manager id config).initial calls) := by
  have hsize : 1 ≤ queuesSize config := one_le_queuesSize (by omega)
  have hinitial : Sound config (initial (α := α)) ∧ Timely config (initial (α := α)) :=
    ⟨sound_initial (by omega), timely_initial⟩
  have hstep (m : MQCacheManager α) (call : Call α) (h : Sound config m ∧ Timely config m)
      (hspared : Spares config m call) (hcount : Countable m call) :
      ∃ m' events, (Clocked.manager id config).perform m call = .ok (m', events) ∧
        (Sound config m' ∧ Timely config m') ∧ WellTimed config ⟨m, call, events, m'⟩ := by
    obtain ⟨hsound, htimely⟩ := h
    cases call with
    | visit k => exact htimely.visit hc hsize hl hsound hspared hcount
    | remove k =>
      exact ⟨_, _, rfl, ⟨hsound.remove k, htimely.remove hsound k⟩, htimely.removed hsound k⟩
    | clear =>
      refine ⟨_, _, rfl, hinitial, hinitial.2.headsSuffice hinitial.1, fun x i j hi hj => ?_⟩
      cases hj
  have hneed (m : MQCacheManager α) (call : Call α) (m' : MQCacheManager α)
      (events : List (Event α)) (h : Sound config m ∧ Timely config m)
      (hspared : Spares config m call)
      (hok : (Clocked.manager id config).perform m call = .ok (m', events))
      (hgood : WellTimed config ⟨m, call, events, m'⟩) : Countable m call := by
    cases call with
    | visit k => exact countable_of_wellTimed hc hsize h.1 hspared hok hgood.heads
    | remove k => trivial
    | clear => trivial
  exact ⟨hinitial.2.headsSuffice hinitial.1,
    succeeds_iff_of_admitted hstep hneed hinitial hspares⟩

/-- Keys go up, come down and are removed in a cache of two keys. -/
theorem wellTimed_twoNodes :
    Succeeds (Clocked.manager id twoNodes).perform (WellTimed twoNodes) (initial (α := ℕ))
      [.visit 1, .visit 1, .visit 2, .visit 3, .remove 3, .visit 2] :=
  (wellTimed_iff_countable twoNodes (by decide) (by decide) (by decide) _ (by decide)).2.mpr
    (by decide)

/-! ## A count that wraps round -/

/-- Visits to one resident key spare it, but as many as take its count beyond the end of its
range leave a count that belongs in no level. -/
theorem Timely.not_wellTimed_replicate (hc : 2 ≤ config.maxNodes.val) (hn : 1 ≤ queuesSize config)
    (hl : 1 ≤ config.lifetime.val) (n : ℕ) :
    ∀ {m : MQCacheManager α} {data : MQMetadata} {i : ℕ},
      Sound config m → Timely config m → k ∈ m.queues (level i) →
      m.own.metadata.lookup k = some data →
      data.numberOfNodeVisits + (n + 1 : ℕ) = 2147483648 →
        Admitted (Clocked.manager id config).perform (Spares config) m
          (List.replicate (n + 1) (.visit k)) ∧
        ¬Succeeds (Clocked.manager id config).perform (WellTimed config) m
          (List.replicate (n + 1) (.visit k)) := by
  have hspared {m : MQCacheManager α} {i : ℕ} (hsound : Sound config m)
      (hk : k ∈ m.queues (level i)) : ¬Displaced config k m := by
    intro hdisplaced
    cases hsound.tidy.filed.eq_of_mem hk (List.mem_of_head? hdisplaced.1)
  induction n with
  | zero =>
    intro m data i hsound h hk hdata hsum
    refine ⟨⟨hspared hsound hk, fun m' events hok => trivial⟩, ?_⟩
    rintro ⟨m', events, hok, hgood, -⟩
    have hlast : data.numberOfNodeVisits = 2147483647 := by omega
    have hlocated : (m.currentLocations.lookup k).isSome := by
      rw [hsound.tidy.filed hk]
      rfl
    exact countable_of_wellTimed hc hn hsound (hspared hsound hk) hok hgood.heads hlocated data
      hdata hlast
  | succ n ih =>
    intro m data i hsound h hk hdata hsum
    have hcount : ∀ data ∈ m.own.metadata.lookup k, data.numberOfNodeVisits ≠ 2147483647 := by
      intro data' hdata' hlast
      cases hdata.symm.trans hdata'
      omega
    obtain ⟨hlogged, hpos, -⟩ := h.loggedData hcount
    rw [getMetadata_of_some hdata] at hlogged
    obtain ⟨m', events, hok, ⟨hsound', h'⟩, -⟩ :=
      h.visit hc hn hl hsound (hspared hsound hk) (fun _ => hcount)
    have hcounts : Counts k m := by
      rw [Counts]
      omega
    obtain ⟨data', i', hdata', hcount', hk'⟩ :=
      visit_counted hc hn hsound (hspared hsound hk) (hsound.tidy.filed hk) hcounts hok
    have hsum' : data'.numberOfNodeVisits + (n + 1 : ℕ) = 2147483648 := by
      rw [hcount', hlogged]
      show data.numberOfNodeVisits + 1 + ((n + 1 : ℕ) : ℤ) = 2147483648
      push_cast at hsum ⊢
      omega
    obtain ⟨hadmitted, hfails⟩ := ih hsound' h' hk' hdata' hsum'
    constructor
    · rw [List.replicate_succ, admitted_cons_of_ok hok]
      exact ⟨hspared hsound hk, hadmitted⟩
    · rintro ⟨m'', events', hok', -, hrest⟩
      cases hok.symm.trans hok'
      exact hfails hrest

/-- The last of `2 ^ 31` visits to one key leaves it with a negative count. -/
theorem not_wellTimed_twoNodes :
    ¬∀ calls : List (Call ℕ),
      Admitted (Clocked.manager id twoNodes).perform (Spares twoNodes) initial calls →
        Succeeds (Clocked.manager id twoNodes).perform (WellTimed twoNodes) initial calls := by
  intro h
  have hsound : Sound twoNodes (initial (α := ℕ)) := sound_initial (by decide)
  have htimely : Timely twoNodes (initial (α := ℕ)) := timely_initial
  obtain ⟨m, events, hok, ⟨hsound₁, h₁⟩, -⟩ :=
    htimely.visit (by decide) (by decide) (by decide) hsound (k := 1) (by decide) (by decide)
  have hone : 1 ∈ m.queues (level 0) ∧ m.own.metadata.lookup 1 = some ⟨1, 2⟩ := by
    cases hok
    decide
  obtain ⟨hadmitted, hfails⟩ := Timely.not_wellTimed_replicate (by decide) (by decide) (by decide)
    2147483646 hsound₁ h₁ hone.1 hone.2 (show (1 : ℤ) + (2147483646 + 1 : ℕ) = 2147483648 by omega)
  have hspared : Admitted (Clocked.manager id twoNodes).perform (Spares twoNodes) initial
      (.visit 1 :: List.replicate (2147483646 + 1) (.visit 1)) := by
    rw [admitted_cons_of_ok hok]
    exact ⟨by decide, hadmitted⟩
  obtain ⟨m', events', hok', -, hrest⟩ := h _ hspared
  cases hok.symm.trans hok'
  exact hfails hrest

end Runs

end CachePolicies.MQCacheManager
