import CachePolicies.AdaptiveReplacementInvariants
import CachePolicies.RecencyLists
import CachePolicies.VisitHistories

/-!
# What the lists of the adaptive manager mean

Read from the ghosts to the residents, `b1` and `t1` form one list of the keys seen
once, `b2` and `t2` one list of the keys seen more often. `freeRoom` moves a key across
the border inside one of the two lists, so it leaves both as they are.
-/

namespace CachePolicies.AdaptiveReplacementCacheManager

open MultipleQueueCacheManager ReplacementCacheManager ReplacementQueue

variable {α L : Type} [DecidableEq α]

/-- The keys seen once since they are tracked, the head of `b1` first. -/
def seenOnce (m : AdaptiveReplacementCacheManager α) : List α :=
  (m.queues b1).toList ++ (m.queues t1).toList

def seenOften (m : AdaptiveReplacementCacheManager α) : List α :=
  (m.queues b2).toList ++ (m.queues t2).toList

def tracked (m : AdaptiveReplacementCacheManager α) (k : α) : Bool :=
  (m.currentLocations.lookup k).isSome

/-- What a visit to `k` does to the two lists. -/
inductive Reordered (k : α) (m m' : AdaptiveReplacementCacheManager α) : Prop
  | missed {l : List α} (hk : tracked m k = false) (honce : seenOnce m' = l ++ [k])
      (hsub : l.Sublist (seenOnce m)) (hoften : (seenOften m').Sublist (seenOften m))
  | revisited {l : List α} (hk : tracked m k = true) (honce : (seenOnce m').Sublist (seenOnce m))
      (hoften : seenOften m' = l ++ [k]) (hsub : l.Sublist (seenOften m))

section Visits

variable {config : AdaptiveReplacementConfiguration} {onEvict onLoad : α → L → L} {k x : α}
  {hitList : Option AdaptiveReplacementQueue} {s : AdaptiveReplacementQueue}
  {m m' : AdaptiveReplacementCacheManager α} {l l' : L} {xs : List α}

theorem Freed.lists (hm : m.Located) (h : Freed (fun _ m => m) onEvict hitList m l m' l') :
    seenOnce m' = seenOnce m ∧ seenOften m' = seenOften m := by
  cases h with
  | fromT1 htake hx =>
    refine ⟨toList_relocate_head hm.filed (by simp) hx, ?_⟩
    rw [seenOften, seenOften, queues_relocate_of_ne (by simp) (by simp),
      queues_relocate_of_ne (by simp) (by simp)]
  | fromT2 htake hx =>
    refine ⟨?_, toList_relocate_head hm.filed (by simp) hx⟩
    rw [seenOnce, seenOnce, queues_relocate_of_ne (by simp) (by simp),
      queues_relocate_of_ne (by simp) (by simp)]
  | nothing => exact ⟨rfl, rfl⟩

omit [DecidableEq α] in
theorem mem_seenOnce : k ∈ seenOnce m ↔ k ∈ m.queues b1 ∨ k ∈ m.queues t1 := List.mem_append

omit [DecidableEq α] in
theorem mem_seenOften : k ∈ seenOften m ↔ k ∈ m.queues b2 ∨ k ∈ m.queues t2 := List.mem_append

theorem tracked_iff (hm : m.Located) : tracked m k = true ↔ k ∈ seenOnce m ∨ k ∈ seenOften m := by
  rw [tracked, Option.isSome_iff_exists, mem_seenOnce, mem_seenOften]
  constructor
  · rintro ⟨s, hs⟩
    have hmem := (hm k s).mp hs
    rcases s with _ | _ | _ | _
    · exact .inl (.inr hmem)
    · exact .inr (.inr hmem)
    · exact .inl (.inl hmem)
    · exact .inr (.inl hmem)
  · rintro ((hmem | hmem) | (hmem | hmem))
    all_goals exact ⟨_, (hm k _).mpr hmem⟩

/-- The two lists have no key in common. -/
theorem notMem_seenOften (hm : m.Located) (hk : k ∈ seenOnce m) : k ∉ seenOften m := by
  rw [mem_seenOnce] at hk
  rw [mem_seenOften]
  rintro (hmem | hmem) <;> rcases hk with hk | hk <;> cases hm.filed.eq_of_mem hk hmem

theorem nodup_seenOften (hm : m.Located) : (seenOften m).Nodup := by
  refine List.nodup_append.mpr ⟨(m.queues b2).nodup, (m.queues t2).nodup, ?_⟩
  rintro x hx y hy rfl
  cases hm.filed.eq_of_mem hx hy

theorem forget_sublist (x : α) (s : AdaptiveReplacementQueue)
    (m : AdaptiveReplacementCacheManager α) :
    (seenOnce (forget subclass x s m)).Sublist (seenOnce m) ∧
      (seenOften (forget subclass x s m)).Sublist (seenOften m) := by
  have hqueue := toList_forget_sublist subclass x s m
  exact ⟨(hqueue b1).append (hqueue t1), (hqueue b2).append (hqueue t2)⟩

theorem reordered_enqueue (hm : m.Located) (hk : m.currentLocations.lookup k = none) :
    seenOnce (m.enqueue k t1) = seenOnce m ++ [k] ∧ seenOften (m.enqueue k t1) = seenOften m := by
  refine ⟨?_, ?_⟩
  · rw [seenOnce, seenOnce, queues_enqueue_of_ne (by simp),
      toList_enqueue (hm.filed.notMem_of_none hk t1), List.append_assoc]
  · rw [seenOften, seenOften, queues_enqueue_of_ne (by simp), queues_enqueue_of_ne (by simp)]

/-- A key which is found again moves to the end of the second list. -/
theorem reordered_relocate (hm : m.Located) (hk : m.currentLocations.lookup k = some s) :
    (seenOnce (m.relocate k s t2)).Sublist (seenOnce m) ∧
      ∃ l : List α, seenOften (m.relocate k s t2) = l ++ [k] ∧ l.Sublist (seenOften m) := by
  have hqueue (q) (hq : q ≠ t2) :
      ((m.relocate k s t2).queues q).toList.Sublist (m.queues q).toList :=
    toList_relocate_sublist hq
  refine ⟨(hqueue b1 (by simp)).append (hqueue t1 (by simp)), ?_⟩
  by_cases hs : s = t2
  · subst hs
    refine ⟨((m.relocate k t2 t2).queues b2).toList ++ (m.queues t2).toList.erase k, ?_, ?_⟩
    · rw [seenOften, toList_relocate_self, List.append_assoc]
    · exact (hqueue b2 (by simp)).append List.erase_sublist
  · have hnot : k ∉ m.queues t2 := hm.filed.notMem_of_lookup hk (Ne.symm hs)
    refine ⟨((m.relocate k s t2).queues b2).toList ++ (m.queues t2).toList, ?_, ?_⟩
    · rw [seenOften, toList_relocate_destination hs hnot, List.append_assoc]
    · exact (hqueue b2 (by simp)).append (List.Sublist.refl _)

theorem Freed.untracked (h : Freed (fun _ m => m) onEvict hitList m l m' l')
    (hk : m'.currentLocations.lookup k = none) : m.currentLocations.lookup k = none := by
  cases h with
  | fromT1 => exact (lookup_relocate_eq_none.mp hk).2
  | fromT2 => exact (lookup_relocate_eq_none.mp hk).2
  | nothing => exact hk

theorem tracked_of_lookup (hk : m.currentLocations.lookup k = some s) : tracked m k = true := by
  rw [tracked, hk]
  rfl

theorem tracked_of_none (hk : m.currentLocations.lookup k = none) : tracked m k = false := by
  rw [tracked, hk]
  rfl

/-- A missed key, with or without a ghost dropped before `freeRoom` runs, joins the first list. -/
theorem Freed.reordered {m₁ m₂ : AdaptiveReplacementCacheManager α} {l₂ : L}
    (hf : Freed (fun _ m => m) onEvict none m₁ l m₂ l₂) (hm₁ : m₁.Located)
    (hk : m.currentLocations.lookup k = none) (hk₁ : m₁.currentLocations.lookup k = none)
    (hsub : (seenOnce m₁).Sublist (seenOnce m) ∧ (seenOften m₁).Sublist (seenOften m)) :
    (m₂.enqueue k t1).Located ∧ Reordered k m (m₂.enqueue k t1) := by
  have haf := hf.after (.inl rfl) hm₁
  have hk₂ := (haf.lookup k (notMem_resident_of_none hm₁.filed hk₁)).trans hk₁
  obtain ⟨hlist₁, hlist₂⟩ := hf.lists hm₁
  obtain ⟨honce, hoften⟩ := reordered_enqueue haf.located hk₂
  rw [hlist₁] at honce
  rw [hlist₂] at hoften
  exact ⟨haf.located.enqueue hk₂, .missed (tracked_of_none hk) honce hsub.1 (hoften ▸ hsub.2)⟩

theorem Visited.reordered (hm : m.Located)
    (hv : Visited config (fun _ m => m) onEvict onLoad k m l m' l') :
    m'.Located ∧ Reordered k m m' := by
  have hgone {x : α} {s : AdaptiveReplacementQueue} (hk : m.currentLocations.lookup k = none) :
      (forget subclass x s m).currentLocations.lookup k = none := by
    rw [lookup_forget, hk, ite_self]
  have hrest {x : α} {xs : List α} {s : AdaptiveReplacementQueue}
      (hx : (m.queues s).toList = x :: xs) : (forget subclass x s m).Located :=
    hm.forget (hm.only (hm.filed (LinkedHashSet.mem_of_toList_cons hx)))
  cases hv with
  | hit hs hk =>
    obtain ⟨honce, l, hoften, hsub⟩ := reordered_relocate hm hk
    exact ⟨hm.relocate (hm.only hk), .revisited (tracked_of_lookup hk) honce hoften hsub⟩
  | @ghostHit s target m₁ l₁ hs hk htarget hf =>
    have haf := hf.after (m := { m with own := ⟨target⟩ }) (.inl rfl) hm
    obtain ⟨hlist₁, hlist₂⟩ := hf.lists (m := { m with own := ⟨target⟩ }) hm
    have hk₁ := (haf.lookup k (notMem_resident_of_ghost hm.filed hk hs)).trans hk
    obtain ⟨honce, l, hoften, hsub⟩ := reordered_relocate haf.located hk₁
    rw [hlist₁] at honce
    rw [hlist₂] at hsub
    exact ⟨haf.located.relocate (haf.located.only hk₁),
      .revisited (tracked_of_lookup hk) honce hoften hsub⟩
  | sideFull hk hside ht1 hx hf =>
    exact hf.reordered (hrest hx) hk (hgone hk) (forget_sublist _ b1 m)
  | t1Full hk hside ht1 hx =>
    obtain ⟨honce, hoften⟩ := reordered_enqueue (hrest hx) (hgone hk)
    obtain ⟨hsub, hsub'⟩ := forget_sublist _ t1 m
    exact ⟨(hrest hx).enqueue (hgone hk), .missed (tracked_of_none hk) honce hsub (hoften ▸ hsub')⟩
  | directoryFull hk hside hcache hdirectory hx hf =>
    exact hf.reordered (hrest hx) hk (hgone hk) (forget_sublist _ b2 m)
  | cacheFull hk hside hcache hdirectory hf =>
    exact hf.reordered hm hk hk ⟨List.Sublist.refl _, List.Sublist.refl _⟩
  | room hk hside hcache =>
    obtain ⟨honce, hoften⟩ := reordered_enqueue hm hk
    exact ⟨hm.enqueue hk,
      .missed (tracked_of_none hk) honce (List.Sublist.refl _) (hoften ▸ List.Sublist.refl _)⟩

end Visits

/-! ## Heads that leave -/

section Heads

variable {config : AdaptiveReplacementConfiguration} {onLoad : α → List (Event α) → List (Event α)}
  {k x : α} {hitList : Option AdaptiveReplacementQueue} {m m' : AdaptiveReplacementCacheManager α}
  {l l' : List (Event α)}

/-- `x` is the head of one of the resident queues. -/
def HeadsResidents (m : AdaptiveReplacementCacheManager α) (x : α) : Prop :=
  ∃ q xs, (q = t1 ∨ q = t2) ∧ (m.queues q).toList = x :: xs

omit [DecidableEq α] in
theorem HeadsResidents.congr (h : HeadsResidents m' x) (h1 : m'.queues t1 = m.queues t1)
    (h2 : m'.queues t2 = m.queues t2) : HeadsResidents m x := by
  obtain ⟨q, xs, rfl | rfl, hx⟩ := h
  · exact ⟨_, xs, .inl rfl, h1 ▸ hx⟩
  · exact ⟨_, xs, .inr rfl, h2 ▸ hx⟩

theorem Freed.evicts_head (h : Freed (fun _ m => m) recordEviction hitList m [] m' l') :
    ∀ x ∈ evictions l', HeadsResidents m x := by
  intro y hy
  cases h with
  | fromT1 htake hx =>
    rw [evictions_recordEviction] at hy
    cases List.mem_singleton.mp hy
    exact ⟨_, _, .inl rfl, hx⟩
  | fromT2 htake hx =>
    rw [evictions_recordEviction] at hy
    cases List.mem_singleton.mp hy
    exact ⟨_, _, .inr rfl, hx⟩
  | nothing => cases hy

theorem Visited.evicts_head
    (hv : Visited config (fun _ m => m) recordEviction recordLoad k m [] m' l') :
    ∀ x ∈ evictions l', HeadsResidents m x := by
  intro x hx
  cases hv with
  | hit => cases hx
  | ghostHit hs hk htarget hf =>
    rw [evictions_recordLoad] at hx
    exact (hf.evicts_head x hx).congr rfl rfl
  | sideFull hk hside ht1 hhead hf =>
    rw [evictions_recordLoad] at hx
    exact (hf.evicts_head x hx).congr (queues_forget_of_ne (by simp)) (queues_forget_of_ne (by simp))
  | t1Full hk hside ht1 hhead =>
    rw [evictions_recordLoad, evictions_recordEviction] at hx
    cases List.mem_singleton.mp hx
    exact ⟨_, _, .inl rfl, hhead⟩
  | directoryFull hk hside hcache hdirectory hhead hf =>
    rw [evictions_recordLoad] at hx
    exact (hf.evicts_head x hx).congr (queues_forget_of_ne (by simp)) (queues_forget_of_ne (by simp))
  | cacheFull hk hside hcache hdirectory hf =>
    rw [evictions_recordLoad] at hx
    exact hf.evicts_head x hx
  | room => cases hx

/-- A key that a visit stops tracking was the head of its queue. -/
theorem Visited.drops_head {q : AdaptiveReplacementQueue} (hm : m.Located)
    (hv : Visited config (fun _ m => m) recordEviction onLoad k m l m' l') (hx : x ∈ m.queues q)
    (hdrop : m'.currentLocations.lookup x = none) : ∃ xs, (m.queues q).toList = x :: xs := by
  have hq := (hm x q).mpr hx
  have hforget {y : α} {ys : List α} {s : AdaptiveReplacementQueue}
      (hhead : (m.queues s).toList = y :: ys)
      (h : (forget subclass y s m).currentLocations.lookup x = none) :
      ∃ xs, (m.queues q).toList = x :: xs := by
    rw [lookup_forget, hq] at h
    split at h
    · next he =>
      subst he
      have hmem : x ∈ m.queues s := LinkedHashSet.mem_of_toList_cons hhead
      cases hm.filed.eq_of_mem hx hmem
      exact ⟨_, hhead⟩
    · cases h
  have hkept {P : Prop} (h : m.currentLocations.lookup x = none) : P :=
    absurd (hq.symm.trans h) (by simp)
  cases hv with
  | hit => exact hkept (lookup_relocate_eq_none.mp hdrop).2
  | ghostHit hs hk htarget hf =>
    exact hkept (hf.untracked (m := { m with own := _ }) (lookup_relocate_eq_none.mp hdrop).2)
  | sideFull hk hside ht1 hhead hf =>
    exact hforget hhead (hf.untracked (lookup_enqueue_eq_none.mp hdrop).2)
  | t1Full hk hside ht1 hhead => exact hforget hhead (lookup_enqueue_eq_none.mp hdrop).2
  | directoryFull hk hside hcache hdirectory hhead hf =>
    exact hforget hhead (hf.untracked (lookup_enqueue_eq_none.mp hdrop).2)
  | cacheFull hk hside hcache hdirectory hf =>
    exact hkept (hf.untracked (lookup_enqueue_eq_none.mp hdrop).2)
  | room => exact hkept (lookup_enqueue_eq_none.mp hdrop).2

end Heads

/-! ## Whole runs -/

section Runs

variable {config : AdaptiveReplacementConfiguration} {k x : α}
  {m m' : AdaptiveReplacementCacheManager α}
  {history : History (AdaptiveReplacementCacheManager α) α} {events : List (Event α)}

/-- The lists agree with the history of the calls. -/
structure Recent (history : History (AdaptiveReplacementCacheManager α) α)
    (m : AdaptiveReplacementCacheManager α) : Prop where
  located : m.Located
  untracked : ∀ k, tracked m k = false → visitsWhileTracked tracked history k = 0
  once : ∀ k ∈ seenOnce m, visitsWhileTracked tracked history k = 1
  often : ∀ k ∈ seenOften m, 2 ≤ visitsWhileTracked tracked history k
  increasingOnce : Increasing (lastVisit history) (seenOnce m)
  increasingOften : Increasing (lastVisit history) (seenOften m)

theorem visitsWhileTracked_visit (hx : tracked m' x = true) :
    visitsWhileTracked tracked (⟨m, .visit k, events, m'⟩ :: history) x =
      visitsWhileTracked tracked history x + if x = k then 1 else 0 := by
  rw [visitsWhileTracked, if_pos hx]
  simp only [Call.visit.injEq, eq_comm]

theorem Recent.missed {l : List α} (h : Recent history m) (hm' : m'.Located)
    (hk : tracked m k = false) (honce : seenOnce m' = l ++ [k]) (hsub : l.Sublist (seenOnce m))
    (hoften : (seenOften m').Sublist (seenOften m)) :
    Recent (⟨m, .visit k, events, m'⟩ :: history) m' := by
  have hne {x : α} (hx : tracked m x = true) : x ≠ k := by
    rintro rfl
    rw [hk] at hx
    cases hx
  have honce_ne {x : α} (hx : x ∈ l) : x ≠ k :=
    hne ((tracked_iff h.located).mpr (.inl (hsub.subset hx)))
  have hoften_ne {x : α} (hx : x ∈ seenOften m') : x ≠ k :=
    hne ((tracked_iff h.located).mpr (.inr (hoften.subset hx)))
  refine ⟨hm', ?_, ?_, ?_, ?_, ?_⟩
  · intro x hx
    rw [visitsWhileTracked, if_neg (by simp [hx])]
  · intro x hx
    rw [visitsWhileTracked_visit ((tracked_iff hm').mpr (.inl hx))]
    rw [honce, List.mem_append, List.mem_singleton] at hx
    rcases hx with hx | rfl
    · rw [if_neg (honce_ne hx), h.once x (hsub.subset hx)]
    · rw [if_pos rfl, h.untracked x hk]
  · intro x hx
    rw [visitsWhileTracked_visit ((tracked_iff hm').mpr (.inr hx)), if_neg (hoften_ne hx)]
    exact h.often x (hoften.subset hx)
  · rw [honce]
    exact (h.increasingOnce.sublist hsub).touch (fun x hx => lastVisit_visit_of_ne (honce_ne hx))
      (fun x _ => lastVisit_lt x)
  · exact (h.increasingOften.sublist hoften).congr fun x hx => lastVisit_visit_of_ne (hoften_ne hx)

theorem Recent.revisited {l : List α} (h : Recent history m) (hm' : m'.Located)
    (hk : tracked m k = true) (honce : (seenOnce m').Sublist (seenOnce m))
    (hoften : seenOften m' = l ++ [k]) (hsub : l.Sublist (seenOften m)) :
    Recent (⟨m, .visit k, events, m'⟩ :: history) m' := by
  have hmem : k ∈ seenOften m' := by simp [hoften]
  have honce_ne {x : α} (hx : x ∈ seenOnce m') : x ≠ k := by
    rintro rfl
    exact notMem_seenOften hm' hx hmem
  have hoften_ne {x : α} (hx : x ∈ l) : x ≠ k := by
    have hnodup := nodup_seenOften hm'
    rw [hoften] at hnodup
    exact (List.nodup_append.mp hnodup).2.2 x hx k (List.mem_singleton_self k)
  refine ⟨hm', ?_, ?_, ?_, ?_, ?_⟩
  · intro x hx
    rw [visitsWhileTracked, if_neg (by simp [hx])]
  · intro x hx
    rw [visitsWhileTracked_visit ((tracked_iff hm').mpr (.inl hx)), if_neg (honce_ne hx),
      h.once x (honce.subset hx)]
  · intro x hx
    rw [visitsWhileTracked_visit ((tracked_iff hm').mpr (.inr hx))]
    rw [hoften, List.mem_append, List.mem_singleton] at hx
    rcases hx with hx | rfl
    · rw [if_neg (hoften_ne hx)]
      exact h.often x (hsub.subset hx)
    · rw [if_pos rfl]
      rcases (tracked_iff h.located).mp hk with hx | hx
      · rw [h.once x hx]
      · have htwice := h.often x hx
        omega
  · exact (h.increasingOnce.sublist honce).congr fun x hx => lastVisit_visit_of_ne (honce_ne hx)
  · rw [hoften]
    exact (h.increasingOften.sublist hsub).touch (fun x hx => lastVisit_visit_of_ne (hoften_ne hx))
      (fun x _ => lastVisit_lt x)

/-- A call which is no visit takes keys away at most. -/
theorem Recent.shrunk {call : Call α} (h : Recent history m) (hm' : m'.Located)
    (hcall : ∀ k, call ≠ .visit k) (honce : (seenOnce m').Sublist (seenOnce m))
    (hoften : (seenOften m').Sublist (seenOften m)) :
    Recent (⟨m, call, events, m'⟩ :: history) m' := by
  have hlast (x : α) : lastVisit (⟨m, call, events, m'⟩ :: history) x = lastVisit history x := by
    rw [lastVisit, if_neg (hcall x)]
  have hvisits {x : α} (hx : tracked m' x = true) :
      visitsWhileTracked tracked (⟨m, call, events, m'⟩ :: history) x =
        visitsWhileTracked tracked history x := by
    rw [visitsWhileTracked, if_pos hx, if_neg (hcall x), add_zero]
  refine ⟨hm', ?_, ?_, ?_, ?_, ?_⟩
  · intro x hx
    rw [visitsWhileTracked, if_neg (by simp [hx])]
  · intro x hx
    rw [hvisits ((tracked_iff hm').mpr (.inl hx))]
    exact h.once x (honce.subset hx)
  · intro x hx
    rw [hvisits ((tracked_iff hm').mpr (.inr hx))]
    exact h.often x (hoften.subset hx)
  · exact (h.increasingOnce.sublist honce).congr fun x _ => hlast x
  · exact (h.increasingOften.sublist hoften).congr fun x _ => hlast x

theorem recent_initial : Recent [] (initial (α := α)) := by
  refine ⟨located_empty, fun _ _ => rfl, ?_, ?_, Increasing.nil, Increasing.nil⟩
  · intro k hk
    cases hk
  · intro k hk
    cases hk

theorem Recent.perform (h : Recent history m) {call : Call α}
    (hok : (manager config).perform m call = .ok (m', events)) :
    Recent (⟨m, call, events, m'⟩ :: history) m' := by
  cases call with
  | visit k =>
    rcases visit_cases config recorder_responds (.inl rfl) h.located k ([] : List (Event α))
      with ⟨m₁, l₁, hok₁, hv⟩ | ⟨herror, -⟩
    · cases hok₁.symm.trans hok
      obtain ⟨hm', hreordered⟩ := hv.reordered h.located
      cases hreordered with
      | missed hk honce hsub hoften => exact h.missed hm' hk honce hsub hoften
      | revisited hk honce hoften hsub => exact h.revisited hm' hk honce hoften hsub
    · cases herror.symm.trans hok
  | remove k =>
    cases hok
    refine h.shrunk (h.located.remove k) (by simp) ?_ ?_
    · rw [MultipleQueueCacheManager.remove]
      split
      · exact List.Sublist.refl _
      · exact (forget_sublist k _ m).1
    · rw [MultipleQueueCacheManager.remove]
      split
      · exact List.Sublist.refl _
      · exact (forget_sublist k _ m).2
  | clear =>
    cases hok
    exact h.shrunk located_empty (by simp) (List.nil_sublist _) (List.nil_sublist _)

theorem recent_of_reaches (hrun : (manager config).Reaches history m) : Recent history m := by
  induction hrun with
  | start => exact recent_initial
  | call run hok ih => exact ih.perform hok

/-- The head of a queue is its least recently visited key. -/
theorem Recent.head_le (h : Recent history m) {q : AdaptiveReplacementQueue} {xs : List α}
    (hx : (m.queues q).toList = x :: xs) :
    ∀ y ∈ m.queues q, lastVisit history x ≤ lastVisit history y := by
  have hqueue : Increasing (lastVisit history) (m.queues q).toList := by
    rcases q with _ | _ | _ | _
    · exact h.increasingOnce.sublist (List.sublist_append_right _ _)
    · exact h.increasingOften.sublist (List.sublist_append_right _ _)
    · exact h.increasingOnce.sublist (List.sublist_append_left _ _)
    · exact h.increasingOften.sublist (List.sublist_append_left _ _)
  intro y hy
  rw [LinkedHashSet.mem_def, hx] at hy
  rw [hx] at hqueue
  exact hqueue.head_le y hy

/-- `t1` and `b1` hold the keys visited once since they are tracked, `t2` and `b2` those
visited more often, and each pair of queues is in order of the last visits. So a visit
evicts the least recently visited key of `t1` or `t2`, and drops that of a ghost queue. -/
theorem recency_of_reaches (config : AdaptiveReplacementConfiguration)
    {history : History (AdaptiveReplacementCacheManager α) α}
    {m : AdaptiveReplacementCacheManager α} (hrun : (manager config).Reaches history m) :
    (∀ k, k ∈ m.queues t1 ∨ k ∈ m.queues b1 → visitsWhileTracked tracked history k = 1) ∧
    (∀ k, k ∈ m.queues t2 ∨ k ∈ m.queues b2 → 2 ≤ visitsWhileTracked tracked history k) ∧
    Increasing (lastVisit history) ((m.queues b1).toList ++ (m.queues t1).toList) ∧
    Increasing (lastVisit history) ((m.queues b2).toList ++ (m.queues t2).toList) ∧
    ∀ k m' events, (manager config).perform m (.visit k) = .ok (m', events) →
      (∀ x ∈ evictions events, ∃ q, (q = t1 ∨ q = t2) ∧ x ∈ m.queues q ∧
        ∀ y ∈ m.queues q, lastVisit history x ≤ lastVisit history y) ∧
      ∀ x q, q = b1 ∨ q = b2 → x ∈ m.queues q → m'.currentLocations.lookup x = none →
        ∀ y ∈ m.queues q, lastVisit history x ≤ lastVisit history y := by
  have h := recent_of_reaches hrun
  refine ⟨fun k hk => h.once k (mem_seenOnce.mpr hk.symm),
    fun k hk => h.often k (mem_seenOften.mpr hk.symm), h.increasingOnce, h.increasingOften, ?_⟩
  intro k m' events hok
  rcases visit_cases config recorder_responds (.inl rfl) h.located k ([] : List (Event α))
    with ⟨m₁, l₁, hok₁, hv⟩ | ⟨herror, -⟩
  · cases hok₁.symm.trans hok
    refine ⟨?_, ?_⟩
    · intro x hx
      obtain ⟨q, xs, hq, hhead⟩ := hv.evicts_head x hx
      exact ⟨q, hq, LinkedHashSet.mem_of_toList_cons hhead, h.head_le hhead⟩
    · intro x q _ hx hdrop
      obtain ⟨xs, hhead⟩ := hv.drops_head h.located hx hdrop
      exact h.head_le hhead
  · cases herror.symm.trans hok

theorem recency_of_reaches_ghostHit :
    ∃ history m, (manager (α := ℕ) twoNodes).Reaches history m ∧
      2 ≤ visitsWhileTracked tracked history 2 ∧
      visitsWhileTracked tracked history 3 = 1 := by
  have hrun : (manager (α := ℕ) twoNodes).Reaches _ _ :=
    run_of_replay [.visit 1, .visit 1, .visit 2, .visit 3, .visit 2] rfl
  have h := recency_of_reaches twoNodes hrun
  exact ⟨_, _, hrun, h.2.1 2 (by decide), h.1 3 (by decide)⟩

end Runs

end CachePolicies.AdaptiveReplacementCacheManager
