import Sipi.Cache.Store

/-!
# What a purge does

The loop of `purge` passes over the entries that are pinned or gone, and stops as soon as both counters are low: it
evicts a prefix of the unpinned entries in their order of access.
-/

namespace Sipi.Cache

open Sipi.Iiif Sipi.Theory

/-- The entries a purge may evict, in order. -/
def candidates (cfg : Config) (c : SipiCache) (alist : List Str) : List (Str × CacheRecord) :=
  alist.filterMap fun k =>
    match c.cachetable.lookup k with
    | none => none
    | some r => if c.isBlocked (cfg.path r.cachepath) then none else some (k, r)

/-- The candidates that go before both counters are low. -/
def untilLow (cfg : Config) : ℕ → ℕ → List (Str × CacheRecord) → List (Str × CacheRecord)
  | _, _, [] => []
  | used, n, v :: vs =>
    if cfg.low used n then [] else v :: untilLow cfg (wrap64 (used - v.2.fsize)) (wrap32 (n - 1)) vs

/-- The entries a purge evicts. -/
def victims (cfg : Config) (c : SipiCache) (alist : List Str) : List (Str × CacheRecord) :=
  untilLow cfg c.cacheUsedBytes c.nfiles (candidates cfg c alist)

/-- Evict entries one after the other. -/
def SipiCache.evictAll (c : SipiCache) (vs : List (Str × CacheRecord)) : SipiCache :=
  vs.foldl (fun c v => c.evict v.1 v.2) c

theorem untilLow_sublist (cfg : Config) (used n : ℕ) (vs : List (Str × CacheRecord)) :
    (untilLow cfg used n vs).Sublist vs := by
  induction vs generalizing used n with
  | nil => exact List.Sublist.refl _
  | cons v vs ih =>
    unfold untilLow
    split
    · exact List.nil_sublist _
    · exact (ih _ _).cons_cons v

variable {cfg : Config} {c : SipiCache} {alist : List Str}

theorem mem_candidates {v : Str × CacheRecord} (h : v ∈ candidates cfg c alist) :
    v.1 ∈ alist ∧ c.cachetable.lookup v.1 = some v.2 ∧ c.isBlocked (cfg.path v.2.cachepath) = false := by
  obtain ⟨k, hk, hv⟩ := List.mem_filterMap.mp h
  split at hv
  · cases hv
  · next r hr =>
    split at hv
    · cases hv
    · next hb =>
      cases hv
      exact ⟨hk, hr, by simpa using hb⟩

variable {k : Str}

section Evict

variable (c : SipiCache) (canonical : Str) (r : CacheRecord)

@[simp] theorem isBlocked_evict (path : Str) : (c.evict canonical r).isBlocked path = c.isBlocked path := rfl

theorem lookup_evict_of_ne (h : k ≠ canonical) : (c.evict canonical r).cachetable.lookup k = c.cachetable.lookup k :=
  AList.lookup_erase_ne h

theorem candidates_evict (cfg : Config) (h : canonical ∉ alist) :
    candidates cfg (c.evict canonical r) alist = candidates cfg c alist := by
  refine List.filterMap_congr fun k hk => ?_
  rw [lookup_evict_of_ne c canonical r (ne_of_mem_of_not_mem hk h)]
  rfl

end Evict

variable {P : SipiCache → Prop}

section
variable (hs : ∀ c k r, P c → c.cachetable.lookup k = some r → c.isBlocked (cfg.path r.cachepath) = false →
      P (c.evict k r))
include hs

theorem purgeLoop_induction (alist : List Str) (n : ℕ) (hP : P c) : P (c.purgeLoop cfg alist n).1 := by
  induction alist generalizing c n with
  | nil => exact hP
  | cons k alist ih =>
    unfold SipiCache.purgeLoop
    split
    · exact hP
    · split
      · exact ih n hP
      · next r hr =>
        split
        · exact ih n hP
        · next hb => exact ih (n + 1) (hs c k r hP hr (by simpa using hb))

theorem purge_induction (alist : List Str) (hP : P c) : P (c.purge cfg alist).1 := by
  have hl := purgeLoop_induction hs alist 0 hP
  unfold SipiCache.purge
  split
  · exact hP
  · split
    · show P (if _ then _ else _ : SipiCache × ℤ).1
      split
      · exact hl
      · exact hl
    · exact hP

end

theorem purgeLoop_eq (cfg : Config) (hn : alist.Nodup) (c : SipiCache) (n : ℕ) :
    c.purgeLoop cfg alist n = (c.evictAll (victims cfg c alist), n + (victims cfg c alist).length) := by
  induction alist generalizing c n with
  | nil => rfl
  | cons k alist ih =>
    obtain ⟨hk, hn⟩ := List.nodup_cons.mp hn
    unfold SipiCache.purgeLoop
    by_cases hl : cfg.low c.cacheUsedBytes c.nfiles = true
    · -- the counters are low: nothing more goes
      have hnl : victims cfg c (k :: alist) = [] := by
        unfold victims
        cases candidates cfg c (k :: alist) with
        | nil => rfl
        | cons v vs => rw [untilLow, if_pos hl]
      rw [if_pos hl, hnl]
      rfl
    rw [if_neg hl]
    split
    · next hr =>
      have hs : candidates cfg c (k :: alist) = candidates cfg c alist := by simp [candidates, hr]
      rw [ih hn c n, victims, victims, hs]
    · next r hr =>
      by_cases hb : c.isBlocked (cfg.path r.cachepath) = true
      · have hs : candidates cfg c (k :: alist) = candidates cfg c alist := by simp [candidates, hr, hb]
        rw [if_pos hb, ih hn c n, victims, victims, hs]
      · have ht : candidates cfg c (k :: alist) = (k, r) :: candidates cfg c alist := by simp [candidates, hr, hb]
        have hv : victims cfg c (k :: alist) = (k, r) :: victims cfg (c.evict k r) alist := by
          rw [victims, ht, untilLow, if_neg hl, victims, candidates_evict c k r cfg hk]
          rfl
        rw [if_neg hb, ih hn, hv, List.length_cons, Nat.add_assoc, Nat.add_comm 1]
        rfl

theorem over_of_unlimited (h : cfg.maxCacheSize < 0 ∧ cfg.maxNfiles = 0) (used n : ℕ) : cfg.over used n = false := by
  simp [Config.over, h.2]
  omega

theorem purge_eq (cfg : Config) (hn : alist.Nodup) (c : SipiCache) :
    c.purge cfg alist =
      if cfg.over c.cacheUsedBytes c.nfiles then
        (c.evictAll (victims cfg c alist),
          if cfg.low (c.evictAll (victims cfg c alist)).cacheUsedBytes (c.evictAll (victims cfg c alist)).nfiles then
            ((victims cfg c alist).length : ℤ) else -1)
      else (c, 0) := by
  unfold SipiCache.purge
  by_cases hun : cfg.maxCacheSize < 0 ∧ cfg.maxNfiles = 0
  · rw [if_pos hun, over_of_unlimited hun, if_neg (by simp)]
  rw [if_neg hun]
  split
  · rw [purgeLoop_eq cfg hn c 0]
    simp only [Nat.zero_add]
    split <;> rfl
  · rfl

/-- All that may go does not bring the counters down. -/
def Fails (cfg : Config) (c : SipiCache) (alist : List Str) : Prop :=
  cfg.over c.cacheUsedBytes c.nfiles = true ∧
    cfg.low (c.evictAll (victims cfg c alist)).cacheUsedBytes (c.evictAll (victims cfg c alist)).nfiles = false

instance (cfg : Config) (c : SipiCache) (alist : List Str) : Decidable (Fails cfg c alist) :=
  inferInstanceAs (Decidable (_ ∧ _))

theorem purge_eq_neg_one_iff (cfg : Config) (hn : alist.Nodup) (c : SipiCache) :
    (c.purge cfg alist).2 = -1 ↔ Fails cfg c alist := by
  rw [purge_eq cfg hn, Fails]
  split
  · next ho =>
    split
    · next hl => simp [hl]
    · next hl => simpa [ho] using hl
  · next ho => simp [ho]

theorem lookup_of_purge {r : CacheRecord}
    (h : (c.purge cfg alist).1.cachetable.lookup k = some r) : c.cachetable.lookup k = some r := by
  refine purge_induction (P := fun c' => c'.cachetable.lookup k = some r → c.cachetable.lookup k = some r)
    (fun c' k' r' ih _ _ hk => ih ?_) alist id h
  by_cases hne : k = k'
  · subst hne
    rw [SipiCache.evict, AList.lookup_erase] at hk
    cases hk
  · rwa [lookup_evict_of_ne c' k' r' hne] at hk

@[simp] theorem blockedFiles_purge (cfg : Config) (alist : List Str) (c : SipiCache) :
    (c.purge cfg alist).1.blockedFiles = c.blockedFiles :=
  purge_induction (P := fun c' => c'.blockedFiles = c.blockedFiles) (fun _ _ _ h _ _ => h) alist rfl

@[simp] theorem pending_purge (cfg : Config) (alist : List Str) (c : SipiCache) :
    (c.purge cfg alist).1.pending = c.pending :=
  purge_induction (P := fun c' => c'.pending = c.pending) (fun _ _ _ h _ _ => h) alist rfl

variable {vs : List (Str × CacheRecord)}

theorem untilLow_eq_self (h : cfg.low (c.evictAll (untilLow cfg c.cacheUsedBytes c.nfiles vs)).cacheUsedBytes
      (c.evictAll (untilLow cfg c.cacheUsedBytes c.nfiles vs)).nfiles = false) :
    untilLow cfg c.cacheUsedBytes c.nfiles vs = vs := by
  induction vs generalizing c with
  | nil => rfl
  | cons v vs ih =>
    rw [untilLow] at h ⊢
    split at h
    · next hl => exact absurd (hl.symm.trans h) (by decide)
    · next hl =>
      rw [if_neg hl]
      exact congrArg (v :: ·) (ih (c := c.evict v.1 v.2) h)

theorem lookup_evictAll_of_mem (h : k ∈ vs.map Prod.fst ∨ c.cachetable.lookup k = none) :
    (c.evictAll vs).cachetable.lookup k = none := by
  induction vs generalizing c with
  | nil => exact h.resolve_left List.not_mem_nil
  | cons v vs ih =>
    refine ih (c := c.evict v.1 v.2) ?_
    by_cases hk : k = v.1
    · exact Or.inr (hk ▸ AList.lookup_erase v.1 c.cachetable)
    · rw [lookup_evict_of_ne c v.1 v.2 hk]
      exact h.imp_left fun hm => (List.mem_cons.mp hm).resolve_left hk

theorem isBlocked_of_fails (hn : alist.Nodup) (hf : Fails cfg c alist) {r : CacheRecord} (hk : k ∈ alist)
    (hr : (c.purge cfg alist).1.cachetable.lookup k = some r) : c.isBlocked (cfg.path r.cachepath) = true := by
  by_contra hb
  obtain ⟨ho, hl⟩ := hf
  have ha : victims cfg c alist = candidates cfg c alist := untilLow_eq_self hl
  have hm : (k, r) ∈ candidates cfg c alist :=
    List.mem_filterMap.mpr ⟨k, hk, by simp [lookup_of_purge hr, hb]⟩
  have hg := lookup_evictAll_of_mem (c := c) (Or.inl (List.mem_map_of_mem (f := Prod.fst) hm))
  rw [purge_eq cfg hn, if_pos ho, ha, hg] at hr
  cases hr

theorem candidates_keys_sublist (cfg : Config) (c : SipiCache) (alist : List Str) :
    ((candidates cfg c alist).map Prod.fst).Sublist alist := by
  induction alist with
  | nil => exact List.Sublist.refl _
  | cons k alist ih =>
    cases hr : c.cachetable.lookup k with
    | none => simpa [candidates, hr] using ih.cons k
    | some r =>
      by_cases hb : c.isBlocked (cfg.path r.cachepath) = true
      · simpa [candidates, hr, hb] using ih.cons k
      · simpa [candidates, hr, hb] using ih.cons_cons k

theorem victims_keys_nodup (cfg : Config) (c : SipiCache) (h : alist.Nodup) :
    ((victims cfg c alist).map Prod.fst).Nodup :=
  (candidates_keys_sublist cfg c alist).nodup h |>.sublist ((untilLow_sublist cfg _ _ _).map Prod.fst)

theorem evictAll_induction (hs : ∀ c v, v ∈ vs → P c → c.cachetable.lookup v.1 = some v.2 → P (c.evict v.1 v.2))
    (hn : (vs.map Prod.fst).Nodup) (hl : ∀ v ∈ vs, c.cachetable.lookup v.1 = some v.2) (hP : P c) :
    P (c.evictAll vs) := by
  induction vs generalizing c with
  | nil => exact hP
  | cons v vs ih =>
    obtain ⟨hv, hn⟩ := List.nodup_cons.mp hn
    have hf := hl v (List.mem_cons_self ..)
    refine ih (fun c w hw => hs c w (List.mem_cons_of_mem v hw)) hn (fun w hw => ?_)
      (hs c v (List.mem_cons_self ..) hP hf)
    have hne : w.1 ≠ v.1 := fun h => hv (h ▸ List.mem_map_of_mem hw)
    rw [lookup_evict_of_ne c v.1 v.2 hne]
    exact hl w (List.mem_cons_of_mem v hw)

theorem lookup_of_mem_victims {v : Str × CacheRecord} (h : v ∈ victims cfg c alist) :
    c.cachetable.lookup v.1 = some v.2 ∧ c.isBlocked (cfg.path v.2.cachepath) = false :=
  (mem_candidates ((untilLow_sublist cfg _ _ _).subset h)).2

theorem SipiCache.Sorted.nodup (h : c.Sorted alist) : alist.Nodup :=
  h.1.nodup_iff.mpr c.cachetable.keys_nodup

end Sipi.Cache
