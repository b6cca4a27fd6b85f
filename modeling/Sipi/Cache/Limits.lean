import Sipi.Cache.Accounting

/-!
# The limits of the cache

`purge` in `src/SipiCache.cpp` has two limits with a low-water mark each, and one loop that serves both.
-/

namespace Sipi.Cache

open Sipi.Iiif Sipi.Theory

/-! ### Counters without some entries -/

/-- The bytes of some entries. -/
def bytesOf (vs : List (Str × CacheRecord)) : ℤ := (vs.map fun v => v.2.fsize).sum

@[simp] theorem bytesOf_nil : bytesOf [] = 0 := rfl

@[simp] theorem bytesOf_cons (v : Str × CacheRecord) (vs : List (Str × CacheRecord)) :
    bytesOf (v :: vs) = v.2.fsize + bytesOf vs := by
  simp [bytesOf]

/-- Both counters would be low without some entries. -/
def lowWithout (cfg : Config) (c : SipiCache) (vs : List (Str × CacheRecord)) : Bool :=
  cfg.low (c.cacheUsedBytes - bytesOf vs).toNat (c.nfiles - vs.length)

/-- Some entries of the table, each once. -/
structure Picks (c : SipiCache) (vs : List (Str × CacheRecord)) : Prop where
  nodup : (vs.map Prod.fst).Nodup
  lookup : ∀ v ∈ vs, c.cachetable.lookup v.1 = some v.2

section Counters

variable {cfg : Config} {c : SipiCache} {v : Str × CacheRecord} {vs : List (Str × CacheRecord)}

theorem Picks.head (h : Picks c (v :: vs)) : c.cachetable.lookup v.1 = some v.2 :=
  h.lookup v (List.mem_cons_self ..)

theorem Picks.tail (h : Picks c (v :: vs)) : Picks (c.evict v.1 v.2) vs := by
  obtain ⟨hv, hn⟩ := List.nodup_cons.mp h.nodup
  refine ⟨hn, fun w hw => ?_⟩
  have hne : w.1 ≠ v.1 := fun he => hv (he ▸ List.mem_map_of_mem hw)
  rw [lookup_evict_of_ne c v.1 v.2 hne]
  exact h.lookup w (List.mem_cons_of_mem v hw)

theorem Picks.sublist {ws : List (Str × CacheRecord)} (h : Picks c vs) (hs : ws.Sublist vs) : Picks c ws :=
  ⟨h.nodup.sublist (hs.map Prod.fst), fun w hw => h.lookup w (hs.subset hw)⟩

theorem counters_evict (hb : Books c c.cachetable) (hv : c.cachetable.lookup v.1 = some v.2) :
    ((c.evict v.1 v.2).cacheUsedBytes : ℤ) = c.cacheUsedBytes - v.2.fsize ∧
      (c.evict v.1 v.2).nfiles + 1 = c.nfiles := by
  have ha := hb.evict hv
  have ht : total CacheRecord.fsize c.cachetable = v.2.fsize + total CacheRecord.fsize (c.cachetable.erase v.1) :=
    total_eq_add_erase hv
  have hu : ((c.evict v.1 v.2).cacheUsedBytes : ℤ) = total CacheRecord.fsize (c.cachetable.erase v.1) :=
    ha.used
  have hc : (c.evict v.1 v.2).nfiles = (c.cachetable.erase v.1).entries.length := ha.count
  have hl := length_erase hv
  have hbf := hb.used
  have hn := hb.count
  constructor <;> omega

theorem counters_evictAll (hb : Books c c.cachetable) (h : Picks c vs) :
    ((c.evictAll vs).cacheUsedBytes : ℤ) = c.cacheUsedBytes - bytesOf vs ∧
      (c.evictAll vs).nfiles + vs.length = c.nfiles := by
  induction vs generalizing c with
  | nil => exact ⟨(sub_zero _).symm, rfl⟩
  | cons v vs ih =>
    obtain ⟨hu, hc⟩ := counters_evict hb h.head
    obtain ⟨hu', hc'⟩ := ih (hb.evict h.head) h.tail
    rw [bytesOf_cons, List.length_cons]
    constructor
    · show ((((c.evict v.1 v.2).evictAll vs).cacheUsedBytes : ℕ) : ℤ) = _
      omega
    · show ((c.evict v.1 v.2).evictAll vs).nfiles + _ = _
      omega

theorem lowWithout_eq (hb : Books c c.cachetable) (h : Picks c vs) :
    lowWithout cfg c vs = cfg.low (c.evictAll vs).cacheUsedBytes (c.evictAll vs).nfiles := by
  obtain ⟨hu, hc⟩ := counters_evictAll hb h
  rw [lowWithout, ← hu, Int.toNat_natCast, ← hc, Nat.add_sub_cancel]

theorem low_mono {used used' n n' : ℕ} (hu : used' ≤ used) (hn : n' ≤ n) (h : cfg.low used n = true) :
    cfg.low used' n' = true := by
  simp only [Config.low, Bool.and_eq_true, Bool.or_eq_true, decide_eq_true_eq] at h ⊢
  omega

theorem bytesOf_nonneg (hb : Books c c.cachetable) (h : Picks c vs) : 0 ≤ bytesOf vs := by
  refine List.sum_nonneg fun x hx => ?_
  obtain ⟨w, hw, rfl⟩ := List.mem_map.mp hx
  exact hb.nonneg w.1 w.2 (h.lookup w hw)

theorem lowWithout_of_take (hb : Books c c.cachetable) (h : Picks c vs) {n : ℕ}
    (hl : lowWithout cfg c (vs.take n) = true) : lowWithout cfg c vs = true := by
  have hd := bytesOf_nonneg hb (h.sublist (List.drop_sublist n vs))
  have hs : bytesOf vs = bytesOf (vs.take n) + bytesOf (vs.drop n) := by
    rw [bytesOf, bytesOf, bytesOf, ← List.sum_append, ← List.map_append, List.take_append_drop]
  have hle : (vs.take n).length ≤ vs.length := (List.take_sublist n vs).length_le
  exact low_mono (by omega) (by omega) hl

theorem untilLow_eq_take (hb : Books c c.cachetable) (h : Picks c vs) :
    ∃ n ≤ vs.length, untilLow cfg c.cacheUsedBytes c.nfiles vs = vs.take n ∧
      (∀ m < n, lowWithout cfg c (vs.take m) = false) ∧ (lowWithout cfg c (vs.take n) = true ∨ n = vs.length) := by
  induction vs generalizing c with
  | nil => exact ⟨0, le_rfl, rfl, fun m hm => absurd hm (Nat.not_lt_zero m), Or.inr rfl⟩
  | cons v vs ih =>
    have hnw : lowWithout cfg c [] = cfg.low c.cacheUsedBytes c.nfiles :=
      lowWithout_eq hb ⟨List.nodup_nil, fun w hw => absurd hw List.not_mem_nil⟩
    rw [untilLow]
    split
    · next hl =>
      exact ⟨0, Nat.zero_le _, rfl, fun m hm => absurd hm (Nat.not_lt_zero m), Or.inl (hnw.trans hl)⟩
    · next hl =>
      obtain ⟨n, hn, ht, hbf, hst⟩ := ih (hb.evict h.head) h.tail
      -- without `v` and some others is without the others after `v` has gone
      have hsh : ∀ m, lowWithout cfg c (v :: vs.take m) = lowWithout cfg (c.evict v.1 v.2) (vs.take m) := by
        intro m
        have hsb : (v :: vs.take m).Sublist (v :: vs) := (List.take_sublist m vs).cons_cons v
        rw [lowWithout_eq hb (h.sublist hsb),
          lowWithout_eq (hb.evict h.head) (h.tail.sublist (List.take_sublist m vs))]
        rfl
      refine ⟨n + 1, Nat.succ_le_succ hn, congrArg (v :: ·) ht, fun m hm => ?_, ?_⟩
      · cases m with
        | zero => exact hnw.trans (by simpa using hl)
        | succ m => exact (hsh m).trans (hbf m (Nat.lt_of_succ_lt_succ hm))
      · exact hst.imp (fun hs => (hsh n).trans hs) fun hs => congrArg (· + 1) hs

end Counters

/-- The unpinned entries, each once, by access time. -/
structure LruOrder (cfg : Config) (c : SipiCache) (order : List (Str × CacheRecord)) : Prop where
  /-- The unpinned entries. -/
  mem_iff : ∀ k r, (k, r) ∈ order ↔
    c.cachetable.lookup k = some r ∧ c.isBlocked (cfg.path r.cachepath) = false
  /-- Each once. -/
  nodup : (order.map Prod.fst).Nodup
  sorted : order.Pairwise fun v w => v.2.accessTime ≤ w.2.accessTime

section Purge

variable {cfg : Config} {c : SipiCache} {alist : List Str}

theorem accessTimes_candidates_sublist (cfg : Config) (c : SipiCache) (alist : List Str) :
    ((candidates cfg c alist).map fun v => v.2.accessTime).Sublist
      (alist.filterMap fun k => (c.cachetable.lookup k).map CacheRecord.accessTime) := by
  induction alist with
  | nil => exact List.Sublist.refl _
  | cons k alist ih =>
    cases hr : c.cachetable.lookup k with
    | none => simpa [candidates, hr] using ih
    | some r =>
      by_cases hb : c.isBlocked (cfg.path r.cachepath) = true
      · simpa [candidates, hr, hb] using ih.cons r.accessTime
      · simpa [candidates, hr, hb] using ih.cons_cons r.accessTime

theorem lruOrder_candidates (h : c.Sorted alist) : LruOrder cfg c (candidates cfg c alist) := by
  refine ⟨fun k r => ⟨fun hm => (mem_candidates hm).2, fun ⟨hr, hb⟩ => ?_⟩,
    (candidates_keys_sublist cfg c alist).nodup h.nodup, ?_⟩
  · have hk : k ∈ alist := h.1.mem_iff.mpr (AList.mem_keys.mp (AList.lookup_isSome.mp (by rw [hr]; rfl)))
    exact List.mem_filterMap.mpr ⟨k, hk, by simp [hr, hb]⟩
  · exact List.pairwise_map.mp (h.2.sublist (accessTimes_candidates_sublist cfg c alist))

theorem picks_candidates (h : c.Sorted alist) : Picks c (candidates cfg c alist) :=
  ⟨(lruOrder_candidates h).nodup, fun _ hv => (mem_candidates hv).2.1⟩

theorem victims_eq_take (cfg : Config) (hb : Books c c.cachetable) (h : c.Sorted alist) :
    ∃ n ≤ (candidates cfg c alist).length, victims cfg c alist = (candidates cfg c alist).take n ∧
      (∀ m < n, lowWithout cfg c ((candidates cfg c alist).take m) = false) ∧
      (lowWithout cfg c ((candidates cfg c alist).take n) = true ∨ n = (candidates cfg c alist).length) :=
  untilLow_eq_take hb (picks_candidates h)

theorem lookup_evictAll_of_not_mem {vs : List (Str × CacheRecord)} {k : Str} (h : k ∉ vs.map Prod.fst) :
    (c.evictAll vs).cachetable.lookup k = c.cachetable.lookup k := by
  induction vs generalizing c with
  | nil => rfl
  | cons v vs ih =>
    obtain ⟨hv, hr⟩ := not_or.mp (fun hor => h (List.mem_cons.mpr hor))
    exact (ih (c := c.evict v.1 v.2) hr).trans (lookup_evict_of_ne c v.1 v.2 hv)

/-! ### The limits hold -/

theorem lt_of_low {used n : ℕ} (h : cfg.low used n = true) :
    (0 < cfg.maxNfiles → n < cfg.maxNfiles) ∧ (0 < cfg.maxCacheSize → (used : ℤ) < cfg.maxCacheSize) := by
  simp only [Config.low, Bool.and_eq_true, Bool.or_eq_true, decide_eq_true_eq] at h
  omega

theorem lt_of_not_over {used n : ℕ} (h : cfg.over used n = false) :
    (0 < cfg.maxNfiles → n < cfg.maxNfiles) ∧ (0 < cfg.maxCacheSize → (used : ℤ) < cfg.maxCacheSize) := by
  simp only [Config.over, Bool.or_eq_false_iff, Bool.and_eq_false_iff, decide_eq_false_iff_not] at h
  omega

theorem lt_of_purge (hn : alist.Nodup) (h : (c.purge cfg alist).2 ≠ -1) :
    (0 < cfg.maxNfiles → (c.purge cfg alist).1.nfiles < cfg.maxNfiles) ∧
      (0 < cfg.maxCacheSize → ((c.purge cfg alist).1.cacheUsedBytes : ℤ) < cfg.maxCacheSize) := by
  have hf := (purge_eq_neg_one_iff cfg hn c).not.mp h
  rw [purge_eq cfg hn]
  split
  · next ho => exact lt_of_low (by simpa [Fails, ho] using hf)
  · next ho => exact lt_of_not_over (by simpa using ho)

theorem wrap32_succ_le (n : ℕ) : wrap32 (n + 1) ≤ n + 1 := by
  unfold wrap32
  omega

theorem unlinkExisting_of_none {k : Str} (h : c.cachetable.lookup k = none) : c.unlinkExisting k = c := by
  rw [SipiCache.unlinkExisting, h]

theorem within_of_add (hb : Books c c.cachetable) (hs : c.Sorted alist) {k : Str} {fr : CacheRecord}
    (hnw : c.cachetable.lookup k = none) (ha : (c.add cfg alist k fr).2 = true) :
    (0 < cfg.maxNfiles → (c.add cfg alist k fr).1.nfiles ≤ cfg.maxNfiles) ∧
      (0 < cfg.maxCacheSize →
        total CacheRecord.fsize ((c.add cfg alist k fr).1.cachetable.erase k) < cfg.maxCacheSize) := by
  have hp := books_purge cfg alist hb
  have hn : (c.purge cfg alist).1.cachetable.lookup k = none := by
    by_contra hne
    obtain ⟨r, hr⟩ := Option.ne_none_iff_exists'.mp hne
    rw [lookup_of_purge hr] at hnw
    cases hnw
  have hne : (c.purge cfg alist).2 ≠ -1 := by
    intro hfl
    simp [SipiCache.add, unlinkExisting_of_none hnw, hfl] at ha
  obtain ⟨hf, hby⟩ := lt_of_purge hs.nodup hne
  have had : (c.add cfg alist k fr).1 = (c.purge cfg alist).1.admitFile k fr := by
    simp [SipiCache.add, unlinkExisting_of_none hnw, hne]
  rw [had]
  constructor
  · intro hl
    exact (wrap32_succ_le _).trans (hf hl)
  · intro hl
    have hi : total CacheRecord.fsize ((c.purge cfg alist).1.cachetable.insert k fr) = _ :=
      total_eq_add_erase (AList.lookup_insert _)
    rw [total_insert, erase_eq_of_lookup_none hn, ← hp.used] at hi
    have hu := hby hl
    show total CacheRecord.fsize (((c.purge cfg alist).1.cachetable.insert k fr).erase k) < _
    omega

/-- **Limits and eviction.** A purge evicts the unpinned entries that were used least recently and no others: none
below the limits, and else as few as bring both counters to their marks. An `add` of a new key that is not refused
leaves the cache within its limits. -/
theorem purge_and_add_within_limits (cfg : Config) (c : SipiCache) (alist : List Str)
    (hbooks : Books c c.cachetable) (hsorted : c.Sorted alist) :
    (∃ order, LruOrder cfg c order ∧ ∃ n ≤ order.length,
      (∀ k, (c.purge cfg alist).1.cachetable.lookup k =
        if k ∈ (order.take n).map Prod.fst then none else c.cachetable.lookup k) ∧
      (cfg.over c.cacheUsedBytes c.nfiles = false → n = 0 ∧ (c.purge cfg alist).2 = 0) ∧
      (cfg.over c.cacheUsedBytes c.nfiles = true →
        (∀ m < n, lowWithout cfg c (order.take m) = false) ∧
        (lowWithout cfg c (order.take n) = true ∨ n = order.length) ∧
        ((c.purge cfg alist).2 = -1 ↔ lowWithout cfg c order = false))) ∧
    ∀ k fr, c.cachetable.lookup k = none → (c.add cfg alist k fr).2 = true →
      (0 < cfg.maxNfiles → (c.add cfg alist k fr).1.nfiles ≤ cfg.maxNfiles) ∧
      (0 < cfg.maxCacheSize →
        total CacheRecord.fsize ((c.add cfg alist k fr).1.cachetable.erase k) < cfg.maxCacheSize) := by
  refine ⟨⟨candidates cfg c alist, lruOrder_candidates hsorted, ?_⟩,
    fun k fr hnw ha => within_of_add hbooks hsorted hnw ha⟩
  have hpc : Picks c (candidates cfg c alist) := picks_candidates hsorted
  have hp := purge_eq cfg hsorted.nodup c
  by_cases ho : cfg.over c.cacheUsedBytes c.nfiles = true
  · obtain ⟨n, hn, hv, hb, hs⟩ := victims_eq_take cfg hbooks hsorted
    rw [if_pos ho, hv] at hp
    refine ⟨n, hn, fun k => ?_, fun hnt => absurd (ho.symm.trans hnt) (by decide),
      fun _ => ⟨hb, hs, ?_⟩⟩
    · have haf : (c.purge cfg alist).1 = c.evictAll ((candidates cfg c alist).take n) := congrArg Prod.fst hp
      rw [haf]
      split
      · next hm => exact lookup_evictAll_of_mem (Or.inl hm)
      · next hm => exact lookup_evictAll_of_not_mem hm
    · -- the purge fails when what it evicts is not enough, and then it has evicted everything
      have hf : (c.purge cfg alist).2 = -1 ↔ lowWithout cfg c ((candidates cfg c alist).take n) = false := by
        rw [purge_eq_neg_one_iff cfg hsorted.nodup, Fails, hv,
          lowWithout_eq hbooks (hpc.sublist (List.take_sublist n _))]
        exact and_iff_right ho
      rw [hf]
      constructor
      · intro hl
        obtain rfl := hs.resolve_left (by rw [hl]; decide)
        rwa [List.take_length] at hl
      · intro hal
        by_contra hl
        have := lowWithout_of_take hbooks hpc (Bool.eq_true_of_not_eq_false hl)
        exact absurd (this.symm.trans hal) (by decide)
  · rw [if_neg ho] at hp
    refine ⟨0, Nat.zero_le _, fun k => ?_, fun _ => ⟨rfl, ?_⟩, fun h => absurd h ho⟩
    · rw [hp]
      simp
    · rw [hp]

def threeFiles : Config := ⟨txt "cache", -1, 3⟩

/-- It is full, and its oldest file is pinned. -/
def oldestPinned : SipiCache :=
  { [(txt "x", sampleFile "a" 10 1), (txt "y", sampleFile "b" 20 2), (txt "z", sampleFile "c" 30 3)].foldl loadRecord
      (empty {txt "a", txt "b", txt "c"}) with
    blockedFiles := (∅ : Table Str ℤ).insert (txt "cache/a") 1 }

theorem books_oldestPinned : Books oldestPinned oldestPinned.cachetable :=
  (books_loadRecords (by decide) (by decide) (by decide) (by decide)).congr rfl rfl

theorem purge_passes_over_pinned :
    threeFiles.over oldestPinned.cacheUsedBytes oldestPinned.nfiles = true ∧
      (oldestPinned.purge threeFiles [txt "x", txt "y", txt "z"]).1.cachetable.keys = [txt "z", txt "x"] ∧
      (∃ order, LruOrder threeFiles oldestPinned order ∧
        ((oldestPinned.purge threeFiles [txt "x", txt "y", txt "z"]).2 = -1 ↔
          lowWithout threeFiles oldestPinned order = false)) ∧
      (oldestPinned.add threeFiles [txt "x", txt "y", txt "z"] (txt "w") (sampleFile "d" 5 4)).1.nfiles ≤ 3 := by
  have ho : threeFiles.over oldestPinned.cacheUsedBytes oldestPinned.nfiles = true := by decide
  obtain ⟨⟨order, hor, _, _, _, _, hp⟩, ha⟩ := purge_and_add_within_limits threeFiles oldestPinned
    [txt "x", txt "y", txt "z"] books_oldestPinned (by decide)
  exact ⟨ho, by decide, ⟨order, hor, (hp ho).2.2⟩,
    (ha (txt "w") (sampleFile "d" 5 4) (by decide) (by decide)).1 (by decide)⟩

end Purge

end Sipi.Cache
