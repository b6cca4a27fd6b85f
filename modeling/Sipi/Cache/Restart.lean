import Sipi.Cache.Files

/-!
# A restart of the cache

The destructor in `src/SipiCache.cpp` writes the table to the index file, and the constructor of the next run reads
it.

## Honest scope

The index file can be written and read.
-/

namespace Sipi.Cache

open Sipi.Iiif Sipi.Theory

/-! ### The index -/

/-- A text in a field of 256 bytes, as it is read back. -/
def cstr (w : Str) : Str := (w.takeWhile fun ch => ch ≠ '\x00').take 255

/-- The record of an entry, as it is read back. -/
def fileCacheRecord (canonical : Str) (r : CacheRecord) : Str × CacheRecord :=
  (cstr canonical, { r with origpath := cstr r.origpath, cachepath := cstr r.cachepath })

/-- The records that the destructor writes. -/
def SipiCache.fileRecords (c : SipiCache) (keys : List Str) : List (Str × CacheRecord) :=
  keys.filterMap fun k => (c.cachetable.lookup k).map (fileCacheRecord k)

/-- `~SipiCache`: the index file it leaves. -/
def SipiCache.destroy (c : SipiCache) (keys : List Str) : Index := .records (c.fileRecords keys)

/-- A cache is constructed on what another leaves. -/
def SipiCache.restart (c : SipiCache) (cfg : Config) (keys alist : List Str) : SipiCache :=
  construct cfg (c.destroy keys) c.disk alist

/-- A text of at most 255 bytes without a NUL. -/
def Storable (w : Str) : Prop := w.length ≤ 255 ∧ '\x00' ∉ w

instance (w : Str) : Decidable (Storable w) := inferInstanceAs (Decidable (_ ∧ _))

theorem storable_cstr (w : Str) : Storable (cstr w) := by
  refine ⟨List.length_take_le 255 _, fun hm => ?_⟩
  have ht := List.mem_takeWhile_imp (List.mem_of_mem_take hm)
  simp at ht

theorem cstr_of_storable {w : Str} (h : Storable w) : cstr w = w := by
  have ha : w.takeWhile (fun ch => ch ≠ '\x00') = w := by
    refine List.takeWhile_eq_self_iff.mpr fun ch hch => ?_
    have hne : ch ≠ '\x00' := fun he => h.2 (he ▸ hch)
    simpa using hne
  rw [cstr, ha, List.take_of_length_le h.1]

/-- The records keep the texts of an entry. -/
def StorableEntry (canonical : Str) (r : CacheRecord) : Prop :=
  Storable canonical ∧ Storable r.origpath ∧ Storable r.cachepath

variable {k : Str} {r : CacheRecord}

theorem fileCacheRecord_of_storable (h : StorableEntry k r) : fileCacheRecord k r = (k, r) := by
  rw [fileCacheRecord, cstr_of_storable h.1, cstr_of_storable h.2.1, cstr_of_storable h.2.2]

theorem storableEntry_of_fileCacheRecord {k' : Str} {r' : CacheRecord} (h : fileCacheRecord k r = (k', r')) :
    StorableEntry k' r' := by
  obtain ⟨rfl, rfl⟩ := Prod.mk.inj h
  exact ⟨storable_cstr _, storable_cstr _, storable_cstr _⟩

section Loop

variable {c : SipiCache} {rs : List (Str × CacheRecord)} {k : Str} {r : CacheRecord}

theorem disk_loadRecord (c : SipiCache) (v : Str × CacheRecord) : (loadRecord c v).disk = c.disk := by
  unfold loadRecord
  split <;> rfl

theorem loadRecord_of_mem {v : Str × CacheRecord} (h : v.2.cachepath ∈ c.disk) :
    loadRecord c v = { c.pushFile v.2 with cachetable := c.cachetable.insert v.1 v.2 } :=
  if_pos h

theorem lookup_foldl_of_not_mem (h : k ∉ rs.map Prod.fst) :
    (rs.foldl loadRecord c).cachetable.lookup k = c.cachetable.lookup k := by
  induction rs generalizing c with
  | nil => rfl
  | cons v rs ih =>
    obtain ⟨hv, hr⟩ := not_or.mp fun hor => h (List.mem_cons.mpr hor)
    rw [List.foldl_cons, ih hr]
    unfold loadRecord
    split
    · exact AList.lookup_insert_ne hv
    · rfl

theorem lookup_foldl_of_mem (hn : (rs.map Prod.fst).Nodup) (hm : (k, r) ∈ rs) (hf : r.cachepath ∈ c.disk) :
    (rs.foldl loadRecord c).cachetable.lookup k = some r := by
  induction rs generalizing c with
  | nil => exact absurd hm List.not_mem_nil
  | cons v rs ih =>
    obtain ⟨hv, hn⟩ := List.nodup_cons.mp hn
    rw [List.foldl_cons]
    rcases List.mem_cons.mp hm with rfl | hr
    · rw [lookup_foldl_of_not_mem hv, loadRecord_of_mem hf]
      exact AList.lookup_insert _
    · exact ih hn hr (by rwa [disk_loadRecord])

theorem wrap64_add (a b : ℤ) : wrap64 (wrap64 a + b) = wrap64 (a + b) := by
  unfold wrap64
  omega

theorem wrap32_add (a b : ℤ) : wrap32 (wrap32 a + b) = wrap32 (a + b) := by
  unfold wrap32
  omega

theorem counters_foldl_loadRecord {used n : ℤ} (hf : ∀ v ∈ rs, v.2.cachepath ∈ c.disk)
    (hu : c.cacheUsedBytes = wrap64 used) (hn : c.nfiles = wrap32 n) :
    (rs.foldl loadRecord c).cacheUsedBytes = wrap64 (used + (rs.map fun v => v.2.fsize).sum) ∧
      (rs.foldl loadRecord c).nfiles = wrap32 (n + rs.length) := by
  induction rs generalizing c used n with
  | nil => simpa using ⟨hu, hn⟩
  | cons v rs ih =>
    have hl := loadRecord_of_mem (hf v (List.mem_cons_self ..))
    have hr : ∀ w ∈ rs, w.2.cachepath ∈ (loadRecord c v).disk := by
      intro w hw
      rw [disk_loadRecord]
      exact hf w (List.mem_cons_of_mem v hw)
    have hu' : (loadRecord c v).cacheUsedBytes = wrap64 (used + v.2.fsize) := by
      rw [hl, ← wrap64_add, ← hu]
      rfl
    have hn' : (loadRecord c v).nfiles = wrap32 (n + 1) := by
      rw [hl, ← wrap32_add, ← hn]
      rfl
    obtain ⟨hb, hc⟩ := ih hr hu' hn'
    rw [List.foldl_cons, List.map_cons, List.sum_cons, List.length_cons]
    constructor
    · rw [hb, add_assoc]
    · rw [hc, add_assoc, add_comm (1 : ℤ)]
      rfl

end Loop

/-! ### The restart -/

/-- A restart keeps entries, files and counters. -/
structure Preserved (c c' : SipiCache) : Prop where
  lookup : ∀ k, c'.cachetable.lookup k = c.cachetable.lookup k
  onDisk : ∀ k r, c.cachetable.lookup k = some r → r.cachepath ∈ c'.disk
  used : c'.cacheUsedBytes = c.cacheUsedBytes
  count : c'.nfiles = c.nfiles

/-- The totals of the table. -/
def tableBytes (c : SipiCache) : ℕ := wrap64 (total CacheRecord.fsize c.cachetable)

/-- The number of entries, as the counter holds it. -/
def tableFiles (c : SipiCache) : ℕ := wrap32 c.cachetable.entries.length

section Restart

variable {cfg : Config} {c : SipiCache} {keys alist : List Str}

section
variable (ho : keys.Perm c.cachetable.keys)
include ho

theorem lookup_of_mem_keys (hk : k ∈ keys) : ∃ r, c.cachetable.lookup k = some r := by
  have hin : k ∈ c.cachetable := AList.mem_keys.mpr (ho.mem_iff.mp hk)
  exact Option.isSome_iff_exists.mp (AList.lookup_isSome.mpr hin)

theorem fileRecords_perm :
    (c.fileRecords keys).Perm (c.cachetable.entries.map fun e => fileCacheRecord e.1 e.2) := by
  have hk : c.fileRecords c.cachetable.keys = c.cachetable.entries.map fun e => fileCacheRecord e.1 e.2 := by
    rw [SipiCache.fileRecords, AList.keys, List.keys, List.filterMap_map, ← List.filterMap_eq_map]
    refine List.filterMap_congr fun e he => ?_
    have hl : c.cachetable.lookup e.1 = some e.2 := List.mem_dlookup c.cachetable.nodupKeys he
    rw [Function.comp_apply, hl]
    rfl
  rw [← hk]
  exact ho.filterMap _

theorem length_fileRecords : (c.fileRecords keys).length = c.cachetable.entries.length := by
  rw [(fileRecords_perm ho).length_eq, List.length_map]

theorem sum_fileRecords :
    ((c.fileRecords keys).map fun v => v.2.fsize).sum = total CacheRecord.fsize c.cachetable := by
  rw [((fileRecords_perm ho).map _).sum_eq, List.map_map]
  rfl

end

theorem mem_fileRecords {v : Str × CacheRecord} (h : v ∈ c.fileRecords keys) :
    ∃ k r, c.cachetable.lookup k = some r ∧ fileCacheRecord k r = v := by
  obtain ⟨k, _, hv⟩ := List.mem_filterMap.mp h
  obtain ⟨r, hr, hv⟩ := Option.map_eq_some_iff.mp hv
  exact ⟨k, r, hr, hv⟩

theorem nrecords_eq_length_iff (rs : List (Str × CacheRecord)) : rs.length ≤ nrecords rs ↔ rs.length < 2 ^ 31 := by
  unfold nrecords
  rw [Int.bmod_def]
  split <;> omega

theorem cachetable_removeOrphans (c : SipiCache) : (removeOrphans c).cachetable = c.cachetable := rfl

theorem mem_of_lookup_restart (h : (c.restart cfg keys alist).cachetable.lookup k = some r) :
    (k, r) ∈ (c.fileRecords keys).take (nrecords (c.fileRecords keys)) := by
  have hl : (load (c.destroy keys) c.disk).cachetable.lookup k = some r := lookup_of_purge h
  rw [SipiCache.destroy, load_records, cachetable_removeOrphans] at hl
  rcases (foldl_loadRecord _ (empty c.disk)).2.2 k r hl with he | hk
  · cases he
  · exact (List.mem_filter.mp hk).1

theorem storable_of_preserved (h : Preserved c (c.restart cfg keys alist))
    (hr : c.cachetable.lookup k = some r) : StorableEntry k r := by
  have hm := mem_of_lookup_restart ((h.lookup k).trans hr)
  obtain ⟨k', r', _, hf⟩ := mem_fileRecords (List.mem_of_mem_take hm)
  exact storableEntry_of_fileCacheRecord hf

theorem length_lt_of_preserved (ho : keys.Perm c.cachetable.keys)
    (h : Preserved c (c.restart cfg keys alist)) : c.cachetable.entries.length < 2 ^ 31 := by
  rw [← length_fileRecords ho, ← nrecords_eq_length_iff]
  have hs : c.cachetable.keys ⊆
      ((c.fileRecords keys).take (nrecords (c.fileRecords keys))).map Prod.fst := by
    intro k hk
    obtain ⟨r, hr⟩ := lookup_of_mem_keys (List.Perm.refl _) hk
    exact List.mem_map.mpr ⟨(k, r), mem_of_lookup_restart ((h.lookup k).trans hr), rfl⟩
  -- the keys are distinct, so there are no more of them than records that were read
  have hle := (List.subperm_of_subset c.cachetable.keys_nodup hs).length_le
  have hky : c.cachetable.keys.length = c.cachetable.entries.length := by simp [AList.keys, List.keys]
  rw [List.length_map, List.length_take, hky, ← length_fileRecords ho] at hle
  omega

theorem mem_fileRecords_iff (ho : keys.Perm c.cachetable.keys)
    (hs : ∀ k r, c.cachetable.lookup k = some r → StorableEntry k r) (v : Str × CacheRecord) :
    v ∈ c.fileRecords keys ↔ c.cachetable.lookup v.1 = some v.2 := by
  constructor
  · intro hv
    obtain ⟨k, r, hr, rfl⟩ := mem_fileRecords hv
    rw [fileCacheRecord_of_storable (hs k r hr)]
    exact hr
  · intro hr
    have hk : v.1 ∈ keys := ho.mem_iff.mpr (AList.mem_keys.mp (AList.lookup_isSome.mp (by rw [hr]; rfl)))
    refine List.mem_filterMap.mpr ⟨v.1, hk, ?_⟩
    rw [hr, Option.map_some, fileCacheRecord_of_storable (hs v.1 v.2 hr)]

theorem nodup_fileRecords (ho : keys.Perm c.cachetable.keys)
    (hs : ∀ k r, c.cachetable.lookup k = some r → StorableEntry k r) :
    ((c.fileRecords keys).map Prod.fst).Nodup := by
  have hk : (c.cachetable.entries.map fun e => fileCacheRecord e.1 e.2).map Prod.fst = c.cachetable.keys := by
    rw [List.map_map]
    refine List.map_congr_left fun e he => ?_
    have hl : c.cachetable.lookup e.1 = some e.2 := List.mem_dlookup c.cachetable.nodupKeys he
    rw [Function.comp_apply, fileCacheRecord_of_storable (hs e.1 e.2 hl)]
  rw [((fileRecords_perm ho).map Prod.fst).nodup_iff, hk]
  exact c.cachetable.keys_nodup

theorem purge_of_not_over {c : SipiCache} (h : cfg.over c.cacheUsedBytes c.nfiles = false) :
    (c.purge cfg alist).1 = c := by
  unfold SipiCache.purge
  rw [h]
  split <;> rfl

theorem load_destroy (ho : keys.Perm c.cachetable.keys)
    (hs : ∀ k r, c.cachetable.lookup k = some r → StorableEntry k r) (hln : c.cachetable.entries.length < 2 ^ 31)
    (hf : ∀ k r, c.cachetable.lookup k = some r → r.cachepath ∈ c.disk) :
    (∀ k, (load (c.destroy keys) c.disk).cachetable.lookup k = c.cachetable.lookup k) ∧
      (∀ k r, c.cachetable.lookup k = some r → r.cachepath ∈ (load (c.destroy keys) c.disk).disk) ∧
      (load (c.destroy keys) c.disk).cacheUsedBytes = tableBytes c ∧
      (load (c.destroy keys) c.disk).nfiles = tableFiles c := by
  have ha : (c.fileRecords keys).take (nrecords (c.fileRecords keys)) = c.fileRecords keys :=
    List.take_of_length_le ((nrecords_eq_length_iff _).mpr (by rwa [length_fileRecords ho]))
  have hld : load (c.destroy keys) c.disk =
      removeOrphans ((c.fileRecords keys).foldl loadRecord (empty c.disk)) := by
    rw [SipiCache.destroy, load_records, ha]
  have hm : ∀ v, v ∈ c.fileRecords keys ↔ c.cachetable.lookup v.1 = some v.2 := mem_fileRecords_iff ho hs
  have hn := nodup_fileRecords ho hs
  have hl : ∀ k, ((c.fileRecords keys).foldl loadRecord (empty c.disk)).cachetable.lookup k =
      c.cachetable.lookup k := by
    intro k
    cases hr : c.cachetable.lookup k with
    | some r => exact lookup_foldl_of_mem hn ((hm (k, r)).mpr hr) (hf k r hr)
    | none =>
      refine lookup_foldl_of_not_mem fun hk => ?_
      obtain ⟨v, hv, rfl⟩ := List.mem_map.mp hk
      rw [(hm v).mp hv] at hr
      cases hr
  have hz : (empty c.disk).cacheUsedBytes = wrap64 0 ∧ (empty c.disk).nfiles = wrap32 0 := ⟨rfl, rfl⟩
  obtain ⟨hu, hc⟩ := counters_foldl_loadRecord (c := empty c.disk)
    (fun v hv => hf v.1 v.2 ((hm v).mp hv)) hz.1 hz.2
  rw [hld]
  refine ⟨hl, fun k r hr => ?_, ?_, ?_⟩
  · -- an orphan is a file that no entry names
    refine Finset.mem_filter.mpr ⟨?_, Or.inr ?_⟩
    · rw [(foldl_loadRecord _ _).1]
      exact hf k r hr
    · exact mem_names ((hl k).trans hr)
  · exact hu.trans (by rw [zero_add, sum_fileRecords ho, tableBytes])
  · exact hc.trans (by rw [zero_add, length_fileRecords ho, tableFiles])

/-- **A restart preserves the cache if and only if** the records keep the texts of all entries, an `int` can count
the records, and the counters were the totals of the table. -/
theorem preserved_restart_iff (cfg : Config) (c : SipiCache) (keys alist : List Str)
    (horder : keys.Perm c.cachetable.keys) (hfiles : ∀ k r, c.cachetable.lookup k = some r → r.cachepath ∈ c.disk)
    (hlimits : cfg.over (tableBytes c) (tableFiles c) = false) :
    Preserved c (c.restart cfg keys alist) ↔
      (∀ k r, c.cachetable.lookup k = some r → StorableEntry k r) ∧ c.cachetable.entries.length < 2 ^ 31 ∧
        c.cacheUsedBytes = tableBytes c ∧ c.nfiles = tableFiles c := by
  -- where the records keep everything, nothing is evicted
  have hsm : (∀ k r, c.cachetable.lookup k = some r → StorableEntry k r) → c.cachetable.entries.length < 2 ^ 31 →
      c.restart cfg keys alist = load (c.destroy keys) c.disk := by
    intro hs hl
    obtain ⟨_, _, hu, hc⟩ := load_destroy horder hs hl hfiles
    exact purge_of_not_over (by rw [hu, hc]; exact hlimits)
  constructor
  · intro h
    have hs := fun k r => storable_of_preserved h (k := k) (r := r)
    have hl := length_lt_of_preserved horder h
    obtain ⟨_, _, hu, hc⟩ := load_destroy horder hs hl hfiles
    rw [← hsm hs hl] at hu hc
    exact ⟨hs, hl, h.used.symm.trans hu, h.count.symm.trans hc⟩
  · rintro ⟨hs, hl, hb, hn⟩
    obtain ⟨hlk, hd, hu, hc⟩ := load_destroy horder hs hl hfiles
    rw [← hsm hs hl] at hlk hd hu hc
    exact ⟨hlk, hd, hu.trans hb.symm, hc.trans hn.symm⟩

end Restart

def oneEntry : SipiCache := [(txt "x", sampleFile "a" 10 1)].foldl loadRecord (empty {txt "a"})

theorem oneEntry_survives :
    (oneEntry.restart hundredBytes [txt "x"] [txt "x"]).cachetable.lookup (txt "x") = some (sampleFile "a" 10 1) ∧
      Preserved oneEntry (oneEntry.restart hundredBytes [txt "x"] [txt "x"]) := by
  have he : ∀ k r, oneEntry.cachetable.lookup k = some r → (k, r) = (txt "x", sampleFile "a" 10 1) := by
    intro k r hr
    rcases (foldl_loadRecord [(txt "x", sampleFile "a" 10 1)] (empty {txt "a"})).2.2 k r hr with hem | hk
    · cases hem
    · exact List.mem_singleton.mp (List.mem_filter.mp hk).1
  have hs : StorableEntry (txt "x") (sampleFile "a" 10 1) := ⟨by decide, by decide, by decide⟩
  refine ⟨by decide +kernel, (preserved_restart_iff hundredBytes oneEntry [txt "x"] [txt "x"] (by decide)
    (fun k r hr => ?_) (by decide)).mpr ⟨fun k r hr => ?_, by decide, by decide, by decide⟩⟩
  · obtain ⟨rfl, rfl⟩ := Prod.mk.inj (he k r hr)
    decide
  · obtain ⟨rfl, rfl⟩ := Prod.mk.inj (he k r hr)
    exact hs

/-- A canonical URL that fills a record. -/
def longKey : Str := List.replicate 255 'a'

theorem long_keys_collapse :
    ∃ ls c, Run (Step hundredBytes) (construct hundredBytes .missing ∅ []) ls c ∧
      [longKey ++ ['x'], longKey ++ ['y']].Perm c.cachetable.keys ∧
      (∀ name ∈ c.names, name ∈ c.disk) ∧ hundredBytes.over (tableBytes c) (tableFiles c) = false ∧
      (∃ r, (c.restart hundredBytes [longKey ++ ['x'], longKey ++ ['y']] [longKey]).cachetable.lookup longKey =
        some r) ∧
      ¬ Preserved c (c.restart hundredBytes [longKey ++ ['x'], longKey ++ ['y']] [longKey]) := by
  have hr := run_script Step.exec
    (show Allowed (fun c e => e.Legal c) (next hundredBytes) (construct hundredBytes .missing ∅ [])
      [.getNewCacheFileName (txt "a"), .add (longKey ++ ['x']) (sampleFile "a" 10 1) [],
        .getNewCacheFileName (txt "b"), .add (longKey ++ ['y']) (sampleFile "b" 20 2) [longKey ++ ['x']]] by
      decide +kernel)
  refine ⟨_, _, hr, by decide +kernel, by decide +kernel, by decide +kernel,
    ⟨sampleFile "b" 20 2, by decide +kernel⟩, fun h => ?_⟩
  have hk := h.lookup longKey
  revert hk
  decide +kernel

end Sipi.Cache
