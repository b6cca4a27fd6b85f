import Sipi.Cache.Purge
import Mathlib.Algebra.Order.BigOperators.Group.List

/-!
# The counters of the cache

The counters are meant to be the totals of the table.
-/

namespace Sipi.Cache

open Sipi.Iiif Sipi.Theory

/-- The counters are the totals of the table. -/
def Accounting (c : SipiCache) : Prop :=
  (c.cacheUsedBytes : ℤ) = total CacheRecord.fsize c.cachetable ∧ c.nfiles = c.cachetable.entries.length

instance (c : SipiCache) : Decidable (Accounting c) := inferInstanceAs (Decidable (_ ∧ _))

/-! ### Books -/

/-- The counters of `c` are the totals of `t`. -/
structure Books (c : SipiCache) (t : Table Str CacheRecord) : Prop where
  used : (c.cacheUsedBytes : ℤ) = total CacheRecord.fsize t
  count : c.nfiles = t.entries.length
  nonneg : ∀ k r, t.lookup k = some r → 0 ≤ r.fsize
  bytes : total CacheRecord.fsize t < 2 ^ 64
  files : t.entries.length < 2 ^ 32

variable {c : SipiCache}

theorem Books.accounting (h : Books c c.cachetable) : Accounting c := ⟨h.used, h.count⟩

theorem wrap64_of_lt {z : ℤ} (h₀ : 0 ≤ z) (h₁ : z < 2 ^ 64) : (wrap64 z : ℤ) = z := by
  rw [wrap64, Int.emod_eq_of_lt h₀ h₁, Int.toNat_of_nonneg h₀]

theorem wrap32_of_lt {z : ℤ} (h₀ : 0 ≤ z) (h₁ : z < 2 ^ 32) : (wrap32 z : ℤ) = z := by
  rw [wrap32, Int.emod_eq_of_lt h₀ h₁, Int.toNat_of_nonneg h₀]

variable {c' : SipiCache}

section Books

variable {c : SipiCache} {t : Table Str CacheRecord} {k : Str} {r : CacheRecord}

theorem total_nonneg (h : ∀ k r, t.lookup k = some r → 0 ≤ r.fsize) : 0 ≤ total CacheRecord.fsize t := by
  refine List.sum_nonneg fun x hx => ?_
  obtain ⟨e, he, rfl⟩ := List.mem_map.mp hx
  exact h e.1 e.2 (List.mem_dlookup t.nodupKeys he)

theorem lookup_of_lookup_erase {k' : Str} (h : (t.erase k).lookup k' = some r) : t.lookup k' = some r := by
  by_cases hk : k' = k
  · subst hk
    rw [AList.lookup_erase] at h
    cases h
  · rwa [AList.lookup_erase_ne hk] at h

theorem length_erase (h : t.lookup k = some r) : (t.erase k).entries.length + 1 = t.entries.length := by
  rw [length_eq_total, length_eq_total, total_eq_add_erase h, Nat.add_comm]

theorem Books.drop (h : Books c t) (hk : t.lookup k = some r) : Books (c.dropFile r) (t.erase k) := by
  have hn : ∀ k' r', (t.erase k).lookup k' = some r' → 0 ≤ r'.fsize :=
    fun k' r' h' => h.nonneg k' r' (lookup_of_lookup_erase h')
  have hrs := total_nonneg hn
  have hr := h.nonneg k r hk
  have ht : total CacheRecord.fsize t = r.fsize + total CacheRecord.fsize (t.erase k) := total_eq_add_erase hk
  have hl := length_erase hk
  have hu := h.used
  have hb := h.bytes
  have hc := h.count
  have hf := h.files
  constructor
  · show (wrap64 (c.cacheUsedBytes - r.fsize) : ℤ) = _
    rw [wrap64_of_lt (by omega) (by omega)]
    omega
  · show wrap32 (c.nfiles - 1) = _
    have := @wrap32_of_lt ((c.nfiles : ℤ) - 1) (by omega) (by omega)
    omega
  · exact hn
  · omega
  · omega

theorem total_insert_erase : total CacheRecord.fsize (t.insert k r) = r.fsize + total CacheRecord.fsize (t.erase k) :=
  total_insert

theorem length_insert : (t.insert k r).entries.length = (t.erase k).entries.length + 1 := by
  rw [AList.entries_insert, List.length_cons]
  rfl

theorem Books.push (h : Books c (t.erase k)) (hr : 0 ≤ r.fsize)
    (hb : total CacheRecord.fsize (t.erase k) + r.fsize < 2 ^ 64) (hf : (t.erase k).entries.length + 1 < 2 ^ 32) :
    Books (c.pushFile r) (t.insert k r) := by
  have hu := h.used
  have hc := h.count
  have hrs := total_nonneg h.nonneg
  constructor
  · show (wrap64 (c.cacheUsedBytes + r.fsize) : ℤ) = _
    rw [wrap64_of_lt (by omega) (by omega), total_insert_erase]
    omega
  · show wrap32 (c.nfiles + 1) = _
    have := @wrap32_of_lt ((c.nfiles : ℤ) + 1) (by omega) (by omega)
    rw [length_insert]
    omega
  · intro k' r' h'
    obtain ⟨_, rfl⟩ | ⟨hk, h'⟩ := lookup_of_lookup_insert h'
    · exact hr
    · exact h.nonneg k' r' (by rwa [AList.lookup_erase_ne hk])
  · rw [total_insert_erase]
    omega
  · rw [length_insert]
    omega

theorem Books.congr (h : Books c t) (hu : c'.cacheUsedBytes = c.cacheUsedBytes)
    (hn : c'.nfiles = c.nfiles) : Books c' t :=
  ⟨by rw [hu]; exact h.used, by rw [hn]; exact h.count, h.nonneg, h.bytes, h.files⟩

theorem Books.evict (h : Books c c.cachetable) (hk : c.cachetable.lookup k = some r) :
    Books (c.evict k r) (c.evict k r).cachetable :=
  (h.drop hk).congr rfl rfl

theorem Books.touch (h : Books c t) {r' : CacheRecord} (hk : t.lookup k = some r) (hr : r'.fsize = r.fsize) :
    Books c (t.insert k r') := by
  have ht : total CacheRecord.fsize (t.insert k r') = total CacheRecord.fsize t := by
    rw [total_insert, total_eq_add_erase hk, hr]
  have hl : (t.insert k r').entries.length = t.entries.length := by
    rw [length_insert, length_erase hk]
  refine ⟨by rw [ht]; exact h.used, by rw [hl]; exact h.count, fun k' r'' h' => ?_, by rw [ht]; exact h.bytes,
    by rw [hl]; exact h.files⟩
  obtain ⟨rfl, rfl⟩ | ⟨_, h'⟩ := lookup_of_lookup_insert h'
  · rw [hr]
    exact h.nonneg k' r hk
  · exact h.nonneg k' r'' h'

end Books

/-- What the purge in an `add` of `k` leaves. -/
structure Spared (k : Str) (c c' : SipiCache) : Prop where
  books : Books c' (c'.cachetable.erase k)
  bytes : total CacheRecord.fsize (c'.cachetable.erase k) ≤ total CacheRecord.fsize (c.cachetable.erase k)
  files : (c'.cachetable.erase k).entries.length ≤ (c.cachetable.erase k).entries.length
  lookup : c'.cachetable.lookup k = c.cachetable.lookup k

section Add

variable {cfg : Config} {c : SipiCache} {alist : List Str} {k : Str}

theorem Spared.evict (h : Spared k c c') {k' : Str} {r : CacheRecord} (hne : k' ≠ k)
    (hr : c'.cachetable.lookup k' = some r) : Spared k c (c'.evict k' r) := by
  have hl : (c'.cachetable.erase k).lookup k' = some r := by rwa [AList.lookup_erase_ne hne]
  have he : (c'.evict k' r).cachetable.erase k = (c'.cachetable.erase k).erase k' := AList.erase_erase k' k _
  have ht : total CacheRecord.fsize (c'.cachetable.erase k) = _ := total_eq_add_erase hl
  have hln := length_erase hl
  have hn := h.books.nonneg k' r hl
  have hb := h.bytes
  have hf := h.files
  refine ⟨?_, ?_, ?_, ?_⟩
  · rw [he]
    exact (h.books.drop hl).congr rfl rfl
  · rw [he]
    omega
  · rw [he]
    omega
  · rw [lookup_evict_of_ne c' k' r hne.symm]
    exact h.lookup

/-- The purge does not reach `k`, and does not fail. -/
def Spares (cfg : Config) (c : SipiCache) (alist : List Str) (k : Str) : Prop :=
  cfg.over c.cacheUsedBytes c.nfiles = true →
    k ∉ (victims cfg c alist).map Prod.fst ∧
      cfg.low (c.evictAll (victims cfg c alist)).cacheUsedBytes (c.evictAll (victims cfg c alist)).nfiles = true

theorem spared_purge (hn : alist.Nodup) (hb : Books c (c.cachetable.erase k))
    (hk : cfg.over c.cacheUsedBytes c.nfiles = true → k ∉ (victims cfg c alist).map Prod.fst) :
    Spared k c (c.purge cfg alist).1 := by
  have hs : Spared k c c := ⟨hb, le_rfl, le_rfl, rfl⟩
  rw [purge_eq cfg hn c]
  split
  · next ho =>
    refine evictAll_induction (P := Spared k c) (fun c' v hv hc' hl => hc'.evict ?_ hl)
      (victims_keys_nodup cfg c hn) (fun v hv => (lookup_of_mem_victims hv).1) hs
    rintro rfl
    exact hk ho (List.mem_map_of_mem hv)
  · exact hs

theorem books_unlinkExisting (h : Books c c.cachetable) (k : Str) :
    Books (c.unlinkExisting k) (c.cachetable.erase k) := by
  unfold SipiCache.unlinkExisting
  split
  · next r hr => exact h.drop hr
  · next hr =>
    rw [erase_eq_of_lookup_none hr]
    exact h

@[simp] theorem cachetable_unlinkExisting (c : SipiCache) (k : Str) :
    (c.unlinkExisting k).cachetable = c.cachetable := by
  unfold SipiCache.unlinkExisting
  split <;> rfl

/-- The new file fits in the counters. -/
def Fits (c : SipiCache) (k : Str) (fr : CacheRecord) : Prop :=
  total CacheRecord.fsize (c.cachetable.erase k) + fr.fsize < 2 ^ 64 ∧
    (c.cachetable.erase k).entries.length + 1 < 2 ^ 32

theorem books_add {fr : CacheRecord} (h : Books c c.cachetable) (hn : alist.Nodup) (hsz : 0 ≤ fr.fsize)
    (hft : Fits c k fr) (hs : k ∈ c.cachetable → Spares cfg (c.unlinkExisting k) alist k) :
    Books (c.add cfg alist k fr).1 (c.add cfg alist k fr).1.cachetable := by
  have ht := cachetable_unlinkExisting c k
  have hbk : Books (c.unlinkExisting k) ((c.unlinkExisting k).cachetable.erase k) := by
    rw [ht]
    exact books_unlinkExisting h k
  have hvc : cfg.over (c.unlinkExisting k).cacheUsedBytes (c.unlinkExisting k).nfiles = true →
      k ∉ (victims cfg (c.unlinkExisting k) alist).map Prod.fst := by
    intro ho hm
    obtain ⟨v, hv, rfl⟩ := List.mem_map.mp hm
    have hin : v.1 ∈ c.cachetable := by
      rw [← AList.lookup_isSome, ← ht, (lookup_of_mem_victims hv).1]
      rfl
    exact (hs hin ho).1 hm
  have hp := spared_purge hn hbk hvc
  have hb := hp.bytes
  have hf := hp.files
  rw [ht] at hb hf
  simp only [SipiCache.add]
  split
  · -- refused: there was no entry to replace
    next hfl =>
    have hnn : c.cachetable.lookup k = none := by
      by_contra hne
      have hin : k ∈ c.cachetable := AList.lookup_isSome.mp (Option.isSome_iff_ne_none.mpr hne)
      rw [purge_eq cfg hn] at hfl
      split at hfl
      · next ho =>
        rw [if_pos (hs hin ho).2] at hfl
        have := Int.natCast_nonneg (victims cfg (c.unlinkExisting k) alist).length
        omega
      · simp at hfl
    have he := hp.books
    rw [erase_eq_of_lookup_none (by rw [hp.lookup, ht, hnn])] at he
    exact he.congr rfl rfl
  · have hps := hp.books.push hsz (by have := hft.1; omega) (by have := hft.2; omega)
    exact hps.congr rfl rfl

end Add

/-- The records of the index whose files are there. -/
def kept (disk : Finset Str) (rs : List (Str × CacheRecord)) : List (Str × CacheRecord) :=
  rs.filter fun r => r.2.cachepath ∈ disk

/-- The records of the index can be counted. -/
def IndexCounts (disk : Finset Str) : Index → Prop
  | .missing | .corrupted => True
  | .records rs =>
    let ks := kept disk (rs.take (nrecords rs))
    (ks.map Prod.fst).Nodup ∧ (∀ r ∈ ks, 0 ≤ r.2.fsize) ∧ (ks.map fun r => r.2.fsize).sum < 2 ^ 64 ∧
      ks.length < 2 ^ 32

theorem books_empty (disk : Finset Str) : Books (empty disk) (empty disk).cachetable := by
  refine ⟨rfl, rfl, fun k r h => ?_, by simp [total, empty], by simp [empty]⟩
  cases h

theorem books_foldl_loadRecord (rs : List (Str × CacheRecord)) (h : Books c c.cachetable)
    (hnd : ((kept c.disk rs).map Prod.fst).Nodup)
    (hf : ∀ r ∈ kept c.disk rs, c.cachetable.lookup r.1 = none) (hn : ∀ r ∈ kept c.disk rs, 0 ≤ r.2.fsize)
    (hb : total CacheRecord.fsize c.cachetable + ((kept c.disk rs).map fun r => r.2.fsize).sum < 2 ^ 64)
    (hfl : c.cachetable.entries.length + (kept c.disk rs).length < 2 ^ 32) :
    Books (rs.foldl loadRecord c) (rs.foldl loadRecord c).cachetable := by
  induction rs generalizing c with
  | nil => exact h
  | cons r rs ih =>
    rw [List.foldl_cons]
    by_cases hr : r.2.cachepath ∈ c.disk
    · have hk : kept c.disk (r :: rs) = r :: kept c.disk rs := by simp [kept, hr]
      have hl : loadRecord c r = { c.pushFile r.2 with cachetable := c.cachetable.insert r.1 r.2 } := if_pos hr
      rw [hk] at hnd hf hn hb hfl
      obtain ⟨hr₁, hnd⟩ := List.nodup_cons.mp hnd
      have hnn := hf r (List.mem_cons_self ..)
      have her := erase_eq_of_lookup_none hnn
      have hsz := hn r (List.mem_cons_self ..)
      have hrs : 0 ≤ ((kept c.disk rs).map fun r => r.2.fsize).sum := by
        refine List.sum_nonneg fun x hx => ?_
        obtain ⟨s, hs, rfl⟩ := List.mem_map.mp hx
        exact hn s (List.mem_cons_of_mem r hs)
      simp only [List.map_cons, List.sum_cons, List.length_cons] at hb hfl
      have hp : Books (c.pushFile r.2) (c.cachetable.insert r.1 r.2) :=
        Books.push (by rw [her]; exact h) hsz (by rw [her]; omega) (by rw [her]; omega)
      rw [hl]
      refine ih (hp.congr rfl rfl) hnd (fun s hs => ?_) (fun s hs => hn s (List.mem_cons_of_mem r hs)) ?_ ?_
      · have hne : s.1 ≠ r.1 := fun he => hr₁ (he ▸ List.mem_map_of_mem hs)
        show (c.cachetable.insert r.1 r.2).lookup s.1 = none
        rw [AList.lookup_insert_ne hne]
        exact hf s (List.mem_cons_of_mem r hs)
      · show total CacheRecord.fsize (c.cachetable.insert r.1 r.2) + ((kept c.disk rs).map fun r => r.2.fsize).sum < _
        rw [total_insert_erase, her]
        omega
      · show (c.cachetable.insert r.1 r.2).entries.length + (kept c.disk rs).length < _
        rw [length_insert, her]
        omega
    · have hk : kept c.disk (r :: rs) = kept c.disk rs := by simp [kept, hr]
      have hl : loadRecord c r = c := if_neg hr
      rw [hk] at hnd hf hn hb hfl
      rw [hl]
      exact ih h hnd hf hn hb hfl

theorem Books.removeOrphans (h : Books c c.cachetable) : Books (removeOrphans c) (removeOrphans c).cachetable :=
  h.congr rfl rfl

theorem load_records (rs : List (Str × CacheRecord)) (disk : Finset Str) :
    load (.records rs) disk = removeOrphans ((rs.take (nrecords rs)).foldl loadRecord (empty disk)) := by
  rw [load]

theorem books_loadRecords {rs : List (Str × CacheRecord)} {disk : Finset Str}
    (hnd : ((kept disk rs).map Prod.fst).Nodup) (hn : ∀ r ∈ kept disk rs, 0 ≤ r.2.fsize)
    (hb : ((kept disk rs).map fun r => r.2.fsize).sum < 2 ^ 64) (hf : (kept disk rs).length < 2 ^ 32) :
    Books (rs.foldl loadRecord (empty disk)) (rs.foldl loadRecord (empty disk)).cachetable := by
  refine books_foldl_loadRecord rs (books_empty disk) hnd (fun _ _ => rfl) hn ?_ ?_
  · have hz : total CacheRecord.fsize (empty disk).cachetable = 0 := rfl
    rw [hz, zero_add]
    exact hb
  · have hz : (empty disk).cachetable.entries.length = 0 := rfl
    rw [hz, zero_add]
    exact hf

theorem books_load {index : Index} {disk : Finset Str} (h : IndexCounts disk index) :
    Books (load index disk) (load index disk).cachetable := by
  cases index with
  | missing | corrupted => exact books_empty _
  | records rs =>
    obtain ⟨hnd, hn, hb, hf⟩ := h
    rw [load_records]
    exact (books_loadRecords hnd hn hb hf).removeOrphans

theorem books_purge (cfg : Config) (alist : List Str) (h : Books c c.cachetable) :
    Books (c.purge cfg alist).1 (c.purge cfg alist).1.cachetable :=
  purge_induction (P := fun c => Books c c.cachetable) (fun _ _ _ hc hr _ => hc.evict hr) alist h

variable {cfg : Config}

theorem books_check {mtime now : ℤ} {canonical : Str} {blockFile : Bool} (h : Books c c.cachetable) :
    Books (c.check cfg mtime canonical blockFile now).1 (c.check cfg mtime canonical blockFile now).1.cachetable := by
  refine SipiCache.check_keeps (P := fun c => Books c c.cachetable) h mtime canonical blockFile now (fun r hr => ?_)
    fun r ht => ht.congr rfl rfl
  have ht : Books c (c.cachetable.insert canonical { r with accessTime := now }) := h.touch hr rfl
  exact ht.congr rfl rfl

theorem books_deblock {res : Str} (h : Books c c.cachetable) : Books (c.deblock res) (c.deblock res).cachetable := by
  rw [SipiCache.deblock_eq]
  exact h.congr rfl rfl

theorem books_remove {canonical : Str} (h : Books c c.cachetable) :
    Books (c.remove cfg canonical).1 (c.remove cfg canonical).1.cachetable :=
  SipiCache.remove_keeps (P := fun c => Books c c.cachetable) h canonical fun _ hr _ => h.evict hr

/-- The file fits, and a replaced entry is spared. -/
def AddCounts (cfg : Config) (c : SipiCache) : Event × Response → Prop
  | (.add canonical fr alist, _) =>
    Fits c canonical fr ∧ (canonical ∈ c.cachetable → Spares cfg (c.unlinkExisting canonical) alist canonical)
  | _ => True

instance (cfg : Config) (c : SipiCache) : (l : Event × Response) → Decidable (AddCounts cfg c l)
  | (.add _ _ _, _) => inferInstanceAs (Decidable ((_ ∧ _) ∧ (_ → _ → _ ∧ _)))
  | (.check .., _) | (.deblock _, _) | (.getNewCacheFileName _, _) | (.discard _, _) | (.remove _, _)
  | (.purge _, _) => inferInstanceAs (Decidable True)

theorem books_step {l : Event × Response} (h : Books c c.cachetable)
    (hs : Step cfg c l c') (ha : AddCounts cfg c l) : Books c' c'.cachetable := by
  obtain ⟨e, hl⟩ := hs
  cases e with
  | check mtime canonical blockFile now =>
    cases mtime with
    | none => exact h
    | some mtime => exact books_check h
  | deblock res => exact books_deblock h
  | getNewCacheFileName | discard => exact h.congr rfl rfl
  | add canonical fr alist =>
    obtain ⟨_, hsz, hsr⟩ := hl
    exact books_add h hsr.nodup hsz ha.1 ha.2
  | remove canonical => exact books_remove h
  | purge alist => exact books_purge cfg alist h

/-- **The counters are the totals of the table**, in every run from an index that can be
counted in which every `add` fits and spares the entry it replaces. -/
theorem accounting_of_run (cfg : Config) {index : Index} {disk : Finset Str} (alist : List Str)
    (hindex : IndexCounts disk index) {ls : List (Event × Response)} {c : SipiCache}
    (hrun : Run (When (AddCounts cfg) (Step cfg)) (construct cfg index disk alist) ls c) : Accounting c := by
  have hi : Books (construct cfg index disk alist) (construct cfg index disk alist).cachetable :=
    books_purge cfg alist (books_load hindex)
  have hb := hrun.invariant (fun c => Books c c.cachetable) hi fun _ _ _ h hs => books_step h hs.2 hs.1
  exact hb.accounting

/-- A file of the given name, size and time. -/
def sampleFile (name : String) (fsize accessTime : ℤ) : CacheRecord :=
  ⟨⟨0, 0, 0, 0, 0, 0⟩, [], txt name, accessTime, accessTime, fsize⟩

/-- A cache of a hundred bytes. -/
def hundredBytes : Config := ⟨txt "cache", 100, 0⟩

theorem accounting_of_replacement :
    ∃ ls c, Run (When (AddCounts hundredBytes) (Step hundredBytes)) (construct hundredBytes .missing ∅ []) ls c ∧
      c.nfiles = 1 ∧ Accounting c := by
  have hr : Run (When (AddCounts hundredBytes) (Step hundredBytes)) (construct hundredBytes .missing ∅ []) _ _ :=
    run_script (fun c e h => ⟨h.1, Step.exec c e h.2⟩)
      (show Allowed (fun c e => AddCounts hundredBytes c (next hundredBytes c e).1 ∧ e.Legal c) (next hundredBytes) _
        [.getNewCacheFileName (txt "a"), .add (txt "x") (sampleFile "a" 10 1) [],
          .getNewCacheFileName (txt "b"), .add (txt "x") (sampleFile "b" 20 2) [txt "x"]] by decide)
  exact ⟨_, _, hr, by decide, accounting_of_run hundredBytes [] (show IndexCounts ∅ .missing from trivial) hr⟩

theorem accounting_fails_on_replacement :
    ∃ ls c, Run (Step hundredBytes) (construct hundredBytes .missing ∅ []) ls c ∧ ¬ Accounting c := by
  have hr := run_script Step.exec
    (show Allowed (fun c e => e.Legal c) (next hundredBytes) (construct hundredBytes .missing ∅ [])
      [.getNewCacheFileName (txt "a"), .add (txt "x") (sampleFile "a" 10 1) [],
        .getNewCacheFileName (txt "b"), .add (txt "y") (sampleFile "b" 60 2) [txt "x"],
        .getNewCacheFileName (txt "c"), .add (txt "z") (sampleFile "c" 60 3) [txt "x", txt "y"],
        .getNewCacheFileName (txt "d"), .add (txt "x") (sampleFile "d" 5 4) [txt "x", txt "y", txt "z"]] by decide)
  exact ⟨_, _, hr, by decide⟩

end Sipi.Cache
