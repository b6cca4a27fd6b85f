import Sipi.Theory.Runs
import Sipi.Theory.Table
import Sipi.Iiif.Grammar

/-!
# The file cache

`src/SipiCache.cpp`: rendered images are kept as files in one directory.

## Honest scope

The low-water mark is exactly four fifths of the limit, a pin count is unbounded, and the texts of an index record
are terminated. Metrics and logging are left out.
-/

namespace Sipi.Cache

open Sipi.Iiif Sipi.Theory

/-- What a record keeps of the source image. -/
structure ImageInfo where
  imgW : ℕ
  imgH : ℕ
  tileW : ℕ
  tileH : ℕ
  clevels : ℤ
  numpages : ℤ
  deriving DecidableEq, Repr

/-- `CacheRecord`. -/
structure CacheRecord where
  info : ImageInfo
  origpath : Str
  cachepath : Str
  mtime : ℤ
  accessTime : ℤ
  fsize : ℤ
  deriving DecidableEq, Repr

/-- The limits, and the directory. -/
structure Config where
  cachedir : Str
  maxCacheSize : ℤ
  maxNfiles : ℕ

/-- The state of the cache and of its directory. -/
structure SipiCache where
  cachetable : Table Str CacheRecord
  blockedFiles : Table Str ℤ
  cacheUsedBytes : ℕ
  nfiles : ℕ
  disk : Finset Str
  pending : Finset Str

/-- A number as an `unsigned long long`. -/
def wrap64 (z : ℤ) : ℕ := (z % 2 ^ 64).toNat

/-- A number as an `unsigned`. -/
def wrap32 (z : ℤ) : ℕ := (z % 2 ^ 32).toNat

/-- The path of a cache file. -/
def Config.path (cfg : Config) (name : Str) : Str := cfg.cachedir ++ txt "/" ++ name

/-- A file is pinned. -/
def SipiCache.isBlocked (c : SipiCache) (path : Str) : Bool :=
  decide (0 < (c.blockedFiles.lookup path).getD 0)

/-- A limit is reached. -/
def Config.over (cfg : Config) (used n : ℕ) : Bool :=
  (decide (0 < cfg.maxCacheSize) && decide (cfg.maxCacheSize.toNat ≤ used)) ||
    (decide (0 < cfg.maxNfiles) && decide (cfg.maxNfiles ≤ n))

/-- Both counters are at their low-water marks. -/
def Config.low (cfg : Config) (used n : ℕ) : Bool :=
  (decide (cfg.maxCacheSize ≤ 0) || decide (used ≤ cfg.maxCacheSize.toNat * 4 / 5)) &&
    (decide (cfg.maxNfiles = 0) || decide (n ≤ cfg.maxNfiles * 4 / 5))

/-! ### Operations 
-/

namespace SipiCache

/-- A file leaves the directory and the counters. -/
def dropFile (c : SipiCache) (r : CacheRecord) : SipiCache :=
  { c with
    disk := c.disk.erase r.cachepath
    cacheUsedBytes := wrap64 (c.cacheUsedBytes - r.fsize)
    nfiles := wrap32 (c.nfiles - 1) }

/-- Count a file. -/
def pushFile (c : SipiCache) (r : CacheRecord) : SipiCache :=
  { c with cacheUsedBytes := wrap64 (c.cacheUsedBytes + r.fsize), nfiles := wrap32 (c.nfiles + 1) }

/-- Take an entry out of the cache. -/
def evict (c : SipiCache) (canonical : Str) (r : CacheRecord) : SipiCache :=
  { c.dropFile r with cachetable := c.cachetable.erase canonical }

/-- The loop of `purge`, and the number evicted. -/
def purgeLoop (cfg : Config) : List Str → SipiCache → ℕ → SipiCache × ℕ
  | [], c, n => (c, n)
  | canonical :: alist, c, n =>
    if cfg.low c.cacheUsedBytes c.nfiles then (c, n)
    else
      match c.cachetable.lookup canonical with
      | none => purgeLoop cfg alist c n
      | some r =>
        if c.isBlocked (cfg.path r.cachepath) then purgeLoop cfg alist c n
        else purgeLoop cfg alist (c.evict canonical r) (n + 1)

/-- `purge`, with the order that `std::sort` gives. -/
def purge (cfg : Config) (alist : List Str) (c : SipiCache) : SipiCache × ℤ :=
  if cfg.maxCacheSize < 0 ∧ cfg.maxNfiles = 0 then (c, 0)
  else if cfg.over c.cacheUsedBytes c.nfiles then
    let (c', n) := purgeLoop cfg alist c 0
    if cfg.low c'.cacheUsedBytes c'.nfiles then (c', n) else (c', -1)
  else (c, 0)

/-- `check`: nothing, or the path of the cache file. -/
def check (cfg : Config) (mtime : ℤ) (canonical : Str) (blockFile : Bool) (now : ℤ) (c : SipiCache) :
    SipiCache × Option Str :=
  match c.cachetable.lookup canonical with
  | none => (c, none)
  | some fr =>
    let c := { c with cachetable := c.cachetable.insert canonical { fr with accessTime := now } }
    if fr.mtime < mtime then (c, none)
    else
      let res := cfg.path fr.cachepath
      if blockFile then
        ({ c with blockedFiles := c.blockedFiles.insert res ((c.blockedFiles.lookup res).getD 0 + 1) }, some res)
      else (c, some res)

/-- `deblock`. -/
def deblock (res : Str) (c : SipiCache) : SipiCache :=
  match c.blockedFiles.lookup res with
  | none => c
  | some n =>
    if n - 1 < 1 then { c with blockedFiles := c.blockedFiles.erase res }
    else { c with blockedFiles := c.blockedFiles.insert res (n - 1) }

/-- The file of the replaced entry goes first. -/
def unlinkExisting (canonical : Str) (c : SipiCache) : SipiCache :=
  match c.cachetable.lookup canonical with
  | some existing => c.dropFile existing
  | none => c

/-- The new file is not wanted: it goes. -/
def refuse (fr : CacheRecord) (c : SipiCache) : SipiCache :=
  { c with disk := c.disk.erase fr.cachepath, pending := c.pending.erase fr.cachepath }

/-- The new file becomes an entry. -/
def admitFile (canonical : Str) (fr : CacheRecord) (c : SipiCache) : SipiCache :=
  { c.pushFile fr with cachetable := c.cachetable.insert canonical fr, pending := c.pending.erase fr.cachepath }

/-- `add`. The flag says whether the file is admitted. -/
def add (cfg : Config) (alist : List Str) (canonical : Str) (fr : CacheRecord) (c : SipiCache) : SipiCache × Bool :=
  let purged := (c.unlinkExisting canonical).purge cfg alist
  if purged.2 = -1 then (purged.1.refuse fr, false) else (purged.1.admitFile canonical fr, true)

/-- `remove`. -/
def remove (cfg : Config) (canonical : Str) (c : SipiCache) : SipiCache × Bool :=
  match c.cachetable.lookup canonical with
  | none => (c, false)
  | some r => if c.isBlocked (cfg.path r.cachepath) then (c, false) else (c.evict canonical r, true)

/-- The access to an entry is noted. -/
def touch (c : SipiCache) (canonical : Str) (r : CacheRecord) (now : ℤ) : SipiCache :=
  { c with cachetable := c.cachetable.insert canonical { r with accessTime := now } }

/-- A file is pinned once more. -/
def pin (c : SipiCache) (res : Str) : SipiCache :=
  { c with blockedFiles := c.blockedFiles.insert res ((c.blockedFiles.lookup res).getD 0 + 1) }

theorem check_cases (cfg : Config) (mtime : ℤ) (canonical : Str) (blockFile : Bool) (now : ℤ) (c : SipiCache) :
    (c.cachetable.lookup canonical = none ∧ c.check cfg mtime canonical blockFile now = (c, none)) ∨
    ∃ r, c.cachetable.lookup canonical = some r ∧
      ((r.mtime < mtime ∧ c.check cfg mtime canonical blockFile now = (c.touch canonical r now, none)) ∨
      (¬ r.mtime < mtime ∧ blockFile = true ∧ c.check cfg mtime canonical blockFile now =
        ((c.touch canonical r now).pin (cfg.path r.cachepath), some (cfg.path r.cachepath))) ∨
      (¬ r.mtime < mtime ∧ blockFile = false ∧ c.check cfg mtime canonical blockFile now =
        (c.touch canonical r now, some (cfg.path r.cachepath)))) := by
  unfold check
  cases hr : c.cachetable.lookup canonical with
  | none => exact Or.inl ⟨rfl, rfl⟩
  | some r =>
    refine Or.inr ⟨r, rfl, ?_⟩
    dsimp only
    by_cases hs : r.mtime < mtime
    · exact Or.inl ⟨hs, if_pos hs⟩
    · rw [if_neg hs]
      cases blockFile with
      | true => exact Or.inr (Or.inl ⟨hs, rfl, rfl⟩)
      | false => exact Or.inr (Or.inr ⟨hs, rfl, rfl⟩)

theorem check_keeps {P : SipiCache → Prop} {cfg : Config} {c : SipiCache} (h : P c) (mtime : ℤ) (canonical : Str)
    (blockFile : Bool) (now : ℤ) (ht : ∀ r, c.cachetable.lookup canonical = some r → P (c.touch canonical r now))
    (hp : ∀ r, P (c.touch canonical r now) → P ((c.touch canonical r now).pin (cfg.path r.cachepath))) :
    P (c.check cfg mtime canonical blockFile now).1 := by
  rcases c.check_cases cfg mtime canonical blockFile now with ⟨-, hc⟩ | ⟨r, hr, ⟨-, hc⟩ | ⟨-, -, hc⟩ | ⟨-, -, hc⟩⟩
  · rw [hc]
    exact h
  · rw [hc]
    exact ht r hr
  · rw [hc]
    exact hp r (ht r hr)
  · rw [hc]
    exact ht r hr

theorem deblock_eq (res : Str) (c : SipiCache) :
    c.deblock res = { c with blockedFiles := (c.deblock res).blockedFiles } := by
  unfold deblock
  split
  · rfl
  · split <;> rfl

theorem remove_cases (cfg : Config) (canonical : Str) (c : SipiCache) :
    (c.remove cfg canonical).1 = c ∨
      ∃ r, c.cachetable.lookup canonical = some r ∧ c.isBlocked (cfg.path r.cachepath) = false ∧
        (c.remove cfg canonical).1 = c.evict canonical r := by
  unfold remove
  split
  · exact Or.inl rfl
  · next r hr =>
    cases hb : c.isBlocked (cfg.path r.cachepath) with
    | true => exact Or.inl rfl
    | false => exact Or.inr ⟨r, hr, hb, rfl⟩

theorem remove_keeps {P : SipiCache → Prop} {cfg : Config} {c : SipiCache} (h : P c) (canonical : Str)
    (he : ∀ r, c.cachetable.lookup canonical = some r → c.isBlocked (cfg.path r.cachepath) = false →
      P (c.evict canonical r)) : P (c.remove cfg canonical).1 := by
  rcases c.remove_cases cfg canonical with hc | ⟨r, hr, hb, hc⟩
  · rw [hc]
    exact h
  · rw [hc]
    exact he r hr hb

end SipiCache

/-- The index file: absent, odd, or records. -/
inductive Index where
  | missing
  | corrupted
  | records (rs : List (Str × CacheRecord))

/-- The number of records, as an `int`. -/
def nrecords (rs : List (Str × CacheRecord)) : ℕ := (Int.bmod rs.length (2 ^ 32)).toNat

/-- A name that the scans of the directory pass over. -/
def isHidden (name : Str) : Bool := name.head? = some '.'

/-- A record is counted and listed if its file is there. -/
def loadRecord (c : SipiCache) (r : Str × CacheRecord) : SipiCache :=
  if r.2.cachepath ∈ c.disk then { c.pushFile r.2 with cachetable := c.cachetable.insert r.1 r.2 } else c

/-- The file names of the table. -/
def SipiCache.names (c : SipiCache) : List Str := c.cachetable.entries.map fun e => e.2.cachepath

/-- Remove the files that no entry names. -/
def removeOrphans (c : SipiCache) : SipiCache :=
  { c with disk := c.disk.filter fun name => isHidden name = true ∨ name ∈ c.names }

/-- The cache before its index is read. -/
def empty (disk : Finset Str) : SipiCache := ⟨∅, ∅, 0, 0, disk, ∅⟩

/-- What the constructor has loaded before it purges. -/
def load (index : Index) (disk : Finset Str) : SipiCache :=
  match index with
  | .missing | .corrupted => empty (disk.filter fun name => isHidden name = true)
  | .records rs => removeOrphans ((rs.take (nrecords rs)).foldl loadRecord (empty disk))

/-- `SipiCache::SipiCache`. -/
def construct (cfg : Config) (index : Index) (disk : Finset Str) (alist : List Str) : SipiCache :=
  ((load index disk).purge cfg alist).1

/-- All entries, by access time. -/
def SipiCache.Sorted (c : SipiCache) (alist : List Str) : Prop :=
  alist.Perm c.cachetable.keys ∧
    (alist.filterMap fun k => (c.cachetable.lookup k).map CacheRecord.accessTime).Pairwise (· ≤ ·)

instance (c : SipiCache) (alist : List Str) : Decidable (c.Sorted alist) := inferInstanceAs (Decidable (_ ∧ _))

/-- What can happen to the cache. -/
inductive Event where
  | check (mtime : Option ℤ) (canonical : Str) (blockFile : Bool) (now : ℤ)
  | deblock (res : Str)
  | getNewCacheFileName (name : Str)
  | discard (name : Str)
  | add (canonical : Str) (fr : CacheRecord) (alist : List Str)
  | remove (canonical : Str)
  | purge (alist : List Str)

/-- What the caller gets. -/
inductive Response where
  | thrown
  | checked (res : Option Str)
  | added (admitted : Bool)
  | removed (ok : Bool)
  | purged (n : ℤ)
  | unit
  deriving DecidableEq

/-- What an event does, and what the caller gets. -/
def exec (cfg : Config) (c : SipiCache) : Event → Response × SipiCache
  | .check none _ _ _ => (.thrown, c)
  | .check (some mtime) canonical blockFile now =>
    (.checked (c.check cfg mtime canonical blockFile now).2, (c.check cfg mtime canonical blockFile now).1)
  | .deblock res => (.unit, c.deblock res)
  | .getNewCacheFileName name => (.unit, { c with disk := insert name c.disk, pending := insert name c.pending })
  | .discard name => (.unit, { c with disk := c.disk.erase name, pending := c.pending.erase name })
  | .add canonical fr alist => (.added (c.add cfg alist canonical fr).2, (c.add cfg alist canonical fr).1)
  | .remove canonical => (.removed (c.remove cfg canonical).2, (c.remove cfg canonical).1)
  | .purge alist => (.purged (c.purge cfg alist).2, (c.purge cfg alist).1)

/-- What the callers and the file system keep to. -/
def Event.Legal (c : SipiCache) : Event → Prop
  | .getNewCacheFileName name => name ∉ c.disk
  | .discard name => name ∈ c.pending
  | .add _ fr alist => fr.cachepath ∈ c.pending ∧ 0 ≤ fr.fsize ∧ c.Sorted alist
  | .purge alist => c.Sorted alist
  | .check .. | .deblock _ | .remove _ => True

instance (c : SipiCache) : (e : Event) → Decidable (e.Legal c)
  | .getNewCacheFileName name => inferInstanceAs (Decidable (name ∉ c.disk))
  | .discard name => inferInstanceAs (Decidable (name ∈ c.pending))
  | .purge alist => inferInstanceAs (Decidable (c.Sorted alist))
  | .add .. => inferInstanceAs (Decidable (_ ∧ _ ∧ _))
  | .check .. | .deblock _ | .remove _ => inferInstanceAs (Decidable True)

/-- An event with its response and the state after it. -/
def next (cfg : Config) (c : SipiCache) (e : Event) : (Event × Response) × SipiCache :=
  ((e, (exec cfg c e).1), (exec cfg c e).2)

/-- **One step of the cache.** -/
inductive Step (cfg : Config) : SipiCache → Event × Response → SipiCache → Prop
  | exec (c : SipiCache) (e : Event) (h : e.Legal c) : Step cfg c (next cfg c e).1 (next cfg c e).2

end Sipi.Cache
