import Sipi.Cache.Files
import Sipi.Serve.CacheKey
import Sipi.Serve.Sink

/-!
# Who removes a cache file?

A new cache file goes from `build_image_response` to the producer, to `finalize_cache` and to `SipiCache::add`, and
each of them can end the request.

## Honest scope

`unlink` succeeds. A request without a cache is left out; a failing `mkstemp` leaves no file.
-/

variable {c : SipiCache} {alist : List Str}

namespace Sipi.Cache

open Sipi.Iiif Sipi.Theory

/-! ### Entries go with their files -/

variable {name : Str}

theorem mem_names_iff : name ∈ c.names ↔ ∃ k r, c.cachetable.lookup k = some r ∧ r.cachepath = name := by
  constructor
  · intro h
    obtain ⟨⟨k, r⟩, hm, heq⟩ := List.mem_map.mp h
    exact ⟨k, r, AList.mem_lookup_iff.mpr hm, heq⟩
  · rintro ⟨k, r, hr, rfl⟩
    exact mem_names hr

/-- No file is new, and those listed stay so. -/
structure Keeps (c c' : SipiCache) : Prop where
  disk : c'.disk ⊆ c.disk
  /-- A file that is there keeps its entry. -/
  names : ∀ name ∈ c'.disk, name ∈ c.names → name ∈ c'.names

/-- Entries go, each with its file. -/
structure Trims (c c' : SipiCache) : Prop extends Keeps c c' where
  fewer : c'.names ⊆ c.names
  bare : ∀ name ∈ c.disk, name ∉ c.names → name ∈ c'.disk

section Trims

variable {cfg : Config} {c c' c'' : SipiCache}

theorem Keeps.trans (h : Keeps c c') (h' : Keeps c' c'') : Keeps c c'' :=
  ⟨h'.disk.trans h.disk, fun name hd hn => h'.names name hd (h.names name (h'.disk hd) hn)⟩

theorem Trims.trans (h : Trims c c') (h' : Trims c' c'') : Trims c c'' :=
  ⟨h.toKeeps.trans h'.toKeeps, fun _ hn => h.fewer (h'.fewer hn), fun name hd hn =>
    h'.bare name (h.bare name hd hn) fun hm => hn (h.fewer hm)⟩

theorem Trims.of_eq (ht : c'.cachetable = c.cachetable) (hd : c'.disk = c.disk) : Trims c c' := by
  have hn : c'.names = c.names := by rw [SipiCache.names, SipiCache.names, ht]
  exact ⟨⟨hd.subset, fun _ _ h => hn ▸ h⟩, fun _ h => hn ▸ h, fun _ h _ => hd ▸ h⟩

variable {k : Str} {r : CacheRecord}

theorem Trims.touch {now : ℤ} (hr : c.cachetable.lookup k = some r)
    (ht : c'.cachetable = c.cachetable.insert k { r with accessTime := now }) (hd : c'.disk = c.disk) :
    Trims c c' := by
  refine ⟨⟨hd.subset, fun name _ hn => ?_⟩, fun name hn => ?_, fun _ h _ => hd ▸ h⟩
  · obtain ⟨k₁, r₁, hr₁, rfl⟩ := mem_names_iff.mp hn
    rw [mem_names_iff, ht]
    by_cases hk : k₁ = k
    · subst hk
      cases hr.symm.trans hr₁
      exact ⟨k₁, _, AList.lookup_insert _, rfl⟩
    · exact ⟨k₁, r₁, (AList.lookup_insert_ne hk).trans hr₁, rfl⟩
  · obtain ⟨k₁, r₁, hr₁, rfl⟩ := mem_names_iff.mp hn
    rw [ht] at hr₁
    obtain ⟨rfl, rfl⟩ | ⟨_, hr₁⟩ := lookup_of_lookup_insert hr₁
    · exact mem_names_iff.mpr ⟨k₁, r, hr, rfl⟩
    · exact mem_names hr₁

theorem Trims.evict (hr : c.cachetable.lookup k = some r) : Trims c (c.evict k r) := by
  refine ⟨⟨Finset.erase_subset _ _, fun name hd hn => ?_⟩, fun name hn => ?_, fun name hd hn => ?_⟩
  · obtain ⟨k₁, r₁, hr₁, rfl⟩ := mem_names_iff.mp hn
    have hk : k₁ ≠ k := by
      rintro rfl
      cases hr.symm.trans hr₁
      exact (Finset.mem_erase.mp hd).1 rfl
    exact mem_names ((lookup_evict_of_ne c k r hk).trans hr₁)
  · obtain ⟨k₁, r₁, hr₁, rfl⟩ := mem_names_iff.mp hn
    exact mem_names (lookup_of_evict hr₁).2
  · exact Finset.mem_erase.mpr ⟨fun heq => hn (heq ▸ mem_names hr), hd⟩

theorem Trims.purge (cfg : Config) (alist : List Str) (c : SipiCache) : Trims c (c.purge cfg alist).1 :=
  purge_induction (fun _ _ _ h hr _ => h.trans (Trims.evict hr)) alist (Trims.of_eq rfl rfl)

theorem Trims.unlinkExisting (k : Str) (c : SipiCache) : Trims c (c.unlinkExisting k) := by
  unfold SipiCache.unlinkExisting
  split
  · next r hr =>
    refine ⟨⟨Finset.erase_subset _ _, fun _ _ h => h⟩, fun _ h => h, fun name hd hn => ?_⟩
    exact Finset.mem_erase.mpr ⟨fun heq => hn (heq ▸ mem_names hr), hd⟩
  · exact Trims.of_eq rfl rfl

theorem Trims.check (mtime : ℤ) (k : Str) (blockFile : Bool) (now : ℤ) (c : SipiCache) :
    Trims c (c.check cfg mtime k blockFile now).1 := by
  unfold SipiCache.check
  split
  · exact Trims.of_eq rfl rfl
  · next r hr =>
    dsimp only
    split
    · exact Trims.touch hr rfl rfl
    · split
      · exact Trims.touch hr rfl rfl
      · exact Trims.touch hr rfl rfl

theorem Trims.deblock (res : Str) (c : SipiCache) : Trims c (c.deblock res) := by
  unfold SipiCache.deblock
  split
  · exact Trims.of_eq rfl rfl
  · split <;> exact Trims.of_eq rfl rfl

theorem Trims.remove (k : Str) (c : SipiCache) : Trims c (c.remove cfg k).1 := by
  unfold SipiCache.remove
  split
  · exact Trims.of_eq rfl rfl
  · next r hr =>
    split
    · exact Trims.of_eq rfl rfl
    · exact Trims.evict hr

/-- It hands out and removes no file. -/
def IsUse : Event → Bool
  | .check .. | .deblock _ | .remove _ | .purge _ => true
  | .getNewCacheFileName _ | .discard _ | .add .. => false

theorem Trims.exec {e : Event} (h : IsUse e = true) (c : SipiCache) : Trims c (exec cfg c e).2 := by
  cases e with
  | check mtime k blockFile now =>
    cases mtime with
    | none => exact Trims.of_eq rfl rfl
    | some mtime => exact Trims.check mtime k blockFile now c
  | deblock res => exact Trims.deblock res c
  | remove k => exact Trims.remove k c
  | purge alist => exact Trims.purge cfg alist c
  | getNewCacheFileName name => cases h
  | discard name => cases h
  | add k fr alist => cases h

/-! ### Registering a file -/

theorem not_mem_disk_unlinkExisting (hr : c.cachetable.lookup k = some r) :
    r.cachepath ∉ (c.unlinkExisting k).disk := by
  rw [SipiCache.unlinkExisting, hr]
  exact Finset.notMem_erase _ _

theorem Keeps.add (alist : List Str) (k : Str) (fr : CacheRecord) (c : SipiCache) :
    Keeps c (c.add cfg alist k fr).1 := by
  have ht : Trims c ((c.unlinkExisting k).purge cfg alist).1 :=
    (Trims.unlinkExisting k c).trans (Trims.purge cfg alist _)
  simp only [SipiCache.add]
  split
  · exact ht.toKeeps.trans ⟨Finset.erase_subset _ _, fun _ _ h => h⟩
  · refine ⟨ht.disk, fun name hd hn => ?_⟩
    obtain ⟨k₁, r₁, hr₁, rfl⟩ := mem_names_iff.mp (ht.names name hd hn)
    -- the file of the entry that is replaced is gone
    have hk : k₁ ≠ k := by
      rintro rfl
      have hr : c.cachetable.lookup k₁ = some r₁ := by
        rw [← cachetable_unlinkExisting c k₁]
        exact lookup_of_purge hr₁
      exact not_mem_disk_unlinkExisting hr ((Trims.purge cfg alist _).disk hd)
    exact mem_names ((AList.lookup_insert_ne hk).trans hr₁)

theorem mem_names_add {fr : CacheRecord}
    (h : fr.cachepath ∈ (c.add cfg alist k fr).1.disk) : fr.cachepath ∈ (c.add cfg alist k fr).1.names := by
  simp only [SipiCache.add] at h ⊢
  split at h
  · exact absurd h (Finset.notMem_erase _ _)
  · next ha =>
    rw [if_neg ha]
    exact mem_names (AList.lookup_insert _)

/-- Where `add` throws. -/
inductive AddThrow where
  | stat
  | listing
  | entry

/-- The cache after `add` has thrown. -/
def SipiCache.addThrown (cfg : Config) (alist : List Str) (canonical : Str) (c : SipiCache) : AddThrow → SipiCache
  | .stat => c
  | .listing => c.unlinkExisting canonical
  | .entry => ((c.unlinkExisting canonical).purge cfg alist).1

/-- There is something to list. -/
def SipiCache.CanThrow (cfg : Config) (alist : List Str) (canonical : Str) (c : SipiCache) : AddThrow → Prop
  | .stat => True
  | .listing =>
    cfg.over (c.unlinkExisting canonical).cacheUsedBytes (c.unlinkExisting canonical).nfiles = true
  | .entry => ((c.unlinkExisting canonical).purge cfg alist).2 ≠ -1

instance (cfg : Config) (alist : List Str) (canonical : Str) (c : SipiCache) :
    (place : AddThrow) → Decidable (c.CanThrow cfg alist canonical place)
  | .stat => inferInstanceAs (Decidable True)
  | .listing => inferInstanceAs (Decidable (_ = _))
  | .entry => inferInstanceAs (Decidable (_ ≠ _))

theorem Trims.addThrown (alist : List Str) (k : Str) (c : SipiCache) (place : AddThrow) :
    Trims c (c.addThrown cfg alist k place) := by
  cases place with
  | stat => exact Trims.of_eq rfl rfl
  | listing => exact Trims.unlinkExisting k c
  | entry => exact (Trims.unlinkExisting k c).trans (Trims.purge cfg alist _)

theorem mem_names_removeOrphans (c : SipiCache) (h : name ∈ (removeOrphans c).disk) :
    isHidden name = true ∨ name ∈ (removeOrphans c).names :=
  (Finset.mem_filter.mp h).2

theorem mem_names_load {index : Index} {disk : Finset Str} (h : name ∈ (load index disk).disk) :
    isHidden name = true ∨ name ∈ (load index disk).names := by
  cases index with
  | missing => exact Or.inl (Finset.mem_filter.mp h).2
  | corrupted => exact Or.inl (Finset.mem_filter.mp h).2
  | records rs =>
    rw [load_records] at h ⊢
    revert h
    generalize (rs.take (nrecords rs)).foldl loadRecord (empty disk) = loaded
    exact mem_names_removeOrphans loaded

theorem mem_names_construct {index : Index} {disk : Finset Str} (h : name ∈ (construct cfg index disk alist).disk) :
    isHidden name = true ∨ name ∈ (construct cfg index disk alist).names := by
  have hp : Trims (load index disk) (construct cfg index disk alist) := Trims.purge cfg alist _
  exact (mem_names_load (hp.disk h)).imp_right (hp.names name h)

end Trims

end Sipi.Cache

namespace Sipi.Serve

open Sipi.Iiif Sipi.Theory Sipi.Cache

/-! ### The requests -/

/-- `content_type_for`. -/
def contentTypeFor : FormatKind → Option Str
  | .tif => some (txt "image/tiff")
  | .jpg => some (txt "image/jpeg")
  | .png => some (txt "image/png")
  | .jp2 => some (txt "image/jp2")
  | _ => none

/-- How a request ends. -/
inductive Exit where
  | refused (status : SipiStatus)
  | returned (code : ℤ)
  | threw

/-- Where a request is. -/
inductive Stage where
  | waiting
  | created (format : FormatKind) (name : Str)
  | probed (format : FormatKind) (name : Str)
  | built (name : Str)
  | encoded (name : Str) (streamed : ℕ)
  | intact (name : Str)
  | over (exit : Exit)

/-- The cache file of a request that is not over. -/
def Stage.file : Stage → Option Str
  | .created _ name | .probed _ name | .built name | .encoded name _ | .intact name => some name
  | .waiting | .over _ => none

/-- A request that is over. -/
def Stage.isOver : Stage → Bool
  | .over _ => true
  | _ => false

/-- The format of a request not built yet. -/
def Stage.format : Stage → Option FormatKind
  | .created format _ | .probed format _ => some format
  | .waiting | .built _ | .encoded .. | .intact _ | .over _ => none

/-- What the probe of the new file comes to. -/
inductive Probe where
  | writable
  | failed
  | threw

/-- The cache and the requests. -/
structure Requests (ι : Type*) where
  cache : SipiCache
  stage : ι → Stage

/-- What can happen. -/
inductive RequestEvent (ι : Type*) where
  | create (i : ι) (format : FormatKind) (name : Str)
  | probe (i : ι) (result : Probe)
  | respond (i : ι) (throws : Bool)
  | abandon (i : ι)
  | openFile (i : ι)
  | encode (i : ι) (result : Encoded) (streamed : ℕ) (rethrows : Bool)
  | stat (i : ι) (size : Option ℕ)
  | finalizeThrows (i : ι) (unlinked : Bool)
  | add (i : ι) (canonical : Str) (fr : CacheRecord) (alist : List Str)
  | addThrows (i : ι) (canonical : Str) (alist : List Str) (place : AddThrow)
  | other (e : Event)

/-- The request that an event ends. -/
def RequestEvent.letsGo {ι : Type*} : RequestEvent ι → Option ι
  | .probe i .failed | .probe i .threw | .respond i true | .abandon i | .encode i .otherException _ _
  | .stat i none | .finalizeThrows i false | .addThrows i .. => some i
  | _ => none

namespace Requests

variable {ι : Type*}

section Step

variable [DecidableEq ι]

/-- A request moves on. -/
def moveTo (s : Requests ι) (i : ι) (stage : Stage) : Requests ι :=
  { s with stage := Function.update s.stage i stage }

/-- A request ends, and leaves the cache behind. -/
def finish (s : Requests ι) (i : ι) (cache : SipiCache) (exit : Exit) : Requests ι :=
  ⟨cache, Function.update s.stage i (.over exit)⟩

/-- A file is opened for writing. -/
def reopen (s : Requests ι) (name : Str) : Requests ι :=
  { s with cache := { s.cache with disk := insert name s.cache.disk } }

/-- The cache after a file is unlinked. -/
def unlink (cfg : Config) (s : Requests ι) (name : Str) : SipiCache := (exec cfg s.cache (.discard name)).2

/-- `finalize_cache` drops the file. -/
def Drops (cfg : Config) (size streamed : ℕ) : Prop :=
  size = 0 ∨ size ≠ streamed ∨ (0 < cfg.maxCacheSize ∧ cfg.maxCacheSize < size)

instance (cfg : Config) (size streamed : ℕ) : Decidable (Drops cfg size streamed) :=
  inferInstanceAs (Decidable (_ ∨ _ ∨ _))

/-- What an event does. -/
def step (cfg : Config) (s : Requests ι) : RequestEvent ι → Option (Requests ι)
  | .create i format name =>
    match s.stage i with
    | .waiting =>
      -- the canonical URL is built, so the format has an extension
      if (extension format).isOk = true ∧ name ∉ s.cache.disk ∧ txt "cache_" <+: name then
        some ({ s with cache := (exec cfg s.cache (.getNewCacheFileName name)).2 }.moveTo i (.created format name))
      else none
    | _ => none
  | .probe i result =>
    match s.stage i with
    | .created format name =>
      match result with
      | .writable => some ((s.reopen name).moveTo i (.probed format name))
      | .failed => some (s.finish i s.cache (.refused .internalError))
      | .threw => some (s.finish i s.cache .threw)
    | _ => none
  | .respond i throws =>
    match s.stage i with
    | .probed format name =>
      if throws then some (s.finish i s.cache .threw)
      else
        match contentTypeFor format with
        | none => some (s.finish i s.cache (.refused .badRequest))
        | some _ => some (s.moveTo i (.built name))
    | _ => none
  | .abandon i =>
    match s.stage i with
    | .built _ => some (s.finish i s.cache .threw)
    | _ => none
  | .openFile i =>
    match s.stage i with
    | .built name => some (s.reopen name)
    | _ => none
  | .encode i result streamed rethrows =>
    match s.stage i with
    | .built name =>
      match result with
      | .written => some (s.moveTo i (.encoded name streamed))
      | .clientAbort | .sipiError | .imageError =>
        -- the handlers unlink the file before they log and report
        some (s.finish i (s.unlink cfg name) (if rethrows then .threw else .returned 1))
      | .otherException => some (s.finish i s.cache .threw)
    | _ => none
  | .stat i size =>
    match s.stage i with
    | .encoded name streamed =>
      match size with
      | none => some (s.finish i s.cache (.returned 0))
      | some size =>
        if name ∈ s.cache.disk then
          if Drops cfg size streamed then some (s.finish i (s.unlink cfg name) (.returned 0))
          else some (s.moveTo i (.intact name))
        else none
    | _ => none
  | .finalizeThrows i unlinked =>
    match s.stage i with
    | .encoded name _ => some (s.finish i (if unlinked then s.unlink cfg name else s.cache) .threw)
    | _ => none
  | .add i canonical fr alist =>
    match s.stage i with
    | .intact name =>
      if fr.cachepath = name ∧ s.cache.Sorted alist then
        some (s.finish i (s.cache.add cfg alist canonical fr).1 (.returned 0))
      else none
    | _ => none
  | .addThrows i canonical alist place =>
    match s.stage i with
    | .intact _ =>
      if s.cache.Sorted alist ∧ s.cache.CanThrow cfg alist canonical place then
        some (s.finish i (s.cache.addThrown cfg alist canonical place) .threw)
      else none
    | _ => none
  | .other e => if IsUse e = true ∧ e.Legal s.cache then some { s with cache := (exec cfg s.cache e).2 } else none

end Step

/-! ### Tidiness -/

/-- Every file is somebody's. -/
def Tidy (s : Requests ι) : Prop :=
  ∀ name ∈ s.cache.disk, isHidden name = true ∨ name ∈ s.cache.names ∨ ∃ i, (s.stage i).file = some name

/-- A request **lets go of its file**. -/
def Leaks (s : Requests ι) (e : RequestEvent ι) : Prop :=
  ∃ i ∈ e.letsGo, ∃ name ∈ (s.stage i).file,
    name ∈ s.cache.disk ∧ name ∉ s.cache.names ∧ ∀ j, (s.stage j).file = some name → j = i

/-- The files of requests are not hidden. -/
structure Proper (s : Requests ι) : Prop where
  visible : ∀ i name, (s.stage i).file = some name → isHidden name = false
  typed : ∀ i format, (s.stage i).format = some format → contentTypeFor format ≠ none

section Steps

variable {cfg : Config} {s t : Requests ι} {e : RequestEvent ι} {i : ι} {name : Str}

theorem leaks_iff (hgo : e.letsGo = some i) (hf : (s.stage i).file = some name) :
    s.Leaks e ↔ name ∈ s.cache.disk ∧ name ∉ s.cache.names ∧ ∀ j, (s.stage j).file = some name → j = i := by
  simp [Leaks, hgo, hf]

theorem not_leaks (hgo : e.letsGo = none) : ¬ s.Leaks e := by
  simp [Leaks, hgo]

theorem Tidy.withCache (h : s.Tidy) (hc : Keeps s.cache c) : Tidy { s with cache := c } := by
  intro other hd
  exact (h other (hc.disk hd)).imp_right (Or.imp_left (hc.names other hd))

theorem Tidy.reopen (h : s.Tidy) (hf : (s.stage i).file = some name) : (s.reopen name).Tidy := by
  intro other hd
  rcases Finset.mem_insert.mp hd with rfl | ho
  · exact Or.inr (Or.inr ⟨i, hf⟩)
  · exact h other ho

theorem Proper.reopen (h : s.Proper) (name : Str) : (s.reopen name).Proper := ⟨h.visible, h.typed⟩

/-- What holds after a step from a tidy state. -/
structure After (s : Requests ι) (e : RequestEvent ι) (t : Requests ι) : Prop where
  proper : t.Proper
  tidy_iff : t.Tidy ↔ ¬ s.Leaks e

theorem After.keep (hp : t.Proper) (ht : t.Tidy) (hgo : e.letsGo = none) : After s e t :=
  ⟨hp, iff_of_true ht (not_leaks hgo)⟩

variable [DecidableEq ι]

variable {st : Stage}

theorem Proper.update (h : s.Proper) (c : SipiCache) (i : ι)
    (hfl : ∀ name, st.file = some name → isHidden name = false)
    (hf : ∀ format, st.format = some format → contentTypeFor format ≠ none) :
    Proper ⟨c, Function.update s.stage i st⟩ := by
  constructor
  · intro j name hj
    by_cases hij : j = i
    · subst hij
      exact hfl name (by simpa using hj)
    · exact h.visible j name (by simpa [hij] using hj)
  · intro j format hj
    by_cases hij : j = i
    · subst hij
      exact hf format (by simpa using hj)
    · exact h.typed j format (by simpa [hij] using hj)

theorem Proper.moveTo (h : s.Proper) (hfl : st.file = (s.stage i).file)
    (hfr : ∀ format, st.format = some format → (s.stage i).format = some format) : (s.moveTo i st).Proper :=
  h.update s.cache i (fun other ho => h.visible i other (hfl ▸ ho))
    fun format hf => h.typed i format (hfr format hf)

theorem Proper.finish (h : s.Proper) (i : ι) (c : SipiCache) (exit : Exit) : (s.finish i c exit).Proper :=
  h.update c i (fun _ hn => by cases hn) fun _ hf => by cases hf

theorem Tidy.moveTo (h : s.Tidy) (hf : st.file = (s.stage i).file) : (s.moveTo i st).Tidy := by
  intro other hd
  refine (h other hd).imp_right (Or.imp_right ?_)
  rintro ⟨j, hj⟩
  refine ⟨j, ?_⟩
  by_cases hij : j = i
  · subst hij
    simpa [Requests.moveTo, hf] using hj
  · simpa [Requests.moveTo, hij] using hj

theorem file_finish {exit : Exit} {j : ι} {other : Str} :
    ((s.finish i c exit).stage j).file = some other ↔ j ≠ i ∧ (s.stage j).file = some other := by
  by_cases hij : j = i
  · subst hij
    simp [Requests.finish, Stage.file]
  · simp [Requests.finish, hij]

theorem Tidy.finish (h : s.Tidy) (hf : (s.stage i).file = some name) (hk : Keeps s.cache c)
    (hs : name ∈ c.disk → name ∈ c.names) (exit : Exit) : (s.finish i c exit).Tidy := by
  intro other hd
  rcases h other (hk.disk hd) with hh | he | ⟨j, hj⟩
  · exact Or.inl hh
  · exact Or.inr (Or.inl (hk.names other hd he))
  · by_cases hij : j = i
    · subst hij
      cases hf.symm.trans hj
      exact Or.inr (Or.inl (hs hd))
    · exact Or.inr (Or.inr ⟨j, file_finish.mpr ⟨hij, hj⟩⟩)

theorem tidy_finish_iff (hp : s.Proper) (h : s.Tidy) (hgo : e.letsGo = some i)
    (hf : (s.stage i).file = some name) (ht : Trims s.cache c) (exit : Exit) :
    (s.finish i c exit).Tidy ↔ ¬ s.Leaks e := by
  rw [leaks_iff hgo hf]
  constructor
  · rintro htd ⟨hd, hn, ho⟩
    rcases htd name (ht.bare name hd hn) with hh | he | ⟨j, hj⟩
    · rw [hp.visible i name hf] at hh
      cases hh
    · exact hn (ht.fewer he)
    · obtain ⟨hij, hj⟩ := file_finish.mp hj
      exact hij (ho j hj)
  · intro hnt other hd
    rcases h other (ht.disk hd) with hh | he | ⟨j, hj⟩
    · exact Or.inl hh
    · exact Or.inr (Or.inl (ht.names other hd he))
    · by_cases hij : ∃ k, k ≠ i ∧ (s.stage k).file = some other
      · obtain ⟨k, hk⟩ := hij
        exact Or.inr (Or.inr ⟨k, file_finish.mpr hk⟩)
      · -- only this request has the file, so it has an entry
        obtain rfl : j = i := by_contra fun hne => hij ⟨j, hne, hj⟩
        cases hf.symm.trans hj
        refine Or.inr (Or.inl (ht.names _ hd (by_contra fun hn => hnt ⟨ht.disk hd, hn, ?_⟩)))
        exact fun k hk => by_contra fun hne => hij ⟨k, hne, hk⟩

/-! ### What one step does -/

theorem After.drop (hp : s.Proper) (htd : s.Tidy) (hgo : e.letsGo = some i)
    (hf : (s.stage i).file = some name) (ht : Trims s.cache c) (exit : Exit) : After s e (s.finish i c exit) :=
  ⟨hp.finish i c exit, tidy_finish_iff hp htd hgo hf ht exit⟩

theorem After.settle (hp : s.Proper) (ht : s.Tidy) (hgo : e.letsGo = none)
    (hf : (s.stage i).file = some name) (hk : Keeps s.cache c)
    (hs : name ∈ c.disk → name ∈ c.names) (exit : Exit) : After s e (s.finish i c exit) :=
  .keep (hp.finish i c exit) (ht.finish hf hk hs exit) hgo

theorem After.unlink (hp : s.Proper) (ht : s.Tidy) (hgo : e.letsGo = none)
    (hf : (s.stage i).file = some name) (exit : Exit) : After s e (s.finish i (s.unlink cfg name) exit) := by
  have hk : Keeps s.cache (s.unlink cfg name) := ⟨Finset.erase_subset _ _, fun _ _ h => h⟩
  exact .settle hp ht hgo hf hk (fun hd => absurd hd (Finset.notMem_erase _ _)) exit

theorem contentTypeFor_of_extension {format : FormatKind} (h : (extension format).isOk = true) :
    contentTypeFor format ≠ none := by
  revert h
  cases format <;> decide

theorem isHidden_of_template (h : txt "cache_" <+: name) : isHidden name = false := by
  obtain ⟨rest, rfl⟩ := h
  rfl

section
variable (hp : s.Proper) (ht : s.Tidy)
include hp ht

theorem After.create {format : FormatKind} (hs : s.step cfg (.create i format name) = some t) :
    After s (.create i format name) t := by
  simp only [step] at hs
  split at hs
  · next hst =>
    split at hs
    · next hg =>
      obtain ⟨he, _, htemp⟩ := hg
      cases hs
      refine .keep (hp.update _ i (fun other ho => ?_) fun f hf => ?_) (fun other hd => ?_) rfl
      · cases ho
        exact isHidden_of_template htemp
      · cases hf
        exact contentTypeFor_of_extension he
      · rcases Finset.mem_insert.mp hd with rfl | hol
        · exact Or.inr (Or.inr ⟨i, by simp [Requests.moveTo, Stage.file]⟩)
        · refine (ht other hol).imp_right (Or.imp_right ?_)
          rintro ⟨j, hj⟩
          have hij : j ≠ i := by
            rintro rfl
            rw [hst] at hj
            cases hj
          exact ⟨j, by simpa [Requests.moveTo, hij] using hj⟩
    · cases hs
  · cases hs

theorem After.probe {result : Probe} (hs : s.step cfg (.probe i result) = some t) : After s (.probe i result) t := by
  simp only [step] at hs
  split at hs
  · next format name hst =>
    have hfl : (s.stage i).file = some name := by rw [hst]; rfl
    cases result with
    | writable =>
      cases hs
      refine .keep ((hp.reopen name).moveTo hfl.symm fun f hf => ?_)
        ((ht.reopen hfl).moveTo hfl.symm) rfl
      show (s.stage i).format = some f
      rw [hst]
      exact hf
    | failed =>
      cases hs
      exact .drop hp ht rfl hfl (Trims.of_eq rfl rfl) _
    | threw =>
      cases hs
      exact .drop hp ht rfl hfl (Trims.of_eq rfl rfl) _
  · cases hs

theorem After.respond {throws : Bool}
    (hs : s.step cfg (.respond i throws) = some t) : After s (.respond i throws) t := by
  simp only [step] at hs
  split at hs
  · next format name hst =>
    have hfl : (s.stage i).file = some name := by rw [hst]; rfl
    cases throws with
    | true =>
      cases hs
      exact .drop hp ht rfl hfl (Trims.of_eq rfl rfl) _
    | false =>
      rw [if_neg Bool.false_ne_true] at hs
      split at hs
      · next hn => exact absurd hn (hp.typed i format (by rw [hst]; rfl))
      · cases hs
        exact .keep (hp.moveTo hfl.symm fun f hf => by cases hf) (ht.moveTo hfl.symm) rfl
  · cases hs

theorem After.abandon (hs : s.step cfg (.abandon i) = some t) : After s (.abandon i) t := by
  simp only [step] at hs
  split at hs
  · next name hst =>
    cases hs
    exact .drop hp ht rfl (by rw [hst]; rfl) (Trims.of_eq rfl rfl) _
  · cases hs

theorem After.openFile (hs : s.step cfg (.openFile i) = some t) : After s (.openFile i) t := by
  simp only [step] at hs
  split at hs
  · next name hst =>
    cases hs
    exact .keep (hp.reopen name) (ht.reopen (by rw [hst]; rfl)) rfl
  · cases hs

theorem After.encode {result : Encoded} {streamed : ℕ} {rethrows : Bool}
    (hs : s.step cfg (.encode i result streamed rethrows) = some t) :
    After s (.encode i result streamed rethrows) t := by
  simp only [step] at hs
  split at hs
  · next name hst =>
    have hfl : (s.stage i).file = some name := by rw [hst]; rfl
    cases result with
    | written =>
      cases hs
      exact .keep (hp.moveTo hfl.symm fun f hf => by cases hf) (ht.moveTo hfl.symm) rfl
    | clientAbort =>
      cases hs
      exact .unlink hp ht rfl hfl _
    | sipiError =>
      cases hs
      exact .unlink hp ht rfl hfl _
    | imageError =>
      cases hs
      exact .unlink hp ht rfl hfl _
    | otherException =>
      cases hs
      exact .drop hp ht rfl hfl (Trims.of_eq rfl rfl) _
  · cases hs

theorem After.stat {size : Option ℕ} (hs : s.step cfg (.stat i size) = some t) : After s (.stat i size) t := by
  simp only [step] at hs
  split at hs
  · next name streamed hst =>
    have hfl : (s.stage i).file = some name := by rw [hst]; rfl
    cases size with
    | none =>
      cases hs
      exact .drop hp ht rfl hfl (Trims.of_eq rfl rfl) _
    | some size =>
      dsimp only at hs
      split at hs
      · split at hs
        · cases hs
          exact .unlink hp ht rfl hfl _
        · cases hs
          exact .keep (hp.moveTo hfl.symm fun f hf => by cases hf) (ht.moveTo hfl.symm) rfl
      · cases hs
  · cases hs

theorem After.finalizeThrows {unlinked : Bool}
    (hs : s.step cfg (.finalizeThrows i unlinked) = some t) : After s (.finalizeThrows i unlinked) t := by
  simp only [step] at hs
  split at hs
  · next name streamed hst =>
    have hf : (s.stage i).file = some name := by rw [hst]; rfl
    cases hs
    cases unlinked with
    | false => exact .drop hp ht rfl hf (Trims.of_eq rfl rfl) _
    | true => exact .unlink hp ht rfl hf _
  · cases hs

theorem After.add {canonical : Str} {fr : CacheRecord}
    (hs : s.step cfg (.add i canonical fr alist) = some t) : After s (.add i canonical fr alist) t := by
  simp only [step] at hs
  split at hs
  · next name hst =>
    split at hs
    · next hg =>
      obtain ⟨rfl, _⟩ := hg
      cases hs
      exact .settle hp ht rfl (by rw [hst]; rfl) (Keeps.add alist canonical fr s.cache) mem_names_add _
    · cases hs
  · cases hs

theorem After.addThrows {canonical : Str} {place : AddThrow}
    (hs : s.step cfg (.addThrows i canonical alist place) = some t) :
    After s (.addThrows i canonical alist place) t := by
  simp only [step] at hs
  split at hs
  · next name hst =>
    split at hs
    · cases hs
      exact .drop hp ht rfl (by rw [hst]; rfl) (Trims.addThrown alist canonical s.cache place) _
    · cases hs
  · cases hs

theorem After.other {e : Event} (hs : s.step cfg (.other e) = some t) : After s (.other e) t := by
  simp only [step] at hs
  split at hs
  · next hg =>
    cases hs
    exact .keep ⟨hp.visible, hp.typed⟩ (ht.withCache (Trims.exec hg.1 s.cache).toKeeps) rfl
  · cases hs

theorem after_step (hs : s.step cfg e = some t) : After s e t := by
  cases e with
  | create i format name => exact .create hp ht hs
  | probe i result => exact .probe hp ht hs
  | respond i throws => exact .respond hp ht hs
  | abandon i => exact .abandon hp ht hs
  | openFile i => exact .openFile hp ht hs
  | encode i result streamed rethrows => exact .encode hp ht hs
  | stat i size => exact .stat hp ht hs
  | finalizeThrows i unlinked => exact .finalizeThrows hp ht hs
  | add i canonical fr alist => exact .add hp ht hs
  | addThrows i canonical alist place => exact .addThrows hp ht hs
  | other e => exact .other hp ht hs

end

end Steps

/-- A cache without requests. -/
def start (ι : Type*) (cfg : Config) (index : Index) (disk : Finset Str) (alist : List Str) : Requests ι :=
  ⟨construct cfg index disk alist, fun _ => .waiting⟩

theorem proper_start (cfg : Config) (index : Index) (disk : Finset Str) (alist : List Str) :
    (start ι cfg index disk alist).Proper where
  visible _ _ hfl := by cases hfl
  typed _ _ hf := by cases hf

theorem tidy_start (cfg : Config) (index : Index) (disk : Finset Str) (alist : List Str) :
    (start ι cfg index disk alist).Tidy :=
  fun _ hd => (mem_names_construct hd).imp_right Or.inl

/-- **The directory is tidy after every step of a run if and only if no request of the run lets go of its
file.** -/
theorem tidy_run_iff [DecidableEq ι] (cfg : Config) (index : Index) (disk : Finset Str) (alist : List Str)
    (es : List (RequestEvent ι)) (s : Requests ι) :
    Run (fun s e t => step cfg s e = some t ∧ t.Tidy) (start ι cfg index disk alist) es s ↔
      Run (When (fun s e => ¬ s.Leaks e) fun s e t => step cfg s e = some t) (start ι cfg index disk alist) es s := by
  refine Run.congr (fun s => s.Proper ∧ s.Tidy) ⟨proper_start cfg index disk alist, tidy_start cfg index disk alist⟩
    (fun t e u ht => ?_) fun t e u ht hs => ?_
  · constructor
    · rintro ⟨hs, htd⟩
      exact ⟨(after_step ht.1 ht.2 hs).tidy_iff.mp htd, hs⟩
    · rintro ⟨hl, hs⟩
      exact ⟨hs, (after_step ht.1 ht.2 hs).tidy_iff.mpr hl⟩
  · exact ⟨(after_step ht.1 ht.2 hs.1).proper, hs.2⟩

def getsFile (rest : List (RequestEvent Unit)) : List (RequestEvent Unit) :=
  .create () .jpg (txt "cache_x") :: .probe () .writable :: .respond () false :: rest

def encodesIt (rest : List (RequestEvent Unit)) : List (RequestEvent Unit) :=
  getsFile (.openFile () :: .encode () .written 10 false :: rest)

/-- It is over, its file there without an entry. -/
def Orphans (es : List (RequestEvent Unit)) : Prop :=
  ∃ s, Run (fun s e t => step hundredBytes s e = some t) (start Unit hundredBytes .missing ∅ []) es s ∧
    (s.stage ()).isOver = true ∧ txt "cache_x" ∈ s.cache.disk ∧ txt "cache_x" ∉ s.cache.names

theorem orphans_of_play {es : List (RequestEvent Unit)}
    (h : (play (step hundredBytes) (fun _ _ => True) (start Unit hundredBytes .missing ∅ []) es).map (fun s =>
      ((s.stage ()).isOver, decide (txt "cache_x" ∈ s.cache.disk), decide (txt "cache_x" ∈ s.cache.names))) =
        some (true, true, false)) : Orphans es := by
  obtain ⟨s, hp, hs⟩ := Option.map_eq_some_iff.mp h
  simp only [Prod.mk.injEq, decide_eq_true_eq, decide_eq_false_iff_not] at hs
  exact ⟨s, (run_of_play hp).mono fun _ _ _ h => h.2, hs⟩

theorem orphaned_files :
    Orphans [.create () .jpg (txt "cache_x"), .probe () .failed] ∧
      Orphans (getsFile [.abandon ()]) ∧
      Orphans (getsFile [.openFile (), .encode () .otherException 4 false]) ∧
      Orphans (encodesIt [.stat () none]) ∧
      Orphans (encodesIt [.stat () (some 10), .addThrows () (txt "k") [] .stat]) ∧
      Orphans (encodesIt [.stat () (some 10), .addThrows () (txt "k") [] .entry]) :=
  ⟨orphans_of_play (by decide +kernel), orphans_of_play (by decide +kernel), orphans_of_play (by decide +kernel),
    orphans_of_play (by decide +kernel), orphans_of_play (by decide +kernel), orphans_of_play (by decide +kernel)⟩

example : (play (step hundredBytes) (fun _ _ => True) (start Unit hundredBytes .missing ∅ [])
    (encodesIt [.stat () (some 10), .add () (txt "k") (sampleFile "cache_x" 10 1) []])).map
      (fun s => s.cache.names) = some [txt "cache_x"] := by
  decide +kernel

end Requests

end Sipi.Serve
