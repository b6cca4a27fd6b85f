import Sipi.Cache.Entries
import Sipi.Cache.Pins

/-!
# Fresh files in the cache

The cache is to send a stored file "only, if the original is older than the cached file" (`src/SipiCache.h`).

## Honest scope

A new file does not take the name of an entry that has lost its file.
-/

namespace Sipi.Serve

open Sipi.Iiif Sipi.Theory Sipi.Cache

/-! ### The system -/

/-- Where a serve is. -/
inductive ServePhase where
  | idle
  | missed (key : Str)
  | decoded (key : Str) (version : ℕ)
  | writing (key : Str) (version : ℕ) (name : Str)
  | closed (key : Str) (name : Str)

/-- The cache file that a serve has. -/
def ServePhase.file : ServePhase → Option Str
  | .writing _ _ name | .closed _ name => some name
  | .idle | .missed _ | .decoded .. => none

/-- A serve is between its decode and its last write. -/
def ServePhase.between : ServePhase → Bool
  | .decoded .. | .writing .. => true
  | .idle | .missed _ | .closed .. => false

/-- What a cache file was made from, and when. -/
structure Written where
  version : ℕ
  mtime : ℤ
  deriving DecidableEq

/-- The versions of the file and of the original. -/
structure Hit where
  version : ℕ
  current : ℕ
  deriving DecidableEq

/-- The original, the cache and the serves. -/
structure World (ι : Type*) where
  cache : SipiCache
  clock : ℤ
  version : ℕ
  mtime : ℤ
  files : Str → Written
  phase : ι → ServePhase
  hits : List Hit

/-- What can happen. -/
inductive WorldEvent (ι : Type*) where
  | tick (t : ℤ)
  | modify
  | check (i : ι) (key : Str)
  | decode (i : ι)
  | create (i : ι) (name : Str)
  | write (i : ι)
  | close (i : ι)
  | add (i : ι) (fr : CacheRecord) (alist : List Str)
  | drop (i : ι)
  | other (e : Event)

namespace World

variable {ι : Type*}

/-- A file that no serve has. -/
def Free (s : World ι) (name : Str) : Prop := ∀ i, (s.phase i).file ≠ some name

instance [Fintype ι] (s : World ι) (name : Str) : Decidable (s.Free name) := inferInstanceAs (Decidable (∀ _, _))

/-- An event of other requests. -/
def Elsewhere (own : Str → Bool) (s : World ι) : Event → Prop
  | .add key .. => own key = false
  | .getNewCacheFileName name => s.Free name
  | .check .. | .deblock _ | .discard _ | .remove _ | .purge _ => True

instance [Fintype ι] (own : Str → Bool) (s : World ι) : (e : Event) → Decidable (s.Elsewhere own e)
  | .add .. => inferInstanceAs (Decidable (_ = _))
  | .getNewCacheFileName name => inferInstanceAs (Decidable (s.Free name))
  | .check .. | .deblock _ | .discard _ | .remove _ | .purge _ => inferInstanceAs (Decidable True)

/-- A serve writes a version to its file now. -/
def writeFile (cfg : Config) (s : World ι) (name : Str) (version : ℕ) : World ι :=
  { s with files := Function.update s.files (cfg.path name) ⟨version, s.clock⟩ }

section Step

variable [DecidableEq ι]

/-- A serve moves on. -/
def moveTo (s : World ι) (i : ι) (p : ServePhase) : World ι := { s with phase := Function.update s.phase i p }

variable [Fintype ι]

/-- What an event does. -/
def step (cfg : Config) (own : Str → Bool) (s : World ι) : WorldEvent ι → Option (World ι)
  | .tick t => if s.clock ≤ t then some { s with clock := t } else none
  | .modify => some { s with version := s.version + 1, mtime := s.clock }
  | .check i key =>
    match s.phase i with
    | .idle =>
      if own key = true then
        match (s.cache.check cfg s.mtime key true s.clock).2 with
        | some path =>
          some { s with
            cache := (s.cache.check cfg s.mtime key true s.clock).1
            hits := s.hits ++ [⟨(s.files path).version, s.version⟩] }
        | none => some ({ s with cache := (s.cache.check cfg s.mtime key true s.clock).1 }.moveTo i (.missed key))
      else none
    | _ => none
  | .decode i =>
    match s.phase i with
    | .missed key => some (s.moveTo i (.decoded key s.version))
    | _ => none
  | .create i name =>
    match s.phase i with
    | .decoded key version =>
      if name ∉ s.cache.disk ∧ s.Free name then
        some (({ s with cache := (exec cfg s.cache (.getNewCacheFileName name)).2 }.writeFile cfg name version).moveTo i
          (.writing key version name))
      else none
    | _ => none
  | .write i =>
    match s.phase i with
    | .writing _ version name => some (s.writeFile cfg name version)
    | _ => none
  | .close i =>
    match s.phase i with
    | .writing key _ name => some (s.moveTo i (.closed key name))
    | _ => none
  | .add i fr alist =>
    match s.phase i with
    | .closed key name =>
      -- the record has the name and the modification time of the file
      if fr.cachepath = name ∧ fr.mtime = (s.files (cfg.path name)).mtime ∧
          (Event.add key fr alist).Legal s.cache then
        some ({ s with cache := (exec cfg s.cache (.add key fr alist)).2 }.moveTo i .idle)
      else none
    | _ => none
  | .drop i =>
    match (s.phase i).file with
    | some name => some ({ s with cache := (exec cfg s.cache (.discard name)).2 }.moveTo i .idle)
    | none => some (s.moveTo i .idle)
  | .other e =>
    if s.Elsewhere own e ∧ e.Legal s.cache then some { s with cache := (exec cfg s.cache e).2 } else none

end Step

/-! ### What is kept -/

/-- Current, or older than the original. -/
def UpToDate (s : World ι) (w : Written) : Prop := w.version = s.version ∨ w.mtime < s.mtime

/-- An entry whose file is up to date. -/
def EntryOk (cfg : Config) (own : Str → Bool) (s : World ι) (key : Str) (r : CacheRecord) : Prop :=
  own key = true → (s.files (cfg.path r.cachepath)).mtime = r.mtime ∧ s.UpToDate (s.files (cfg.path r.cachepath)) ∧
    s.Free r.cachepath

/-- A serve whose file is up to date. -/
def PhaseOk (cfg : Config) (s : World ι) : ServePhase → Prop
  | .idle | .missed _ => True
  | .decoded _ version => version = s.version
  | .writing _ version name => version = s.version ∧ (s.files (cfg.path name)).version = s.version
  | .closed _ name => s.UpToDate (s.files (cfg.path name))

/-- The invariant. -/
structure Fresh (cfg : Config) (own : Str → Bool) (s : World ι) : Prop where
  entries : Entries (s.EntryOk cfg own) s.cache
  phases : ∀ i, s.PhaseOk cfg (s.phase i)
  distinct : ∀ i j name, (s.phase i).file = some name → (s.phase j).file = some name → i = j
  clock : s.mtime ≤ s.clock
  hits : ∀ h ∈ s.hits, h.version = h.current

/-- It is modified between serves only. -/
def Settled (cfg : Config) (own : Str → Bool) (s : World ι) : WorldEvent ι → Prop
  | .modify => (∀ i, (s.phase i).between = false) ∧
      (∀ i, ∀ name ∈ (s.phase i).file, (s.files (cfg.path name)).mtime < s.clock) ∧
      ∀ e ∈ s.cache.cachetable.entries, own e.1 = true → e.2.mtime < s.clock
  | .create _ name | .other (.getNewCacheFileName name) => name ∉ s.cache.names
  | _ => True

section Steps

variable {cfg : Config} {own : Str → Bool} {s s' : World ι}

theorem timeless_entryOk (cfg : Config) (own : Str → Bool) (s : World ι) : Timeless (s.EntryOk cfg own) :=
  fun _ _ _ h => h

theorem Fresh.withCache (h : s.Fresh cfg own) {c : SipiCache} (hc : Entries (s.EntryOk cfg own) c) :
    Fresh cfg own { s with cache := c } :=
  ⟨hc, h.phases, h.distinct, h.clock, h.hits⟩

theorem Fresh.writeFile (h : s.Fresh cfg own) {name : Str} {version : ℕ}
    (he : ∀ k r, s.cache.cachetable.lookup k = some r → own k = true → r.cachepath ≠ name)
    (hph : ∀ j, (s.phase j).file = some name → (s.writeFile cfg name version).PhaseOk cfg (s.phase j)) :
    Fresh cfg own (s.writeFile cfg name version) := by
  have ho : ∀ {other : Str}, other ≠ name →
      (s.writeFile cfg name version).files (cfg.path other) = s.files (cfg.path other) :=
    fun hne => Function.update_of_ne (fun heq => hne (cfg.path_injective heq)) _ _
  refine ⟨fun k r hr how => ?_, fun j => ?_, h.distinct, h.clock, h.hits⟩
  · obtain ⟨hm, hd, hfr⟩ := h.entries k r hr how
    rw [ho (he k r hr how)]
    exact ⟨hm, hd, hfr⟩
  · by_cases hf : (s.phase j).file = some name
    · exact hph j hf
    · have hok := h.phases j
      show PhaseOk cfg (s.writeFile cfg name version) (s.phase j)
      cases hp : s.phase j with
      | idle => trivial
      | missed key => trivial
      | decoded key v =>
        rw [hp] at hok
        exact hok
      | writing key v other =>
        rw [hp] at hok hf
        show v = s.version ∧ ((s.writeFile cfg name version).files (cfg.path other)).version = s.version
        rw [ho fun heq => hf (congrArg some heq)]
        exact hok
      | closed key other =>
        rw [hp] at hok hf
        show s.UpToDate ((s.writeFile cfg name version).files (cfg.path other))
        rw [ho fun heq => hf (congrArg some heq)]
        exact hok

theorem Fresh.modify (h : s.Fresh cfg own) (hs : s.Settled cfg own .modify) :
    Fresh cfg own { s with version := s.version + 1, mtime := s.clock } := by
  obtain ⟨hb, hf, he⟩ := hs
  refine ⟨fun k r hr how => ?_, fun i => ?_, h.distinct, le_rfl, h.hits⟩
  · obtain ⟨hm, _, hfr⟩ := h.entries k r hr how
    have hlt := he ⟨k, r⟩ (AList.mem_lookup_iff.mp hr) how
    exact ⟨hm, Or.inr (show (s.files (cfg.path r.cachepath)).mtime < s.clock by rw [hm]; exact hlt), hfr⟩
  · have hn := hb i
    have ho := hf i
    show PhaseOk cfg { s with version := s.version + 1, mtime := s.clock } (s.phase i)
    cases hp : s.phase i with
    | idle => trivial
    | missed key => trivial
    | decoded key v =>
      rw [hp] at hn
      cases hn
    | writing key v name =>
      rw [hp] at hn
      cases hn
    | closed key name =>
      rw [hp] at ho
      exact Or.inr (ho name rfl)

theorem version_of_hit (h : s.Fresh cfg own) {key path : Str} (ho : own key = true)
    (hh : (s.cache.check cfg s.mtime key true s.clock).2 = some path) : (s.files path).version = s.version := by
  rw [check_eq] at hh
  obtain ⟨r, ha, rfl⟩ := Option.map_eq_some_iff.mp hh
  obtain ⟨hr, hle⟩ := alive_eq_some.mp ha
  obtain ⟨hm, hd, _⟩ := h.entries key r hr ho
  -- a file of another version is older than the original, and would have been a miss
  refine hd.resolve_right fun hlt => ?_
  rw [hm] at hlt
  exact absurd hlt (not_lt.mpr hle)

variable [DecidableEq ι]

theorem file_moveTo {i j : ι} {p : ServePhase} {name : Str} (h : ((s.moveTo i p).phase j).file = some name) :
    (j = i ∧ p.file = some name) ∨ (s.phase j).file = some name := by
  by_cases hj : j = i
  · subst hj
    exact Or.inl ⟨rfl, by simpa [moveTo] using h⟩
  · exact Or.inr (by simpa [moveTo, hj] using h)

section
variable (h : s.Fresh cfg own)
include h

theorem Fresh.moveTo (i : ι) {p : ServePhase} (hp : s.PhaseOk cfg p)
    (hf : ∀ name, p.file = some name → (∀ j, j ≠ i → (s.phase j).file ≠ some name) ∧
      ∀ k r, s.cache.cachetable.lookup k = some r → own k = true → r.cachepath ≠ name) :
    Fresh cfg own (s.moveTo i p) where
  entries k r hr ho := by
    obtain ⟨hm, hd, hfr⟩ := h.entries k r hr ho
    refine ⟨hm, hd, fun j hj => ?_⟩
    rcases file_moveTo hj with ⟨_, hp⟩ | hol
    · exact (hf _ hp).2 k r hr ho rfl
    · exact hfr j hol
  phases j := by
    by_cases hj : j = i
    · subst hj
      show s.PhaseOk cfg (Function.update s.phase j p j)
      rw [Function.update_self]
      exact hp
    · show s.PhaseOk cfg (Function.update s.phase i p j)
      rw [Function.update_of_ne hj]
      exact h.phases j
  distinct j k name hj hk := by
    rcases file_moveTo hj with ⟨rfl, hp⟩ | hj'
    · rcases file_moveTo hk with ⟨rfl, _⟩ | hk'
      · rfl
      · by_contra hne
        exact (hf name hp).1 k (Ne.symm hne) hk'
    · rcases file_moveTo hk with ⟨rfl, hp⟩ | hk'
      · by_contra hne
        exact (hf name hp).1 j hne hj'
      · exact h.distinct j k name hj' hk'
  clock := h.clock
  hits := h.hits

theorem Fresh.moveTo_of_none (i : ι) {p : ServePhase} (hp : s.PhaseOk cfg p)
    (hnn : p.file = none) : Fresh cfg own (s.moveTo i p) :=
  h.moveTo i hp fun name hn => by rw [hnn] at hn; cases hn

variable [Fintype ι]

theorem Fresh.check {i : ι} {key : Str} (hs : s.step cfg own (.check i key) = some s') : s'.Fresh cfg own := by
  have hc : Fresh cfg own { s with cache := (s.cache.check cfg s.mtime key true s.clock).1 } :=
    h.withCache (Entries.check (timeless_entryOk cfg own s) h.entries s.mtime key true s.clock)
  simp only [step] at hs
  split at hs
  · split at hs
    · next how =>
      split at hs
      · next path hh =>
        cases hs
        refine ⟨hc.entries, h.phases, h.distinct, h.clock, fun x hx => ?_⟩
        rcases List.mem_append.mp hx with ho | hn
        · exact h.hits x ho
        · rw [List.mem_singleton.mp hn]
          exact version_of_hit h how hh
      · cases hs
        exact hc.moveTo_of_none i trivial rfl
    · cases hs
  · cases hs

theorem Fresh.create {i : ι} {name : Str} (hst : s.Settled cfg own (.create i name))
    (hs : s.step cfg own (.create i name) = some s') : s'.Fresh cfg own := by
  simp only [step] at hs
  split at hs
  · next key version hp =>
    split at hs
    · next hg =>
      obtain ⟨_, hf⟩ := hg
      cases hs
      have hv : version = s.version := by
        have hok := h.phases i
        rwa [hp] at hok
      have hn : ∀ k r, s.cache.cachetable.lookup k = some r → own k = true → r.cachepath ≠ name :=
        fun k r hr _ heq => hst (heq ▸ mem_names hr)
      have hc : Fresh cfg own { s with cache := (exec cfg s.cache (.getNewCacheFileName name)).2 } :=
        h.withCache (h.entries.of_table rfl)
      have hw : Fresh cfg own
          (World.writeFile cfg { s with cache := (exec cfg s.cache (.getNewCacheFileName name)).2 } name version) :=
        hc.writeFile hn fun j hj => absurd hj (hf j)
      refine hw.moveTo i ⟨hv, ?_⟩ fun other ho => ?_
      · show (Function.update s.files (cfg.path name) ⟨version, s.clock⟩ (cfg.path name)).version = s.version
        rw [Function.update_self]
        exact hv
      · cases ho
        exact ⟨fun j _ => hf j, hn⟩
    · cases hs
  · cases hs

omit [DecidableEq ι] [Fintype ι] in
theorem Fresh.ne_of_file {i : ι} {name : Str} (hf : (s.phase i).file = some name) :
    ∀ k r, s.cache.cachetable.lookup k = some r → own k = true → r.cachepath ≠ name :=
  fun k r hr ho heq => (h.entries k r hr ho).2.2 i (heq ▸ hf)

theorem Fresh.write {i : ι} (hs : s.step cfg own (.write i) = some s') : s'.Fresh cfg own := by
  simp only [step] at hs
  split at hs
  · next key version name hp =>
    cases hs
    have hok := h.phases i
    have hf : (s.phase i).file = some name := by rw [hp]; rfl
    rw [hp] at hok
    refine h.writeFile (h.ne_of_file hf) fun j hj => ?_
    obtain rfl := h.distinct i j name hf hj
    rw [hp]
    refine ⟨hok.1, ?_⟩
    show (Function.update s.files (cfg.path name) ⟨version, s.clock⟩ (cfg.path name)).version = s.version
    rw [Function.update_self]
    exact hok.1
  · cases hs

theorem Fresh.close {i : ι} (hs : s.step cfg own (.close i) = some s') : s'.Fresh cfg own := by
  simp only [step] at hs
  split at hs
  · next key version name hp =>
    cases hs
    have hok := h.phases i
    have hf : (s.phase i).file = some name := by rw [hp]; rfl
    rw [hp] at hok
    refine h.moveTo i (Or.inl hok.2) fun other ho => ?_
    cases ho
    exact ⟨fun j hne hj => hne (h.distinct j i name hj hf), h.ne_of_file hf⟩
  · cases hs

theorem Fresh.add {i : ι} {fr : CacheRecord} {alist : List Str}
    (hs : s.step cfg own (.add i fr alist) = some s') : s'.Fresh cfg own := by
  simp only [step] at hs
  split at hs
  · next key name hp =>
    split at hs
    · next hg =>
      obtain ⟨rfl, hmt, _⟩ := hg
      cases hs
      have hok := h.phases i
      have hf : (s.phase i).file = some fr.cachepath := by rw [hp]; rfl
      rw [hp] at hok
      -- first the serve lets go of its file, then the file is an entry's
      have hm : Fresh cfg own (s.moveTo i .idle) := h.moveTo_of_none i trivial rfl
      refine hm.withCache
        (Entries.step (timeless_entryOk cfg own _) hm.entries _ fun k fr' alist' heq _ => ?_)
      obtain ⟨rfl, rfl, rfl⟩ := Event.add.inj heq
      refine ⟨hmt.symm, hok, fun j hj => ?_⟩
      rcases file_moveTo hj with ⟨_, hn⟩ | ho
      · cases hn
      · obtain rfl := h.distinct i j _ hf ho
        simp [World.moveTo, ServePhase.file] at hj
    · cases hs
  · cases hs

theorem Fresh.drop {i : ι} (hs : s.step cfg own (.drop i) = some s') : s'.Fresh cfg own := by
  simp only [step] at hs
  split at hs
  · next name _ =>
    cases hs
    have hc : Fresh cfg own { s with cache := (exec cfg s.cache (.discard name)).2 } :=
      h.withCache (h.entries.of_table rfl)
    exact hc.moveTo_of_none i trivial rfl
  · cases hs
    exact h.moveTo_of_none i trivial rfl

theorem Fresh.other {e : Event} (hs : s.step cfg own (.other e) = some s') : s'.Fresh cfg own := by
  simp only [step] at hs
  split at hs
  · next hg =>
    cases hs
    refine h.withCache (Entries.step (timeless_entryOk cfg own s) h.entries e fun k fr alist heq ho => ?_)
    subst heq
    have he : own k = false := hg.1
    rw [ho] at he
    cases he
  · cases hs

theorem fresh_step {e : WorldEvent ι} (hst : s.Settled cfg own e)
    (hs : s.step cfg own e = some s') : s'.Fresh cfg own := by
  cases e with
  | tick t =>
    simp only [step] at hs
    split at hs
    · next hle =>
      cases hs
      exact ⟨h.entries, h.phases, h.distinct, h.clock.trans hle, h.hits⟩
    · cases hs
  | modify =>
    cases hs
    exact h.modify hst
  | check i key => exact h.check hs
  | decode i =>
    simp only [step] at hs
    split at hs
    · cases hs
      exact h.moveTo_of_none i rfl rfl
    · cases hs
  | create i name => exact h.create hst hs
  | write i => exact h.write hs
  | close i => exact h.close hs
  | add i fr alist => exact h.add hs
  | drop i => exact h.drop hs
  | other e => exact h.other hs

end

end Steps

/-- **Every hit is of the current version**, in every run from a fresh state in which the original is modified
only while no serve is between its decode and its last write, in a second in which no cache file of it was
written. -/
theorem fresh_of_run [DecidableEq ι] [Fintype ι] (cfg : Config) (own : Str → Bool) {s₀ s : World ι}
    {es : List (WorldEvent ι)} (hinit : s₀.Fresh cfg own)
    (hrun : Run (When (Settled cfg own) fun s e t => step cfg own s e = some t) s₀ es s) :
    ∀ h ∈ s.hits, h.version = h.current := by
  have hf := hrun.invariant (Fresh cfg own) hinit fun _ _ _ ht hs => fresh_step ht hs.1 hs.2
  exact hf.hits

instance [Fintype ι] (cfg : Config) (own : Str → Bool) (s : World ι) :
    (e : WorldEvent ι) → Decidable (s.Settled cfg own e)
  | .modify => inferInstanceAs (Decidable (_ ∧ (∀ i, ∀ name ∈ (s.phase i).file, _) ∧ _))
  | .create .. | .other (.getNewCacheFileName _) => inferInstanceAs (Decidable (_ ∉ _))
  | .tick _ | .check .. | .decode _ | .write _ | .close _ | .add .. | .drop _ => inferInstanceAs (Decidable True)
  | .other (.check ..) | .other (.deblock _) | .other (.discard _) | .other (.add ..) | .other (.remove _)
  | .other (.purge _) => inferInstanceAs (Decidable True)

def unserved : World (Fin 1) :=
  ⟨construct hundredBytes .missing ∅ [], 10, 0, 5, fun _ => ⟨0, 0⟩, fun _ => .idle, []⟩

theorem fresh_unserved : unserved.Fresh hundredBytes (fun _ => true) := by
  refine ⟨(fun k r hr => by cases hr), fun _ => trivial, (fun i j name hi => by cases hi), by decide, ?_⟩
  intro h hh
  cases hh

/-- The serve looks for the image and decodes it. -/
def decodeIt : List (WorldEvent (Fin 1)) := [.check 0 (txt "k"), .decode 0]

/-- It writes a file at some time and registers it. -/
def storeIt (name : String) (at_ : ℤ) (alist : List Str) : List (WorldEvent (Fin 1)) :=
  [.create 0 (txt name), .write 0, .close 0, .add 0 (sampleFile name 10 at_) alist]

theorem hit_after_modification :
    ∃ es s, Run (When (Settled hundredBytes fun _ => true) fun s e t => step hundredBytes (fun _ => true) s e = some t)
      unserved es s ∧ s.hits = [⟨1, 1⟩] ∧ ∀ h ∈ s.hits, h.version = h.current := by
  obtain ⟨s, hp, hh⟩ := Option.map_eq_some_iff.mp
    (show (play (step hundredBytes fun _ => true) (Settled hundredBytes fun _ => true) unserved
      (decodeIt ++ storeIt "x" 10 [] ++ [.tick 11, .modify] ++ decodeIt ++ storeIt "y" 11 [txt "k"] ++
        [.check 0 (txt "k")])).map hits = some [⟨1, 1⟩] by decide +kernel)
  have hr := run_of_play hp
  exact ⟨_, s, hr, hh, fresh_of_run hundredBytes (fun _ => true) fresh_unserved hr⟩

theorem stale_hits :
    (∃ es s, Run (fun s e t => step hundredBytes (fun _ => true) s e = some t) unserved es s ∧ s.hits = [⟨0, 1⟩]) ∧
      ∃ es s, Run (fun s e t => step hundredBytes (fun _ => true) s e = some t) unserved es s ∧ s.hits = [⟨0, 1⟩] := by
  constructor
  · obtain ⟨s, hp, hh⟩ := Option.map_eq_some_iff.mp
      (show (play (step hundredBytes fun _ => true) (fun _ _ => True) unserved
        (decodeIt ++ [.tick 11, .modify, .tick 12] ++ storeIt "x" 12 [] ++ [.check 0 (txt "k")])).map hits =
          some [⟨0, 1⟩] by decide +kernel)
    exact ⟨_, s, (run_of_play hp).mono fun _ _ _ h => h.2, hh⟩
  · obtain ⟨s, hp, hh⟩ := Option.map_eq_some_iff.mp
      (show (play (step hundredBytes fun _ => true) (fun _ _ => True) unserved
        (decodeIt ++ storeIt "x" 10 [] ++ [.modify, .check 0 (txt "k")])).map hits = some [⟨0, 1⟩] by decide +kernel)
    exact ⟨_, s, (run_of_play hp).mono fun _ _ _ h => h.2, hh⟩

end World

end Sipi.Serve
