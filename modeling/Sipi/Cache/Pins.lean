import Sipi.Cache.Files

/-!
# Pinned files

A request that is about to send a cache file pins it: `check` with `block_file` counts the path up, `deblock`
counts it down.
-/

namespace Sipi.Cache

open Sipi.Iiif Sipi.Theory

/-- How an event changes the pins of `p` that are out. -/
def pinDelta (p : Str) : Event × Response → ℤ
  | (.check _ _ true _, .checked (some q)) => if q = p then 1 else 0
  | (.deblock q, _) => if q = p then -1 else 0
  | _ => 0

/-- The pins of `p` that have not been given back. -/
def outstanding (p : Str) (ls : List (Event × Response)) : ℤ := (ls.map (pinDelta p)).sum

/-- A `deblock` gives back a pin that is out. -/
def GivesBack (before : List (Event × Response)) : Event × Response → Prop
  | (.deblock q, _) => 0 < outstanding q before
  | _ => True

instance (before : List (Event × Response)) : (l : Event × Response) → Decidable (GivesBack before l)
  | (.deblock q, _) => inferInstanceAs (Decidable (0 < outstanding q before))
  | (.check .., _) | (.add .., _) | (.getNewCacheFileName _, _) | (.discard _, _) | (.remove _, _)
  | (.purge _, _) => inferInstanceAs (Decidable True)

/-- Every `deblock` gives back a pin that is out. -/
def Matched (ls : List (Event × Response)) : Prop :=
  ∀ i < ls.length, ∀ l ∈ ls[i]?, GivesBack (ls.take i) l

instance (ls : List (Event × Response)) : Decidable (Matched ls) :=
  inferInstanceAs (Decidable (∀ i < ls.length, ∀ l ∈ ls[i]?, GivesBack (ls.take i) l))

theorem outstanding_snoc (p : Str) (ls : List (Event × Response)) (l : Event × Response) :
    outstanding p (ls ++ [l]) = outstanding p ls + pinDelta p l := by
  simp [outstanding]

variable {ls : List (Event × Response)} {l : Event × Response}

theorem matched_snoc (h : Matched (ls ++ [l])) : Matched ls ∧ GivesBack ls l := by
  constructor
  · intro i hi l' hl'
    have hb := h i (by rw [List.length_append]; omega) l' (by rwa [List.getElem?_append_left hi])
    rwa [List.take_append_of_le_length hi.le] at hb
  · have hb := h ls.length (by simp) l (by simp)
    rwa [List.take_left] at hb

/-! ### The stored count -/

/-- What `blocked_files` stores for a number of pins. -/
def stored (n : ℤ) : Option ℤ := if n = 0 then none else some n

theorem stored_getD (n : ℤ) : (stored n).getD 0 = n := by
  unfold stored
  split
  · next h => exact h.symm
  · rfl

/-- The pin table counts the pins that are out. -/
def PinCount (ls : List (Event × Response)) (c : SipiCache) : Prop :=
  ∀ p, 0 ≤ outstanding p ls ∧ c.blockedFiles.lookup p = stored (outstanding p ls)

variable {c : SipiCache}

theorem PinCount.isBlocked (h : PinCount ls c) (p : Str) : c.isBlocked p = true ↔ 0 < outstanding p ls := by
  rw [SipiCache.isBlocked, (h p).2, stored_getD, decide_eq_true_iff]

variable {c' : SipiCache}

theorem PinCount.frame (h : PinCount ls c) (hd : ∀ p, pinDelta p l = 0) (hb : c'.blockedFiles = c.blockedFiles) :
    PinCount (ls ++ [l]) c' := by
  intro p
  rw [outstanding_snoc, hd, add_zero, hb]
  exact h p

@[simp] theorem blockedFiles_add (cfg : Config) (alist : List Str) (k : Str) (fr : CacheRecord) (c : SipiCache) :
    (c.add cfg alist k fr).1.blockedFiles = c.blockedFiles := by
  have hp : ((c.unlinkExisting k).purge cfg alist).1.blockedFiles = c.blockedFiles := by simp
  simp only [SipiCache.add]
  split
  · exact hp
  · exact hp

@[simp] theorem blockedFiles_remove (cfg : Config) (k : Str) (c : SipiCache) :
    (c.remove cfg k).1.blockedFiles = c.blockedFiles :=
  SipiCache.remove_keeps (P := fun c' => c'.blockedFiles = c.blockedFiles) rfl k fun _ _ _ => rfl

theorem blockedFiles_check (cfg : Config) (mtime : ℤ) (k : Str) (blockFile : Bool) (now : ℤ) (c : SipiCache) :
    (c.check cfg mtime k blockFile now).1.blockedFiles =
      match blockFile, (c.check cfg mtime k blockFile now).2 with
      | true, some res => c.blockedFiles.insert res ((c.blockedFiles.lookup res).getD 0 + 1)
      | _, _ => c.blockedFiles := by
  rcases c.check_cases cfg mtime k blockFile now with ⟨-, hc⟩ | ⟨r, -, ⟨-, hc⟩ | ⟨-, hb, hc⟩ | ⟨-, hb, hc⟩⟩
  · rw [hc]
    cases blockFile <;> rfl
  · rw [hc]
    cases blockFile <;> rfl
  · rw [hc, hb]
    rfl
  · rw [hc, hb]
    rfl

variable {cfg : Config}

theorem pinCount_check (h : PinCount ls c) (mtime : Option ℤ) (k : Str) (blockFile : Bool) (now : ℤ) :
    PinCount (ls ++ [(next cfg c (.check mtime k blockFile now)).1]) (next cfg c (.check mtime k blockFile now)).2 := by
  cases mtime with
  | none => exact h.frame (fun p => by cases blockFile <;> rfl) rfl
  | some mtime =>
    have hb := blockedFiles_check cfg mtime k blockFile now c
    simp only [next, exec]
    generalize c.check cfg mtime k blockFile now = checked at hb
    obtain ⟨c', res⟩ := checked
    cases blockFile with
    | false => exact h.frame (fun p => rfl) hb
    | true =>
      cases res with
      | none => exact h.frame (fun p => rfl) hb
      | some res =>
        intro p
        obtain ⟨hn, hl⟩ := h p
        have hi : c'.blockedFiles = c.blockedFiles.insert res ((c.blockedFiles.lookup res).getD 0 + 1) := hb
        rw [outstanding_snoc, hi]
        by_cases hp : res = p
        · have hd : pinDelta p (.check (some mtime) k true now, .checked (some res)) = 1 := if_pos hp
          rw [hd, hp, AList.lookup_insert, hl, stored_getD, stored, if_neg (by omega)]
          exact ⟨by omega, rfl⟩
        · have hd : pinDelta p (.check (some mtime) k true now, .checked (some res)) = 0 := if_neg hp
          rw [hd, add_zero, AList.lookup_insert_ne (Ne.symm hp)]
          exact ⟨hn, hl⟩

theorem pinCount_deblock (h : PinCount ls c) {res : Str}
    (ho : 0 < outstanding res ls) : PinCount (ls ++ [(.deblock res, .unit)]) (c.deblock res) := by
  intro p
  obtain ⟨hn, hl⟩ := h p
  obtain ⟨-, hr⟩ := h res
  rw [stored, if_neg (by omega)] at hr
  rw [outstanding_snoc, SipiCache.deblock, hr]
  dsimp only
  by_cases hp : res = p
  · subst hp
    have hd : pinDelta res (.deblock res, .unit) = -1 := if_pos rfl
    rw [hd, stored]
    split
    · next hls =>
      rw [if_pos (by omega)]
      exact ⟨by omega, AList.lookup_erase res _⟩
    · next hm =>
      rw [if_neg (by omega)]
      exact ⟨by omega, AList.lookup_insert _⟩
  · have hd : pinDelta p (.deblock res, .unit) = 0 := if_neg hp
    rw [hd, add_zero, ← hl]
    split
    · exact ⟨hn, AList.lookup_erase_ne (Ne.symm hp)⟩
    · exact ⟨hn, AList.lookup_insert_ne (Ne.symm hp)⟩

theorem pinCount_step (h : PinCount ls c) (hb : GivesBack ls l) (hs : Step cfg c l c') :
    PinCount (ls ++ [l]) c' := by
  obtain ⟨e, hl⟩ := hs
  cases e with
  | check mtime canonical blockFile now => exact pinCount_check h mtime canonical blockFile now
  | deblock res => exact pinCount_deblock h hb
  | getNewCacheFileName | discard => exact h.frame (fun _ => rfl) rfl
  | add canonical fr alist => exact h.frame (fun _ => rfl) (blockedFiles_add cfg alist canonical fr c)
  | remove canonical => exact h.frame (fun _ => rfl) (blockedFiles_remove cfg canonical c)
  | purge alist => exact h.frame (fun _ => rfl) (blockedFiles_purge cfg alist c)

theorem blockedFiles_foldl_loadRecord (rs : List (Str × CacheRecord)) (c : SipiCache) :
    (rs.foldl loadRecord c).blockedFiles = c.blockedFiles := by
  induction rs generalizing c with
  | nil => rfl
  | cons r rs ih =>
    rw [List.foldl_cons, ih, loadRecord]
    split <;> rfl

theorem blockedFiles_removeOrphans (c : SipiCache) : (removeOrphans c).blockedFiles = c.blockedFiles := rfl

theorem blockedFiles_load (index : Index) (disk : Finset Str) : (load index disk).blockedFiles = ∅ := by
  cases index with
  | missing | corrupted => rfl
  | records rs =>
    rw [load_records, blockedFiles_removeOrphans, blockedFiles_foldl_loadRecord]
    rfl

theorem blockedFiles_construct (cfg : Config) (index : Index) (disk : Finset Str) (alist : List Str) :
    (construct cfg index disk alist).blockedFiles = ∅ := by
  rw [construct, blockedFiles_purge, blockedFiles_load]

theorem pinCount_of_run {index : Index} {disk : Finset Str} {alist : List Str}
    (hr : Run (Step cfg) (construct cfg index disk alist) ls c) (hmt : Matched ls) : PinCount ls c := by
  refine hr.history (fun ls c => Matched ls → PinCount ls c) (fun _ p => ?_)
    (fun ls c l c' _ ih hs hm => pinCount_step (ih (matched_snoc hm).1) (matched_snoc hm).2 hs) hmt
  rw [blockedFiles_construct]
  exact ⟨le_rfl, rfl⟩

/-! ### Pinned files belong to entries -/

/-- A pinned file is the file of an entry. -/
def PinsHeld (cfg : Config) (c : SipiCache) : Prop :=
  ∀ p, c.isBlocked p = true → ∃ k r, c.cachetable.lookup k = some r ∧ cfg.path r.cachepath = p

/-- The file that an `add` replaces is not pinned. -/
def SparesPinned (cfg : Config) (c : SipiCache) : Event × Response → Prop
  | (.add canonical _ _, _) => ¬ c.Pinned cfg canonical
  | _ => True

instance (cfg : Config) (c : SipiCache) : (l : Event × Response) → Decidable (SparesPinned cfg c l)
  | (.add _ _ _, _) => inferInstanceAs (Decidable (¬ _))
  | (.check .., _) | (.deblock _, _) | (.getNewCacheFileName _, _) | (.discard _, _) | (.remove _, _)
  | (.purge _, _) => inferInstanceAs (Decidable True)

theorem SparesPinned.keepsReplaced (h : SparesPinned cfg c l) : KeepsReplaced cfg c l := by
  obtain ⟨e, r⟩ := l
  cases e with
  | add canonical fr alist => exact fun hp => absurd hp h
  | _ => trivial

section Held

variable {cfg : Config} {c : SipiCache}

section
variable (h : PinsHeld cfg c)
include h

theorem PinsHeld.evict {k : Str} {r : CacheRecord} (hr : c.cachetable.lookup k = some r)
    (hb : c.isBlocked (cfg.path r.cachepath) = false) : PinsHeld cfg (c.evict k r) := by
  intro p hp
  obtain ⟨k', r', hr', rfl⟩ := h p hp
  refine ⟨k', r', ?_, rfl⟩
  rw [lookup_evict_of_ne c k r ?_, hr']
  rintro rfl
  rw [hr] at hr'
  cases hr'
  rw [isBlocked_evict, hb] at hp
  cases hp

theorem PinsHeld.purge (alist : List Str) : PinsHeld cfg (c.purge cfg alist).1 :=
  purge_induction (fun _ _ _ hc hr hb => hc.evict hr hb) alist h

theorem PinsHeld.of_table (hb : ∀ p, c'.isBlocked p = true → c.isBlocked p = true)
    (ht : ∀ k r, c.cachetable.lookup k = some r → c.isBlocked (cfg.path r.cachepath) = true →
      ∃ r', c'.cachetable.lookup k = some r' ∧ r'.cachepath = r.cachepath) : PinsHeld cfg c' := by
  intro p hp
  obtain ⟨k, r, hr, rfl⟩ := h p (hb p hp)
  obtain ⟨r', hr', heq⟩ := ht k r hr (hb _ hp)
  exact ⟨k, r', hr', by rw [heq]⟩

theorem PinsHeld.congr (ht : c'.cachetable = c.cachetable)
    (hb : ∀ p, c'.isBlocked p = true → c.isBlocked p = true) : PinsHeld cfg c' :=
  h.of_table hb fun _ r hr _ => ⟨r, ht ▸ hr, rfl⟩

theorem PinsHeld.deblock (res : Str) : PinsHeld cfg (c.deblock res) := by
  have hl : ∀ p, (c.deblock res).isBlocked p = true → c.isBlocked p = true := by
    intro p hp
    unfold SipiCache.deblock at hp
    split at hp
    · exact hp
    · next n hn =>
      by_cases hne : p = res
      · subst hne
        split at hp
        · simp [SipiCache.isBlocked, AList.lookup_erase] at hp
        · simp only [SipiCache.isBlocked, AList.lookup_insert, Option.getD_some, decide_eq_true_iff, hn] at hp ⊢
          omega
      · split at hp
        · simpa [SipiCache.isBlocked, AList.lookup_erase_ne hne] using hp
        · simpa [SipiCache.isBlocked, AList.lookup_insert_ne hne] using hp
  refine h.congr ?_ hl
  rw [SipiCache.deblock_eq]

theorem PinsHeld.check (mtime : ℤ) (k : Str) (blockFile : Bool) (now : ℤ) :
    PinsHeld cfg (c.check cfg mtime k blockFile now).1 := by
  refine SipiCache.check_keeps h mtime k blockFile now (fun r hr => ?_) fun r ht p hp => ?_
  · refine h.of_table (fun _ hp => hp) fun k' r' hr' _ => ?_
    by_cases hne : k' = k
    · subst hne
      rw [hr] at hr'
      cases hr'
      exact ⟨_, AList.lookup_insert _, rfl⟩
    · exact ⟨r', (AList.lookup_insert_ne hne).trans hr', rfl⟩
  · -- the new pin is that of the entry
    by_cases hne : p = cfg.path r.cachepath
    · exact ⟨k, _, AList.lookup_insert _, hne.symm⟩
    · refine ht p ?_
      simpa [SipiCache.isBlocked, SipiCache.pin, AList.lookup_insert_ne hne] using hp

theorem PinsHeld.add {k : Str} (hs : ¬ c.Pinned cfg k) (alist : List Str)
    (fr : CacheRecord) : PinsHeld cfg (c.add cfg alist k fr).1 := by
  have hu : PinsHeld cfg (c.unlinkExisting k) := by
    refine h.congr (cachetable_unlinkExisting c k) fun p hp => ?_
    simpa [SipiCache.isBlocked] using hp
  have hpr := hu.purge alist
  simp only [SipiCache.add]
  split
  · exact hpr.congr rfl fun _ hp => hp
  · refine hpr.of_table (fun _ hp => hp) fun k' r hr hb => ?_
    by_cases hne : k' = k
    · -- the entry that is replaced has no pinned file
      subst hne
      have hl : c.cachetable.lookup k' = some r := by simpa using lookup_of_purge hr
      exact absurd ⟨r, hl, by simpa [SipiCache.isBlocked] using hb⟩ hs
    · exact ⟨r, (AList.lookup_insert_ne hne).trans hr, rfl⟩

theorem PinsHeld.remove (k : Str) : PinsHeld cfg (c.remove cfg k).1 :=
  SipiCache.remove_keeps h k fun _ hr hb => h.evict hr hb

end

end Held

/-- Every pinned file is the file of an entry. -/
structure Safe (cfg : Config) (c : SipiCache) : Prop where
  live : Live none c
  held : PinsHeld cfg c

theorem Config.path_injective (cfg : Config) : Function.Injective cfg.path := fun _ _ h => List.append_cancel_left h

theorem Safe.onDisk (h : Safe cfg c) {p : Str} (hp : c.isBlocked p = true) : ∃ name ∈ c.disk, p = cfg.path name := by
  obtain ⟨k, r, hr, rfl⟩ := h.held p hp
  exact ⟨r.cachepath, h.live.onDisk k r hr (by simp), rfl⟩

theorem safe_step (h : Safe cfg c) (hs : When (SparesPinned cfg) (Step cfg) c l c') : Safe cfg c' := by
  have hl : Live none c' := live_step h.live ⟨hs.1.keepsReplaced, hs.2⟩
  refine ⟨hl, ?_⟩
  obtain ⟨hsp, ⟨e, hlg⟩⟩ := hs
  cases e with
  | check mtime canonical blockFile now =>
    cases mtime with
    | none => exact h.held
    | some mtime => exact h.held.check mtime canonical blockFile now
  | deblock res => exact h.held.deblock res
  | getNewCacheFileName | discard => exact h.held.congr rfl fun _ hp => hp
  | add canonical fr alist => exact h.held.add hsp alist fr
  | remove canonical => exact h.held.remove canonical
  | purge alist => exact h.held.purge alist

theorem isBlocked_or_disk_step (hs : Step cfg c l c') {p : Str}
    (hp : c.isBlocked p = true) : c'.isBlocked p = true ∨ c'.disk = c.disk := by
  have hsm : c'.blockedFiles = c.blockedFiles → c'.isBlocked p = true ∨ c'.disk = c.disk := fun heq =>
    Or.inl (by rw [SipiCache.isBlocked, heq]; exact hp)
  obtain ⟨e, hl⟩ := hs
  cases e with
  | check mtime canonical blockFile now =>
    cases mtime with
    | none => exact hsm rfl
    | some mtime =>
      refine Or.inr ?_
      exact SipiCache.check_keeps (P := fun c' => c'.disk = c.disk) rfl mtime canonical blockFile now (fun _ _ => rfl)
        fun _ _ => rfl
  | deblock res =>
    refine Or.inr ?_
    show (c.deblock res).disk = c.disk
    rw [SipiCache.deblock_eq]
  | getNewCacheFileName | discard => exact hsm rfl
  | add canonical fr alist => exact hsm (blockedFiles_add cfg alist canonical fr c)
  | remove canonical => exact hsm (blockedFiles_remove cfg canonical c)
  | purge alist => exact hsm (blockedFiles_purge cfg alist c)

theorem Safe.stays (h : Safe cfg c)
    (hs : When (SparesPinned cfg) (Step cfg) c l c') {name : Str} (hp : c.isBlocked (cfg.path name) = true)
    (hn : name ∈ c.disk) : name ∈ c'.disk := by
  rcases isBlocked_or_disk_step hs.2 hp with hp' | hd
  · obtain ⟨other, ho, heq⟩ := (safe_step h hs).onDisk hp'
    rw [cfg.path_injective heq]
    exact ho
  · rwa [hd]

/-- **Pinned files survive**, in every run with matched `deblock`s in which no `add` replaces a pinned file: the
count of a path is the number of its pins that are out, and no step takes a pinned file off the directory. -/
theorem pinned_of_run (cfg : Config) {index : Index} {disk : Finset Str} (alist : List Str)
    (hindex : IndexNames disk index) {ls : List (Event × Response)} {c : SipiCache}
    (hrun : Run (When (SparesPinned cfg) (Step cfg)) (construct cfg index disk alist) ls c) (hmatched : Matched ls) :
    (∀ p, c.blockedFiles.lookup p = if outstanding p ls = 0 then none else some (outstanding p ls)) ∧
      ∀ p, 0 < outstanding p ls → ∃ name ∈ c.disk, p = cfg.path name ∧
        ∀ l c', When (SparesPinned cfg) (Step cfg) c l c' → name ∈ c'.disk := by
  have hc : PinCount ls c := pinCount_of_run (hrun.mono fun _ _ _ hs => hs.2) hmatched
  have hi : Safe cfg (construct cfg index disk alist) := by
    refine ⟨(live_load hindex).purge cfg alist, fun p hp => ?_⟩
    rw [SipiCache.isBlocked, blockedFiles_construct] at hp
    cases hp
  have hsf := hrun.invariant (Safe cfg) hi fun _ _ _ h hs => safe_step h hs
  refine ⟨fun p => (hc p).2, fun p hp => ?_⟩
  have hb := (hc.isBlocked p).mpr hp
  obtain ⟨name, hn, rfl⟩ := hsf.onDisk hb
  exact ⟨name, hn, rfl, fun l c' hs => hsf.stays hs hb hn⟩

theorem pinned_twice_stays :
    ∃ ls c, Run (When (SparesPinned hundredBytes) (Step hundredBytes)) (construct hundredBytes .missing ∅ []) ls c ∧
      0 < outstanding (txt "cache/a") ls ∧ ∃ name ∈ c.disk, txt "cache/a" = hundredBytes.path name := by
  have hr : Run (When (SparesPinned hundredBytes) (Step hundredBytes)) (construct hundredBytes .missing ∅ []) _ _ :=
    run_script (fun c e h => ⟨h.1, Step.exec c e h.2⟩)
      (show Allowed (fun c e => SparesPinned hundredBytes c (next hundredBytes c e).1 ∧ e.Legal c) (next hundredBytes) _
        [.getNewCacheFileName (txt "a"), .add (txt "x") (sampleFile "a" 70 1) [],
          .getNewCacheFileName (txt "b"), .add (txt "y") (sampleFile "b" 70 2) [txt "x"],
          .check (some 0) (txt "x") true 0, .check (some 0) (txt "x") true 1, .purge [txt "x", txt "y"],
          .deblock (txt "cache/a")] by decide)
  obtain ⟨name, hn, heq, -⟩ :=
    (pinned_of_run hundredBytes [] (show IndexNames ∅ .missing from trivial) hr (by decide)).2 (txt "cache/a")
      (by decide)
  exact ⟨_, _, hr, by decide, name, hn, heq⟩

theorem pinned_file_unlinked :
    ∃ ls c, Run (Step hundredBytes) (construct hundredBytes .missing ∅ []) ls c ∧ Matched ls ∧
      0 < outstanding (txt "cache/a") ls ∧ txt "a" ∈ c.disk ∧
      ∃ l c', Step hundredBytes c l c' ∧ txt "a" ∉ c'.disk := by
  have hr := run_script Step.exec
    (show Allowed (fun c e => e.Legal c) (next hundredBytes) (construct hundredBytes .missing ∅ [])
      [.getNewCacheFileName (txt "a"), .add (txt "x") (sampleFile "a" 10 1) [],
        .check (some 1) (txt "x") true 2, .check (some 3) (txt "x") true 4,
        .getNewCacheFileName (txt "b")] by decide)
  exact ⟨_, _, hr, by decide, by decide, by decide, _, _,
    Step.exec _ (.add (txt "x") (sampleFile "b" 20 5) [txt "x"]) (by decide), by decide⟩

end Sipi.Cache
