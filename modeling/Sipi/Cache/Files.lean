import Sipi.Cache.Accounting

/-!
# Every entry has its file

A hit hands out the path of a cache file, so an entry whose file is gone turns every later request for it into an
error.
-/

namespace Sipi.Cache

open Sipi.Iiif Sipi.Theory

/-! ### The invariant -/

/-- Each entry has a file, and each of these is one entry's. -/
structure Live (skip : Option Str) (c : SipiCache) : Prop where
  onDisk : ∀ k r, c.cachetable.lookup k = some r → skip ≠ some k → r.cachepath ∈ c.disk
  distinct : ∀ k k' r r', c.cachetable.lookup k = some r → c.cachetable.lookup k' = some r' →
    r.cachepath = r'.cachepath → k = k'
  pendingOnDisk : ∀ name ∈ c.pending, name ∈ c.disk
  notPending : ∀ k r, c.cachetable.lookup k = some r → r.cachepath ∉ c.pending

variable {k : Str} {r : CacheRecord}

section Operations

variable {cfg : Config} {skip : Option Str} {c : SipiCache}

theorem Live.drop (h : Live none c) (hr : c.cachetable.lookup k = some r) :
    Live (some k) (c.dropFile r) where
  onDisk k' r' hr' hne := by
    refine Finset.mem_erase.mpr ⟨fun heq => hne ?_, h.onDisk k' r' hr' (by simp)⟩
    rw [h.distinct k k' r r' hr hr' heq.symm]
  distinct := h.distinct
  pendingOnDisk name hn :=
    Finset.mem_erase.mpr ⟨fun heq => h.notPending k r hr (heq ▸ hn), h.pendingOnDisk name hn⟩
  notPending := h.notPending

theorem Live.skip_of_lookup_none (h : Live none c) (k : Str) : Live (some k) c where
  onDisk k' r hr _ := h.onDisk k' r hr (by simp)
  distinct := h.distinct
  pendingOnDisk := h.pendingOnDisk
  notPending := h.notPending

theorem Live.of_lookup_none (h : Live (some k) c) (hn : c.cachetable.lookup k = none) :
    Live none c where
  onDisk k' r hr _ := by
    refine h.onDisk k' r hr fun heq => ?_
    cases heq
    rw [hn] at hr
    cases hr
  distinct := h.distinct
  pendingOnDisk := h.pendingOnDisk
  notPending := h.notPending

theorem lookup_of_evict {k' : Str} {r' : CacheRecord} (h : (c.evict k r).cachetable.lookup k' = some r') :
    k' ≠ k ∧ c.cachetable.lookup k' = some r' := by
  by_cases hne : k' = k
  · subst hne
    rw [SipiCache.evict, AList.lookup_erase] at h
    cases h
  · exact ⟨hne, by rwa [lookup_evict_of_ne c k r hne] at h⟩

theorem Live.evict (h : Live skip c) (hr : c.cachetable.lookup k = some r) :
    Live skip (c.evict k r) where
  onDisk k' r' hr' hs := by
    obtain ⟨hne, hr'⟩ := lookup_of_evict hr'
    exact Finset.mem_erase.mpr ⟨fun heq => hne (h.distinct k' k r' r hr' hr heq), h.onDisk k' r' hr' hs⟩
  distinct k₁ k₂ r₁ r₂ h₁ h₂ := h.distinct k₁ k₂ r₁ r₂ (lookup_of_evict h₁).2 (lookup_of_evict h₂).2
  pendingOnDisk name hn :=
    Finset.mem_erase.mpr ⟨fun heq => h.notPending k r hr (heq ▸ hn), h.pendingOnDisk name hn⟩
  notPending k' r' hr' := h.notPending k' r' (lookup_of_evict hr').2

theorem Live.purge (h : Live skip c) (cfg : Config) (alist : List Str) : Live skip (c.purge cfg alist).1 :=
  purge_induction (fun _ _ _ hc hr _ => hc.evict hr) alist h

theorem Live.discard (h : Live skip c) {name : Str} (hn : name ∈ c.pending) :
    Live skip { c with disk := c.disk.erase name, pending := c.pending.erase name } where
  onDisk k r hr hs :=
    Finset.mem_erase.mpr ⟨fun heq => h.notPending k r hr (heq ▸ hn), h.onDisk k r hr hs⟩
  distinct := h.distinct
  pendingOnDisk other ho := by
    obtain ⟨hne, ho⟩ := Finset.mem_erase.mp ho
    exact Finset.mem_erase.mpr ⟨hne, h.pendingOnDisk other ho⟩
  notPending k r hr hm := h.notPending k r hr (Finset.mem_of_mem_erase hm)

theorem Live.handOut (h : Live none c) {name : Str} (hn : name ∉ c.disk) :
    Live none { c with disk := insert name c.disk, pending := insert name c.pending } where
  onDisk k r hr hs := Finset.mem_insert_of_mem (h.onDisk k r hr hs)
  distinct := h.distinct
  pendingOnDisk other ho := by
    rcases Finset.mem_insert.mp ho with rfl | ho
    · exact Finset.mem_insert_self _ _
    · exact Finset.mem_insert_of_mem (h.pendingOnDisk other ho)
  notPending k r hr hm := by
    rcases Finset.mem_insert.mp hm with heq | hm
    · exact hn (heq ▸ h.onDisk k r hr (by simp))
    · exact h.notPending k r hr hm

theorem Live.touch (h : Live none c) {r' : CacheRecord} (hr : c.cachetable.lookup k = some r)
    (hp : r'.cachepath = r.cachepath) : Live none { c with cachetable := c.cachetable.insert k r' } := by
  have ho : ∀ k₁ r₁, (c.cachetable.insert k r').lookup k₁ = some r₁ →
      ∃ r₂, c.cachetable.lookup k₁ = some r₂ ∧ r₁.cachepath = r₂.cachepath := by
    intro k₁ r₁ h₁
    obtain ⟨rfl, rfl⟩ | ⟨_, h₁⟩ := lookup_of_lookup_insert h₁
    · exact ⟨r, hr, hp⟩
    · exact ⟨r₁, h₁, rfl⟩
  constructor
  · intro k₁ r₁ h₁ hs
    obtain ⟨r₂, h₂, heq⟩ := ho k₁ r₁ h₁
    exact heq ▸ h.onDisk k₁ r₂ h₂ hs
  · intro k₁ k₂ r₁ r₂ h₁ h₂ heq
    obtain ⟨s₁, hs₁, heq₁⟩ := ho k₁ r₁ h₁
    obtain ⟨s₂, hs₂, heq₂⟩ := ho k₂ r₂ h₂
    exact h.distinct k₁ k₂ s₁ s₂ hs₁ hs₂ (by rw [← heq₁, ← heq₂, heq])
  · exact h.pendingOnDisk
  · intro k₁ r₁ h₁
    obtain ⟨r₂, h₂, heq⟩ := ho k₁ r₁ h₁
    exact heq ▸ h.notPending k₁ r₂ h₂

theorem Live.admitFile (h : Live (some k) c) {fr : CacheRecord} (hfr : fr.cachepath ∈ c.pending) :
    Live none (c.admitFile k fr) := by
  have hc : ∀ k₁ r₁, (c.cachetable.insert k fr).lookup k₁ = some r₁ →
      (k₁ = k ∧ r₁ = fr) ∨ (k₁ ≠ k ∧ c.cachetable.lookup k₁ = some r₁) := fun _ _ => lookup_of_lookup_insert
  constructor
  · intro k₁ r₁ h₁ _
    obtain ⟨rfl, rfl⟩ | ⟨hne, h₁⟩ := hc k₁ r₁ h₁
    · exact h.pendingOnDisk _ hfr
    · exact h.onDisk k₁ r₁ h₁ fun heq => hne (Option.some.inj heq).symm
  · intro k₁ k₂ r₁ r₂ h₁ h₂ heq
    obtain ⟨rfl, rfl⟩ | ⟨_, hr₁⟩ := hc k₁ r₁ h₁
    · obtain ⟨rfl, rfl⟩ | ⟨_, hr₂⟩ := hc k₂ r₂ h₂
      · rfl
      · exact absurd (heq ▸ hfr) (h.notPending k₂ r₂ hr₂)
    · obtain ⟨rfl, rfl⟩ | ⟨_, hr₂⟩ := hc k₂ r₂ h₂
      · exact absurd (heq ▸ hfr) (h.notPending k₁ r₁ hr₁)
      · exact h.distinct k₁ k₂ r₁ r₂ hr₁ hr₂ heq
  · intro name hn
    exact h.pendingOnDisk name (Finset.mem_of_mem_erase hn)
  · intro k₁ r₁ h₁ hm
    obtain ⟨hne, hm⟩ := Finset.mem_erase.mp hm
    obtain ⟨rfl, rfl⟩ | ⟨_, h₁⟩ := hc k₁ r₁ h₁
    · exact hne rfl
    · exact h.notPending k₁ r₁ h₁ hm

theorem Live.unlinkExisting (h : Live none c) (k : Str) : Live (some k) (c.unlinkExisting k) := by
  unfold SipiCache.unlinkExisting
  split
  · next r hr => exact h.drop hr
  · exact h.skip_of_lookup_none k

end Operations

@[simp] theorem blockedFiles_unlinkExisting (k : Str) (c : SipiCache) :
    (c.unlinkExisting k).blockedFiles = c.blockedFiles := by
  unfold SipiCache.unlinkExisting
  split <;> rfl

@[simp] theorem pending_unlinkExisting (k : Str) (c : SipiCache) : (c.unlinkExisting k).pending = c.pending := by
  unfold SipiCache.unlinkExisting
  split <;> rfl

/-- The file of an entry is pinned. -/
def SipiCache.Pinned (cfg : Config) (c : SipiCache) (canonical : Str) : Prop :=
  ∃ r ∈ c.cachetable.lookup canonical, c.isBlocked (cfg.path r.cachepath) = true

instance (cfg : Config) (c : SipiCache) (canonical : Str) : Decidable (c.Pinned cfg canonical) :=
  inferInstanceAs (Decidable (∃ r ∈ _, _))

variable {cfg : Config} {c : SipiCache}

theorem Live.add {alist : List Str} {fr : CacheRecord} (h : Live none c)
    (hfr : fr.cachepath ∈ c.pending) (hs : c.Sorted alist)
    (hkp : c.Pinned cfg k → ¬ Fails cfg (c.unlinkExisting k) alist) : Live none (c.add cfg alist k fr).1 := by
  have hpr := (h.unlinkExisting k).purge cfg alist
  have hp : fr.cachepath ∈ ((c.unlinkExisting k).purge cfg alist).1.pending := by simpa using hfr
  simp only [SipiCache.add]
  split
  · next hf =>
    -- the purge has failed: the replaced entry is gone, for it was not pinned
    rw [purge_eq_neg_one_iff cfg hs.nodup] at hf
    refine (hpr.discard hp).of_lookup_none ?_
    show ((c.unlinkExisting k).purge cfg alist).1.cachetable.lookup k = none
    by_contra hsm
    obtain ⟨r, hr⟩ := Option.ne_none_iff_exists'.mp hsm
    have hl : c.cachetable.lookup k = some r := by simpa using lookup_of_purge hr
    have hk : k ∈ alist := hs.1.mem_iff.mpr (AList.mem_keys.mp (AList.lookup_isSome.mp (by simp [hl])))
    have hb := isBlocked_of_fails hs.nodup hf hk hr
    exact hkp ⟨r, hl, by simpa [SipiCache.isBlocked] using hb⟩ hf
  · exact hpr.admitFile hp

/-- No two records of the index share a file. -/
def IndexNames (disk : Finset Str) : Index → Prop
  | .missing | .corrupted => True
  | .records rs =>
    let ks := kept disk (rs.take (nrecords rs))
    ∀ r ∈ ks, ∀ r' ∈ ks, r.2.cachepath = r'.2.cachepath → r.1 = r'.1

theorem foldl_loadRecord (rs : List (Str × CacheRecord)) (c : SipiCache) :
    (rs.foldl loadRecord c).disk = c.disk ∧ (rs.foldl loadRecord c).pending = c.pending ∧
      ∀ k r, (rs.foldl loadRecord c).cachetable.lookup k = some r →
        c.cachetable.lookup k = some r ∨ (k, r) ∈ kept c.disk rs := by
  induction rs generalizing c with
  | nil => exact ⟨rfl, rfl, fun k r h => Or.inl h⟩
  | cons s rs ih =>
    obtain ⟨hd, hp, hl⟩ := ih (loadRecord c s)
    rw [List.foldl_cons]
    by_cases hs : s.2.cachepath ∈ c.disk
    · have hld : loadRecord c s = { c.pushFile s.2 with cachetable := c.cachetable.insert s.1 s.2 } := if_pos hs
      have hk : kept c.disk (s :: rs) = s :: kept c.disk rs := by simp [kept, hs]
      rw [hld] at hd hp hl ⊢
      refine ⟨hd, hp, fun k r h => ?_⟩
      rw [hk]
      rcases hl k r h with h | h
      · by_cases hne : k = s.1
        · subst hne
          have heq : s.2 = r := by simpa using h
          exact Or.inr (heq ▸ List.mem_cons_self ..)
        · exact Or.inl (by simpa [AList.lookup_insert_ne hne] using h)
      · exact Or.inr (List.mem_cons_of_mem s h)
    · have hld : loadRecord c s = c := if_neg hs
      have hk : kept c.disk (s :: rs) = kept c.disk rs := by simp [kept, hs]
      rw [hld] at hd hp hl ⊢
      rw [hk]
      exact ⟨hd, hp, hl⟩

theorem mem_names (h : c.cachetable.lookup k = some r) : r.cachepath ∈ c.names :=
  List.mem_map.mpr ⟨⟨k, r⟩, AList.mem_lookup_iff.mp h, rfl⟩

theorem Live.removeOrphans (h : Live none c) (hp : c.pending = ∅) :
    Live none (removeOrphans c) where
  onDisk k r hr hs := Finset.mem_filter.mpr ⟨h.onDisk k r hr hs, Or.inr (mem_names hr)⟩
  distinct := h.distinct
  pendingOnDisk name hn := by
    have hm : name ∈ c.pending := hn
    rw [hp] at hm
    exact absurd hm (Finset.notMem_empty name)
  notPending := h.notPending

theorem live_empty (disk : Finset Str) : Live none (empty disk) := by
  constructor
  · intro k r hr
    cases hr
  · intro k k' r r' hr
    cases hr
  · intro name hn
    exact absurd hn (Finset.notMem_empty name)
  · intro k r hr
    cases hr

theorem live_loadRecords {rs : List (Str × CacheRecord)} {disk : Finset Str}
    (h : ∀ r ∈ kept disk rs, ∀ r' ∈ kept disk rs, r.2.cachepath = r'.2.cachepath → r.1 = r'.1) :
    Live none (rs.foldl loadRecord (empty disk)) := by
  obtain ⟨hd, hp, hl⟩ := foldl_loadRecord rs (empty disk)
  have hk : ∀ k r, (rs.foldl loadRecord (empty disk)).cachetable.lookup k = some r → (k, r) ∈ kept disk rs := by
    intro k r hr
    exact (hl k r hr).resolve_left fun hnn => by cases hnn
  constructor
  · intro k r hr _
    rw [hd]
    exact of_decide_eq_true (List.mem_filter.mp (hk k r hr)).2
  · intro k k' r r' hr hr' heq
    exact h _ (hk k r hr) _ (hk k' r' hr') heq
  · intro name hn
    rw [hp] at hn
    exact absurd hn (Finset.notMem_empty name)
  · intro k r _ hm
    rw [hp] at hm
    exact absurd hm (Finset.notMem_empty _)

theorem live_load {index : Index} {disk : Finset Str} (h : IndexNames disk index) : Live none (load index disk) := by
  cases index with
  | missing | corrupted => exact live_empty _
  | records rs =>
    rw [load_records]
    exact (live_loadRecords h).removeOrphans (foldl_loadRecord _ (empty disk)).2.1

/-! ### Runs -/

/-- It is not refused while it replaces a pinned file. -/
def KeepsReplaced (cfg : Config) (c : SipiCache) : Event × Response → Prop
  | (.add canonical _ alist, _) => c.Pinned cfg canonical → ¬ Fails cfg (c.unlinkExisting canonical) alist
  | _ => True

instance (cfg : Config) (c : SipiCache) : (l : Event × Response) → Decidable (KeepsReplaced cfg c l)
  | (.add _ _ _, _) => inferInstanceAs (Decidable (_ → _))
  | (.check .., _) | (.deblock _, _) | (.getNewCacheFileName _, _) | (.discard _, _) | (.remove _, _)
  | (.purge _, _) => inferInstanceAs (Decidable True)

theorem Live.congr {skip : Option Str} {c' : SipiCache} (h : Live skip c) (ht : c'.cachetable = c.cachetable)
    (hd : c'.disk = c.disk) (hp : c'.pending = c.pending) : Live skip c' := by
  obtain ⟨h₁, h₂, h₃, h₄⟩ := h
  constructor
  · rwa [ht, hd]
  · rwa [ht]
  · rwa [hp, hd]
  · rwa [ht, hp]

theorem Live.check (h : Live none c) (mtime : ℤ) (canonical : Str) (blockFile : Bool)
    (now : ℤ) : Live none (c.check cfg mtime canonical blockFile now).1 :=
  SipiCache.check_keeps h mtime canonical blockFile now (fun _ hr => h.touch hr rfl) fun _ ht => ht.congr rfl rfl rfl

theorem Live.deblock (h : Live none c) (res : Str) : Live none (c.deblock res) := by
  rw [SipiCache.deblock_eq]
  exact h.congr rfl rfl rfl

theorem Live.remove (h : Live none c) (canonical : Str) : Live none (c.remove cfg canonical).1 :=
  SipiCache.remove_keeps h canonical fun _ hr _ => h.evict hr

theorem live_step {c' : SipiCache} {l : Event × Response} (h : Live none c)
    (hs : When (KeepsReplaced cfg) (Step cfg) c l c') : Live none c' := by
  obtain ⟨hk, ⟨e, hl⟩⟩ := hs
  cases e with
  | check mtime canonical blockFile now =>
    cases mtime with
    | none => exact h
    | some mtime => exact h.check mtime canonical blockFile now
  | deblock res => exact h.deblock res
  | getNewCacheFileName name => exact h.handOut hl
  | discard name => exact h.discard hl
  | add canonical fr alist =>
    obtain ⟨hp, _, hsr⟩ := hl
    exact h.add hp hsr hk
  | remove canonical => exact h.remove canonical
  | purge alist => exact h.purge cfg alist

theorem check_eq_some {mtime : ℤ} {canonical : Str} {blockFile : Bool} {now : ℤ} {p : Str}
    (h : (c.check cfg mtime canonical blockFile now).2 = some p) :
    ∃ r, c.cachetable.lookup canonical = some r ∧ ¬ r.mtime < mtime ∧ p = cfg.path r.cachepath := by
  rcases c.check_cases cfg mtime canonical blockFile now with ⟨-, hc⟩ | ⟨r, hr, hc⟩
  · rw [hc] at h
    cases h
  · rcases hc with ⟨-, hc⟩ | ⟨hf, -, hc⟩ | ⟨hf, -, hc⟩
    · rw [hc] at h
      cases h
    · rw [hc] at h
      exact ⟨r, hr, hf, (Option.some.inj h).symm⟩
    · rw [hc] at h
      exact ⟨r, hr, hf, (Option.some.inj h).symm⟩

/-- **Every entry has its file**, and every path that `check` hands out is that of a file that is
there, in every run from an index whose entries share no file in which no `add` that replaces a
pinned file is refused. -/
theorem live_of_run (cfg : Config) {index : Index} {disk : Finset Str} (alist : List Str)
    (hindex : IndexNames disk index) {ls : List (Event × Response)} {c : SipiCache}
    (hrun : Run (When (KeepsReplaced cfg) (Step cfg)) (construct cfg index disk alist) ls c) :
    (∀ k r, c.cachetable.lookup k = some r → r.cachepath ∈ c.disk) ∧
      ∀ mtime canonical blockFile now p, (c.check cfg mtime canonical blockFile now).2 = some p →
        ∃ name ∈ c.disk, p = cfg.path name := by
  have hi : Live none (construct cfg index disk alist) := (live_load hindex).purge cfg alist
  have hl := hrun.invariant (Live none) hi fun _ _ _ h hs => live_step h hs
  have hd : ∀ k r, c.cachetable.lookup k = some r → r.cachepath ∈ c.disk :=
    fun k r hr => hl.onDisk k r hr (by simp)
  refine ⟨hd, fun mtime canonical blockFile now p hp => ?_⟩
  obtain ⟨r, hr, -, rfl⟩ := check_eq_some hp
  exact ⟨r.cachepath, hd canonical r hr, rfl⟩

theorem live_of_pinned_replacement :
    ∃ ls c, Run (When (KeepsReplaced hundredBytes) (Step hundredBytes)) (construct hundredBytes .missing ∅ []) ls c ∧
      (c.cachetable.lookup (txt "x")).isSome = true ∧
      ∀ k r, c.cachetable.lookup k = some r → r.cachepath ∈ c.disk := by
  have hr : Run (When (KeepsReplaced hundredBytes) (Step hundredBytes)) (construct hundredBytes .missing ∅ []) _ _ :=
    run_script (fun c e h => ⟨h.1, Step.exec c e h.2⟩)
      (show Allowed (fun c e => KeepsReplaced hundredBytes c (next hundredBytes c e).1 ∧ e.Legal c) (next hundredBytes) _
        [.getNewCacheFileName (txt "a"), .add (txt "x") (sampleFile "a" 10 1) [],
          .check (some 0) (txt "x") true 2,
          .getNewCacheFileName (txt "b"), .add (txt "x") (sampleFile "b" 20 3) [txt "x"]] by decide)
  exact ⟨_, _, hr, by decide, (live_of_run hundredBytes [] (show IndexNames ∅ .missing from trivial) hr).1⟩

theorem entry_without_file :
    ∃ ls c r, Run (Step hundredBytes) (construct hundredBytes .missing ∅ []) ls c ∧
      c.cachetable.lookup (txt "x") = some r ∧ r.cachepath ∉ c.disk ∧
      (c.check hundredBytes 0 (txt "x") true 8).2 = some (hundredBytes.path r.cachepath) := by
  have hr := run_script Step.exec
    (show Allowed (fun c e => e.Legal c) (next hundredBytes) (construct hundredBytes .missing ∅ [])
      [.getNewCacheFileName (txt "a"), .add (txt "x") (sampleFile "a" 10 1) [],
        .getNewCacheFileName (txt "b"), .add (txt "y") (sampleFile "b" 60 2) [txt "x"],
        .getNewCacheFileName (txt "c"), .add (txt "z") (sampleFile "c" 60 3) [txt "x", txt "y"],
        .check (some 0) (txt "x") true 4, .check (some 0) (txt "y") true 5, .check (some 0) (txt "z") true 6,
        .getNewCacheFileName (txt "d"), .add (txt "x") (sampleFile "d" 5 7) [txt "x", txt "y", txt "z"]] by decide)
  exact ⟨_, _, ⟨⟨0, 0, 0, 0, 0, 0⟩, [], txt "a", 1, 4, 10⟩, hr, by decide, by decide, by decide⟩

end Sipi.Cache
