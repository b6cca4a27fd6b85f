import Sipi.Cache.Files

/-!
# What holds of every entry

A statement about the entries, one by one, that does not depend on when an entry was last used is kept by
everything but the registration of a file: only `add` makes an entry.
-/

namespace Sipi.Cache

open Sipi.Iiif Sipi.Theory

/-- Every entry meets a statement. -/
def Entries (P : Str → CacheRecord → Prop) (c : SipiCache) : Prop :=
  ∀ k r, c.cachetable.lookup k = some r → P k r

/-- It does not depend on when an entry was used. -/
def Timeless (P : Str → CacheRecord → Prop) : Prop := ∀ k r t, P k r → P k { r with accessTime := t }

section Entries

variable {cfg : Config} {P Q : Str → CacheRecord → Prop} {c c' : SipiCache}

theorem Entries.mono (h : Entries P c) (hi : ∀ k r, c.cachetable.lookup k = some r → P k r → Q k r) : Entries Q c :=
  fun k r hr => hi k r hr (h k r hr)

theorem Entries.of_table (h : Entries P c) (ht : c'.cachetable = c.cachetable) : Entries P c' := by
  intro k r hr
  rw [ht] at hr
  exact h k r hr

theorem Entries.purge (h : Entries P c) (cfg : Config) (alist : List Str) : Entries P (c.purge cfg alist).1 :=
  fun k r hr => h k r (lookup_of_purge hr)

theorem Entries.insert {k : Str} {r : CacheRecord} (h : Entries P c) (hr : P k r)
    (ht : c'.cachetable = c.cachetable.insert k r) : Entries P c' := by
  intro k' r' hr'
  rw [ht] at hr'
  obtain ⟨rfl, rfl⟩ | ⟨_, hr'⟩ := lookup_of_lookup_insert hr'
  · exact hr
  · exact h k' r' hr'

theorem Entries.check (hP : Timeless P) (h : Entries P c) (mtime : ℤ) (k : Str) (blockFile : Bool) (now : ℤ) :
    Entries P (c.check cfg mtime k blockFile now).1 := by
  refine SipiCache.check_keeps h mtime k blockFile now (fun r hr => ?_) fun r ht => ht.of_table rfl
  exact h.insert (hP k r now (h k r hr)) rfl

theorem Entries.deblock (h : Entries P c) (res : Str) : Entries P (c.deblock res) := by
  rw [SipiCache.deblock_eq]
  exact h.of_table rfl

theorem Entries.remove (h : Entries P c) (k : Str) : Entries P (c.remove cfg k).1 :=
  SipiCache.remove_keeps h k fun _ _ _ k' r' hr' => h k' r' (lookup_of_evict hr').2

theorem Entries.add (h : Entries P c) {k : Str} {fr : CacheRecord} (hfr : P k fr) (alist : List Str) :
    Entries P (c.add cfg alist k fr).1 := by
  have hp : Entries P ((c.unlinkExisting k).purge cfg alist).1 :=
    (h.of_table (cachetable_unlinkExisting c k)).purge cfg alist
  simp only [SipiCache.add]
  split
  · exact hp.of_table rfl
  · exact hp.insert hfr rfl

theorem Entries.step (hP : Timeless P) (h : Entries P c) (e : Event)
    (ha : ∀ k fr alist, e = .add k fr alist → P k fr) : Entries P (exec cfg c e).2 := by
  cases e with
  | check mtime k blockFile now =>
    cases mtime with
    | none => exact h
    | some mtime => exact h.check hP mtime k blockFile now
  | deblock res => exact h.deblock res
  | getNewCacheFileName | discard => exact h.of_table rfl
  | add k fr alist => exact h.add (ha k fr alist rfl) alist
  | remove k => exact h.remove k
  | purge alist => exact h.purge cfg alist

end Entries

/-- An entry that is not older than the original. -/
def SipiCache.alive (c : SipiCache) (mtime : ℤ) (k : Str) : Option CacheRecord :=
  (c.cachetable.lookup k).filter fun r => mtime ≤ r.mtime

theorem alive_eq_some {c : SipiCache} {mtime : ℤ} {k : Str} {r : CacheRecord} :
    c.alive mtime k = some r ↔ c.cachetable.lookup k = some r ∧ mtime ≤ r.mtime := by
  simp [SipiCache.alive, Option.filter_eq_some_iff]

theorem check_eq (cfg : Config) (c : SipiCache) (mtime : ℤ) (k : Str) (blockFile : Bool) (now : ℤ) :
    (c.check cfg mtime k blockFile now).2 = (c.alive mtime k).map fun r => cfg.path r.cachepath := by
  unfold SipiCache.check SipiCache.alive
  cases hr : c.cachetable.lookup k with
  | none => rfl
  | some r =>
    by_cases ho : r.mtime < mtime
    · simp [ho]
    · have hle : mtime ≤ r.mtime := not_lt.mp ho
      cases blockFile <;> simp [ho, hle]

end Sipi.Cache
