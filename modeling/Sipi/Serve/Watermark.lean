import Sipi.Cache.Entries
import Sipi.Cache.Pins
import Sipi.Serve.CacheKey

/-!
# Watermarks and the cache

A watermark is the answer of an access decision.

## Honest scope

A new file does not take the name of an entry that has lost its file.
-/

namespace Sipi.Serve

open Sipi.Iiif Sipi.Geometry Sipi.Theory Sipi.Cache

/-- A request, for the cache and the watermark. -/
structure Ask where
  key : Str
  watermark : Str
  keyed : ∃ place full r size, cacheKey place full r size = .ok key ∧ r.watermark = watermark

theorem getLast?_key (q : Ask) : q.key.getLast? = some (if q.watermark = [] then '0' else '1') := by
  obtain ⟨key, watermark, place, full, r, size, hk, rfl⟩ := q
  obtain ⟨found, text, ext, _, _, _, rfl⟩ := cacheKey_eq_ok hk
  have hne : watermarkText r.watermark ≠ [] := by
    unfold watermarkText
    split <;> decide
  refine (getLast?_intercalate '/' [place.host, place.pre, place.fullid, regionText found, text,
    rotationText r.rotation, qualityText r.quality ++ '.' :: ext] hne).trans ?_
  unfold watermarkText
  split <;> rfl

/-! ### The system -/

/-- The cache, and the watermark of each file. -/
structure Rendered where
  cache : SipiCache
  mark : Str → Str

/-- The body of a response. -/
structure Answer where
  mark : Str
  cached : Bool
  deriving DecidableEq

/-- What can happen. -/
inductive ServeEvent where
  | ask (q : Ask) (mtime now : ℤ)
  | encode (q : Ask) (name : Str)
  | publish (q : Ask) (fr : CacheRecord) (alist : List Str)
  | other (e : Event)

/-- What an event does, and the body it gives. -/
def serve (cfg : Config) (s : Rendered) : ServeEvent → Option Answer × Rendered
  | .ask q mtime now =>
    let (cache, res) := s.cache.check cfg mtime q.key true now
    match res with
    | some path => (some ⟨s.mark path, true⟩, { s with cache })
    | none => (some ⟨q.watermark, false⟩, { s with cache })
  | .encode q name =>
    (none, ⟨(exec cfg s.cache (.getNewCacheFileName name)).2, Function.update s.mark (cfg.path name) q.watermark⟩)
  | .publish q fr alist => (none, { s with cache := (exec cfg s.cache (.add q.key fr alist)).2 })
  | .other e => (none, { s with cache := (exec cfg s.cache e).2 })

/-- An event that is not a step of a serve. -/
def IsOther : Event → Prop
  | .deblock _ | .discard _ | .remove _ | .purge _ => True
  | .check .. | .getNewCacheFileName _ | .add .. => False

instance : (e : Event) → Decidable (IsOther e)
  | .deblock _ | .discard _ | .remove _ | .purge _ => inferInstanceAs (Decidable True)
  | .check .. | .getNewCacheFileName _ | .add .. => inferInstanceAs (Decidable False)

/-- What callers keep to: a serve has its own file. -/
def ServeEvent.Legal (cfg : Config) (s : Rendered) : ServeEvent → Prop
  | .ask .. => True
  | .encode _ name => (Event.getNewCacheFileName name).Legal s.cache
  | .publish q fr alist => (Event.add q.key fr alist).Legal s.cache ∧ s.mark (cfg.path fr.cachepath) = q.watermark
  | .other e => IsOther e ∧ e.Legal s.cache

/-- An event with its body and the next state. -/
def serveNext (cfg : Config) (s : Rendered) (e : ServeEvent) : (ServeEvent × Option Answer) × Rendered :=
  ((e, (serve cfg s e).1), (serve cfg s e).2)

/-- **One step of the system.** -/
inductive ServeStep (cfg : Config) : Rendered → ServeEvent × Option Answer → Rendered → Prop
  | serve (s : Rendered) (e : ServeEvent) (h : e.Legal cfg s) :
    ServeStep cfg s (serveNext cfg s e).1 (serveNext cfg s e).2

/-- No file with a watermark is registered, and no new file takes the name of an entry. -/
def Clear (s : Rendered) : ServeEvent × Option Answer → Prop
  | (.encode _ name, _) => name ∉ s.cache.names
  | (.publish q _ _, _) => q.watermark = []
  | (.ask .., _) | (.other _, _) => True

/-- What is stored has no watermark. -/
def Sound (cfg : Config) (s : Rendered) : Prop :=
  Entries (fun k r => k.getLast? = some '0' ∧ s.mark (cfg.path r.cachepath) = []) s.cache

section Steps

variable {cfg : Config} {s s' : Rendered}

theorem serve_ask (cfg : Config) (s : Rendered) (q : Ask) (mtime now : ℤ) :
    (serve cfg s (.ask q mtime now)).1 =
      some (match s.cache.alive mtime q.key with
        | some r => ⟨s.mark (cfg.path r.cachepath), true⟩
        | none => ⟨q.watermark, false⟩) := by
  have hc := check_eq cfg s.cache mtime q.key true now
  simp only [serve]
  cases ha : s.cache.alive mtime q.key with
  | none =>
    rw [ha] at hc
    rw [show (s.cache.check cfg mtime q.key true now).2 = none from hc]
  | some r =>
    rw [ha] at hc
    rw [show (s.cache.check cfg mtime q.key true now).2 = some (cfg.path r.cachepath) from hc]

theorem serve_ask_cache (cfg : Config) (s : Rendered) (q : Ask) (mtime now : ℤ) :
    (serve cfg s (.ask q mtime now)).2 = { s with cache := (s.cache.check cfg mtime q.key true now).1 } := by
  simp only [serve]
  split <;> rfl

theorem timeless_mark (cfg : Config) (mark : Str → Str) :
    Timeless fun k r => k.getLast? = some '0' ∧ mark (cfg.path r.cachepath) = [] :=
  fun _ _ _ h => h

theorem sound_step {l : ServeEvent × Option Answer} (h : Sound cfg s) (hs : ServeStep cfg s l s')
    (hc : Clear s l) : Sound cfg s' := by
  obtain ⟨e, hl⟩ := hs
  cases e with
  | ask q mtime now =>
    show Sound cfg (serve cfg s (.ask q mtime now)).2
    rw [serve_ask_cache]
    exact Entries.check (timeless_mark cfg s.mark) h mtime q.key true now
  | encode q name =>
    -- no entry has the new name
    refine Entries.of_table (h.mono fun k r hr hm => ⟨hm.1, ?_⟩) rfl
    have hne : cfg.path r.cachepath ≠ cfg.path name := fun heq =>
      hc (cfg.path_injective heq ▸ mem_names hr)
    show Function.update s.mark (cfg.path name) q.watermark (cfg.path r.cachepath) = []
    rw [Function.update_of_ne hne]
    exact hm.2
  | publish q fr alist =>
    refine Entries.step (timeless_mark cfg s.mark) h _ fun k fr' alist' heq => ?_
    obtain ⟨rfl, rfl, rfl⟩ := Event.add.inj heq
    have hn : q.watermark = [] := hc
    exact ⟨by rw [getLast?_key, if_pos hn], hl.2.trans hn⟩
  | other e =>
    refine Entries.step (timeless_mark cfg s.mark) h e fun k fr alist heq => ?_
    subst heq
    exact hl.1.elim

theorem alive_of_marked (h : Sound cfg s) {q : Ask} (hne : q.watermark ≠ []) (mtime : ℤ) :
    s.cache.alive mtime q.key = none := by
  cases ha : s.cache.alive mtime q.key with
  | none => rfl
  | some r =>
    have hz := (h q.key r (alive_eq_some.mp ha).1).1
    rw [getLast?_key, if_neg hne] at hz
    exact absurd (Option.some.inj hz) (by decide)

theorem body_of_ask (h : Sound cfg s) {q : Ask} {mtime now : ℤ} {b : Answer}
    (hb : (serve cfg s (.ask q mtime now)).1 = some b) :
    b.mark = q.watermark ∧ (q.watermark ≠ [] → b.cached = false) := by
  rw [serve_ask] at hb
  cases ha : s.cache.alive mtime q.key with
  | none =>
    rw [ha] at hb
    cases hb
    exact ⟨rfl, fun _ => rfl⟩
  | some r =>
    rw [ha] at hb
    cases hb
    have hp : q.watermark = [] := by
      by_contra hne
      rw [alive_of_marked h hne] at ha
      cases ha
    exact ⟨(h q.key r (alive_eq_some.mp ha).1).2.trans hp.symm, fun hne => absurd hp hne⟩

end Steps

/-- **Every body has the watermark of its request, and one with a watermark is not from the cache**, in
every run in which no file with a watermark is registered. -/
theorem watermark_of_run (cfg : Config) {s₀ s : Rendered} {ls : List (ServeEvent × Option Answer)}
    (hinit : Sound cfg s₀) (hrun : Run (When Clear (ServeStep cfg)) s₀ ls s) {q : Ask} {mtime now : ℤ} {b : Answer}
    (hmem : (ServeEvent.ask q mtime now, some b) ∈ ls) :
    b.mark = q.watermark ∧ (q.watermark ≠ [] → b.cached = false) := by
  have ha := hrun.history
    (fun ls s => Sound cfg s ∧ ∀ l ∈ ls, ∀ q mtime now b, l = (ServeEvent.ask q mtime now, some b) →
      b.mark = q.watermark ∧ (q.watermark ≠ [] → b.cached = false))
    ⟨hinit, fun l hl => absurd hl List.not_mem_nil⟩ ?_
  · exact ha.2 _ hmem q mtime now b rfl
  · rintro ls t l u _ ⟨hsn, hbf⟩ ⟨hc, hs⟩
    refine ⟨sound_step hsn hs hc, fun l' hl' => ?_⟩
    rcases List.mem_append.mp hl' with ho | hn
    · exact hbf l' ho
    · rintro q mtime now b rfl
      obtain rfl := List.mem_singleton.mp hn
      generalize hlb : (ServeEvent.ask q mtime now, some b) = l at hs
      obtain ⟨e, _⟩ := hs
      obtain ⟨rfl, hb⟩ := Prod.mk.inj hlb
      exact body_of_ask hsn hb.symm

/-! ### A run that keeps watermarks apart, and one that does not -/

instance (cfg : Config) (s : Rendered) : (e : ServeEvent) → Decidable (e.Legal cfg s)
  | .ask .. => inferInstanceAs (Decidable True)
  | .encode _ name => inferInstanceAs (Decidable ((Event.getNewCacheFileName name).Legal s.cache))
  | .publish .. => inferInstanceAs (Decidable (_ ∧ _))
  | .other _ => inferInstanceAs (Decidable (_ ∧ _))

instance (s : Rendered) : (l : ServeEvent × Option Answer) → Decidable (Clear s l)
  | (.encode .., _) => inferInstanceAs (Decidable (_ ∉ _))
  | (.publish .., _) => inferInstanceAs (Decidable (_ = _))
  | (.ask .., _) | (.other _, _) => inferInstanceAs (Decidable True)

def unmarked : Ask :=
  ⟨txt "example.org/iiif/portrait.png/0,0,100,1000/64,128/0/default.jpg/0", [], gallery, portrait,
    ask strip sixtyFourWide sixtyFourWide_valid 0 [], sixtyFourWide, by decide +kernel, rfl⟩

def markedA : Ask :=
  ⟨txt "example.org/iiif/portrait.png/0,0,100,1000/64,128/0/default.jpg/1", txt "a.tif", gallery, portrait,
    ask strip sixtyFourWide sixtyFourWide_valid 0 (txt "a.tif"), sixtyFourWide, by decide +kernel, rfl⟩

def markedB : Ask :=
  ⟨txt "example.org/iiif/portrait.png/0,0,100,1000/64,128/0/default.jpg/1", txt "b.tif", gallery, portrait,
    ask strip sixtyFourWide sixtyFourWide_valid 0 (txt "b.tif"), sixtyFourWide, by decide +kernel, rfl⟩

def nothingRendered : Rendered := ⟨construct hundredBytes .missing ∅ [], fun _ => []⟩

theorem sound_nothingRendered : Sound hundredBytes nothingRendered := by
  intro k r hr
  cases hr

def askAgain (first second : Ask) : List ServeEvent :=
  [.ask first 1 2, .encode first (txt "x"), .publish first (sampleFile "x" 10 3) [], .ask second 1 5]

theorem unmarked_twice :
    ∃ ls s b b', Run (When Clear (ServeStep hundredBytes)) nothingRendered ls s ∧
      (ServeEvent.ask unmarked 1 5, some b) ∈ ls ∧ b.cached = true ∧ b.mark = unmarked.watermark ∧
      (ServeEvent.ask markedA 1 6, some b') ∈ ls ∧ b'.mark = markedA.watermark ∧ b'.cached = false := by
  have hr : Run (When Clear (ServeStep hundredBytes)) nothingRendered _ _ :=
    run_script (fun s e h => ⟨h.1, ServeStep.serve s e h.2⟩)
      (show Allowed (fun s e => Clear s (serveNext hundredBytes s e).1 ∧ e.Legal hundredBytes s)
        (serveNext hundredBytes) nothingRendered (askAgain unmarked unmarked ++ [.ask markedA 1 6]) by decide +kernel)
  have hm : (ServeEvent.ask unmarked 1 5, some (Answer.mk [] true)) ∈
      (script (serveNext hundredBytes) nothingRendered (askAgain unmarked unmarked ++ [.ask markedA 1 6])).1 :=
    List.mem_of_getElem? (i := 3) rfl
  have hm' : (ServeEvent.ask markedA 1 6, some (Answer.mk (txt "a.tif") false)) ∈
      (script (serveNext hundredBytes) nothingRendered (askAgain unmarked unmarked ++ [.ask markedA 1 6])).1 :=
    List.mem_of_getElem? (i := 4) rfl
  have hb := watermark_of_run hundredBytes sound_nothingRendered hr hm'
  exact ⟨_, _, _, _, hr, hm, rfl, (watermark_of_run hundredBytes sound_nothingRendered hr hm).1, hm', hb.1,
    hb.2 (by decide)⟩

theorem watermark_of_another :
    ∃ ls s b, Run (ServeStep hundredBytes) nothingRendered ls s ∧
      (ServeEvent.ask markedB 1 5, some b) ∈ ls ∧ b.mark = txt "a.tif" ∧ b.cached = true ∧
      markedB.watermark = txt "b.tif" := by
  have hr : Run (ServeStep hundredBytes) nothingRendered _ _ :=
    run_script ServeStep.serve
      (show Allowed (fun s e => e.Legal hundredBytes s) (serveNext hundredBytes) nothingRendered
        (askAgain markedA markedB) by decide +kernel)
  have hm : (ServeEvent.ask markedB 1 5, some (Answer.mk (txt "a.tif") true)) ∈
      (script (serveNext hundredBytes) nothingRendered (askAgain markedA markedB)).1 :=
    List.mem_of_getElem? (i := 3) rfl
  exact ⟨_, _, _, hr, hm, rfl, rfl, rfl⟩

end Sipi.Serve
