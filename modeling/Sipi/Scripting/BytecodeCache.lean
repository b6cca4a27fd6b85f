import Sipi.Theory.Runs
import Sipi.Iiif.Params

/-!
# The cache of compiled scripts

`BytecodeCache::load_function` of `scripting/rust/runtime.rs` keeps the bytecode of a script with the time of
modification and the length of the file.

## Honest scope

The counters of hits and misses and the texts of errors are left out.
-/

namespace Sipi.Scripting.BytecodeCache

open Sipi.Iiif Sipi.Theory

/-! ### Files -/

/-- What a script is between two edits. -/
structure Version where
  mtime : ℕ
  source : List UInt8
  deriving DecidableEq

/-- The length of the file. -/
def Version.len (v : Version) : ℕ := v.source.length

/-- What the cache knows a version by. -/
def Version.stamp (v : Version) : ℕ × ℕ := (v.mtime, v.len)

/-- The versions of a file, oldest first. -/
structure File where
  history : List Version
  current : Option Version
  distinct : (history.map Version.stamp).Nodup
  last : ∀ v, current = some v → history.getLast? = some v

theorem distinct_toList (v : Option Version) : (v.toList.map Version.stamp).Nodup := by
  cases v <;> simp

variable {v : Version}

theorem distinct_concat {history : List Version} (hd : (history.map Version.stamp).Nodup)
    (h : v.stamp ∉ history.map Version.stamp) : ((history ++ [v]).map Version.stamp).Nodup := by
  rw [List.map_append, List.map_singleton, ← List.concat_eq_append]
  exact hd.concat h

theorem last_toList (v : Option Version) : ∀ w, v = some w → v.toList.getLast? = some w := by
  rintro w rfl
  rfl

theorem last_concat (history : List Version) (v : Version) :
    ∀ w, some v = some w → (history ++ [v]).getLast? = some w := by
  rintro w ⟨⟩
  simp

theorem last_none (history : List Version) : ∀ w, none = some w → history.getLast? = some w := by
  simp

/-- A file before any edit. -/
def File.start (v : Option Version) : File where
  history := v.toList
  current := v
  distinct := distinct_toList v
  last := last_toList v

/-- The file is replaced. -/
def File.replace (f : File) (v : Version) (h : v.stamp ∉ f.history.map Version.stamp) : File where
  history := f.history ++ [v]
  current := some v
  distinct := distinct_concat f.distinct h
  last := last_concat f.history v

/-- The file is removed. -/
def File.remove (f : File) : File where
  history := f.history
  current := none
  distinct := f.distinct
  last := last_none f.history

/-- What Lua does with scripts. -/
structure Lua (Func Code : Type) where
  compile : Str → List UInt8 → Except Str Func
  dump : Func → Code
  loadBinary : Str → Code → Except Str Func
  load_dump : ∀ name source f g, compile name source = .ok f → loadBinary name (dump f) = .ok g → g = f

/-- A first line with `#` is skipped. -/
def skipShebang (source : List UInt8) : List UInt8 :=
  if source.head? = some 0x23 then source.dropWhile (· ≠ 0x0A) else source

/-- The name of a chunk. -/
def chunkName (path : Str) : Str := '@' :: path

variable {Func Code : Type}

/-- A version, compiled. -/
def Lua.compileVersion (lua : Lua Func Code) (path : Str) (v : Version) : Except Str Func :=
  lua.compile (chunkName path) (skipShebang v.source)

/-! ### Calls -/

/-- `CachedChunk`. -/
structure CachedChunk (Code : Type) where
  mtime : ℕ
  len : ℕ
  bytecode : Code

/-- `LoadError`. -/
inductive LoadError where
  | notFound (path : Str)
  | io (path why : Str)
  | compile (why : Str)
  deriving DecidableEq

/-- How far a call of `load_function` is. -/
inductive Phase (Func : Type) where
  | idle
  | looking (path : Str) (mtime len : ℕ)
  | missed (path : Str) (mtime len : ℕ)
  | compiled (path : Str) (mtime len : ℕ) (func : Func)
  | returned (result : Except LoadError Func)

/-- The script of a call and its stamp. -/
def stampOf : Phase Func → Option (Str × ℕ × ℕ)
  | .idle => none
  | .looking path mtime len => some (path, mtime, len)
  | .missed path mtime len => some (path, mtime, len)
  | .compiled path mtime len _ => some (path, mtime, len)
  | .returned _ => none

/-- The lookup, the end if the stamp is the same. -/
def lookup (lua : Lua Func Code) (cached : Option (CachedChunk Code)) (path : Str) (mtime len : ℕ) : Phase Func :=
  match cached with
  | some chunk =>
    if chunk.mtime = mtime ∧ chunk.len = len then
      .returned ((lua.loadBinary (chunkName path) chunk.bytecode).mapError .compile)
    else .missed path mtime len
  | none => .missed path mtime len

/-- The file is read and compiled. -/
def readSource (lua : Lua Func Code) (current : Option Version) (path : Str) (mtime len : ℕ) : Phase Func :=
  match current with
  | none => .returned (.error (.io path (txt "No such file or directory (os error 2)")))
  | some v =>
    match lua.compileVersion path v with
    | .error e => .returned (.error (.compile e))
    | .ok func => .compiled path mtime len func

/-- The files, the cache and the calls. -/
structure State (Func Code : Type) where
  files : Str → File
  chunks : Str → Option (CachedChunk Code)
  calls : ℕ → Phase Func

/-- An empty cache, and no call has started. -/
def State.start (files : Str → Option Version) : State Func Code where
  files path := File.start (files path)
  chunks _ := none
  calls _ := .idle

/-- A file is changed. -/
def State.setFile (s : State Func Code) (path : Str) (f : File) : State Func Code :=
  { s with files := Function.update s.files path f }

/-- A call goes on. -/
def State.setCall (s : State Func Code) (i : ℕ) (x : Phase Func) : State Func Code :=
  { s with calls := Function.update s.calls i x }

/-- What happens, one step at a time. -/
inductive Event where
  | replace (path : Str) (v : Version)
  | remove (path : Str)
  | metadata (i : ℕ) (path : Str)
  | metadataFails (i : ℕ) (path why : Str)
  | lookup (i : ℕ)
  | read (i : ℕ)
  | readFails (i : ℕ) (why : Str)
  | insert (i : ℕ)
  deriving DecidableEq

/-- One step of a call, or a new version. -/
def step (lua : Lua Func Code) (s : State Func Code) : Event → Option (State Func Code)
  | .replace path v =>
    if h : v.stamp ∉ (s.files path).history.map Version.stamp then some (s.setFile path ((s.files path).replace v h))
    else none
  | .remove path => some (s.setFile path (s.files path).remove)
  | .metadata i path =>
    match s.calls i with
    | .idle =>
      match (s.files path).current with
      | none => some (s.setCall i (.returned (.error (.notFound path))))
      | some v => some (s.setCall i (.looking path v.mtime v.len))
    | _ => none
  | .metadataFails i path why =>
    match s.calls i with
    | .idle => some (s.setCall i (.returned (.error (.io path why))))
    | _ => none
  | .lookup i =>
    match s.calls i with
    | .looking path mtime len => some (s.setCall i (lookup lua (s.chunks path) path mtime len))
    | _ => none
  | .read i =>
    match s.calls i with
    | .missed path mtime len => some (s.setCall i (readSource lua (s.files path).current path mtime len))
    | _ => none
  | .readFails i why =>
    match s.calls i with
    | .missed path _ _ => some (s.setCall i (.returned (.error (.io path why))))
    | _ => none
  | .insert i =>
    match s.calls i with
    | .compiled path mtime len func =>
      some { s.setCall i (.returned (.ok func)) with
        chunks := Function.update s.chunks path (some ⟨mtime, len, lua.dump func⟩) }
    | _ => none

/-- The steps as a relation. -/
def Step (lua : Lua Func Code) (s : State Func Code) (e : Event) (t : State Func Code) : Prop := step lua s e = some t

variable {i : ℕ} {w : Version} {path : Str}

section Steps

variable {lua : Lua Func Code} {s t : State Func Code} {e : Event}

/-- What a step does with a call `i`. -/
inductive Moves (lua : Lua Func Code) (s : State Func Code) (e : Event) (i : ℕ) : Phase Func → Phase Func → Prop
  | stays (x : Phase Func) : Moves lua s e i x x
  | starts {path : Str} {v : Version} (he : e = .metadata i path) (hv : (s.files path).current = some v) :
    Moves lua s e i .idle (.looking path v.mtime v.len)
  | misses (path : Str) (mtime len : ℕ) : Moves lua s e i (.looking path mtime len) (.missed path mtime len)
  | hits {path : Str} {chunk : CachedChunk Code} (hchunk : s.chunks path = some chunk) :
    Moves lua s e i (.looking path chunk.mtime chunk.len)
      (.returned ((lua.loadBinary (chunkName path) chunk.bytecode).mapError .compile))
  | compiles {path : Str} {v : Version} {func : Func} (mtime len : ℕ) (hv : (s.files path).current = some v)
    (hfunc : lua.compileVersion path v = .ok func) :
    Moves lua s e i (.missed path mtime len) (.compiled path mtime len func)
  | inserts (path : Str) (mtime len : ℕ) (func : Func) :
    Moves lua s e i (.compiled path mtime len func) (.returned (.ok func))
  | fails (x : Phase Func) (err : LoadError) : Moves lua s e i x (.returned (.error err))

theorem moves_lookup (path : Str) (mtime len : ℕ) :
    Moves lua s e i (.looking path mtime len) (lookup lua (s.chunks path) path mtime len) := by
  cases hc : s.chunks path with
  | none => exact Moves.misses path mtime len
  | some chunk =>
    rw [lookup]
    split_ifs with hs
    · obtain ⟨rfl, rfl⟩ := hs
      exact Moves.hits hc
    · exact Moves.misses path mtime len

theorem moves_readSource (path : Str) (mtime len : ℕ) :
    Moves lua s e i (.missed path mtime len) (readSource lua (s.files path).current path mtime len) := by
  cases hcr : (s.files path).current with
  | none => exact Moves.fails _ _
  | some v =>
    cases hc : lua.compileVersion path v with
    | error why =>
      simp only [readSource, hc]
      exact Moves.fails _ _
    | ok func =>
      simp only [readSource, hc]
      exact Moves.compiles mtime len hcr hc

theorem step_cases (h : Step lua s e t) : (∃ path v, ∃ hn : v.stamp ∉ (s.files path).history.map Version.stamp,
        e = .replace path v ∧ t = s.setFile path ((s.files path).replace v hn)) ∨
      (∃ path, e = .remove path ∧ t = s.setFile path (s.files path).remove) ∨
      (∃ i x, Moves lua s e i (s.calls i) x ∧ t = s.setCall i x) ∨
      ∃ i path mtime len func, s.calls i = .compiled path mtime len func ∧
        t = { s.setCall i (.returned (.ok func)) with
          chunks := Function.update s.chunks path (some ⟨mtime, len, lua.dump func⟩) } := by
  have hm : ∀ {i x}, Moves lua s e i (s.calls i) x → some (s.setCall i x) = some t →
      ∃ i x, Moves lua s e i (s.calls i) x ∧ t = s.setCall i x :=
    fun hx ht => ⟨_, _, hx, (Option.some.inj ht).symm⟩
  unfold Step at h
  cases e with
  | replace path v =>
    simp only [step, Option.dite_none_right_eq_some] at h
    obtain ⟨hn, ht⟩ := h
    exact Or.inl ⟨path, v, hn, rfl, (Option.some.inj ht).symm⟩
  | remove path => exact Or.inr (Or.inl ⟨path, rfl, (Option.some.inj h).symm⟩)
  | metadata i path =>
    refine Or.inr (Or.inr (Or.inl ?_))
    simp only [step] at h
    split at h
    · next hi =>
      split at h
      · exact hm (Moves.fails _ _) h
      · next v hv => exact hm (by rw [hi]; exact Moves.starts rfl hv) h
    · cases h
  | metadataFails i path why =>
    refine Or.inr (Or.inr (Or.inl ?_))
    simp only [step] at h
    split at h
    · exact hm (Moves.fails _ _) h
    · cases h
  | lookup i =>
    refine Or.inr (Or.inr (Or.inl ?_))
    simp only [step] at h
    split at h
    · next path mtime len hl => exact hm (by rw [hl]; exact moves_lookup path mtime len) h
    · cases h
  | read i =>
    refine Or.inr (Or.inr (Or.inl ?_))
    simp only [step] at h
    split at h
    · next path mtime len hms => exact hm (by rw [hms]; exact moves_readSource path mtime len) h
    · cases h
  | readFails i why =>
    refine Or.inr (Or.inr (Or.inl ?_))
    simp only [step] at h
    split at h
    · exact hm (Moves.fails _ _) h
    · cases h
  | insert i =>
    refine Or.inr (Or.inr (Or.inr ?_))
    simp only [step] at h
    split at h
    · next path mtime len func hc =>
      exact ⟨i, path, mtime, len, func, hc, (Option.some.inj h).symm⟩
    · cases h

theorem moves_of_step (h : Step lua s e t) (j : ℕ) : Moves lua s e j (s.calls j) (t.calls j) := by
  have hs : ∀ {i x}, Moves lua s e i (s.calls i) x → Moves lua s e j (s.calls j) ((s.setCall i x).calls j) := by
    intro i x hx
    rcases eq_or_ne j i with rfl | hne
    · simpa [State.setCall] using hx
    · simpa [State.setCall, hne] using Moves.stays (s.calls j)
  obtain ⟨path, v, hn, -, rfl⟩ | ⟨path, -, rfl⟩ | ⟨i, x, hx, rfl⟩ | ⟨i, path, mtime, len, func, hc, rfl⟩ :=
    step_cases h
  · exact Moves.stays _
  · exact Moves.stays _
  · exact hs hx
  · refine hs (i := i) ?_
    rw [hc]
    exact Moves.inserts path mtime len func

theorem file_of_step (h : Step lua s e t) (path : Str) :
    (t.files path).history = (s.files path).history ∨
      ∃ v, (t.files path).history = (s.files path).history ++ [v] ∧ (t.files path).current = some v := by
  obtain ⟨p, v, hn, -, rfl⟩ | ⟨p, -, rfl⟩ | ⟨i, x, -, rfl⟩ | ⟨i, p, mtime, len, func, -, rfl⟩ := step_cases h
  · rcases eq_or_ne path p with rfl | hne
    · exact Or.inr ⟨v, by simp [State.setFile, File.replace]⟩
    · exact Or.inl (by simp [State.setFile, hne])
  · rcases eq_or_ne path p with rfl | hne
    · exact Or.inl (by simp [State.setFile, File.remove])
    · exact Or.inl (by simp [State.setFile, hne])
  · exact Or.inl rfl
  · exact Or.inl rfl

theorem chunk_of_step (h : Step lua s e t) (path : Str) :
    t.chunks path = s.chunks path ∨ ∃ i mtime len func, s.calls i = .compiled path mtime len func ∧
      t.chunks path = some ⟨mtime, len, lua.dump func⟩ := by
  obtain ⟨p, v, hn, -, rfl⟩ | ⟨p, -, rfl⟩ | ⟨i, x, -, rfl⟩ | ⟨i, p, mtime, len, func, hc, rfl⟩ := step_cases h
  · exact Or.inl rfl
  · exact Or.inl rfl
  · exact Or.inl rfl
  · rcases eq_or_ne path p with rfl | hne
    · exact Or.inr ⟨i, mtime, len, func, hc, by simp⟩
    · exact Or.inl (by simp [hne])

/-- `w` is the version with the stamp or a later one. -/
def Since (history : List Version) (stamp : ℕ × ℕ) (w : Version) : Prop :=
  ∃ before v after, history = before ++ v :: after ∧ v.stamp = stamp ∧ w ∈ v :: after

variable {stamp : ℕ × ℕ}

theorem Since.concat {history : List Version} (h : Since history stamp w)
    (x : Version) : Since (history ++ [x]) stamp w := by
  obtain ⟨before, v, after, rfl, hs, hw⟩ := h
  refine ⟨before, v, after ++ [x], by simp, hs, ?_⟩
  rw [← List.cons_append]
  exact List.mem_append_left _ hw

theorem Since.step (h : Step lua s e t)
    (hw : Since (s.files path).history stamp w) : Since (t.files path).history stamp w := by
  rcases file_of_step h path with hs | ⟨v, hm, -⟩
  · rwa [hs]
  · rw [hm]
    exact hw.concat v

theorem since_current {f : File} (hst : ∃ u ∈ f.history, u.stamp = stamp)
    (hv : f.current = some v) : Since f.history stamp v := by
  obtain ⟨u, hu, rfl⟩ := hst
  obtain ⟨before, after, hs⟩ := List.append_of_mem hu
  refine ⟨before, u, after, hs, rfl, ?_⟩
  have hl := f.last v hv
  rw [hs, List.getLast?_append_of_ne_nil _ (List.cons_ne_nil u after)] at hl
  exact List.mem_of_getLast? hl

/-- What is kept is of that version or later. -/
structure Coherent (lua : Lua Func Code) (s : State Func Code) : Prop where
  chunks : ∀ path chunk, s.chunks path = some chunk → ∃ w func,
    Since (s.files path).history (chunk.mtime, chunk.len) w ∧
    lua.compileVersion path w = .ok func ∧ chunk.bytecode = lua.dump func
  looking : ∀ i path mtime len, s.calls i = .looking path mtime len →
    ∃ v ∈ (s.files path).history, v.stamp = (mtime, len)
  missed : ∀ i path mtime len, s.calls i = .missed path mtime len →
    ∃ v ∈ (s.files path).history, v.stamp = (mtime, len)
  compiled : ∀ i path mtime len func, s.calls i = .compiled path mtime len func →
    ∃ w, Since (s.files path).history (mtime, len) w ∧ lua.compileVersion path w = .ok func

theorem mem_history_step (h : Step lua s e t) (hv : v ∈ (s.files path).history) : v ∈ (t.files path).history := by
  rcases file_of_step h path with hs | ⟨w, hm, -⟩
  · rwa [hs]
  · rw [hm]
    exact List.mem_append_left _ hv

theorem mem_history_of_current {f : File} (hv : f.current = some v) : v ∈ f.history :=
  List.mem_of_getLast? (f.last v hv)

theorem Coherent.step (hs : Coherent lua s) (h : Step lua s e t) : Coherent lua t := by
  refine ⟨?_, ?_, ?_, ?_⟩
  · intro path chunk hc
    rcases chunk_of_step h path with hsm | ⟨i, mtime, len, func, hcm, hin⟩
    · rw [hsm] at hc
      obtain ⟨w, func, hw, hf⟩ := hs.chunks path chunk hc
      exact ⟨w, func, hw.step h, hf⟩
    · obtain ⟨w, hw, hf⟩ := hs.compiled i path mtime len func hcm
      rw [hin] at hc
      cases hc
      exact ⟨w, func, hw.step h, hf, rfl⟩
  · intro i path mtime len hi
    have hm := moves_of_step h i
    rw [hi] at hm
    generalize hx : s.calls i = x at hm
    cases hm with
    | stays =>
      obtain ⟨v, hv, hst⟩ := hs.looking i path mtime len hx
      exact ⟨v, mem_history_step h hv, hst⟩
    | starts he hv => exact ⟨_, mem_history_step h (mem_history_of_current hv), rfl⟩
  · intro i path mtime len hi
    have hm := moves_of_step h i
    rw [hi] at hm
    generalize hx : s.calls i = x at hm
    obtain ⟨v, hv, hst⟩ : ∃ v ∈ (s.files path).history, v.stamp = (mtime, len) := by
      cases hm with
      | stays => exact hs.missed i path mtime len hx
      | misses => exact hs.looking i path mtime len hx
    exact ⟨v, mem_history_step h hv, hst⟩
  · intro i path mtime len func hi
    have hm := moves_of_step h i
    rw [hi] at hm
    generalize hx : s.calls i = x at hm
    obtain ⟨w, hw, hf⟩ : ∃ w, Since (s.files path).history (mtime, len) w ∧
        lua.compileVersion path w = .ok func := by
      cases hm with
      | stays => exact hs.compiled i path mtime len func hx
      | compiles _ _ hv hf => exact ⟨_, since_current (hs.missed i path mtime len hx) hv, hf⟩
    exact ⟨w, hw.step h, hf⟩

theorem Coherent.returns (hs : Coherent lua s) (h : Step lua s e t) {func : Func}
    (hb : ∀ r, s.calls i ≠ .returned r) (ha : t.calls i = .returned (.ok func)) :
    ∃ path mtime len w, stampOf (s.calls i) = some (path, mtime, len) ∧
      Since (s.files path).history (mtime, len) w ∧ lua.compileVersion path w = .ok func := by
  have hm := moves_of_step h i
  rw [ha] at hm
  generalize hx : s.calls i = x at hm
  generalize hy : (.returned (.ok func) : Phase Func) = y at hm
  cases hm with
  | stays =>
    rw [← hy] at hx
    exact absurd hx (hb _)
  | starts | misses => cases hy
  | @hits path chunk hc =>
    obtain ⟨w, g, hw, hg, hcd⟩ := hs.chunks path chunk hc
    rw [hcd] at hy
    refine ⟨path, chunk.mtime, chunk.len, w, rfl, hw, ?_⟩
    cases hl : lua.loadBinary (chunkName path) (lua.dump g) with
    | error why =>
      rw [hl] at hy
      cases hy
    | ok k =>
      rw [hl] at hy
      cases hy
      rw [lua.load_dump _ _ _ _ hg hl]
      exact hg
  | compiles _ _ hv hf => cases hy
  | inserts path mtime len g =>
    cases hy
    obtain ⟨w, hw, hf⟩ := hs.compiled i path mtime len func hx
    exact ⟨path, mtime, len, w, rfl, hw, hf⟩
  | fails _ err => cases hy

end Steps

/-! ### Runs -/

section Runs

variable {lua : Lua Func Code} {s t : State Func Code} {es : List Event}

theorem coherent_of_run {files : Str → Option Version} (h : Run (Step lua) (State.start files) es t) :
    Coherent lua t := by
  refine h.invariant (Coherent lua) ⟨?_, ?_, ?_, ?_⟩ fun _ _ _ ht hs => ht.step hs
  all_goals simp [State.start]

theorem history_of_run (h : Run (Step lua) s es t) (path : Str) :
    ∃ more, (t.files path).history = (s.files path).history ++ more := by
  refine h.invariant (fun t => ∃ more, (t.files path).history = (s.files path).history ++ more) ⟨[], by simp⟩ ?_
  rintro t e u ⟨more, hm⟩ hst
  rcases file_of_step hst path with hs | ⟨v, hv, -⟩
  · exact ⟨more, hs.trans hm⟩
  · exact ⟨more ++ [v], by rw [hv, hm, List.append_assoc]⟩

theorem current_of_run (h : Run (Step lua) s es t) (hs : w ∉ (s.files path).history)
    (ht : w ∈ (t.files path).history) :
    ∃ es₁ es₂ u, es = es₁ ++ es₂ ∧ Run (Step lua) s es₁ u ∧ Run (Step lua) u es₂ t ∧
      (u.files path).current = some w := by
  obtain ⟨es₁, e, es₂, u, v, rfl, hu, hn, hst, hv, hr⟩ :=
    h.exists_first (P := fun s => w ∈ (s.files path).history) hs ht
  refine ⟨es₁ ++ [e], es₂, v, by simp, hu.snoc hst, hr, ?_⟩
  rcases file_of_step hst path with hsm | ⟨x, hm, hc⟩
  · exact absurd (hsm ▸ hv) hn
  · rw [hm] at hv
    rcases List.mem_append.mp hv with ho | hnw
    · exact absurd ho hn
    · rw [hc, List.mem_singleton.mp hnw]

theorem stamp_of_run (h : Run (Step lua) s es t) (hs : s.calls i ≠ .idle) :
    t.calls i ≠ .idle ∧ (stampOf (t.calls i) = stampOf (s.calls i) ∨ stampOf (t.calls i) = none) := by
  refine h.invariant (fun t => t.calls i ≠ .idle ∧
    (stampOf (t.calls i) = stampOf (s.calls i) ∨ stampOf (t.calls i) = none)) ⟨hs, Or.inl rfl⟩ ?_
  rintro t e u ⟨hi, hst⟩ hsp
  have hm := moves_of_step hsp i
  generalize t.calls i = x at hi hst hm
  generalize u.calls i = y at hm
  cases hm with
  | stays => exact ⟨hi, hst⟩
  | starts => exact absurd rfl hi
  | misses | compiles => exact ⟨by simp, hst⟩
  | hits | inserts | fails => exact ⟨by simp, Or.inr rfl⟩

theorem started_of_run {files : Str → Option Version} (h : Run (Step lua) (State.start files) es t)
    {mtime len : ℕ} (ht : stampOf (t.calls i) = some (path, mtime, len)) :
    ∃ es₁ es₂ u u' v, es = es₁ ++ .metadata i path :: es₂ ∧ Run (Step lua) (State.start files) es₁ u ∧
      Step lua u (.metadata i path) u' ∧ Run (Step lua) u' es₂ t ∧ (u.files path).current = some v ∧
      v.stamp = (mtime, len) := by
  have hi : t.calls i ≠ .idle := by
    intro hi
    rw [hi] at ht
    cases ht
  obtain ⟨es₁, e, es₂, u, u', rfl, hu, hb, hst, ha, hr⟩ :=
    h.exists_first (P := fun s => s.calls i ≠ .idle) (fun hne => hne rfl) hi
  rw [not_not] at hb
  have hm := moves_of_step hst i
  rw [hb] at hm
  generalize hy : u'.calls i = y at hm
  cases hm with
  | stays => exact absurd hy ha
  | @starts p v he hv =>
    rcases (stamp_of_run hr ha).2 with hs | hn
    · rw [ht, hy] at hs
      cases hs
      subst he
      exact ⟨es₁, es₂, u, u', v, rfl, hu, hst, hr, hv, rfl⟩
    · rw [hn] at ht
      cases ht
  | fails =>
    -- a call that failed at once has no stamp
    have hn : stampOf (t.calls i) = none := by simpa [hy, stampOf] using (stamp_of_run hr ha).2
    rw [hn] at ht
    cases ht

theorem files_of_metadata (h : Step lua s (.metadata i path) t) : t.files = s.files := by
  obtain ⟨p, v, hn, he, -⟩ | ⟨p, he, -⟩ | ⟨j, x, -, rfl⟩ | ⟨j, p, mtime, len, func, -, rfl⟩ := step_cases h
  · cases he
  · cases he
  · rfl
  · rfl

theorem since_split {before after : List Version}
    (hd : ((before ++ v :: after).map Version.stamp).Nodup) (h : Since (before ++ v :: after) v.stamp w) :
    w ∈ v :: after := by
  obtain ⟨before', v', after', hs, hst, hw⟩ := h
  have hm := congrArg (List.map Version.stamp) hs
  rw [List.map_append, List.map_append, List.map_cons, List.map_cons, hst] at hm
  rw [List.map_append, List.map_cons] at hd
  have hn : v.stamp ∉ before.map Version.stamp := by
    intro hmm
    exact (List.nodup_append.mp hd).2.2 _ hmm _ List.mem_cons_self rfl
  have hl : before.length = before'.length := by
    have hi := congrArg (List.idxOf v.stamp) hm
    have hn' : v.stamp ∉ before'.map Version.stamp := by
      rw [hm] at hd
      intro hmm
      exact (List.nodup_append.mp hd).2.2 _ hmm _ List.mem_cons_self rfl
    rw [List.idxOf_append_of_notMem hn, List.idxOf_append_of_notMem hn'] at hi
    simpa using hi
  rw [(List.append_inj hs hl).2]
  exact hw

/-- **Script edits take effect**: a function that a call returns was compiled from a version that was there at some
instant of the call. -/
theorem returned_current {files : Str → Option Version} (hrun : Run (Step lua) (State.start files) es t) {e : Event}
    {u : State Func Code} (hstep : Step lua t e u) {i : ℕ} {func : Func} (hbefore : ∀ r, t.calls i ≠ .returned r)
    (hafter : u.calls i = .returned (.ok func)) :
    ∃ pre mid mid' path s₁ s₂ s₃ v, es = pre ++ .metadata i path :: (mid ++ mid') ∧
      Run (Step lua) (State.start files) pre s₁ ∧ Step lua s₁ (.metadata i path) s₂ ∧ Run (Step lua) s₂ mid s₃ ∧
      Run (Step lua) s₃ mid' t ∧ (s₃.files path).current = some v ∧ lua.compileVersion path v = .ok func ∧
      ∀ old ∈ (s₁.files path).history, (s₁.files path).current ≠ some old → old ≠ v := by
  obtain ⟨path, mtime, len, w, hst, hs, hfn⟩ := (coherent_of_run hrun).returns hstep hbefore hafter
  obtain ⟨pre, rest, s₁, s₂, v, rfl, hs₁, hm, hr, hc, hv⟩ := started_of_run hrun hst
  have hf := files_of_metadata hm
  obtain ⟨before, hbefore⟩ := List.getLast?_eq_some_iff.mp ((s₁.files path).last v hc)
  obtain ⟨more, hmr⟩ := history_of_run hr path
  rw [hf, hbefore, List.append_assoc, List.singleton_append] at hmr
  have hd := (t.files path).distinct
  rw [hmr] at hd hs
  have hw := since_split hd (hv ▸ hs)
  rw [List.map_append, List.nodup_append] at hd
  have ho : ∀ old ∈ (s₁.files path).history, (s₁.files path).current ≠ some old → old ≠ w := by
    rintro old hmm hne rfl
    rw [hbefore, List.mem_append, List.mem_singleton] at hmm
    rcases hmm with hmm | rfl
    · exact hd.2.2 _ (List.mem_map_of_mem hmm) _ (List.mem_map_of_mem hw) rfl
    · exact hne hc
  -- the version is the one that was there at the start, or one that came later
  rcases List.mem_cons.mp hw with rfl | hl
  · exact ⟨pre, [], rest, path, s₁, s₂, s₂, w, rfl, hs₁, hm, Run.nil _, hr, by rw [hf]; exact hc,
      hfn, ho⟩
  · have hn : w ∉ (s₂.files path).history := by
      rw [hf, hbefore, List.mem_append, List.mem_singleton]
      rintro (hmm | rfl)
      · exact hd.2.2 _ (List.mem_map_of_mem hmm) _ (List.mem_map_of_mem hw) rfl
      · rw [List.map_cons, List.nodup_cons] at hd
        exact hd.2.1.1 (List.mem_map_of_mem hl)
    obtain ⟨mid, mid', s₃, rfl, hs₃, hls, ht⟩ := current_of_run hr hn (by rw [hmr]; simp [hl])
    exact ⟨pre, mid, mid', path, s₁, s₂, s₃, w, rfl, hs₁, hm, hs₃, hls, ht, hfn, ho⟩

end Runs

/-- A Lua whose functions are their texts. -/
def echo : Lua (List UInt8) (List UInt8) where
  compile _ source := .ok source
  dump func := func
  loadBinary _ code := .ok code
  load_dump _ _ _ _ _ hg := (Except.ok.inj hg).symm

def oneScript (path : Str) : Option Version := if path = txt "a.lua" then some ⟨1, [0x31]⟩ else none

/-- An edit between the start and the read. -/
def race : List Event :=
  [.metadata 0 (txt "a.lua"), .metadata 1 (txt "a.lua"), .lookup 0, .replace (txt "a.lua") ⟨2, [0x32]⟩, .read 0,
    .insert 0]

theorem returned_race :
    ∃ t u, Run (Step echo) (State.start oneScript) race t ∧ Step echo t (.lookup 1) u ∧
      u.calls 1 = .returned (.ok [0x32]) ∧
      ∃ pre mid mid' path s₁ s₂ s₃ v, race = pre ++ .metadata 1 path :: (mid ++ mid') ∧
        Run (Step echo) (State.start oneScript) pre s₁ ∧ Step echo s₁ (.metadata 1 path) s₂ ∧
        Run (Step echo) s₂ mid s₃ ∧ Run (Step echo) s₃ mid' t ∧ (s₃.files path).current = some v ∧
        echo.compileVersion path v = .ok [0x32] ∧
        ∀ old ∈ (s₁.files path).history, (s₁.files path).current ≠ some old → old ≠ v := by
  have hp : ((play (step echo) (fun _ _ => True) (State.start oneScript) race).bind fun t =>
      (step echo t (.lookup 1)).map fun u => (t, u, t.calls 1, u.calls 1)).map (fun x => x.2.2) =
      some (.looking (txt "a.lua") 1 1, .returned (.ok [0x32])) := rfl
  obtain ⟨⟨t, u, x, y⟩, hbn, hxy⟩ := Option.map_eq_some_iff.mp hp
  obtain ⟨t', ht, hm⟩ := Option.bind_eq_some_iff.mp hbn
  obtain ⟨u', hu, heq⟩ := Option.map_eq_some_iff.mp hm
  obtain ⟨rfl, rfl, rfl, rfl⟩ : t' = t ∧ u' = u ∧ t'.calls 1 = x ∧ u'.calls 1 = y := by simpa using heq
  obtain ⟨hb, ha⟩ := Prod.ext_iff.mp hxy
  have hb : t'.calls 1 = .looking (txt "a.lua") 1 1 := hb
  have hr : Run (Step echo) (State.start oneScript) race t' := (run_of_play ht).mono fun _ _ _ hs => hs.2
  exact ⟨t', u', hr, hu, ha, returned_current hr hu (by simp [hb]) ha⟩

end Sipi.Scripting.BytecodeCache
