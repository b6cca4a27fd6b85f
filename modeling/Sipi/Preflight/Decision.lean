import Sipi.Preflight.Key

/-!
# What the preflight hook returns, and what the engine is asked

`parse_preflight_values` of `src/scripting/rust/entry.rs`, and `access_from`, `dispatch_engine`, `serve_image` and
`access_kv_cstring` of `src/server-rs/src/routes.rs`.

## Honest scope

`info.json` and `knora.json` describe an image and have no sample of it; a restriction does not apply to them.
Strings are valid UTF-8, and tables have no metatable.
-/

namespace Sipi.Preflight

open Sipi.Iiif

/-! ### Values -/

/-- A key or a value of a table. -/
inductive LuaField where
  | string (s : Str)
  | other
  deriving DecidableEq, Repr

/-- The entries of a table, as `pairs` gives them. -/
abbrev LuaTable := List (LuaField × LuaField)

/-- A value that a hook returns. -/
inductive LuaValue where
  | string (s : Str)
  | table (t : LuaTable)
  | other
  deriving DecidableEq, Repr

/-- A string in a table. -/
def LuaTable.string? (t : LuaTable) (key : Str) : Option Str :=
  match t.lookup (.string key) with
  | some (.string v) => some v
  | _ => none

/-- `valid_permission`. -/
def validPermission (s : Str) (extended : Bool) : Bool :=
  [txt "allow", txt "login", txt "restrict", txt "deny"].contains s ||
    (extended && [txt "clickthrough", txt "kiosk", txt "external"].contains s)

/-- The fields of the table, without `type`. -/
def collectPairs (funcname : Str) : LuaTable → Except Str (List (Str × Str))
  | [] => .ok []
  | (.other, _) :: rest => collectPairs funcname rest
  | (.string key, value) :: rest =>
    if key = txt "type" then collectPairs funcname rest
    else
      match value with
      | .string v => (collectPairs funcname rest).map ((key, v) :: ·)
      | .other => .error (txt "The '" ++ key ++ txt "' value returned by Lua function " ++ funcname ++
          txt " must be a string")

/-- The permission, and the fields of the table. -/
def readPermission (funcname : Str) : LuaValue → Except Str (Str × List (Str × Str))
  | .string s => .ok (s, [])
  | .table t =>
    match t.lookup (.string (txt "type")) with
    | none => .error (txt "The permission value returned by Lua function " ++ funcname ++ txt " has no type field!")
    | some .other =>
      .error (txt "The permission 'type' returned by Lua function " ++ funcname ++ txt " must be a string")
    | some (.string type) => (collectPairs funcname t).map (type, ·)
  | .other => .error (txt "The permission value returned by Lua function " ++ funcname ++ txt " was not valid")

/-- The second value, unless it is `deny`. -/
def readInfile (funcname permission : Str) (rest : List LuaValue) : Except Str Str :=
  if permission = txt "deny" then .ok []
  else
    match rest with
    | [] => .error (txt "Lua function " ++ funcname ++
        txt " returned other permission than 'deny', but it did not return a file path")
    | .string infile :: _ => .ok infile
    | _ :: _ => .error (txt "The file path returned by Lua function " ++ funcname ++ txt " was not a string")

/-- `parse_preflight_values`. -/
def parsePreflightValues (rvals : List LuaValue) (funcname : Str) (extended : Bool) :
    Except Str (Str × List (Str × Str)) :=
  match rvals with
  | [] => .error (txt "Lua function " ++ funcname ++ txt " must return at least one value")
  | first :: rest => do
    let (permission, kv) ← readPermission funcname first
    if !validPermission permission extended then
      throw (txt "The permission returned by Lua function " ++ funcname ++ txt " is not valid: " ++ permission)
    let infile ← readInfile funcname permission rest
    return (permission, kv ++ [(txt "infile", infile)])

/-- The hooks. -/
inductive Hook where
  | preFlight
  | filePreFlight
  deriving DecidableEq, Repr

/-- The function in the script. -/
def Hook.funcname : Hook → Str
  | .preFlight => txt "pre_flight"
  | .filePreFlight => txt "file_pre_flight"

/-- It may return the three other permissions. -/
def Hook.extended : Hook → Bool
  | .preFlight => true
  | .filePreFlight => false

/-- `preflight` and `file_preflight`. -/
def Hook.parse (hook : Hook) (rvals : List LuaValue) : Except Str (Str × List (Str × Str)) :=
  parsePreflightValues rvals hook.funcname hook.extended

/-- `SipiPermType`. -/
inductive SipiPermType where
  | allow
  | login
  | clickthrough
  | kiosk
  | external
  | restrict
  | deny
  deriving DecidableEq, Repr

/-- `permission_from_str`. -/
def permissionFromStr (s : Str) : SipiPermType :=
  if s = txt "allow" then .allow
  else if s = txt "login" then .login
  else if s = txt "clickthrough" then .clickthrough
  else if s = txt "kiosk" then .kiosk
  else if s = txt "external" then .external
  else if s = txt "restrict" then .restrict
  else .deny

/-- `PreflightOutcome`. -/
structure PreflightOutcome where
  permission : SipiPermType
  kv : List (Str × Str)

/-- `PreflightOutcome::get`. -/
def PreflightOutcome.get (outcome : PreflightOutcome) (key : Str) : Option Str := outcome.kv.lookup key

/-- `Access`. -/
structure Access where
  infile : Str
  permission : SipiPermType
  kv : List (Str × Str)

/-- `access_from`. -/
def accessFrom (outcome : PreflightOutcome) : Access :=
  ⟨(outcome.get (txt "infile")).getD [], outcome.permission, outcome.kv⟩

/-- `CString::new`. -/
def cString (v : Str) : Option Str := if nul ∈ v then none else some v

/-- `access_kv_cstring`. -/
def accessKvCstring (access : Access) (key : Str) : Option Str := (access.kv.lookup key).bind cString

/-- `SipiServeRequest`. -/
structure ServeRequest where
  resolvedPath : Str
  iiifPrefix : Str
  identifier : Str
  restrictedSize : Option Str
  watermarkPath : Option Str
  deriving DecidableEq, Repr

/-- What becomes of a request. -/
inductive Dispatched where
  | refused (status : ℕ)
  | image (request : ServeRequest)
  | infoJson (resolved : Str)
  | knoraJson (resolved : Str)
  | file (resolved : Str)
  deriving DecidableEq, Repr

/-- `serve_image`, up to the call of the engine. -/
def serveImage (resolved : Str) (parsed : ParsedRequest) (access : Access) : Dispatched :=
  match cString resolved, cString parsed.iiifPrefix, cString parsed.identifier with
  | some cResolved, some cPrefix, some cIdentifier =>
    .image ⟨cResolved, cPrefix, cIdentifier,
      if access.permission = .restrict then accessKvCstring access (txt "size") else none,
      if access.permission = .restrict then accessKvCstring access (txt "watermark") else none⟩
  | _, _, _ => .refused 400

/-- `serve_file`, up to the call of the engine. -/
def serveFile (resolved : Str) : Dispatched :=
  match cString resolved with
  | some cResolved => .file cResolved
  | none => .refused 400

/-- `dispatch_engine`, once the hook has decided. -/
def dispatchEngine (resolve : Str → Except ℕ Str) (parsed : ParsedRequest)
    (outcome : PreflightOutcome) : Dispatched :=
  let access := accessFrom outcome
  let open? := decide (access.permission = .allow ∨ access.permission = .restrict)
  match parsed.kind with
  | .iiif =>
    if open? then
      match resolve access.infile with
      | .ok resolved => serveImage resolved parsed access
      | .error status => .refused status
    else .refused 401
  | .fileDownload =>
    if open? then
      match resolve access.infile with
      | .ok resolved => serveFile resolved
      | .error status => .refused status
    else .refused 401
  | .infoJson =>
    match resolve access.infile with
    | .ok resolved => .infoJson resolved
    | .error status => .refused status
  | .knoraJson =>
    match resolve access.infile with
    | .ok resolved => .knoraJson resolved
    | .error status => .refused status
  -- a redirect is answered before the pool
  | .redirect => .refused 500

/-- The hook that is asked about a request. -/
def hookFor (parsed : ParsedRequest) : Hook := if parsed.kind = .fileDownload then .filePreFlight else .preFlight

/-! ### What is looked up -/

/-- A string field of a table. -/
def LuaValue.field? (key : Str) : LuaValue → Option Str
  | .table t => t.string? key
  | _ => none

/-- A string field of the returned table. -/
def tableField (rvals : List LuaValue) (key : Str) : Option Str := rvals.head?.bind (LuaValue.field? key)

/-- The file that a hook names, none under `deny`. -/
def chosenFile (rvals : List LuaValue) (permission : Str) : Str :=
  if permission = txt "deny" then []
  else
    match rvals with
    | _ :: .string infile :: _ => infile
    | _ => []

theorem LuaTable.string?_cons_of_ne {k key : LuaField} {value : LuaField} {t : LuaTable} {w : Str}
    (hk : key = .string w) (hne : k ≠ key) : LuaTable.string? ((k, value) :: t) w = LuaTable.string? t w := by
  subst hk
  have hb : (LuaField.string w == k) = false := beq_eq_false_iff_ne.mpr hne.symm
  simp [LuaTable.string?, List.lookup_cons, hb]

variable {key funcname : Str} {kv : List (Str × Str)}

theorem lookup_collectPairs {t : LuaTable} (h : collectPairs funcname t = .ok kv) (hk : key ≠ txt "type") :
    kv.lookup key = t.string? key := by
  induction t generalizing kv with
  | nil =>
    cases h
    rfl
  | cons entry t ih =>
    obtain ⟨k, value⟩ := entry
    cases k with
    | other =>
      rw [LuaTable.string?_cons_of_ne rfl (by simp)]
      exact ih h
    | string k =>
      by_cases ht : k = txt "type"
      · rw [LuaTable.string?_cons_of_ne rfl (by simpa [ht] using hk.symm)]
        exact ih (by simpa [collectPairs, ht] using h)
      · cases value with
        | other => simp [collectPairs, ht] at h
        | string v =>
          simp only [collectPairs, ht, if_false] at h
          cases hr : collectPairs funcname t with
          | error e => simp [hr, Except.map] at h
          | ok kv' =>
            obtain rfl : (k, v) :: kv' = kv := by simpa [hr, Except.map] using h
            by_cases heq : key = k
            · subst heq
              simp [LuaTable.string?]
            · rw [LuaTable.string?_cons_of_ne rfl (by simpa using Ne.symm heq), ← ih hr, List.lookup_cons,
                beq_eq_false_iff_ne.mpr heq]

variable {permission : Str}

theorem lookup_readPermission {first : LuaValue}
    (h : readPermission funcname first = .ok (permission, kv)) (hk : key ≠ txt "type") :
    kv.lookup key = first.field? key := by
  cases first with
  | string s =>
    obtain ⟨-, rfl⟩ := Prod.mk.inj (Except.ok.inj h)
    rfl
  | other => cases h
  | table t =>
    rw [readPermission] at h
    split at h
    · cases h
    · cases h
    · next type ht =>
      cases hp : collectPairs funcname t with
      | error e => simp [hp, Except.map] at h
      | ok pairs =>
        obtain ⟨-, rfl⟩ : type = permission ∧ pairs = kv := by simpa [hp, Except.map] using h
        exact lookup_collectPairs hp hk

theorem readInfile_eq_ok {infile : Str} {first : LuaValue} {rest : List LuaValue}
    (h : readInfile funcname permission rest = .ok infile) : infile = chosenFile (first :: rest) permission := by
  unfold readInfile at h
  unfold chosenFile
  split at h
  · next hd => rw [if_pos hd, Except.ok.inj h]
  · next hd =>
    rw [if_neg hd]
    split at h
    · cases h
    · exact (Except.ok.inj h).symm
    · cases h

theorem parsePreflightValues_eq_ok {rvals : List LuaValue} {extended : Bool}
    (h : parsePreflightValues rvals funcname extended = .ok (permission, kv)) :
    ∃ fields, kv = fields ++ [(txt "infile", chosenFile rvals permission)] ∧
      ∀ key, key ≠ txt "type" → fields.lookup key = tableField rvals key := by
  cases rvals with
  | nil => cases h
  | cons first rest =>
    rw [parsePreflightValues] at h
    cases hp : readPermission funcname first with
    | error e => simp [hp, bind, Except.bind] at h
    | ok pf =>
      obtain ⟨p, fields⟩ := pf
      simp only [hp, bind, Except.bind] at h
      split at h
      · cases h
      · cases hin : readInfile funcname p rest with
        | error e => simp [hin] at h
        | ok infile =>
          obtain ⟨rfl, rfl⟩ : p = permission ∧ fields ++ [(txt "infile", infile)] = kv := by
            simpa [hin, pure, Except.pure] using h
          rw [readInfile_eq_ok hin]
          exact ⟨fields, rfl, fun key => lookup_readPermission hp⟩

section
variable {rvals : List LuaValue} {funcname permission : Str} {extended : Bool} {kv : List (Str × Str)}

theorem accessFrom_infile (h : parsePreflightValues rvals funcname extended = .ok (permission, kv)) :
    (accessFrom ⟨permissionFromStr permission, kv⟩).infile =
      (tableField rvals (txt "infile")).getD (chosenFile rvals permission) := by
  obtain ⟨fields, rfl, hf⟩ := parsePreflightValues_eq_ok h
  simp only [accessFrom, PreflightOutcome.get, List.lookup_append, hf (txt "infile") (by decide)]
  cases tableField rvals (txt "infile") <;> simp

theorem accessKvCstring_accessFrom (h : parsePreflightValues rvals funcname extended = .ok (permission, kv))
    (ht : key ≠ txt "type") (hi : key ≠ txt "infile") :
    accessKvCstring (accessFrom ⟨permissionFromStr permission, kv⟩) key = (tableField rvals key).bind cString := by
  obtain ⟨fields, rfl, hf⟩ := parsePreflightValues_eq_ok h
  have hb : (key == txt "infile") = false := beq_eq_false_iff_ne.mpr hi
  simp [accessKvCstring, accessFrom, List.lookup_append, hf key ht, hb]

end

@[simp] theorem cString_eq_some {v w : Str} : cString v = some w ↔ nul ∉ v ∧ v = w := by
  unfold cString
  split <;> simp [*]

theorem resolve_of_dispatchEngine {resolve : Str → Except ℕ Str} {parsed : ParsedRequest}
    {outcome : PreflightOutcome}
    {request : ServeRequest} (h : dispatchEngine resolve parsed outcome = .image request) :
    ∃ resolved, resolve (accessFrom outcome).infile = .ok resolved ∧
      serveImage resolved parsed (accessFrom outcome) = .image request := by
  unfold dispatchEngine at h
  cases hr : resolve (accessFrom outcome).infile with
  | error status =>
    simp only [hr] at h
    split at h <;> try split at h
    all_goals cases h
  | ok resolved =>
    simp only [hr, serveFile] at h
    split at h
    · split at h
      · exact ⟨resolved, rfl, h⟩
      · cases h
    · split at h
      · split at h <;> cases h
      · cases h
    all_goals cases h

theorem kind_of_file {resolve : Str → Except ℕ Str} {parsed : ParsedRequest} {outcome : PreflightOutcome}
    {resolved : Str} (h : dispatchEngine resolve parsed outcome = .file resolved) : parsed.kind = .fileDownload := by
  unfold dispatchEngine at h
  cases hk : parsed.kind with
  | fileDownload => rfl
  | redirect =>
    simp only [hk] at h
    cases h
  | iiif =>
    simp only [hk, serveImage] at h
    split at h
    · split at h
      · split at h <;> cases h
      · cases h
    · cases h
  | _ =>
    simp only [hk] at h
    split at h <;> cases h

theorem serveImage_eq_image {resolved : Str} {parsed : ParsedRequest} {access : Access} {request : ServeRequest}
    (h : serveImage resolved parsed access = .image request) (hr : access.permission = .restrict) :
    request.restrictedSize = accessKvCstring access (txt "size") ∧
      request.watermarkPath = accessKvCstring access (txt "watermark") := by
  unfold serveImage at h
  split at h
  · obtain rfl := Dispatched.image.inj h
    simp [hr]
  · cases h

/-! ### Fidelity -/

/-- It is sent with this, or not at all. -/
def Dispatched.Carries (part : ServeRequest → Option Str) (v : Str) : Dispatched → Prop
  | .image request => part request = some v
  | .file _ => False
  | .refused _ | .infoJson _ | .knoraJson _ => True

/-- What is decided is asked of the engine. -/
structure Faithful (hook : Hook) (rvals : List LuaValue) (permission : Str) (kv : List (Str × Str)) : Prop where
  /-- The file is the one the hook names. -/
  file : (accessFrom ⟨permissionFromStr permission, kv⟩).infile = chosenFile rvals permission
  /-- No request goes to the engine without the size of the decision. -/
  size : permission = txt "restrict" → ∀ v, tableField rvals (txt "size") = some v → ∀ resolve parsed,
    hookFor parsed = hook →
      (dispatchEngine resolve parsed ⟨permissionFromStr permission, kv⟩).Carries ServeRequest.restrictedSize v
  /-- None goes without its watermark. -/
  watermark : permission = txt "restrict" → ∀ v, tableField rvals (txt "watermark") = some v → ∀ resolve parsed,
    hookFor parsed = hook →
      (dispatchEngine resolve parsed ⟨permissionFromStr permission, kv⟩).Carries ServeRequest.watermarkPath v

/-- The table names no other file than the hook does. -/
def NamesNoOtherFile (rvals : List LuaValue) (permission : Str) : Prop :=
  ∀ v ∈ tableField rvals (txt "infile"), v = chosenFile rvals permission

/-- A field for an image, without a NUL. -/
def ForAnImage (hook : Hook) (rvals : List LuaValue) (key : Str) : Prop :=
  ∀ v ∈ tableField rvals key, hook = .preFlight ∧ nul ∉ v

theorem exists_image (parsed : ParsedRequest) (hk : parsed.kind = .iiif) (hp : nul ∉ parsed.iiifPrefix)
    (hi : nul ∉ parsed.identifier) (outcome : PreflightOutcome) (hpr : outcome.permission = .restrict) :
    ∃ request, dispatchEngine (fun _ => .ok (txt "/")) parsed outcome = .image request := by
  have hpt : cString (txt "/") = some (txt "/") := by decide
  have hp' : cString parsed.iiifPrefix = some parsed.iiifPrefix := cString_eq_some.mpr ⟨hp, rfl⟩
  have hi' : cString parsed.identifier = some parsed.identifier := cString_eq_some.mpr ⟨hi, rfl⟩
  simp [dispatchEngine, hk, accessFrom, hpr, serveImage, hpt, hp', hi']

/-- The parameters of a request for a whole image. -/
def wholeImage : ParsedRequest := ⟨.iiif, txt "unit", txt "lena.jp2", none⟩

/-- The parameters of a download. -/
def download : ParsedRequest := ⟨.fileDownload, txt "unit", txt "lena.jp2", none⟩

section
variable {hook : Hook} {rvals : List LuaValue} {permission : Str} {kv : List (Str × Str)}

theorem carried_iff (h : hook.parse rvals = .ok (permission, kv))
    (hrs : permission = txt "restrict") (ht : key ≠ txt "type") (hin : key ≠ txt "infile")
    (part : ServeRequest → Option Str)
    (hpr : ∀ {resolved parsed access request}, serveImage resolved parsed access = .image request →
      access.permission = .restrict → part request = accessKvCstring access key) :
    (∀ v, tableField rvals key = some v → ∀ resolve parsed, hookFor parsed = hook →
      (dispatchEngine resolve parsed ⟨permissionFromStr permission, kv⟩).Carries part v) ↔
      ForAnImage hook rvals key := by
  have hp : (accessFrom ⟨permissionFromStr permission, kv⟩).permission = .restrict := by
    rw [hrs]
    rfl
  have hvl : ∀ {v}, tableField rvals key = some v → ∀ {resolve parsed request},
      dispatchEngine resolve parsed ⟨permissionFromStr permission, kv⟩ = .image request → part request = cString v := by
    intro v hv resolve parsed request hi
    obtain ⟨resolved, -, hsr⟩ := resolve_of_dispatchEngine hi
    rw [hpr hsr hp, accessKvCstring_accessFrom h ht hin, hv, Option.bind_some]
  constructor
  · intro ha v hv
    cases hook with
    | filePreFlight =>
      -- a download is sent as it is
      have hs := ha v hv (fun _ => .ok (txt "/")) download rfl
      rw [hrs] at hs
      exact absurd hs id
    | preFlight =>
      obtain ⟨request, hr⟩ := exists_image wholeImage rfl (by decide) (by decide) ⟨permissionFromStr permission, kv⟩ hp
      have hs := ha v hv (fun _ => .ok (txt "/")) wholeImage rfl
      rw [hr] at hs
      exact ⟨rfl, (cString_eq_some.mp ((hvl hv hr).symm.trans hs)).1⟩
  · intro hn v hv resolve parsed hk
    obtain ⟨hpf, hnv⟩ := hn v hv
    cases hd : dispatchEngine resolve parsed ⟨permissionFromStr permission, kv⟩ with
    | image request => exact (hvl hv hd).trans (cString_eq_some.mpr ⟨hnv, rfl⟩)
    | file resolved =>
      rw [hookFor, if_pos (kind_of_file hd), hpf] at hk
      cases hk
    | _ => trivial

end

/-- A hook that restricts to a size and a watermark. -/
def restrictReturn (size : Str) : List LuaValue :=
  [.table [(.string (txt "type"), .string (txt "restrict")), (.string (txt "size"), .string size),
    (.string (txt "watermark"), .string (txt "/wm.tif"))], .string (txt "/data/img.jp2")]

/-- The list for such a hook. -/
def restrictKv (size : Str) : List (Str × Str) :=
  [(txt "size", size), (txt "watermark", txt "/wm.tif"), (txt "infile", txt "/data/img.jp2")]

end Sipi.Preflight
