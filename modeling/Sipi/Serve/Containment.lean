import Sipi.Serve.Separation

/-!
# Paths below the image root

Before anything is opened, the `iiif` handler of `src/server-rs/src/routes.rs` looks at the decoded identifier, and
at the prefix where it becomes part of the path.

## Honest scope

Symbolic links are not textual: the handler resolves them later and asks again.
-/

namespace Sipi.Serve

open Sipi.Iiif Sipi.Theory

/-- `contains_traversal`. -/
def containsTraversal (decoded : Str) : Bool :=
  if decoded = txt ".." ∨ txt "../" <+: decoded ∨ txt "/.." <:+ decoded ∨ txt "/../" <:+: decoded then true
  else
    let lower := decoded.map Char.toLower
    decide (txt "%2e%2e" <:+: lower) || decide (txt "%252e%252e" <:+: lower)

/-- What `iiif` asks of a name. -/
def Name.traverses (n : Name) (prefixAsPath : Bool) : Bool :=
  containsTraversal n.identifier || (prefixAsPath && containsTraversal n.pre)

/-- Why `iiif` answers with a bad request. -/
inductive EdgeRefusal where
  | malformed (e : ParseError)
  | nul
  | traversal
  deriving DecidableEq

/-- What `iiif` asks of a name, in that order. -/
def checkName (prefixAsPath : Bool) (n : Name) : Except EdgeRefusal Name :=
  if '\x00' ∈ n.identifier ∨ '\x00' ∈ n.pre then .error .nul
  else if n.traverses prefixAsPath then .error .traversal
  else .ok n

/-- The beginning of `iiif`. -/
def iiifEdge (prefixAsPath : Bool) (uri : Str) : Except EdgeRefusal Name := do
  let parsed ← (parseRequest uri).mapError .malformed
  checkName prefixAsPath ⟨parsed.iiifPrefix, parsed.identifier⟩

/-! ### What a path stands for -/

/-- The components of a path. -/
def components (path : Str) : List Str := path.splitOn '/'

/-- Neither empty nor the directory itself. -/
def IsNamed (c : Str) : Prop := c ≠ [] ∧ c ≠ txt "."

instance (c : Str) : Decidable (IsNamed c) := inferInstanceAs (Decidable (_ ∧ _))

/-- The next component, from a directory. -/
def resolveStep (dir : List Str) (c : Str) : List Str :=
  if c = txt ".." then dir.dropLast else if IsNamed c then dir ++ [c] else dir

/-- The directories that a path goes through. -/
def resolve (path : Str) : List Str := (components path).foldl resolveStep []

/-- The components of a path that name something. -/
def namedComponents (path : Str) : List Str := (components path).filter fun c => IsNamed c

@[simp] theorem components_append_slash (u v : Str) : components (u ++ '/' :: v) = components u ++ components v :=
  splitOn_append_sep u v

@[simp] theorem namedComponents_append_slash (u v : Str) :
    namedComponents (u ++ '/' :: v) = namedComponents u ++ namedComponents v := by
  simp [namedComponents]

theorem foldl_resolveStep {cs : List Str} (h : txt ".." ∉ cs) (dir : List Str) :
    cs.foldl resolveStep dir = dir ++ cs.filter fun c => IsNamed c := by
  induction cs generalizing dir with
  | nil => simp
  | cons c cs ih =>
    obtain ⟨hc, hcs⟩ := List.ne_and_not_mem_of_not_mem_cons h
    rw [List.foldl_cons, ih hcs, resolveStep, if_neg hc.symm, List.filter_cons]
    by_cases hn : IsNamed c
    · simp [hn]
    · simp [hn]

theorem resolve_of_plain {path : Str} (h : txt ".." ∉ components path) : resolve path = namedComponents path := by
  rw [resolve, foldl_resolveStep h, List.nil_append, namedComponents]

/-! ### What has passed -/

theorem dotdot_mem_components_iff (s : Str) :
    txt ".." ∈ components s ↔ s = txt ".." ∨ txt "../" <+: s ∨ txt "/.." <:+ s ∨ txt "/../" <:+: s :=
  mem_splitOn_iff (by decide : '/' ∉ txt "..") s

theorem dotdot_not_mem_components {s : Str} (h : containsTraversal s = false) : txt ".." ∉ components s := by
  intro hm
  rw [containsTraversal, if_pos ((dotdot_mem_components_iff s).mp hm)] at h
  cases h

section
variable {imgroot : Str} {n : Name} {prefixAsPath : Bool}

/-- The part of a name that becomes part of the path. -/
def Name.below (n : Name) (prefixAsPath : Bool) : List Str :=
  (if prefixAsPath = true ∧ n.pre ≠ [] then namedComponents n.pre else []) ++ namedComponents n.identifier

theorem namedComponents_buildRequestPath (imgroot : Str) (n : Name) (prefixAsPath : Bool) :
    namedComponents (buildRequestPath imgroot n prefixAsPath) = namedComponents imgroot ++ n.below prefixAsPath := by
  rw [buildRequestPath, Name.below]
  split_ifs with hp
  · simp
  · simp

theorem dotdot_not_mem_buildRequestPath (hr : txt ".." ∉ components imgroot)
    (hp : n.traverses prefixAsPath = false) : txt ".." ∉ components (buildRequestPath imgroot n prefixAsPath) := by
  obtain ⟨hid, hpr⟩ := Bool.or_eq_false_iff.mp hp
  have hid := dotdot_not_mem_components hid
  rw [buildRequestPath]
  split_ifs with hu
  · rw [hu.1, Bool.true_and] at hpr
    simp [hr, dotdot_not_mem_components hpr, hid]
  · simp [hr, hid]

theorem resolve_buildRequestPath (hr : txt ".." ∉ components imgroot) (hp : n.traverses prefixAsPath = false) :
    resolve (buildRequestPath imgroot n prefixAsPath) = namedComponents imgroot ++ n.below prefixAsPath := by
  rw [resolve_of_plain (dotdot_not_mem_buildRequestPath hr hp), namedComponents_buildRequestPath]

end

/-- **A path whose parts have passed stays below the image root**: for every root without `..`, every
name and every setting of `prefix_as_path`, the components of the root come first. -/
theorem root_le_resolve (imgroot : Str) (hroot : txt ".." ∉ components imgroot) (prefixAsPath : Bool) (n : Name)
    (hpass : n.traverses prefixAsPath = false) :
    namedComponents imgroot <+: resolve (buildRequestPath imgroot n prefixAsPath) := by
  rw [resolve_buildRequestPath hroot hpass]
  exact List.prefix_append _ _

theorem root_le_resolve_odd_name :
    resolve (buildRequestPath (txt "/srv/images/") ⟨txt "iiif//2", txt "a/./..b/"⟩ true) =
        [txt "srv", txt "images", txt "iiif", txt "2", txt "a", txt "..b"] ∧
      namedComponents (txt "/srv/images/") <+:
        resolve (buildRequestPath (txt "/srv/images/") ⟨txt "iiif//2", txt "a/./..b/"⟩ true) :=
  ⟨by decide +kernel, root_le_resolve _ (by decide +kernel) true ⟨txt "iiif//2", txt "a/./..b/"⟩ (by decide +kernel)⟩

theorem checkName_eq_ok {prefixAsPath : Bool} {n m : Name} (h : checkName prefixAsPath n = .ok m) :
    m = n ∧ n.traverses prefixAsPath = false := by
  unfold checkName at h
  split_ifs at h with hnul htrav
  exact ⟨(Except.ok.inj h).symm, Bool.eq_false_iff.mpr htrav⟩

theorem iiifEdge_stays {imgroot : Str} (hroot : txt ".." ∉ components imgroot) {prefixAsPath : Bool} {uri : Str}
    {n : Name} (h : iiifEdge prefixAsPath uri = .ok n) :
    resolve (buildRequestPath imgroot n prefixAsPath) = namedComponents imgroot ++ n.below prefixAsPath := by
  obtain ⟨parsed, -, hcheck⟩ := bind_eq_ok.mp h
  obtain ⟨rfl, hpass⟩ := checkName_eq_ok hcheck
  exact resolve_buildRequestPath hroot hpass

example : (resolve (buildRequestPath (txt "/srv/images") ⟨[], txt "../../etc/passwd"⟩ false)) =
    [txt "etc", txt "passwd"] := by decide +kernel

end Sipi.Serve
