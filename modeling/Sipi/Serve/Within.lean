import Sipi.Serve.Containment

/-!
# The second test of a path

Once a path is built, `validate_resolved_path` of `src/server-rs/src/path.rs` asks the file system where it leads,
and `is_within` whether that is below the image root: one path begins with the other, and ends there or goes on
with a slash, in bytes.

## Honest scope

What `canonicalize` gives is a text.
-/

namespace Sipi.Serve

open Sipi.Iiif Sipi.Theory

/-- `as_bytes`: a text in UTF-8. -/
def asBytes (s : Str) : List UInt8 := s.flatMap String.utf8EncodeChar

/-- `b'/'`. -/
def slashByte : UInt8 := 0x2f

/-- `is_within`. -/
def isWithin (resolved resolvedRoot : Str) : Bool :=
  if ¬ asBytes resolvedRoot <+: asBytes resolved then false
  else
    decide ((asBytes resolved).length = (asBytes resolvedRoot).length) ||
      decide ((asBytes resolved)[(asBytes resolvedRoot).length]? = some slashByte)

/-- `Resolved`: what comes of validating a path. -/
inductive ResolvedPath where
  | ok (path : Str)
  | notFound
  | traversal
  deriving DecidableEq

/-- `validate_resolved_path`. -/
def validateResolvedPath (canonicalize : Str → Option Str) (filePath resolvedRoot : Str) : ResolvedPath :=
  match canonicalize filePath with
  | none => .notFound
  | some resolved => if isWithin resolved resolvedRoot then .ok resolved else .traversal

@[simp] theorem asBytes_nil : asBytes [] = [] := rfl

@[simp] theorem asBytes_append (s t : Str) : asBytes (s ++ t) = asBytes s ++ asBytes t := List.flatMap_append

theorem asBytes_isPrefix_iff (s t : Str) : asBytes s <+: asBytes t ↔ s <+: t := by
  constructor
  · rintro ⟨b, hb⟩
    refine List.isPrefix_of_utf8Encode_append_eq_utf8Encode b.toByteArray ?_
    rw [List.utf8Encode, List.utf8Encode, ← List.toByteArray_append]
    exact congrArg List.toByteArray hb
  · rintro ⟨u, rfl⟩
    rw [asBytes_append]
    exact List.prefix_append _ _

theorem head?_utf8EncodeChar_eq_iff (c : Char) : (String.utf8EncodeChar c).head? = some slashByte ↔ c = '/' := by
  constructor
  · intro h
    have hs : slashByte.toNat = 47 := rfl
    unfold String.utf8EncodeChar at h
    dsimp only at h
    -- the first byte of a longer encoding has its highest bit set
    split_ifs at h with h1 h2 h3
    all_goals rw [List.head?_cons, Option.some_inj, ← UInt8.toNat_inj, UInt8.toNat_ofNat', hs] at h
    · have hv : c.val.toNat = 47 := by omega
      exact Char.ext (UInt32.toNat_inj.1 hv)
    all_goals omega
  · rintro rfl
    rfl

theorem getElem?_asBytes_append (s t : Str) : (asBytes (s ++ t))[(asBytes s).length]? = (asBytes t).head? := by
  rw [asBytes_append, List.getElem?_append_right le_rfl, Nat.sub_self, List.head?_eq_getElem?]

theorem isWithin_append (root t : Str) : isWithin (root ++ t) root = true ↔ t = [] ∨ t.head? = some '/' := by
  have hs : asBytes root <+: asBytes (root ++ t) := by simp
  rw [isWithin, if_neg (not_not_intro hs), getElem?_asBytes_append, Bool.or_eq_true, decide_eq_true_iff,
    decide_eq_true_iff, asBytes_append, List.length_append]
  cases t with
  | nil => simp
  | cons c t =>
    have hp := List.length_pos_of_ne_nil (String.utf8EncodeChar_ne_nil (c := c))
    have hc : asBytes (c :: t) = String.utf8EncodeChar c ++ asBytes t := List.flatMap_cons
    rw [hc, List.head?_append_of_ne_nil _ String.utf8EncodeChar_ne_nil, head?_utf8EncodeChar_eq_iff,
      List.length_append]
    simp only [List.head?_cons, Option.some_inj, reduceCtorEq, false_or, or_iff_right_iff_imp]
    exact fun h => absurd h (by omega)

theorem isWithin_iff (p root : Str) : isWithin p root = true ↔ p = root ∨ ∃ t, p = root ++ '/' :: t := by
  constructor
  · intro h
    have hb : asBytes root <+: asBytes p := by
      by_contra hn
      rw [isWithin, if_pos hn] at h
      cases h
    obtain ⟨t, rfl⟩ := (asBytes_isPrefix_iff root p).1 hb
    cases t with
    | nil => exact .inl (List.append_nil root)
    | cons c t =>
      have hs : c = '/' := by simpa using (isWithin_append root (c :: t)).1 h
      exact .inr ⟨t, by rw [hs]⟩
  · rintro (rfl | ⟨t, rfl⟩)
    · simpa using (isWithin_append p []).2 (.inl rfl)
    · exact (isWithin_append root _).2 (.inr rfl)

/-! ### Canonical paths -/

/-- A component as `canonicalize` leaves it. -/
def IsPlain (c : Str) : Prop := IsNamed c ∧ c ≠ txt ".."

instance (c : Str) : Decidable (IsPlain c) := inferInstanceAs (Decidable (_ ∧ _))

/-- An absolute path without empty parts and dots. -/
def Canonical (path : Str) : Prop := path = txt "/" ∨ ∃ rest, path = '/' :: rest ∧ ∀ c ∈ components rest, IsPlain c

theorem components_slash (rest : Str) : components ('/' :: rest) = [] :: components rest := by
  have h := components_append_slash [] rest
  rw [List.nil_append] at h
  rw [h]
  rfl

@[simp] theorem namedComponents_root : namedComponents (txt "/") = [] := by decide

theorem namedComponents_slash {rest : Str} (h : ∀ c ∈ components rest, IsPlain c) :
    namedComponents ('/' :: rest) = components rest := by
  rw [namedComponents, components_slash, List.filter_cons_of_neg (by simp [IsNamed])]
  exact List.filter_eq_self.2 fun c hc => decide_eq_true (h c hc).1

theorem components_ne_nil (s : Str) : components s ≠ [] := List.splitOn_ne_nil _ _

theorem not_slash_of_plain {rest : Str} (h : ∀ c ∈ components rest, IsPlain c) (t : Str) : rest ≠ '/' :: t := by
  rintro rfl
  rw [components_slash] at h
  exact (h [] List.mem_cons_self).1.1 rfl

theorem ne_nil_of_plain {rest : Str} (h : ∀ c ∈ components rest, IsPlain c) : rest ≠ [] := by
  rintro rfl
  exact (h [] (by decide)).1.1 rfl

theorem isWithin_of_named_root {p rest : Str} (hp : Canonical p) (hr : ∀ c ∈ components rest, IsPlain c) :
    isWithin p ('/' :: rest) = true ↔ namedComponents ('/' :: rest) <+: namedComponents p := by
  rw [isWithin_iff, namedComponents_slash hr]
  rcases hp with rfl | ⟨q, rfl, hq⟩
  · -- nothing that has a name contains the root directory
    rw [namedComponents_root, List.prefix_nil]
    have hne := ne_nil_of_plain hr
    constructor
    · rintro (h | ⟨t, h⟩)
      · exact absurd (List.cons.inj h).2.symm hne
      · exact absurd (List.append_eq_nil_iff.1 (List.cons.inj h).2.symm).1 hne
    · exact fun h => absurd h (components_ne_nil rest)
  · rw [namedComponents_slash hq, components, components, splitOn_isPrefix_iff]
    simp

theorem isWithin_root_iff {p : Str} (hp : Canonical p) : isWithin p (txt "/") = true ↔ p = txt "/" := by
  rw [isWithin_iff]
  constructor
  · rintro (h | ⟨t, rfl⟩)
    · exact h
    · rcases hp with h | ⟨q, hq, hpl⟩
      · exact h
      · exact absurd (List.cons.inj hq).2.symm (not_slash_of_plain hpl t)
  · exact .inl

/-- **The test is containment of components**: for every two canonical paths, exactly unless the image root
is the root directory and the path is something in it. -/
theorem isWithin_contains_iff (p root : Str) (hp : Canonical p) (hroot : Canonical root) :
    (isWithin p root = true ↔ namedComponents root <+: namedComponents p) ↔ (root = txt "/" → p = txt "/") := by
  rcases hroot with rfl | ⟨rest, rfl, hr⟩
  · have ha : namedComponents (txt "/") <+: namedComponents p := by simp
    rw [iff_true_right ha, isWithin_root_iff hp]
    simp
  · refine iff_of_true (isWithin_of_named_root hp hr) fun h => ?_
    exact absurd (List.cons.inj h).2 (ne_nil_of_plain hr)

theorem canonical_images : Canonical (txt "/srv/images") := .inr ⟨txt "srv/images", rfl, by decide +kernel⟩

theorem canonical_sibling : Canonical (txt "/srv/images2") := .inr ⟨txt "srv/images2", rfl, by decide +kernel⟩

theorem isWithin_sibling :
    Canonical (txt "/srv/images2") ∧ Canonical (txt "/srv/images") ∧
      (isWithin (txt "/srv/images2") (txt "/srv/images") = true ↔
        namedComponents (txt "/srv/images") <+: namedComponents (txt "/srv/images2")) :=
  ⟨canonical_sibling, canonical_images,
    (isWithin_contains_iff _ _ canonical_sibling canonical_images).2 fun h => absurd h (by decide)⟩

theorem isWithin_root_directory :
    Canonical (txt "/a") ∧ Canonical (txt "/") ∧ namedComponents (txt "/") <+: namedComponents (txt "/a") ∧
      isWithin (txt "/a") (txt "/") = false :=
  ⟨.inr ⟨txt "a", rfl, by decide +kernel⟩, .inl rfl, by decide +kernel, by decide +kernel⟩

section
variable {canonicalize : Str → Option Str} (hcanonical : ∀ path q, canonicalize path = some q → Canonical q)
  {filePath root p : Str}
include hcanonical

theorem validateResolvedPath_ok_iff (hroot : Canonical root) (hne : root ≠ txt "/") :
    validateResolvedPath canonicalize filePath root = .ok p ↔
      canonicalize filePath = some p ∧ namedComponents root <+: namedComponents p := by
  obtain ⟨rest, rfl, hrest⟩ := hroot.resolve_left hne
  unfold validateResolvedPath
  cases hq : canonicalize filePath with
  | none => simp
  | some q =>
    have hiff := isWithin_of_named_root (hcanonical filePath q hq) hrest
    by_cases hin : isWithin q ('/' :: rest) = true
    · have hstart := hiff.1 hin
      simp only [hin, if_true, ResolvedPath.ok.injEq, Option.some_inj]
      constructor
      · rintro rfl
        exact ⟨rfl, hstart⟩
      · exact fun h => h.1
    · simp only [hin, Option.some_inj]
      constructor
      · exact fun h => by cases h
      · rintro ⟨rfl, hstart⟩
        exact absurd (hiff.2 hstart) hin

theorem validateResolvedPath_root (hne : p ≠ txt "/") (hfile : canonicalize filePath = some p) :
    validateResolvedPath canonicalize filePath (txt "/") = .traversal := by
  have hnot : isWithin p (txt "/") ≠ true := fun hin => hne ((isWithin_root_iff (hcanonical _ _ hfile)).1 hin)
  simp [validateResolvedPath, hfile, hnot]

end

end Sipi.Serve
