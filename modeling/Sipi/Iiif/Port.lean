import Sipi.Iiif.Classifier
import Mathlib.Algebra.Order.BigOperators.Group.List

/-!
# The Rust classifier against the C++ reference

The tests of `request.rs` call the C++ classifier the reference and any divergence from it a defect.
-/

namespace Sipi.Iiif

/-- Both refuse, or accept with the same result. -/
def SameResult (parts : List Str) :
    Except ParseError ParsedRequest → Except Str Cpp.IIIFUriParseResult → Prop
  | .error _, .error _ => True
  | .ok r, .ok c =>
    Cpp.typeOf r.kind = c.requestType ∧
      (r.iiifPrefix :: r.identifier ::
        if r.kind = .iiif then [fromEnd parts 4, fromEnd parts 3, fromEnd parts 2, fromEnd parts 1] else []) = c.params
  | _, _ => False

/-- The classifiers agree on a URI. -/
def Agree (uri : Str) : Prop := SameResult (tokenize uri) (parseRequest uri) (Cpp.parseIiifUri uri)

instance (parts : List Str) : (r : Except ParseError ParsedRequest) → (c : Except Str Cpp.IIIFUriParseResult) →
    Decidable (SameResult parts r c)
  | .error _, .error _ => isTrue trivial
  | .ok _, .ok _ => inferInstanceAs (Decidable (_ ∧ _))
  | .ok _, .error _ => isFalse id
  | .error _, .ok _ => isFalse id

/-- A path that is refused for its form. -/
def Refused (parts : List Str) : Prop :=
  parts = [] ∨
    match shape parts with
    | .image => parts.length < 5
    | .named _ => parts.length < 2
    | .broken => True
    | .bare => [] ∈ parts.take (parts.length - 1)

/-- A download with an empty segment in its prefix. -/
def LosesSlash (segs : List Str) : Prop :=
  4 ≤ segs.length ∧ segs.head? = some [] ∧ percentDecode (fromEnd segs 1) = txt "file"

/-! ### Two decoders, one shape -/

variable {u v : Str}

theorem Diverges.percent_mem (h : Diverges u v) : '%' ∈ u ∧ '%' ∈ v := by
  obtain ⟨p, x, y, -, rfl, rfl⟩ := h
  constructor <;> exact List.mem_append_right p (List.mem_cons_self ..)

theorem hidesEscape_of_not_mem {s : Str} (h : '%' ∉ percentDecode s) : hidesEscape s = false := by
  by_contra hne
  exact h (diverges_of_hidesEscape s (by simpa using hne)).percent_mem.1

theorem test_decode {P : Str → Bool} (hP : ∀ s, P s = true → '%' ∉ s) (s : Str) :
    P (Cpp.urldecode s) = P (percentDecode s) := by
  cases h : hidesEscape s with
  | false => rw [percentDecode_eq_of_not_hidesEscape s h]
  | true =>
    have hm := (diverges_of_hidesEscape s h).percent_mem
    have h₁ : P (percentDecode s) = false := by simpa using fun hp => hP _ hp hm.1
    have h₂ : P (Cpp.urldecode s) = false := by simpa using fun hp => hP _ hp hm.2
    rw [h₁, h₂]

theorem fromEnd_map {f : Str → Str} (hf : f [] = []) (segs : List Str) (k : ℕ) :
    fromEnd (segs.map f) k = f (fromEnd segs k) := by
  unfold fromEnd
  rw [List.length_map]
  conv_lhs => rw [← hf]
  exact List.getD_map _ _ f

theorem nameOf_decode (s : Str) : nameOf (Cpp.urldecode s) = nameOf (percentDecode s) := by
  have hwr : ∀ w : String, '%' ∉ txt w → (Cpp.urldecode s = txt w ↔ percentDecode s = txt w) := by
    intro w hw
    have := @test_decode (fun u => decide (u = txt w)) (fun u hu => of_decide_eq_true hu ▸ hw) s
    simpa using this
  simp only [nameOf, hwr "info.json" (by decide), hwr "knora.json" (by decide), hwr "file" (by decide)]

theorem qualformOk_decode (segs : List Str) :
    qualformOk (segs.map Cpp.urldecode) = qualformOk (segs.map percentDecode) := by
  unfold qualformOk
  rw [fromEnd_map rfl, fromEnd_map rfl]
  exact test_decode (fun u hu => Grammar.avoids_qualityFormat u ((isValidQualform_iff u).mp hu)) _

theorem rotationOk_decode (segs : List Str) :
    rotationOk (segs.map Cpp.urldecode) = rotationOk (segs.map percentDecode) := by
  unfold rotationOk
  rw [fromEnd_map rfl, fromEnd_map rfl, List.length_map, List.length_map,
    test_decode fun u hu => Grammar.avoids_rotation u ((isValidRotation_iff u).mp hu)]

theorem sizeOk_decode (segs : List Str) : sizeOk (segs.map Cpp.urldecode) = sizeOk (segs.map percentDecode) := by
  unfold sizeOk
  rw [fromEnd_map rfl, fromEnd_map rfl, List.length_map, List.length_map,
    test_decode fun u hu => Grammar.avoids_size u ((isValidSize_iff u).mp hu)]

theorem regionOk_decode (segs : List Str) :
    regionOk (segs.map Cpp.urldecode) = regionOk (segs.map percentDecode) := by
  unfold regionOk
  rw [fromEnd_map rfl, fromEnd_map rfl, List.length_map, List.length_map,
    test_decode fun u hu => Grammar.avoids_region u ((isValidRegion_iff u).mp hu)]

theorem shape_decode (segs : List Str) : shape (segs.map Cpp.urldecode) = shape (segs.map percentDecode) := by
  unfold shape
  rw [qualformOk_decode, rotationOk_decode, sizeOk_decode, regionOk_decode, fromEnd_map rfl, fromEnd_map rfl,
    nameOf_decode]

theorem nil_mem_decode (segs : List Str) : [] ∈ segs.map Cpp.urldecode ↔ [] ∈ segs.map percentDecode := by
  simp [Cpp.urldecode_eq_nil, percentDecode_eq_nil]

/-! ### Prefixes -/

variable {segs : List Str}

theorem length_join (h : segs ≠ []) : (join segs).length + 1 = (segs.map fun s => s.length + 1).sum := by
  induction segs with
  | nil => exact absurd rfl h
  | cons s t ih =>
    cases t with
    | nil => simp [join]
    | cons s' t =>
      have := ih (List.cons_ne_nil s' t)
      simp only [join, List.intercalate_cons_cons, List.length_append, List.length_cons, List.length_nil,
        List.map_cons, List.sum_cons] at this ⊢
      omega

theorem join_decode_eq_iff (segs : List Str) :
    join (segs.map percentDecode) = join (segs.map Cpp.urldecode) ↔ ∀ s ∈ segs, hidesEscape s = false := by
  constructor
  · intro h
    by_contra hne
    push Not at hne
    obtain ⟨s, hs, hh⟩ := hne
    have hne : segs ≠ [] := List.ne_nil_of_mem hs
    have hlt : (segs.map fun s => (percentDecode s).length + 1).sum <
        (segs.map fun s => (Cpp.urldecode s).length + 1).sum := List.sum_lt_sum (fun s => (percentDecode s).length + 1)
      (fun s => (Cpp.urldecode s).length + 1) (fun s _ => Nat.succ_le_succ (length_percentDecode_le s))
      ⟨s, hs, Nat.succ_lt_succ (length_lt_of_hidesEscape s (by simpa using hh))⟩
    have h₁ : (join (segs.map percentDecode)).length + 1 = _ := length_join (by simpa using hne)
    have h₂ : (join (segs.map Cpp.urldecode)).length + 1 = _ := length_join (by simpa using hne)
    simp only [List.map_map, Function.comp_def] at h₁ h₂
    rw [h] at h₁
    omega
  · intro h
    congr 1
    exact List.map_congr_left fun s hs => percentDecode_eq_of_not_hidesEscape s (h s hs)

/-- The same text, or texts that part at a `%`. -/
def Meets (u v : Str) : Prop := u = v ∨ Diverges u v

theorem Diverges.append (h : Diverges u v) (x y : Str) : Diverges (u ++ x) (v ++ y) := by
  obtain ⟨p, a, b, hp, rfl, rfl⟩ := h
  exact ⟨p, a ++ x, b ++ y, hp, by simp, by simp⟩

theorem Diverges.prepend (h : Diverges u v) (x : Str) : Diverges (x ++ u) (x ++ v) := by
  induction x with
  | nil => exact h
  | cons c x ih => exact ih.cons c

theorem Meets.append {x y : Str} (h : Meets u v) (h' : Meets x y) : Meets (u ++ x) (v ++ y) := by
  rcases h with rfl | h
  · rcases h' with rfl | h'
    · exact Or.inl rfl
    · exact Or.inr (h'.prepend u)
  · exact Or.inr (h.append x y)

theorem meets_decode (s : Str) : Meets (percentDecode s) (Cpp.urldecode s) := by
  cases h : hidesEscape s with
  | false => exact Or.inl (percentDecode_eq_of_not_hidesEscape s h)
  | true => exact Or.inr (diverges_of_hidesEscape s h)

theorem meets_join (segs : List Str) : Meets (join (segs.map percentDecode)) (join (segs.map Cpp.urldecode)) := by
  induction segs with
  | nil => exact Or.inl rfl
  | cons s t ih =>
    cases t with
    | nil => simpa [join] using meets_decode s
    | cons s' t =>
      simp only [List.map_cons, join, List.intercalate_cons_cons] at ih ⊢
      exact ((meets_decode s).append (Or.inl rfl)).append ih

theorem Meets.ne_of_slashes (h : Meets u v) {m : ℕ} (hm : 0 < m) : List.replicate m '/' ++ u ≠ v := by
  rintro rfl
  rcases h with h | ⟨p, x, y, hp, rfl, h⟩
  · have := congrArg List.length h
    simp at this
    omega
  · have hs : ∀ c ∈ List.replicate m '/', decide (c ≠ '%') = true := by
      intro c hc
      rw [List.eq_of_mem_replicate hc]
      decide
    have := congrArg (fun l => (l.takeWhile (· ≠ '%')).length) h
    simp only [List.takeWhile_append_of_pos hs,
      List.takeWhile_append_of_pos (decide_ne_of_not_mem hp)] at this
    simp at this
    omega

theorem dropWhile_nil_cons (segs : List Str) :
    (([] :: segs).map Cpp.urldecode).dropWhile (· = []) = (segs.map Cpp.urldecode).dropWhile (· = []) := by
  simp [Cpp.urldecode]

theorem dropWhile_cons_of_ne {s : Str} (hs : s ≠ []) (segs : List Str) :
    ((s :: segs).map Cpp.urldecode).dropWhile (· = []) = (s :: segs).map Cpp.urldecode := by
  simp [Cpp.urldecode_eq_nil, hs]

theorem slashes_join_ne (segs : List Str) {m : ℕ} (hm : 0 < m) :
    List.replicate m '/' ++ join (segs.map percentDecode) ≠ join ((segs.map Cpp.urldecode).dropWhile (· = [])) := by
  induction segs generalizing m with
  | nil =>
    obtain ⟨m, rfl⟩ := Nat.exists_eq_succ_of_ne_zero hm.ne'
    simp [join, List.replicate_succ]
  | cons s t ih =>
    by_cases hs : s = []
    · subst hs
      rw [dropWhile_nil_cons]
      cases t with
      | nil =>
        obtain ⟨m, rfl⟩ := Nat.exists_eq_succ_of_ne_zero hm.ne'
        simp [join, List.replicate_succ]
      | cons s' t =>
        have hj : List.replicate m '/' ++ join (([] :: s' :: t).map percentDecode) =
            List.replicate (m + 1) '/' ++ join ((s' :: t).map percentDecode) := by
          simp [join, List.intercalate_cons_cons, percentDecode, List.replicate_succ']
        rw [hj]
        exact ih (Nat.succ_pos m)
    · rw [dropWhile_cons_of_ne hs]
      exact (meets_join (s :: t)).ne_of_slashes hm

theorem filePrefix_eq_iff (segs : List Str) :
    join (segs.map percentDecode) = Cpp.prefixSkipping (segs.map Cpp.urldecode) ↔
      (∀ s ∈ segs, hidesEscape s = false) ∧ ¬ (2 ≤ segs.length ∧ segs.head? = some []) := by
  rw [Cpp.prefixSkipping_eq]
  match segs with
  | [] => simp [join]
  | s :: t =>
    by_cases hs : s = []
    · subst hs
      cases t with
      | nil => simp [join, percentDecode, Cpp.urldecode, hidesEscape]
      | cons s' t =>
        have hne := slashes_join_ne (s' :: t) one_pos
        have hj : join (([] :: s' :: t).map percentDecode) =
            List.replicate 1 '/' ++ join ((s' :: t).map percentDecode) := by
          simp [join, List.intercalate_cons_cons, percentDecode]
        rw [dropWhile_nil_cons, hj]
        constructor
        · exact fun h => absurd h hne
        · exact fun h => absurd ⟨by simp, rfl⟩ h.2
    · rw [dropWhile_cons_of_ne hs, join_decode_eq_iff]
      simp [hs]

variable {parts : List Str}

theorem ok_of_shape_image (h : shape parts = .image) :
    isValidQualform (fromEnd parts 1) = true ∧ isValidRotation (fromEnd parts 2) = true ∧
      isValidSize (fromEnd parts 3) = true ∧ isValidRegion (fromEnd parts 4) = true := by
  unfold shape at h
  split at h
  · next hok =>
    simp only [qualformOk, rotationOk, sizeOk, regionOk, Bool.and_eq_true] at hok
    exact ⟨hok.1.1.1, hok.1.1.2.2, hok.1.2.2, hok.2.2⟩
  · split at h
    · cases h
    · split at h <;> cases h

theorem nameOf_of_shape_named {kind : RequestKind} (h : shape parts = .named kind) :
    nameOf (fromEnd parts 1) = some kind := by
  unfold shape at h
  split at h
  · cases h
  · split at h
    · next hn => rw [hn, Shape.named.inj h]
    · split at h <;> cases h

theorem nameOf_of_shape_bare (h : shape parts = .bare) : nameOf (fromEnd parts 1) = none := by
  unfold shape at h
  split at h
  · cases h
  · split at h
    · cases h
    · assumption

theorem nameOf_eq_fileDownload {s : Str} : nameOf s = some .fileDownload ↔ s = txt "file" := by
  unfold nameOf
  split_ifs with h₁ h₂ h₃
  · simpa [h₁] using by decide
  · simpa [h₂] using by decide
  · simp [h₃]
  · simp [h₃]

theorem forall_segments_iff (segs : List Str) (k : ℕ) (P : Str → Prop) :
    (∀ s ∈ segs, P s) ↔ (∀ s ∈ segs.take (segs.length - k), P s) ∧ ∀ s ∈ segs.drop (segs.length - k), P s := by
  conv_lhs => rw [← List.take_append_drop (segs.length - k) segs]
  exact List.forall_mem_append

/-! ### Agreement, shape by shape -/

section Shapes

variable {segs : List Str}

theorem fromEnd_percentDecode (k : ℕ) : fromEnd (segs.map percentDecode) k = percentDecode (fromEnd segs k) :=
  fromEnd_map rfl segs k

theorem fromEnd_urldecode (k : ℕ) : fromEnd (segs.map Cpp.urldecode) k = Cpp.urldecode (fromEnd segs k) :=
  fromEnd_map rfl segs k

theorem sameResult_image (hs : shape (segs.map percentDecode) = .image) (hl : 5 ≤ segs.length)
    (hpr : ∀ e, imageRequest (segs.map percentDecode) ≠ .error (.params e)) :
    SameResult (segs.map percentDecode) (imageRequest (segs.map percentDecode))
        (Cpp.imageRequest (segs.map Cpp.urldecode)) ↔ ∀ s ∈ segs, hidesEscape s = false := by
  obtain ⟨hq, hr, hz, hg⟩ := ok_of_shape_image hs
  simp only [fromEnd_percentDecode] at hq hr hz hg
  have h₁ := hidesEscape_of_not_mem (Grammar.avoids_qualityFormat _ ((isValidQualform_iff _).mp hq))
  have h₂ := hidesEscape_of_not_mem (Grammar.avoids_rotation _ ((isValidRotation_iff _).mp hr))
  have h₃ := hidesEscape_of_not_mem (Grammar.avoids_size _ ((isValidSize_iff _).mp hz))
  have h₄ := hidesEscape_of_not_mem (Grammar.avoids_region _ ((isValidRegion_iff _).mp hg))
  have hd : segs.drop (segs.length - 5) =
      [fromEnd segs 5, fromEnd segs 4, fromEnd segs 3, fromEnd segs 2, fromEnd segs 1] := by
    rw [drop_eq_fromEnd_cons (by omega), drop_eq_fromEnd_cons (by omega), drop_eq_fromEnd_cons (by omega),
      drop_eq_fromEnd_cons (by omega), drop_eq_fromEnd_cons (by omega), Nat.sub_zero, List.drop_length]
  rw [imageRequest_eq] at hpr ⊢
  rw [Cpp.imageRequest_eq, forall_segments_iff segs 5, hd, ← join_decode_eq_iff]
  simp only [List.length_map, if_pos hl, fromEnd_percentDecode] at hpr ⊢
  cases hp : parseIiifParams (percentDecode (fromEnd segs 4)) (percentDecode (fromEnd segs 3))
      (percentDecode (fromEnd segs 2)) (percentDecode (fromEnd segs 1)) with
  | error e =>
    rw [hp] at hpr
    exact absurd rfl (hpr e)
  | ok p =>
    simp only [SameResult, Cpp.typeOf, fromEnd_percentDecode, fromEnd_urldecode, ← List.map_take, if_true,
      List.cons.injEq, percentDecode_eq_urldecode_iff, List.forall_mem_cons, List.not_mem_nil, false_implies,
      forall_const, h₁, h₂, h₃, h₄, and_true, true_and]

theorem sameResult_named {kind : RequestKind} (hs : shape (segs.map percentDecode) = .named kind)
    (hln : 2 ≤ segs.length) :
    SameResult (segs.map percentDecode) (namedRequest kind (segs.map percentDecode))
        (Cpp.namedRequest (Cpp.typeOf kind) (Cpp.loopOf kind) (segs.map Cpp.urldecode)) ↔
      (∀ s ∈ segs, hidesEscape s = false) ∧ ¬ LosesSlash segs := by
  have hnm := nameOf_of_shape_named hs
  rw [fromEnd_percentDecode] at hnm
  have hk : kind ≠ .iiif := by
    rintro rfl
    exact nameOf_ne_iiif _ hnm
  have h₁ : hidesEscape (fromEnd segs 1) = false := by
    apply hidesEscape_of_not_mem
    unfold nameOf at hnm
    split_ifs at hnm with h h h
    all_goals rw [h]; decide
  have hd : segs.drop (segs.length - 2) = [fromEnd segs 2, fromEnd segs 1] := by
    rw [drop_eq_fromEnd_cons (by omega), drop_eq_fromEnd_cons (by omega), Nat.sub_zero, List.drop_length]
  have hlp : Cpp.loopOf kind [] = [] := by cases kind <;> rfl
  rw [namedRequest_eq, Cpp.namedRequest_eq _ hlp, forall_segments_iff segs 2, hd]
  simp only [SameResult, List.length_map, if_pos hln, fromEnd_percentDecode, fromEnd_urldecode, ← List.map_take,
    List.cons.injEq, percentDecode_eq_urldecode_iff, List.forall_mem_cons, List.not_mem_nil, false_implies,
    forall_const, h₁, hk, if_false, and_true, true_and]
  by_cases hf : kind = .fileDownload
  · have hl := nameOf_eq_fileDownload.mp (hf ▸ hnm)
    have hls : LosesSlash segs ↔
        2 ≤ (segs.take (segs.length - 2)).length ∧ (segs.take (segs.length - 2)).head? = some [] := by
      rw [LosesSlash, List.length_take, List.head?_take]
      constructor
      · rintro ⟨hn, hh, -⟩
        exact ⟨by omega, by rwa [if_neg (by omega)]⟩
      · rintro ⟨hn, hh⟩
        rw [if_neg (by omega)] at hh
        exact ⟨by omega, hh, hl⟩
    subst hf
    rw [Cpp.loopOf, filePrefix_eq_iff, ← hls]
    tauto
  · have hls : ¬ LosesSlash segs := by
      rintro ⟨-, -, hl⟩
      rw [nameOf_eq_fileDownload.mpr hl] at hnm
      exact hf (Option.some.inj hnm).symm
    have hi : Cpp.loopOf kind = Cpp.prefixByIndex := by
      cases kind <;> first | rfl | exact absurd rfl hf
    rw [hi, Cpp.prefixByIndex_eq, join_decode_eq_iff]
    tauto

theorem sameResult_bare (hne : segs ≠ []) (hf : [] ∉ (segs.map percentDecode).take ((segs.map percentDecode).length - 1)) :
    SameResult (segs.map percentDecode) (redirectRequest (segs.map percentDecode))
        (Cpp.redirectRequest (segs.map Cpp.urldecode)) ↔ ∀ s ∈ segs, hidesEscape s = false := by
  have hf' : [] ∉ (segs.map Cpp.urldecode).take ((segs.map Cpp.urldecode).length - 1) := by
    rw [List.length_map, ← List.map_take] at hf ⊢
    rwa [nil_mem_decode]
  have hd : segs.drop (segs.length - 1) = [fromEnd segs 1] := by
    rw [drop_eq_fromEnd_cons (List.length_pos_iff.mpr hne), Nat.sub_zero, List.drop_length]
  rw [redirectRequest_eq, Cpp.redirectRequest_eq, if_neg hf, if_neg hf', forall_segments_iff segs 1, hd,
    ← join_decode_eq_iff]
  simp only [SameResult, Cpp.typeOf, List.length_map, fromEnd_percentDecode, fromEnd_urldecode, ← List.map_take,
    List.cons.injEq, percentDecode_eq_urldecode_iff, List.forall_mem_cons, List.not_mem_nil, false_implies,
    forall_const, reduceCtorEq, if_false, and_true, true_and]

theorem sameResult_refused (h : Refused (segs.map percentDecode)) :
    SameResult (segs.map percentDecode) (parseSegments (segs.map percentDecode))
      (Cpp.parseSegments (segs.map Cpp.urldecode)) := by
  by_cases hne : segs = []
  · subst hne
    trivial
  rw [parseSegments_eq (by simpa using hne), Cpp.parseSegments_eq (by simpa using hne), shape_decode]
  rcases h with h | h
  · exact absurd (List.map_eq_nil_iff.mp h) hne
  cases hs : shape (segs.map percentDecode) with
  | image =>
    rw [hs] at h
    simp only [List.length_map] at h
    simp only [imageRequest_eq, Cpp.imageRequest_eq, List.length_map, if_neg (Nat.not_le.mpr h)]
    trivial
  | named kind =>
    have hl : Cpp.loopOf kind [] = [] := by cases kind <;> rfl
    rw [hs] at h
    simp only [List.length_map] at h
    simp only [namedRequest_eq, Cpp.namedRequest_eq _ hl, List.length_map, if_neg (Nat.not_le.mpr h)]
    trivial
  | broken =>
    rw [qualformOk_decode]
    cases qualformOk (segs.map percentDecode) <;> trivial
  | bare =>
    rw [hs] at h
    have h' : [] ∈ (segs.map Cpp.urldecode).take ((segs.map Cpp.urldecode).length - 1) := by
      simp only [List.length_map, ← List.map_take] at h ⊢
      rwa [nil_mem_decode]
    simp only [redirectRequest_eq, Cpp.redirectRequest_eq, if_pos h, if_pos h']
    trivial

end Shapes

theorem not_losesSlash_of_image (hs : shape (segs.map percentDecode) = .image) : ¬ LosesSlash segs := by
  rintro ⟨-, -, hl⟩
  have hq := (ok_of_shape_image hs).1
  rw [fromEnd_percentDecode, hl] at hq
  exact absurd hq (by decide)

theorem not_losesSlash_of_bare (hs : shape (segs.map percentDecode) = .bare) : ¬ LosesSlash segs := by
  rintro ⟨-, -, hl⟩
  have hn := nameOf_of_shape_bare hs
  rw [fromEnd_percentDecode, hl] at hn
  exact absurd hn (by decide)

/-- **Where the two classifiers agree**: on a path that is refused for its form, and on every other path exactly
when no segment hides an escape and the path is not a file download that loses a slash. -/
theorem agree_iff (uri : Str) (hparams : ∀ e, parseRequest uri ≠ .error (.params e)) :
    Agree uri ↔ Refused (tokenize uri) ∨
      ((∀ s ∈ rawSegments uri, hidesEscape s = false) ∧ ¬ LosesSlash (rawSegments uri)) := by
  unfold parseRequest at hparams
  unfold Agree parseRequest Cpp.parseIiifUri
  rw [Cpp.tokenize_eq]
  rw [tokenize_eq] at hparams ⊢
  generalize rawSegments uri = segs at *
  by_cases hr : Refused (segs.map percentDecode)
  · exact ⟨fun _ => Or.inl hr, fun _ => sameResult_refused hr⟩
  rw [or_iff_right hr]
  unfold Refused at hr
  push Not at hr
  obtain ⟨hne, hf⟩ := hr
  have hn' : segs ≠ [] := fun h => hne (by rw [h]; rfl)
  rw [parseSegments_eq hne] at hparams ⊢
  rw [Cpp.parseSegments_eq (by simpa using hn'), shape_decode]
  cases hs : shape (segs.map percentDecode) with
  | image =>
    rw [hs] at hf hparams
    simp only [List.length_map, not_lt] at hf
    simp only [sameResult_image hs hf hparams, not_losesSlash_of_image hs, not_false_eq_true, and_true]
  | named kind =>
    rw [hs] at hf
    simp only [List.length_map, not_lt] at hf
    exact sameResult_named hs hf
  | broken =>
    rw [hs] at hf
    exact absurd trivial hf
  | bare =>
    rw [hs] at hf
    simp only [sameResult_bare hn' hf, not_losesSlash_of_bare hs, not_false_eq_true, and_true]

theorem agree_on_escaped_identifier : Agree (txt "/iiif/3/special%2Fchars%3Fhere") := by
  have hok : parseRequest (txt "/iiif/3/special%2Fchars%3Fhere") =
      .ok ⟨.redirect, txt "iiif/3", txt "special/chars?here", none⟩ := by decide
  refine (agree_iff _ fun e h => ?_).mpr (Or.inr ⟨by decide, ?_⟩)
  · rw [hok] at h
    cases h
  · rintro ⟨h, -⟩
    exact absurd h (by decide)

theorem not_agree_on_hidden_escape_or_lost_slash :
    (parseRequest (txt "/a%%41") = .ok ⟨.redirect, [], txt "a%A", none⟩ ∧ ¬ Agree (txt "/a%%41")) ∧
    (parseRequest (txt "//a/id/file") = .ok ⟨.fileDownload, txt "/a", txt "id", none⟩ ∧
      ¬ Agree (txt "//a/id/file")) := by
  refine ⟨⟨by decide, ?_⟩, ⟨by decide, ?_⟩⟩
  all_goals
    rw [Agree, Cpp.parseIiifUri, Cpp.tokenize_eq]
    decide

end Sipi.Iiif
