import Sipi.Iiif.Grammar
import Sipi.Theory.Fields

/-!
# From a URI to its decoded segments

The first stage of both classifiers: split the path at its slashes and percent-decode every segment, by `tokenize`
and `urldecode` of `src/iiifparser/rust/request.rs`, and by the head of `parse_iiif_uri` and `urldecode` of
`src/util/UrlDecode.cpp`.

## Honest scope

The decoded bytes are valid UTF-8. The flag of `urldecode` for form data is never set and left out.
-/

namespace Sipi.Iiif

/-! ### Percent decoding -/

/-- A hexadecimal digit (`isxdigit`). -/
def isHex (c : Char) : Bool :=
  c.isDigit || (decide ('a' ≤ c) && decide (c ≤ 'f')) || (decide ('A' ≤ c) && decide (c ≤ 'F'))

/-- The value of a hexadecimal digit. -/
def hexVal (c : Char) : ℕ :=
  if c.isDigit then c.toNat - '0'.toNat else c.toLower.toNat - 'W'.toNat

/-- The byte written by two hexadecimal digits. -/
def hexByte (a b : Char) : Char := Char.ofNat (16 * hexVal a + hexVal b)

/-- `percent_decode_str`: a bad `%` is literal. -/
def percentDecode : Str → Str
  | [] => []
  | '%' :: a :: b :: t =>
    if isHex a && isHex b then hexByte a b :: percentDecode t else '%' :: percentDecode (a :: b :: t)
  | c :: t => c :: percentDecode t

/-- `urldecode`: a bad `%` goes with two bytes. -/
def Cpp.urldecode : Str → Str
  | [] => []
  | '%' :: a :: b :: t =>
    if isHex a && isHex b then hexByte a b :: Cpp.urldecode t else '%' :: a :: b :: Cpp.urldecode t
  | c :: t => c :: Cpp.urldecode t

/-- The text begins with an escape. -/
def startsEscape : Str → Bool
  | '%' :: a :: b :: _ => isHex a && isHex b
  | _ => false

/-- A byte copied after a bad `%` is an escape. -/
def hidesEscape : Str → Bool
  | [] => false
  | '%' :: a :: b :: t =>
    if isHex a && isHex b then hidesEscape t
    else startsEscape (a :: b :: t) || startsEscape (b :: t) || hidesEscape t
  | _ :: t => hidesEscape t

variable {c : Char}

theorem isHex_ne_percent (h : isHex c = true) : c ≠ '%' := by
  rintro rfl
  exact absurd h (by decide)

theorem percentDecode_cons_of_ne (hc : c ≠ '%') (t : Str) : percentDecode (c :: t) = c :: percentDecode t := by
  rw [percentDecode]
  intro a b u h
  exact absurd h hc

theorem percentDecode_cons_of_not_starts {t : Str} (h : startsEscape (c :: t) = false) :
    percentDecode (c :: t) = c :: percentDecode t := by
  by_cases hc : c = '%'
  · subst hc
    match t with
    | [] => rfl
    | [a] => rfl
    | a :: b :: u =>
      have hab : (isHex a && isHex b) = false := h
      rw [percentDecode, hab]
      rfl
  · exact percentDecode_cons_of_ne hc t

variable {s : Str}

theorem startsEscape_iff :
    startsEscape s = true ↔ ∃ a b t, s = '%' :: a :: b :: t ∧ isHex a = true ∧ isHex b = true := by
  constructor
  · intro h
    unfold startsEscape at h
    split at h
    · next a b t => exact ⟨a, b, t, rfl, Bool.and_eq_true_iff.mp h⟩
    · cases h
  · rintro ⟨a, b, t, rfl, ha, hb⟩
    simp [startsEscape, ha, hb]

theorem length_percentDecode_of_starts {t : Str} (h : startsEscape (c :: t) = true) :
    (percentDecode (c :: t)).length + 1 = (percentDecode t).length := by
  obtain ⟨a, b, u, hs, ha, hb⟩ := startsEscape_iff.mp h
  obtain ⟨rfl, rfl⟩ := List.cons.inj hs
  rw [percentDecode, if_pos (by simp [ha, hb]), percentDecode_cons_of_ne (isHex_ne_percent ha),
    percentDecode_cons_of_ne (isHex_ne_percent hb)]
  rfl

theorem length_percentDecode_cons (c : Char) (t : Str) :
    (percentDecode (c :: t)).length + (if startsEscape (c :: t) then 2 else 0) = (percentDecode t).length + 1 := by
  cases h : startsEscape (c :: t) with
  | true =>
    have := length_percentDecode_of_starts h
    simp only [if_true]
    omega
  | false =>
    rw [percentDecode_cons_of_not_starts h]
    rfl

/-- The texts are the same up to a `%`. -/
def Diverges (u v : Str) : Prop := ∃ p x y, '%' ∉ p ∧ u = p ++ '%' :: x ∧ v = p ++ '%' :: y

theorem Diverges.cons {u v : Str} (h : Diverges u v) (c : Char) : Diverges (c :: u) (c :: v) := by
  obtain ⟨p, x, y, hp, rfl, rfl⟩ := h
  by_cases hc : c = '%'
  · exact ⟨[], p ++ '%' :: x, p ++ '%' :: y, List.not_mem_nil, by rw [hc]; rfl, by rw [hc]; rfl⟩
  · refine ⟨c :: p, x, y, ?_, rfl, rfl⟩
    rw [List.mem_cons]
    rintro (h | h)
    · exact hc h.symm
    · exact hp h

theorem diverges_percent (x y : Str) : Diverges ('%' :: x) ('%' :: y) := ⟨[], x, y, List.not_mem_nil, rfl, rfl⟩

theorem percentDecode_eq_of_not_hidesEscape (s : Str) (h : hidesEscape s = false) :
    percentDecode s = Cpp.urldecode s := by
  fun_induction Cpp.urldecode s with
  | case1 => rfl
  | case2 a b t hab ih =>
    rw [hidesEscape, if_pos hab] at h
    rw [percentDecode, if_pos hab, ih h]
  | case3 a b t hab ih =>
    rw [hidesEscape, if_neg hab] at h
    simp only [Bool.or_eq_false_iff] at h
    rw [percentDecode, if_neg hab, percentDecode_cons_of_not_starts h.1.1, percentDecode_cons_of_not_starts h.1.2,
      ih h.2]
  | case4 c t hne ih =>
    rw [hidesEscape] at h
    · rw [percentDecode, ih h]
      exact hne
    · exact hne

theorem length_percentDecode_le (s : Str) : (percentDecode s).length ≤ (Cpp.urldecode s).length := by
  fun_induction Cpp.urldecode s with
  | case1 => exact le_rfl
  | case2 a b t hab ih =>
    rw [percentDecode, if_pos hab]
    simpa using ih
  | case3 a b t hab ih =>
    have h₁ := length_percentDecode_cons a (b :: t)
    have h₂ := length_percentDecode_cons b t
    rw [percentDecode, if_neg hab]
    simp only [List.length_cons]
    omega
  | case4 c t hne ih =>
    rw [percentDecode]
    · simpa using ih
    · exact hne

theorem length_lt_of_hidesEscape (s : Str) (h : hidesEscape s = true) :
    (percentDecode s).length < (Cpp.urldecode s).length := by
  fun_induction Cpp.urldecode s with
  | case1 => cases h
  | case2 a b t hab ih =>
    rw [hidesEscape, if_pos hab] at h
    rw [percentDecode, if_pos hab]
    simpa using ih h
  | case3 a b t hab ih =>
    rw [hidesEscape, if_neg hab] at h
    have hle := length_percentDecode_le t
    have h₁ := length_percentDecode_cons a (b :: t)
    have h₂ := length_percentDecode_cons b t
    rw [percentDecode, if_neg hab]
    simp only [List.length_cons]
    simp only [Bool.or_eq_true] at h
    rcases h with (h | h) | h
    · rw [if_pos h] at h₁
      omega
    · rw [if_pos h] at h₂
      omega
    · have := ih h
      omega
  | case4 c t hne ih =>
    rw [hidesEscape] at h
    · rw [percentDecode]
      · simpa using ih h
      · exact hne
    · exact hne

theorem diverges_of_hidesEscape (s : Str) (h : hidesEscape s = true) :
    Diverges (percentDecode s) (Cpp.urldecode s) := by
  fun_induction Cpp.urldecode s with
  | case1 => cases h
  | case2 a b t hab ih =>
    rw [hidesEscape, if_pos hab] at h
    rw [percentDecode, if_pos hab]
    exact (ih h).cons _
  | case3 a b t hab ih =>
    rw [percentDecode, if_neg hab]
    exact diverges_percent _ _
  | case4 c t hne ih =>
    rw [hidesEscape] at h
    · rw [percentDecode]
      · exact (ih h).cons _
      · exact hne
    · exact hne

theorem percentDecode_eq_urldecode_iff (s : Str) : percentDecode s = Cpp.urldecode s ↔ hidesEscape s = false := by
  constructor
  · intro h
    by_contra hne
    have := length_lt_of_hidesEscape s (by simpa using hne)
    rw [h] at this
    exact lt_irrefl _ this
  · exact percentDecode_eq_of_not_hidesEscape s

theorem percentDecode_eq_nil : percentDecode s = [] ↔ s = [] := by
  constructor
  · intro h
    fun_cases percentDecode s with
    | case1 => rfl
    | case2 a b t hab => rw [percentDecode, if_pos hab] at h; cases h
    | case3 a b t hab => rw [percentDecode, if_neg hab] at h; cases h
    | case4 c t hne =>
      rw [percentDecode] at h
      · cases h
      · exact hne
  · rintro rfl
    rfl

theorem Cpp.urldecode_eq_nil : Cpp.urldecode s = [] ↔ s = [] := by
  constructor
  · intro h
    have := length_percentDecode_le s
    rw [h, List.length_nil, Nat.le_zero, List.length_eq_zero_iff] at this
    exact percentDecode_eq_nil.mp this
  · rintro rfl
    rfl

/-! ### Splitting at the slashes -/

/-- The segments without empty ones at the ends. -/
def dropTrailing (segs : List Str) : List Str :=
  if segs.getLast? = some [] then segs.dropLast else segs

/-- The segments of a path, before they are decoded. -/
def rawSegments (uri : Str) : List Str :=
  dropTrailing (((uri.dropPrefix? ['/']).getD uri).splitOn '/')

/-- `tokenize`. -/
def tokenize (uri : Str) : List Str :=
  if uri = [] then []
  else
    let segs := uri.splitOn '/'
    let segs := if uri.head? = some '/' ∧ segs ≠ [] then segs.tail else segs
    let segs := if uri.getLast? = some '/' ∧ segs.getLast? = some [] then segs.dropLast else segs
    segs.map percentDecode

namespace Cpp

/-- `std::string::find`. -/
def find (s : Str) (c : Char) (pos : ℕ) : Option ℕ := ((s.drop pos).findIdx? (· == c)).map (pos + ·)

/-- `std::string::substr`. -/
def substr (s : Str) (pos n : ℕ) : Str := (s.drop pos).take n

theorem find_bounds {pos p : ℕ} (h : find s c pos = some p) : pos ≤ p ∧ p < s.length := by
  obtain ⟨i, hi, rfl⟩ := Option.map_eq_some_iff.mp h
  have := (List.findIdx?_eq_some_iff_findIdx_eq.mp hi).1
  rw [List.length_drop] at this
  omega

theorem find_spec {pos p : ℕ} (h : find s c pos = some p) :
    c ∉ substr s pos (p - pos) ∧ s.drop pos = substr s pos (p - pos) ++ c :: s.drop (p + 1) := by
  obtain ⟨i, hi, rfl⟩ := Option.map_eq_some_iff.mp h
  obtain ⟨hlt, hc, hb⟩ := List.findIdx?_eq_some_iff_getElem.mp hi
  rw [Nat.add_sub_cancel_left, substr]
  constructor
  · intro hm
    obtain ⟨j, hj, hjc⟩ := List.mem_take_iff_getElem.mp hm
    exact hb j (lt_of_lt_of_le hj (min_le_left ..)) (by rw [hjc]; simp)
  · have hci : (s.drop pos)[i] = c := by simpa using hc
    conv_lhs => rw [← List.take_append_drop i (s.drop pos), List.drop_eq_getElem_cons hlt, hci]
    rw [List.drop_drop, Nat.add_assoc]

/-- The `while` loop over the slashes. -/
def tokenizeLoop (uri : Str) (pos oldPos : ℕ) (parts : List Str) : List Str × ℕ :=
  match _h : find uri '/' pos with
  | none => (parts, oldPos)
  | some p =>
    -- the first character is a slash: skip it
    if p + 1 = 1 then tokenizeLoop uri (p + 1) (p + 1) parts
    else tokenizeLoop uri (p + 1) (p + 1) (parts ++ [urldecode (substr uri oldPos (p + 1 - oldPos - 1))])
termination_by uri.length - pos
decreasing_by all_goals have := find_bounds _h; omega

/-- The segments `parse_iiif_uri` works on. -/
def tokenize (uri : Str) : List Str :=
  let (parts, oldPos) := tokenizeLoop uri 0 0 []
  if oldPos ≠ uri.length then parts ++ [urldecode (uri.drop oldPos)] else parts

end Cpp

theorem dropTrailing_cons (a : Str) {segs : List Str} (h : segs ≠ []) :
    dropTrailing (a :: segs) = a :: dropTrailing segs := by
  obtain ⟨b, t, rfl⟩ := List.exists_cons_of_ne_nil h
  unfold dropTrailing
  rw [List.getLast?_cons_cons]
  split <;> rfl

theorem getLast?_splitOn_slash (s : Str) : (s.splitOn '/').getLast? = some [] ↔ s = [] ∨ s.getLast? = some '/' := by
  induction s using Theory.sep_induction '/' with
  | one a ha =>
    rw [List.splitOn_eq_singleton ha, List.getLast?_singleton, Option.some.injEq]
    constructor
    · exact Or.inl
    · rintro (h | h)
      · exact h
      · exact absurd (List.mem_of_getLast? h) ha
  | more a b ha ih =>
    obtain ⟨x, xs, hx⟩ := List.exists_cons_of_ne_nil (List.splitOn_ne_nil '/' b)
    rw [List.splitOn_append_cons_self_of_not_mem ha, hx, List.getLast?_cons_cons, ← hx, ih]
    cases b with
    | nil => simp
    | cons c t => simp [List.getLast?_append, List.getLast?_cons_cons]

theorem tokenize_eq (uri : Str) : tokenize uri = (rawSegments uri).map percentDecode := by
  unfold tokenize rawSegments
  cases uri with
  | nil => rfl
  | cons c t =>
    rw [if_neg (List.cons_ne_nil c t)]
    by_cases hc : c = '/'
    · subst hc
      have hs : ('/' :: t).splitOn '/' = [] :: t.splitOn '/' :=
        List.splitOn_append_cons_self_of_not_mem (List.not_mem_nil : '/' ∉ []) t
      have hst : ('/' :: t).dropPrefix? ['/'] = some t := Theory.dropPrefix?_eq_some.mpr rfl
      have hl : ('/' :: t).getLast? = some '/' ∧ (t.splitOn '/').getLast? = some [] ↔
          (t.splitOn '/').getLast? = some [] := by
        rw [getLast?_splitOn_slash]
        cases t with
        | nil => simp
        | cons d u => simp [List.getLast?_cons_cons]
      simp only [hs, hst, List.head?_cons, ne_eq, reduceCtorEq, not_false_eq_true, and_self, if_true,
        List.tail_cons, hl, Option.getD_some]
      rfl
    · have hl : (c :: t).getLast? = some '/' ∧ ((c :: t).splitOn '/').getLast? = some [] ↔
          ((c :: t).splitOn '/').getLast? = some [] := by
        rw [getLast?_splitOn_slash]
        simp
      simp only [List.head?_cons, Option.some.injEq, hc, false_and, if_false, hl,
        Theory.dropPrefix?_cons_of_ne [] t hc, Option.getD_none]
      rfl

namespace Cpp

/-- The text after the last slash. -/
def pushLast (uri : Str) (r : List Str × ℕ) : List Str :=
  if r.2 ≠ uri.length then r.1 ++ [urldecode (uri.drop r.2)] else r.1

theorem tokenizeLoop_spec (uri : Str) (pos : ℕ) (parts : List Str) (hps : pos ≤ uri.length)
    (hl : pos ≠ 0 ∨ uri.head? ≠ some '/') :
    pushLast uri (tokenizeLoop uri pos pos parts) =
      parts ++ (dropTrailing ((uri.drop pos).splitOn '/')).map urldecode := by
  induction hn : uri.length - pos using Nat.strong_induction_on generalizing pos parts with
  | _ n ih =>
    rw [tokenizeLoop]
    split
    · next h =>
      -- no slash is left
      rw [find, Option.map_eq_none_iff, List.findIdx?_eq_none_iff] at h
      have hnt : '/' ∉ uri.drop pos := fun hm => by simpa using h _ hm
      rw [List.splitOn_eq_singleton hnt]
      by_cases he : pos = uri.length
      · simp [pushLast, dropTrailing, he]
      · have : uri.drop pos ≠ [] := by
          rw [Ne, List.drop_eq_nil_iff]
          omega
        simp [pushLast, dropTrailing, he, this]
    · next p h =>
      obtain ⟨hle, hlt⟩ := find_bounds h
      obtain ⟨hnt, hd⟩ := find_spec h
      have hp : p + 1 ≠ 1 := by
        rintro hp
        obtain ⟨rfl, rfl⟩ : p = 0 ∧ pos = 0 := by omega
        rcases hl with hl | hl
        · exact hl rfl
        · rw [List.drop_zero] at hd
          exact hl (by rw [hd]; rfl)
      rw [if_neg hp, ih (uri.length - (p + 1)) (by omega) (p + 1) _ hlt (Or.inl (Nat.succ_ne_zero p)) rfl, hd,
        List.splitOn_append_cons_self_of_not_mem hnt, dropTrailing_cons _ (List.splitOn_ne_nil _ _),
        Nat.sub_right_comm, Nat.add_sub_cancel, List.map_cons, List.append_assoc, List.singleton_append]

theorem tokenize_eq (uri : Str) : tokenize uri = (rawSegments uri).map urldecode := by
  have he : tokenize uri = pushLast uri (tokenizeLoop uri 0 0 []) := rfl
  rw [he, rawSegments]
  cases uri with
  | nil => exact tokenizeLoop_spec [] 0 [] le_rfl (Or.inr (by simp))
  | cons c t =>
    by_cases hc : c = '/'
    · subst hc
      have hf : find ('/' :: t) '/' 0 = some 0 := by simp [find, List.findIdx?_cons]
      have hs : ('/' :: t).dropPrefix? ['/'] = some t := Theory.dropPrefix?_eq_some.mpr rfl
      rw [tokenizeLoop]
      split
      · next h => rw [hf] at h; cases h
      · next p h =>
        cases hf.symm.trans h
        rw [if_pos rfl, tokenizeLoop_spec _ 1 [] (by simp) (Or.inl one_ne_zero), hs]
        rfl
    · rw [Theory.dropPrefix?_cons_of_ne [] t hc]
      exact tokenizeLoop_spec (c :: t) 0 [] (Nat.zero_le _) (Or.inr (by simpa using hc))

end Cpp

end Sipi.Iiif
