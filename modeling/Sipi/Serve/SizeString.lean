import Sipi.Serve.Restricted

/-!
# Two readers of a size

The size that is asked for is read by `parse_size` of `iiifparser/rust/parse.rs`, the restricting size by the
constructor `SipiSize(std::string)` that it was ported from.
-/

namespace Sipi.Serve

open Sipi.Iiif Sipi.Theory

/-! ### The constructor -/

theorem parseInt_of_posint {v : Str} (s : Str) (h : v ∈ Grammar.posint) :
    parseInt s v = .ok (min (digitsVal v) (2 ^ 64 - 1)) := by
  rw [parseInt, parseDigits_eq_some.mpr ⟨h, rfl⟩]

theorem min_saturated (n : ℕ) : min (min n (2 ^ 64 - 1)) limitdim = min n limitdim := by
  have hc : limitdim = 32000 := rfl
  omega

theorem saturated_eq_zero_iff (n : ℕ) : min n (2 ^ 64 - 1) = 0 ↔ n = 0 := by omega

theorem parseSide_of_posint {v : Str} (s : Str) (zero : SizeStringError) (h : v ∈ Grammar.posint) :
    parseSide s v zero = if digitsVal v = 0 then .error zero else .ok (min (digitsVal v) limitdim) := by
  unfold parseSide
  rw [parseInt_of_posint s h]
  show (if min (digitsVal v) (2 ^ 64 - 1) = 0 then _ else _) = _
  simp only [saturated_eq_zero_iff, min_saturated]

variable {s width : Str} (upscaling : Bool)

theorem sidesOfString_width (h : width ∈ Grammar.posint) :
    sidesOfString s upscaling false width [] =
      if digitsVal width = 0 then .error .widthZero
      else .ok ⟨.pixelsX, upscaling, 0, 0, min (digitsVal width) limitdim, 0⟩ := by
  have hne := (mem_runs.mp h).1
  unfold sidesOfString
  rw [if_neg (fun hb => hne hb.1), if_neg hne, if_pos rfl, parseSide_of_posint s .widthZero h]
  split <;> rfl

variable {height : Str}

theorem sidesOfString_height (h : height ∈ Grammar.posint) :
    sidesOfString s upscaling false [] height =
      if digitsVal height = 0 then .error .heightZero
      else .ok ⟨.pixelsY, upscaling, 0, 0, 0, min (digitsVal height) limitdim⟩ := by
  have hne := (mem_runs.mp h).1
  unfold sidesOfString
  rw [if_neg (fun hb => hne hb.2), if_pos rfl, parseSide_of_posint s .heightZero h]
  split <;> rfl

variable (exclamation : Bool)

theorem sidesOfString_both (hw : width ∈ Grammar.posint) (hh : height ∈ Grammar.posint) :
    sidesOfString s upscaling exclamation width height =
      if digitsVal width = 0 ∨ digitsVal height = 0 then .error (.sideZero s)
      else .ok ⟨if exclamation then .maxdim else .pixelsXy, upscaling, 0, 0, min (digitsVal width) limitdim,
        min (digitsVal height) limitdim⟩ := by
  have hne := (mem_runs.mp hw).1
  unfold sidesOfString
  rw [if_neg (fun hb => hne hb.1), if_neg hne, if_neg (mem_runs.mp hh).1, parseInt_of_posint s hw,
    parseInt_of_posint s hh]
  show (if min (digitsVal width) (2 ^ 64 - 1) = 0 ∨ min (digitsVal height) (2 ^ 64 - 1) = 0 then _ else _) = _
  simp only [saturated_eq_zero_iff, min_saturated]

theorem sizeOfString_pairText (hw : ∀ c ∈ width, c.isDigit = true) (hh : ∀ c ∈ height, c.isDigit = true) :
    sizeOfString (pairText upscaling exclamation width height) =
      sidesOfString (width ++ ',' :: height) upscaling exclamation width height := by
  obtain ⟨hb, hr⟩ := dropPrefix?_mark (a := '!') exclamation
    (head_pair_ne hw height (by decide) (by decide))
  obtain ⟨hup, haf⟩ := dropPrefix?_mark (a := '^') upscaling (head_pairText_ne exclamation hw height)
  obtain ⟨ht, hd⟩ := takeWhile_comma hw height
  have hl : ∀ a : Char, a.isDigit = false → a ≠ ',' → a ∉ width ++ ',' :: height := by
    intro a ha hc hm
    rcases List.mem_append.mp hm with hm | hm
    · rw [hw a hm] at ha
      cases ha
    · rcases List.mem_cons.mp hm with rfl | hm
      · exact hc rfl
      · rw [hh a hm] at ha
        cases ha
  -- digits and a comma have no letter of the three words
  have hn : ¬ (width ++ ',' :: height = [] ∨ width ++ ',' :: height = txt "max") := by
    rintro (h | h)
    · simp at h
    · exact hl 'm' (by decide) (by decide) (h ▸ (by decide : 'm' ∈ txt "max"))
  have hp : ¬ txt "pct" <:+: width ++ ',' :: height := by
    intro h
    exact hl 'p' (by decide) (by decide) (h.subset (by decide))
  have hrd : ¬ txt "red" <:+: width ++ ',' :: height := by
    intro h
    exact hl 'r' (by decide) (by decide) (h.subset (by decide))
  have hc : ',' ∈ width ++ ',' :: height := by simp
  unfold sizeOfString
  dsimp only
  rw [pairText, haf, hup, hb, hr, ht, hd, if_neg hn, if_neg hp, if_neg hrd, if_pos hc]

theorem sizeOfString_percent {p : Str} {q : ℚ} (hp : parseF32 p = some q) :
    sizeOfString (mark upscaling '^' ++ (txt "pct:" ++ p)) =
      .ok ⟨.percents, upscaling, if q ≤ 1 / 10 ^ 12 then 1 else q, 0, 0, 0⟩ := by
  obtain ⟨hup, ha⟩ := dropPrefix?_mark (a := '^') (r := txt "pct:" ++ p) upscaling
    (fun h => absurd (Option.some.inj h) (by decide))
  have hb : (txt "pct:" ++ p).dropPrefix? ['!'] = none := dropPrefix?_cons_of_ne [] _ (by decide)
  have hn : ¬ (txt "pct:" ++ p = [] ∨ txt "pct:" ++ p = txt "max") := by
    rintro (h | h)
    · cases h
    · exact absurd (List.cons.inj h).1 (by decide)
  have hpc : txt "pct" <:+: txt "pct:" ++ p := ⟨[], ':' :: p, rfl⟩
  have hs : substr4 (txt "pct:" ++ p) = .ok p := if_pos (by simp [txt])
  have hf : parseFloat (txt "pct:" ++ p) p = .ok q := by
    rw [parseFloat, hp]
  unfold sizeOfString
  dsimp only
  rw [ha, hup, hb, Option.getD_none, if_neg hn, if_pos hpc, hs]
  show (parseFloat (txt "pct:" ++ p) p >>= _) = _
  rw [hf]
  rfl

theorem sizeOfString_max : sizeOfString (mark upscaling '^' ++ txt "max") = .ok ⟨.full, upscaling, 0, 0, 0, 0⟩ := by
  cases upscaling <;> rfl

theorem parseSize_max : parseSize (mark upscaling '^' ++ txt "max") = .ok ⟨.full, upscaling, 0, 0, 0, 0⟩ := by
  cases upscaling <;> rfl

theorem parseSize_percent {p : Str} {q : ℚ} (hp : parseF32 p = some q) :
    parseSize (mark upscaling '^' ++ (txt "pct:" ++ p)) =
      .ok ⟨.percents, upscaling, if q ≤ 1 / 10 ^ 12 then 1 else q, 0, 0, 0⟩ := by
  obtain ⟨hup, ha⟩ := dropPrefix?_mark (a := '^') (r := txt "pct:" ++ p) upscaling
    (fun h => absurd (Option.some.inj h) (by decide))
  have hb : (txt "pct:" ++ p).dropPrefix? ['!'] = none := dropPrefix?_cons_of_ne [] _ (by decide)
  have hpc : (txt "pct:" ++ p).dropPrefix? (txt "pct:") = some p := dropPrefix?_eq_some.mpr rfl
  have hn : ¬ (txt "pct:" ++ p = txt "max" ∨ txt "pct:" ++ p = []) := by
    rintro (h | h)
    · exact absurd (List.cons.inj h).1 (by decide)
    · cases h
  unfold parseSize
  dsimp only
  rw [ha, hup, hb, Option.getD_none, if_neg hn, hpc]
  simp [hp]

/-- What stands before and after the comma. -/
def SidesText (exclamation : Bool) (width height : Str) : Prop :=
  exclamation = false ∧ width ∈ Grammar.posint ∧ height = [] ∨
    exclamation = false ∧ width = [] ∧ height ∈ Grammar.posint ∨
    width ∈ Grammar.posint ∧ height ∈ Grammar.posint

theorem size_cases (h : isValidSize s = true) :
    (∃ upscaling, s = mark upscaling '^' ++ txt "max") ∨
      (∃ upscaling p, p ∈ Grammar.posfloat ∧ s = mark upscaling '^' ++ (txt "pct:" ++ p)) ∨
      ∃ upscaling exclamation width height, s = pairText upscaling exclamation width height ∧
        SidesText exclamation width height := by
  have hm : ∀ {u : Str} {c : Char}, u ∈ (1 + {[c]} : Language Char) → ∃ b, u = mark b c := by
    rintro u c (hu | hu)
    · exact ⟨false, (Language.mem_one u).mp hu⟩
    · exact ⟨true, hu⟩
  obtain ⟨u, hu, form, hf, rfl⟩ := Language.mem_mul.mp ((isValidSize_iff s).mp h)
  obtain ⟨upscaling, rfl⟩ := hm hu
  rcases hf with (((hmx | hpc) | hl) | hr) | hbt
  · exact Or.inl ⟨upscaling, by rw [Grammar.mem_word.mp hmx]⟩
  · obtain ⟨w, hw, p, hp, rfl⟩ := Language.mem_mul.mp hpc
    exact Or.inr (Or.inl ⟨upscaling, p, hp, by rw [Grammar.mem_word.mp hw]⟩)
  · obtain ⟨width, hwd, c, hc, rfl⟩ := Language.mem_mul.mp hl
    obtain rfl : c = [','] := hc
    exact Or.inr (Or.inr ⟨upscaling, false, width, [], rfl, Or.inl ⟨rfl, hwd, rfl⟩⟩)
  · obtain ⟨c, hc, height, hh, rfl⟩ := Language.mem_mul.mp hr
    obtain rfl : c = [','] := hc
    exact Or.inr (Or.inr ⟨upscaling, false, [], height, rfl, Or.inr (Or.inl ⟨rfl, rfl, hh⟩)⟩)
  · obtain ⟨b, hb, pair, hpr, rfl⟩ := Language.mem_mul.mp hbt
    obtain ⟨exclamation, rfl⟩ := hm hb
    obtain ⟨width, hwd, tail, ht, rfl⟩ := Language.mem_mul.mp hpr
    obtain ⟨c, hc, height, hh, rfl⟩ := Language.mem_mul.mp ht
    obtain rfl : c = [','] := hc
    exact Or.inr (Or.inr ⟨upscaling, exclamation, width, height, rfl, Or.inr (Or.inr ⟨hwd, hh⟩)⟩)

theorem avoids_posfloat_comma : Avoids ',' Grammar.posfloat := by
  have hp : Avoids ',' Grammar.posint := avoids_runs (by decide)
  exact hp.mul ((avoids_one _).add ((avoids_word (by decide)).mul hp))

/-! ### Where they agree -/

/-- Both make the same of a size. -/
def ReadAlike (s : Str) : Prop :=
  ((∃ p, parseSize s = .ok p) ↔ ∃ q, sizeOfString s = .ok q) ∧
    ∀ p q, parseSize s = .ok p → sizeOfString s = .ok q → p = q

/-- The numbers around the comma of a size. -/
def sideNumbers (s : Str) : List ℕ :=
  let rest := (s.dropPrefix? ['^']).getD s
  let rest := (rest.dropPrefix? ['!']).getD rest
  if ',' ∈ rest then [rest.takeWhile (· ≠ ','), (rest.dropWhile (· ≠ ',')).tail].filterMap parseDigits else []

/-- No number is too large, or one is zero. -/
def Representable (s : Str) : Prop := 0 ∈ sideNumbers s ∨ ∀ n ∈ sideNumbers s, n < 2 ^ 64

theorem readAlike_of_eq {p : SizeParts} (hp : parseSize s = .ok p) (hc : sizeOfString s = .ok p) : ReadAlike s := by
  refine ⟨iff_of_true ⟨p, hp⟩ ⟨p, hc⟩, fun p' q' hp' hq' => ?_⟩
  rw [hp] at hp'
  rw [hc] at hq'
  exact (Except.ok.inj hp').symm.trans (Except.ok.inj hq')

theorem readAlike_iff_of_tests {p : SizeParts} {e₁ e₂ : ParamError} {e₃ : SizeStringError} {big zero : Prop}
    [Decidable big] [Decidable zero]
    (hp : parseSize s = if big then .error e₁ else if zero then .error e₂ else .ok p)
    (hc : sizeOfString s = if zero then .error e₃ else .ok p) : ReadAlike s ↔ (big → zero) := by
  unfold ReadAlike
  rw [hp, hc]
  by_cases hb : big <;> by_cases hz : zero <;> simp [hb, hz]

theorem sideNumbers_pairText (hw : ∀ c ∈ width, c.isDigit = true)
    (height : Str) : sideNumbers (pairText upscaling exclamation width height) =
      [width, height].filterMap parseDigits := by
  obtain ⟨-, hr⟩ := dropPrefix?_mark (a := '!') exclamation (head_pair_ne hw height (by decide) (by decide))
  obtain ⟨-, ha⟩ := dropPrefix?_mark (a := '^') upscaling (head_pairText_ne exclamation hw height)
  obtain ⟨ht, hd⟩ := takeWhile_comma hw height
  have hc : ',' ∈ width ++ ',' :: height := by simp
  unfold sideNumbers
  dsimp only
  rw [pairText, ha, hr, ht, hd, if_pos hc]

theorem representable_of_no_comma (h : ',' ∉ s) : Representable s := by
  have hs : ∀ (a : Char) (u : Str), ',' ∉ u → ',' ∉ (u.dropPrefix? [a]).getD u := by
    intro a u hu
    cases hd : u.dropPrefix? [a] with
    | none => exact hu
    | some r =>
      rw [dropPrefix?_eq_some.mp hd] at hu
      exact fun hr => hu (List.mem_append_right _ hr)
  have hnl : sideNumbers s = [] := if_neg (hs '!' _ (hs '^' s h))
  right
  rw [hnl]
  exact fun n hn => absurd hn List.not_mem_nil

theorem readAlike_pairText_iff (h : SidesText exclamation width height) :
    ReadAlike (pairText upscaling exclamation width height) ↔
      Representable (pairText upscaling exclamation width height) := by
  have hnl : parseDigits [] = none := rfl
  rcases h with ⟨rfl, hw, rfl⟩ | ⟨rfl, rfl, hh⟩ | ⟨hw, hh⟩
  · have hd := (mem_runs.mp hw).2
    have hp := (parseSize_pairText upscaling false hd []).trans (parseSizePair_width upscaling false hw)
    have hc :=
      (sizeOfString_pairText upscaling false hd (by simp)).trans (sidesOfString_width upscaling hw)
    have hn : [width, []].filterMap parseDigits = [digitsVal width] := by
      simp [parseDigits_eq_some.mpr ⟨hw, rfl⟩, hnl]
    rw [readAlike_iff_of_tests hp hc, Representable, sideNumbers_pairText _ _ hd, hn]
    simp only [List.mem_singleton, forall_eq]
    omega
  · have hd : ∀ c ∈ ([] : Str), c.isDigit = true := by simp
    have hp := (parseSize_pairText upscaling false hd height).trans (parseSizePair_height upscaling hh)
    have hc := (sizeOfString_pairText upscaling false hd (mem_runs.mp hh).2).trans
      (sidesOfString_height upscaling hh)
    have hn : [[], height].filterMap parseDigits = [digitsVal height] := by
      simp [parseDigits_eq_some.mpr ⟨hh, rfl⟩, hnl]
    rw [readAlike_iff_of_tests hp hc, Representable, sideNumbers_pairText _ _ hd, hn]
    simp only [List.mem_singleton, forall_eq]
    omega
  · have hd := (mem_runs.mp hw).2
    have hp := (parseSize_pairText upscaling exclamation hd height).trans
      (parseSizePair_both upscaling exclamation hw hh)
    have hc := (sizeOfString_pairText upscaling exclamation hd (mem_runs.mp hh).2).trans
      (sidesOfString_both upscaling exclamation hw hh)
    have hn : [width, height].filterMap parseDigits = [digitsVal width, digitsVal height] := by
      simp [parseDigits_eq_some.mpr ⟨hw, rfl⟩, parseDigits_eq_some.mpr ⟨hh, rfl⟩]
    rw [readAlike_iff_of_tests hp hc, Representable, sideNumbers_pairText _ _ hd, hn]
    simp only [List.mem_cons, List.not_mem_nil, or_false, forall_eq_or_imp, forall_eq]
    omega

/-- **`parse_size` mirrors the constructor if and only if** no number of the size is too large for 64 bits, or one of
them is zero. -/
theorem readAlike_iff {s : Str} (hvalid : isValidSize s = true) : ReadAlike s ↔ Representable s := by
  rcases size_cases hvalid with
    ⟨upscaling, rfl⟩ | ⟨upscaling, p, hp, rfl⟩ | ⟨upscaling, exclamation, width, height, rfl, h⟩
  · refine iff_of_true (readAlike_of_eq (parseSize_max upscaling) (sizeOfString_max upscaling)) ?_
    cases upscaling <;> exact representable_of_no_comma (by decide)
  · obtain ⟨q, hq⟩ := parseF32_of_posfloat hp
    refine iff_of_true (readAlike_of_eq (parseSize_percent upscaling hq) (sizeOfString_percent upscaling hq)) ?_
    apply representable_of_no_comma
    have hc : ',' ∉ p := avoids_posfloat_comma p hp
    cases upscaling <;> simpa [mark, txt] using hc
  · exact readAlike_pairText_iff upscaling exclamation h

theorem long_width_is_refused :
    isValidSize (txt "100000000000000000000,") = true ∧
      sizeOfString (txt "100000000000000000000,") = .ok ⟨.pixelsX, false, 0, 0, 32000, 0⟩ ∧
      parseSize (txt "100000000000000000000,") = .error (.sizeUnreadable (txt "100000000000000000000,")) ∧
      ¬ ReadAlike (txt "100000000000000000000,") := by
  have hc : sizeOfString (txt "100000000000000000000,") = .ok ⟨.pixelsX, false, 0, 0, 32000, 0⟩ := by
    decide +kernel
  have hr : parseSize (txt "100000000000000000000,") =
      .error (.sizeUnreadable (txt "100000000000000000000,")) := by decide +kernel
  refine ⟨by decide +kernel, hc, hr, fun h => ?_⟩
  rw [ReadAlike, hc, hr] at h
  simp at h

theorem confined_size_read_alike : isValidSize (txt "^!40000,300") = true ∧ ReadAlike (txt "^!40000,300") := by
  have hv : isValidSize (txt "^!40000,300") = true := by decide +kernel
  have hn : sideNumbers (txt "^!40000,300") = [40000, 300] := by decide +kernel
  refine ⟨hv, (readAlike_iff hv).mpr (Or.inr ?_)⟩
  rw [hn]
  decide

end Sipi.Serve
