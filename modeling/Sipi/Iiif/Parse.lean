import Sipi.Iiif.Grammar
import Mathlib.Data.Rat.Defs

/-!
# The Rust segment validators

`src/iiifparser/rust/parse.rs`: the consumers `consume_posint` and `consume_posfloat`, and the validators that gate
the classification of a request.
-/

namespace Sipi.Iiif

open Sipi.Theory

/-- Consume `digit+`. -/
def consumePosint : Reader Char := readRun Char.isDigit

/-- Consume `digit+ ('.' digit+)?`. -/
def consumePosfloat (s : Str) : Option Str :=
  (consumePosint s).bind (readOptional '.' consumePosint)

theorem reads_posint : Reads consumePosint (fun c => c.isDigit = false) Grammar.posint := reads_run _

theorem reads_posfloat : Reads consumePosfloat (fun c => c.isDigit = false ∧ c ≠ '.') Grammar.posfloat := by
  refine reads_posint.seq (reads_posint.optional '.') fun K hK => ?_
  rw [add_mul, one_mul, mul_assoc]
  exact stops_add (hK.mono fun _ h => h.1) ((begins_word _ (by decide)).mul _).stops

/-- A field of a region, with its comma. -/
def regionField (consume : Reader Char) (rest : Str) (i : ℕ) : Option Str :=
  (if 0 < i then rest.dropPrefix? [','] else some rest).bind consume

/-- `is_valid_region`. -/
def isValidRegion (s : Str) : Bool :=
  if s = txt "full" ∨ s = txt "square" then true
  else
    let isPct := (s.dropPrefix? (txt "pct:")).isSome
    let rest := (s.dropPrefix? (txt "pct:")).getD s
    (List.range 4).foldlM (regionField (if isPct then consumePosfloat else consumePosint)) rest == some []

/-- `is_valid_size`. -/
def isValidSize (s : Str) : Bool :=
  let s := (s.dropPrefix? ['^']).getD s
  if s = txt "max" then true
  else
    match s.dropPrefix? (txt "pct:") with
    | some p => consumePosfloat p == some []
    | none =>
      let hasBang := (s.dropPrefix? ['!']).isSome
      let s := (s.dropPrefix? ['!']).getD s
      match s.dropPrefix? [','] with
      | some r => if hasBang then false else consumePosint r == some []
      | none =>
        match (consumePosint s).bind fun r => r.dropPrefix? [','] with
        | none => false
        | some r => if r.isEmpty then !hasBang else consumePosint r == some []

/-- `is_valid_rotation`. -/
def isValidRotation (s : Str) : Bool :=
  consumePosfloat ((s.dropPrefix? ['!']).getD s) == some []

/-- The qualities, in order. -/
def QUALITIES : List Str := [txt "color", txt "gray", txt "bitonal", txt "default"]

/-- The formats it admits. -/
def FORMATS : List Str := [txt "jpg", txt "tif", txt "png", txt "jp2"]

/-- `is_valid_qualform`. -/
def isValidQualform (s : Str) : Bool :=
  match QUALITIES.findSome? fun q => s.dropPrefix? q with
  | some rest =>
    match rest.dropPrefix? ['.'] with
    | some fmt => FORMATS.contains fmt
    | none => false
  | none => false

/-! ### The validators accept the grammar -/

theorem reads_four {f : Reader Char} {stop : Char → Prop} {L : Language Char} (hf : Reads f stop L) (h : stop ',') :
    Reads ((List.range 4).foldlM (regionField f)) stop (Grammar.four L) := by
  have hl : ((List.range 4).foldlM (regionField f) : Reader Char) = fun s =>
      (f s).bind fun r => (r.dropPrefix? [',']).bind fun r => (f r).bind fun r => (r.dropPrefix? [',']).bind fun r =>
        (f r).bind fun r => (r.dropPrefix? [',']).bind f := by
    funext s
    simp [List.range_succ, regionField, Option.bind_assoc]
  rw [hl]
  exact hf.sep h (hf.sep h (hf.sep h hf))

theorem isValidRegion_iff (s : Str) : isValidRegion s = true ↔ s ∈ Grammar.region := by
  have hi := (reads_four reads_posint (by decide)).mem_iff s
  have hp : s ∈ Grammar.word "pct:" * Grammar.four Grammar.posfloat ↔
      ∃ r, s.dropPrefix? (txt "pct:") = some r ∧ r ∈ Grammar.four Grammar.posfloat :=
    reads_word _ _ (fun _ _ _ => trivial) s
  simp only [Grammar.region, Language.mem_add, Grammar.mem_word, isValidRegion, hp, hi]
  by_cases hw : s = txt "full" ∨ s = txt "square"
  · simp [hw]
  cases hs : s.dropPrefix? (txt "pct:") with
  | none => simp [hw]
  | some r =>
    have hn : s ∉ Grammar.four Grammar.posint := by
      rw [dropPrefix?_eq_some.mp hs]
      exact (Grammar.begins_posint.mul _).not_mem (by decide) _
    rw [hi] at hn
    simp [hw, hn, (reads_four reads_posfloat (by decide)).mem_iff]

theorem reads_posint_comma :
    Reads (fun s => (consumePosint s).bind fun r => r.dropPrefix? [',']) (fun _ => True)
      (Grammar.posint * {[',']}) :=
  reads_posint.seq (reads_word [',']) fun _ _ => ((begins_word [] (by decide)).mul _).stops

theorem consumePosint_nil : consumePosint [] = none := rfl

theorem consumePosint_cons {c : Char} (t : Str) (h : c.isDigit = false) : consumePosint (c :: t) = none := by
  simp [consumePosint, readRun, List.findIdx_cons, h]

theorem mem_sizeForm_iff (s : Str) :
    s ∈ Grammar.sizeForm ↔ s = txt "max" ∨ (∃ p, s.dropPrefix? (txt "pct:") = some p ∧ consumePosfloat p = some []) ∨
      ((consumePosint s).bind fun r => r.dropPrefix? [',']) = some [] ∨
      (∃ r, s.dropPrefix? [','] = some r ∧ consumePosint r = some []) ∨
      ∃ r, ((consumePosint ((s.dropPrefix? ['!']).getD s)).bind fun r => r.dropPrefix? [',']) = some r ∧
        consumePosint r = some [] := by
  have hp : s ∈ Grammar.word "pct:" * Grammar.posfloat ↔
      ∃ p, s.dropPrefix? (txt "pct:") = some p ∧ p ∈ Grammar.posfloat :=
    reads_word _ _ (fun _ _ _ => trivial) s
  have hs : Stops (· ≠ '!') (Grammar.posint * ({[',']} * Grammar.posint)) := by
    refine (Grammar.begins_pair.mono ?_).stops
    rintro c hc rfl
    exact absurd hc (by decide)
  have hb : s ∈ (1 + {['!']}) * (Grammar.posint * ({[',']} * Grammar.posint)) ↔
      ∃ r, ((consumePosint ((s.dropPrefix? ['!']).getD s)).bind fun r => r.dropPrefix? [',']) = some r ∧
        r ∈ Grammar.posint := by
    rw [mem_optional_mul hs, ← mul_assoc]
    exact reads_posint_comma Grammar.posint (fun _ _ _ => trivial) _
  simp only [Grammar.sizeForm, Language.mem_add, Grammar.mem_word, hp, hb,
    reads_word [','] Grammar.posint (fun _ _ _ => trivial) s, reads_posint_comma.mem_iff, reads_posint.mem_iff,
    reads_posfloat.mem_iff, or_assoc]

theorem isValidSize_iff (s : Str) : isValidSize s = true ↔ s ∈ Grammar.size := by
  rw [Grammar.size, mem_optional_mul Grammar.stops_sizeForm, mem_sizeForm_iff]
  unfold isValidSize
  generalize (s.dropPrefix? ['^']).getD s = u
  by_cases hm : u = txt "max"
  · simp [hm]
  cases hp : u.dropPrefix? (txt "pct:") with
  | some p =>
    -- a `p` at the front rules out every other form
    have hu : u = 'p' :: ("ct:".toList ++ p) := dropPrefix?_eq_some.mp hp
    have hb : u.dropPrefix? ['!'] = none := hu ▸ dropPrefix?_cons_of_ne _ _ (by decide)
    have hc : u.dropPrefix? [','] = none := hu ▸ dropPrefix?_cons_of_ne _ _ (by decide)
    have hd : consumePosint u = none := hu ▸ consumePosint_cons _ (by decide)
    simp [hm, hp, hb, hc, hd]
  | none =>
    cases hb : u.dropPrefix? ['!'] with
    | some r =>
      -- after `!` only the confined form is left
      have hu : u = '!' :: r := dropPrefix?_eq_some.mp hb
      have hc : u.dropPrefix? [','] = none := hu ▸ dropPrefix?_cons_of_ne _ _ (by decide)
      have hd : consumePosint u = none := hu ▸ consumePosint_cons _ (by decide)
      cases hr : r.dropPrefix? [','] with
      | some q =>
        have hrd : consumePosint r = none :=
          (dropPrefix?_eq_some.mp hr : r = ',' :: q) ▸ consumePosint_cons _ (by decide)
        simp [hm, hp, hb, hc, hd, hr, hrd]
      | none =>
        cases hw : (consumePosint r).bind fun r => r.dropPrefix? [','] with
        | none => simp [hm, hp, hb, hc, hd, hr, hw]
        | some q => cases q <;> simp [hm, hp, hb, hc, hd, hr, hw, consumePosint_nil]
    | none =>
      cases hc : u.dropPrefix? [','] with
      | some r =>
        have hd : consumePosint u = none :=
          (dropPrefix?_eq_some.mp hc : u = ',' :: r) ▸ consumePosint_cons _ (by decide)
        simp [hm, hp, hb, hc, hd]
      | none =>
        cases hw : (consumePosint u).bind fun r => r.dropPrefix? [','] with
        | none => simp [hm, hp, hb, hc, hw]
        | some q => cases q <;> simp [hm, hp, hb, hc, hw, consumePosint_nil]

theorem isValidRotation_iff (s : Str) : isValidRotation s = true ↔ s ∈ Grammar.rotation := by
  have hs : Stops (· ≠ '!') Grammar.posfloat := by
    refine (Grammar.begins_posfloat.mono ?_).stops
    rintro c hc rfl
    exact absurd hc (by decide)
  rw [Grammar.rotation, mem_optional_mul hs, reads_posfloat.mem_iff]
  simp [isValidRotation]

theorem contains_FORMATS (f : Str) : FORMATS.contains f = true ↔ f ∈ Grammar.format := by
  simp [FORMATS, Grammar.format, Language.mem_add, Grammar.mem_word, or_assoc]

theorem dotFormat_iff (r : Str) :
    (match r.dropPrefix? ['.'] with | some fmt => FORMATS.contains fmt | none => false) = true ↔
      r ∈ {['.']} * Grammar.format := by
  rw [reads_word ['.'] _ (fun _ _ _ => trivial)]
  cases hr : r.dropPrefix? ['.'] with
  | none => simp [hr]
  | some f => simp [hr, ← contains_FORMATS]

theorem findSome?_QUALITIES (s r : Str) :
    QUALITIES.findSome? (fun q => s.dropPrefix? q) = some r ↔ ∃ q ∈ QUALITIES, s.dropPrefix? q = some r := by
  constructor
  · intro h
    exact List.exists_of_findSome?_eq_some h
  · rintro ⟨q, hq, hs⟩
    have hs' := dropPrefix?_eq_some.mp hs
    simp only [QUALITIES, List.mem_cons, List.not_mem_nil, or_false] at hq
    rcases hq with rfl | rfl | rfl | rfl <;> simp [QUALITIES, hs', txt, List.dropPrefix?]

theorem isValidQualform_iff (s : Str) : isValidQualform s = true ↔ s ∈ Grammar.qualityFormat := by
  have hql : s ∈ Grammar.qualityFormat ↔
      ∃ q ∈ QUALITIES, ∃ r, s.dropPrefix? q = some r ∧ r ∈ {['.']} * Grammar.format := by
    simp only [Grammar.qualityFormat, Grammar.quality, Grammar.word, add_mul, Language.mem_add,
      reads_word _ ({['.']} * Grammar.format) (fun _ _ _ => trivial), QUALITIES, List.mem_cons, List.not_mem_nil,
      or_false, exists_eq_or_imp, exists_eq_left, or_assoc]
  rw [hql]
  unfold isValidQualform
  cases hq : QUALITIES.findSome? fun q => s.dropPrefix? q with
  | none =>
    simp only [Bool.false_eq_true, false_iff, not_exists, not_and]
    intro q hm r hr
    rw [(findSome?_QUALITIES s r).mpr ⟨q, hm, hr⟩] at hq
    cases hq
  | some r =>
    simp only [dotFormat_iff]
    constructor
    · intro hr
      obtain ⟨q, hm, hs⟩ := (findSome?_QUALITIES s r).mp hq
      exact ⟨q, hm, r, hs, hr⟩
    · rintro ⟨q, hm, r', hs, hr⟩
      rw [(findSome?_QUALITIES s r').mpr ⟨q, hm, hs⟩] at hq
      exact Option.some.inj hq ▸ hr

end Sipi.Iiif
