import Sipi.Theory.Positional
import Sipi.Theory.Utf8
import Sipi.Serve.Within
import Sipi.Serve.DocrootRange

/-!
# Identifiers and their texts

128-bit identifiers are written as hexadecimal digits in five groups, and as two numbers in base 62.
-/

namespace Sipi.Scripting

open Sipi.Iiif Sipi.Serve Sipi.Theory Positional

/-- A UUID in two halves. -/
structure SoleUuid where
  ab : UInt64
  cd : UInt64
  deriving DecidableEq

/-- How a function of Rust can panic. -/
inductive Panic where
  | indexOutOfBounds
  | notCharBoundary
  deriving DecidableEq

namespace SoleUuid

/-! ### Five groups of hexadecimal digits -/

/-- The texts between four hyphens. -/
structure Groups where
  a : Str
  b : Str
  c : Str
  d : Str
  e : Str

/-- `"{}-{}-{}-{}-{}"`. -/
def Groups.text (g : Groups) : Str :=
  g.a ++ '-' :: (g.b ++ '-' :: (g.c ++ '-' :: (g.d ++ '-' :: g.e)))

/-- The digits of the first half. -/
def Groups.first (g : Groups) : Str := g.a ++ g.b ++ g.c

/-- The digits of the second half. -/
def Groups.second (g : Groups) : Str := g.d ++ g.e

/-- Groups of 8, 4, 4, 4 and 12 bytes. -/
structure Groups.Sized (g : Groups) : Prop where
  a : (asBytes g.a).length = 8
  b : (asBytes g.b).length = 4
  c : (asBytes g.c).length = 4
  d : (asBytes g.d).length = 4
  e : (asBytes g.e).length = 12
  first : '-' ∉ g.first
  second : '-' ∉ g.second

/-- Lower case, with zeros up to the width. -/
def hex (w : ℕ) (n : UInt64) : Str := (fixed 16 w n.toNat).map Nat.digitChar

/-- The groups of an identifier. -/
def groups (u : SoleUuid) : Groups where
  a := hex 8 (u.ab >>> 32)
  b := hex 4 ((u.ab >>> 16) &&& 0xFFFF)
  c := hex 4 (u.ab &&& 0xFFFF)
  d := hex 4 (u.cd >>> 48)
  e := hex 12 (u.cd &&& 0xFFFFFFFFFFFF)

/-- `hyphenated`. -/
def hyphenated (u : SoleUuid) : Str := u.groups.text

/-- `char::to_digit(16)`. -/
def toDigit (c : Char) : Option ℕ :=
  if 48 ≤ c.toNat ∧ c.toNat ≤ 57 then some (c.toNat - 48)
  else if 97 ≤ c.toNat ∧ c.toNat ≤ 102 then some (c.toNat - 97 + 10)
  else if 65 ≤ c.toNat ∧ c.toNat ≤ 70 then some (c.toNat - 65 + 10)
  else none

/-- A plus in front is skipped. -/
def withoutPlus (src : Str) : Str := (src.dropPrefix? ['+']).getD src

/-- `u64::from_str_radix(src, 16)`. -/
def fromStrRadix (src : Str) : Option UInt64 :=
  if withoutPlus src = [] then none else (readNumber 16 (2 ^ 64) toDigit (withoutPlus src)).map UInt64.ofNat

/-- Both halves. -/
def fromHalves (first second : Str) : Option SoleUuid := do
  let ab ← fromStrRadix first
  let cd ← fromStrRadix second
  some ⟨ab, cd⟩

/-- `from_hyphenated`. -/
def fromHyphenated (s : Str) : Except Panic (Option SoleUuid) :=
  let b := asBytes s
  if b.length ≠ 36 ∨ b[8]? ≠ some 0x2D ∨ b[13]? ≠ some 0x2D ∨ b[18]? ≠ some 0x2D ∨ b[23]? ≠ some 0x2D then .ok none
  else
    let hex := s.filter (· ≠ '-')
    if (asBytes hex).length ≠ 32 then .ok none
    else
      match Utf8.splitAtByte hex 16 with
      | none => .error .notCharBoundary
      | some (first, second) => .ok (fromHalves first second)

/-- `BASE62`. -/
def alphabet : Str := txt "0123456789ABCDEFGHIJKLMNOPQRSTUVWXYZabcdefghijklmnopqrstuvwxyz"

/-- The letter of a digit. -/
def letter (d : ℕ) : Char := alphabet.getD d '0'

/-- The loop of `encode`, with its room. -/
def encodeLoop : ℕ → ℕ → Str → Except Panic Str
  | 0, _, _ => .error .indexOutOfBounds
  | room + 1, v, digits =>
    if v / 62 = 0 then .ok (digits ++ [letter (v % 62)])
    else encodeLoop room (v / 62) (digits ++ [letter (v % 62)])

/-- `encode`. -/
def encode (v : UInt64) : Except Panic Str := (encodeLoop 11 v.toNat []).map List.reverse

/-- `base62`. -/
def base62 (u : SoleUuid) : Except Panic Str := do
  let ab ← encode u.ab
  let cd ← encode u.cd
  pure (ab ++ '-' :: cd)

/-- The digit of a letter. -/
def digitOf (b : UInt8) : Option ℕ :=
  if 48 ≤ b.toNat ∧ b.toNat ≤ 57 then some (b.toNat - 48)
  else if 65 ≤ b.toNat ∧ b.toNat ≤ 90 then some (b.toNat - 65 + 10)
  else if 97 ≤ b.toNat ∧ b.toNat ≤ 122 then some (b.toNat - 97 + 10 + 26)
  else none

/-- `decode`. -/
def decode (part : Str) : Option UInt64 :=
  if part = [] ∨ 11 < (asBytes part).length then none
  else (readNumber 62 (2 ^ 64) digitOf (asBytes part)).map UInt64.ofNat

/-- `from_base62`. -/
def fromBase62 (s : Str) : Option SoleUuid := do
  let (abPart, cdPart) ← splitOnce '-' s
  if '-' ∈ cdPart then none
  else
    let ab ← decode abPart
    let cd ← decode cdPart
    some ⟨ab, cd⟩

variable {v : UInt64}

theorem map_ofNat_eq_some {b : ℕ} (hb : 0 < b) {α : Type} {digit : α → Option ℕ} {s : List α} :
    (readNumber b (2 ^ 64) digit s).map UInt64.ofNat = some v ↔
      ∃ ds, s.map digit = ds.map some ∧ value b ds = v.toNat := by
  rw [Option.map_eq_some_iff]
  constructor
  · rintro ⟨n, hn, rfl⟩
    obtain ⟨hlt, ds, hds, hv⟩ := (readNumber_eq_some_iff hb (by norm_num)).mp hn
    refine ⟨ds, hds, ?_⟩
    rw [hv, UInt64.toNat_ofNat', Nat.mod_eq_of_lt hlt]
  · rintro ⟨ds, hds, hv⟩
    refine ⟨v.toNat, (readNumber_eq_some_iff hb (by norm_num)).mpr ⟨v.toNat_lt, ds, hds, hv⟩, ?_⟩
    exact UInt64.ofNat_toNat

theorem letter_ascii :
    ∀ d < 62, (letter d).toNat < 128 ∧ letter d ≠ '-' ∧ digitOf (UInt8.ofNat (letter d).toNat) = some d := by
  decide

variable {c : Char}

theorem of_digitOf (ha : c.toNat < 128) {d : ℕ} (h : digitOf (UInt8.ofNat c.toNat) = some d) :
    d < 62 ∧ c = letter d := by
  have hal : ∀ n < 128, ∀ d, digitOf (UInt8.ofNat n) = some d → d < 62 ∧ n = (letter d).toNat := by
    intro n hn d hd
    unfold digitOf at hd
    rw [Utf8.toNat_byte hn] at hd
    split_ifs at hd with h1 h2 h3
    all_goals
      cases hd
      obtain ⟨hl, hh⟩ := ‹_ ∧ _›
      interval_cases n <;> exact ⟨by decide, by decide⟩
  obtain ⟨hlt, hc⟩ := hal c.toNat ha d h
  exact ⟨hlt, Char.toNat_inj.mp hc⟩

theorem low_of_digitOf {b : UInt8} {d : ℕ} (h : digitOf b = some d) : b.toNat < 128 := by
  unfold digitOf at h
  split_ifs at h <;> omega

variable {s : Str} {ds : List ℕ}

theorem map_digitOf_iff : (asBytes s).map digitOf = ds.map some ↔ s = ds.map letter ∧ ∀ d ∈ ds, d < 62 := by
  constructor
  · intro h
    have ha : ∀ c ∈ s, c.toNat < 128 := by
      refine Utf8.ascii_of_bytes fun b hb => ?_
      have hm : digitOf b ∈ ds.map some := by
        rw [← h]
        exact List.mem_map_of_mem hb
      obtain ⟨d, -, hd⟩ := List.mem_map.mp hm
      exact low_of_digitOf hd.symm
    rw [asBytes, Utf8.bytes_of_ascii ha, List.map_map] at h
    induction s generalizing ds with
    | nil =>
      obtain rfl : ds = [] := by simpa using h.symm
      simp
    | cons c t ih =>
      rw [List.map_cons] at h
      obtain ⟨d, es, rfl, hd, hes⟩ := List.map_eq_cons_iff.mp h.symm
      obtain ⟨hlt, rfl⟩ := of_digitOf (ha c List.mem_cons_self) hd.symm
      obtain ⟨rfl, hal⟩ := ih hes.symm fun e he => ha e (List.mem_cons_of_mem _ he)
      exact ⟨rfl, List.forall_mem_cons.mpr ⟨hlt, hal⟩⟩
  · rintro ⟨rfl, hlt⟩
    have ha : ∀ c ∈ ds.map letter, c.toNat < 128 := by
      intro c hc
      obtain ⟨d, hd, rfl⟩ := List.mem_map.mp hc
      exact (letter_ascii d (hlt d hd)).1
    rw [asBytes, Utf8.bytes_of_ascii ha, List.map_map, List.map_map]
    exact List.map_congr_left fun d hd => (letter_ascii d (hlt d hd)).2.2

theorem encodeLoop_eq {room v : ℕ} (digits : Str) (hr : 0 < room) (h : v < 62 ^ room) :
    encodeLoop room v digits = .ok (digits ++ ((numeral 62 v).map letter).reverse) := by
  induction room generalizing v digits with
  | zero => omega
  | succ room ih =>
    rw [encodeLoop, numeral_step (by norm_num)]
    split_ifs with hq
    · rfl
    · have hn : v / 62 < 62 ^ room := by
        rw [Nat.div_lt_iff_lt_mul (by norm_num), ← pow_succ]
        exact h
      have hp : 0 < room := by
        rcases Nat.eq_zero_or_pos room with rfl | hp
        · omega
        · exact hp
      rw [ih _ hp hn]
      simp

theorem encode_eq (v : UInt64) : encode v = .ok ((numeral 62 v.toNat).map letter) := by
  have hlt : v.toNat < 62 ^ 11 := lt_trans v.toNat_lt (by norm_num)
  rw [encode, encodeLoop_eq [] (by norm_num) hlt, List.nil_append]
  show Except.ok (List.reverse _) = _
  rw [List.reverse_reverse]

theorem decode_eq_some_iff {part : Str} :
    decode part = some v ↔
      ∃ ds, ds ≠ [] ∧ ds.length ≤ 11 ∧ part = ds.map letter ∧ (∀ d ∈ ds, d < 62) ∧ value 62 ds = v.toNat := by
  have hln : ∀ {ds : List ℕ}, (asBytes part).map digitOf = ds.map some → (asBytes part).length = ds.length := by
    intro ds h
    simpa using congrArg List.length h
  unfold decode
  rw [Option.ite_none_left_eq_some, map_ofNat_eq_some (by norm_num)]
  constructor
  · rintro ⟨hp, ds, hds, hv⟩
    rw [not_or] at hp
    obtain ⟨hl, hlt⟩ := map_digitOf_iff.mp hds
    have hle := hln hds
    refine ⟨ds, ?_, by omega, hl, hlt, hv⟩
    rintro rfl
    exact hp.1 hl
  · rintro ⟨ds, hne, hle, hl, hlt, hv⟩
    have hds := map_digitOf_iff.mpr ⟨hl, hlt⟩
    have := hln hds
    refine ⟨not_or.mpr ⟨?_, by omega⟩, ds, hds, hv⟩
    rintro rfl
    exact hne (List.map_eq_nil_iff.mp hl.symm)

/-! ### Hexadecimal digits -/

theorem of_toDigit {d : ℕ} (h : toDigit c = some d) :
    d < 16 ∧ c.toLower = Nat.digitChar d ∧ c.toNat < 128 ∧ c ≠ '-' ∧ c ≠ '+' := by
  have hal : ∀ n < 128, ∀ d, toDigit (Char.ofNat n) = some d →
      d < 16 ∧ (Char.ofNat n).toLower = Nat.digitChar d ∧ Char.ofNat n ≠ '-' ∧ Char.ofNat n ≠ '+' := by
    intro n hn d hd
    interval_cases n <;> first | cases hd; decide | cases hd
  have ha : c.toNat < 128 := by
    unfold toDigit at h
    split_ifs at h <;> omega
  have hc := hal c.toNat ha d
  rw [Char.ofNat_toNat] at hc
  obtain ⟨hlt, hl, hh, hp⟩ := hc h
  exact ⟨hlt, hl, ha, hh, hp⟩

theorem toDigit_digitChar : ∀ d < 16, toDigit (Nat.digitChar d) = some d := by
  decide

/-- A half is hexadecimal digits, maybe after a plus. -/
def IsHalf (h : Str) : Prop := ∀ c ∈ withoutPlus h, toDigit c ≠ none

instance (h : Str) : Decidable (IsHalf h) := inferInstanceAs (Decidable (∀ c ∈ _, _))

variable {h : Str}

theorem map_toDigit (hds : h.map toDigit = ds.map some) :
    h.map Char.toLower = ds.map Nat.digitChar ∧ ∀ d ∈ ds, d < 16 := by
  induction h generalizing ds with
  | nil =>
    obtain rfl : ds = [] := by simpa using hds.symm
    simp
  | cons c t ih =>
    rw [List.map_cons] at hds
    obtain ⟨d, es, rfl, hd, hes⟩ := List.map_eq_cons_iff.mp hds.symm
    obtain ⟨hlt, hlw, -⟩ := of_toDigit hd.symm
    obtain ⟨hl, ha⟩ := ih hes.symm
    rw [List.map_cons, List.map_cons, hlw, hl]
    exact ⟨rfl, List.forall_mem_cons.mpr ⟨hlt, ha⟩⟩

theorem exists_digits (hh : ∀ c ∈ h, toDigit c ≠ none) : ∃ ds : List ℕ, h.map toDigit = ds.map some := by
  refine ⟨h.map fun c => (toDigit c).getD 0, ?_⟩
  rw [List.map_map]
  refine List.map_congr_left fun c hc => ?_
  obtain ⟨d, hd⟩ := Option.ne_none_iff_exists'.mp (hh c hc)
  rw [Function.comp_apply, hd, Option.getD_some]

theorem withoutPlus_cases (h : Str) : withoutPlus h = h ∨ h = '+' :: withoutPlus h := by
  unfold withoutPlus
  cases hd : h.dropPrefix? ['+'] with
  | none => exact Or.inl rfl
  | some t => exact Or.inr (dropPrefix?_eq_some.mp hd)

theorem fromStrRadix_eq_some_iff :
    fromStrRadix h = some v ↔
      withoutPlus h ≠ [] ∧ ∃ ds, (withoutPlus h).map toDigit = ds.map some ∧ value 16 ds = v.toNat := by
  unfold fromStrRadix
  rw [Option.ite_none_left_eq_some, map_ofNat_eq_some (by norm_num)]

theorem fromStrRadix_of_half (hl : h.length = 16) (hh : IsHalf h) : ∃ v, fromStrRadix h = some v := by
  have hp : 0 < (withoutPlus h).length ∧ (withoutPlus h).length ≤ 16 := by
    rcases withoutPlus_cases h with heq | heq
    · rw [heq]
      omega
    · have := congrArg List.length heq
      rw [List.length_cons] at this
      omega
  obtain ⟨ds, hds⟩ := exists_digits hh
  have hc : ds.length = (withoutPlus h).length := by simpa using (congrArg List.length hds).symm
  have hv : value 16 ds < 2 ^ 64 :=
    calc value 16 ds < 16 ^ ds.length := value_lt_pow (by norm_num) (map_toDigit hds).2
      _ ≤ 16 ^ 16 := Nat.pow_le_pow_right (by norm_num) (by omega)
      _ = 2 ^ 64 := by norm_num
  refine ⟨UInt64.ofNat (value 16 ds), fromStrRadix_eq_some_iff.mpr ⟨?_, ds, hds, ?_⟩⟩
  · exact List.length_pos_iff.mp hp.1
  · rw [UInt64.toNat_ofNat', Nat.mod_eq_of_lt hv]

theorem isHalf_of_some (hv : fromStrRadix h = some v) : IsHalf h := by
  obtain ⟨-, ds, hds, -⟩ := fromStrRadix_eq_some_iff.mp hv
  intro c hc hn
  have hm : toDigit c ∈ ds.map some := by
    rw [← hds]
    exact List.mem_map_of_mem hc
  rw [hn] at hm
  simp at hm

theorem ascii_of_half (hh : IsHalf h) : ∀ c ∈ h, c.toNat < 128 := by
  have hdg : ∀ c ∈ withoutPlus h, c.toNat < 128 := by
    intro c hc
    obtain ⟨d, hd⟩ := Option.ne_none_iff_exists'.mp (hh c hc)
    exact (of_toDigit hd).2.2.1
  rcases withoutPlus_cases h with heq | heq
  · rwa [heq] at hdg
  · rw [heq]
    exact List.forall_mem_cons.mpr ⟨by decide, hdg⟩

theorem asBytes_hyphen (t : Str) : asBytes ('-' :: t) = 0x2D :: asBytes t := rfl

theorem length_filter_hyphen (s : Str) :
    (asBytes (s.filter (· ≠ '-'))).length + s.count '-' = (asBytes s).length := by
  induction s with
  | nil => rfl
  | cons c t ih =>
    have hc : (asBytes (c :: t)).length = (asBytes [c]).length + (asBytes t).length := by
      rw [← List.length_append, ← asBytes_append, List.singleton_append]
    rcases eq_or_ne c '-' with rfl | hne
    · rw [List.filter_cons_of_neg (by simp), List.count_cons_self, hc, ← ih]
      have : (asBytes ['-']).length = 1 := rfl
      omega
    · have hf : (asBytes (c :: t.filter (· ≠ '-'))).length =
          (asBytes [c]).length + (asBytes (t.filter (· ≠ '-'))).length := by
        rw [← List.length_append, ← asBytes_append, List.singleton_append]
      rw [List.filter_cons_of_pos (by simpa using hne), List.count_cons_of_ne hne, hc, hf, ← ih]
      omega

theorem asBytes_text (g : Groups) :
    asBytes g.text = asBytes g.a ++ 0x2D :: (asBytes g.b ++ 0x2D :: (asBytes g.c ++ 0x2D :: (asBytes g.d ++ 0x2D ::
      asBytes g.e))) := by
  simp only [Groups.text, asBytes_append, asBytes_hyphen]

theorem count_text (g : Groups) : g.text.count '-' = 4 + g.first.count '-' + g.second.count '-' := by
  simp only [Groups.text, Groups.first, Groups.second, List.count_append, List.count_cons_self]
  omega

variable {g : Groups}

theorem mem_text (h : c ∈ g.first ∨ c ∈ g.second) : c ∈ g.text := by
  simp only [Groups.first, Groups.second, List.mem_append] at h
  rcases h with ((h | h) | h) | h | h <;> simp [Groups.text, h]

theorem filter_text (hg : g.Sized) : g.text.filter (· ≠ '-') = g.first ++ g.second := by
  have hsl : (g.first ++ g.second).filter (· ≠ '-') = g.first ++ g.second := by
    rw [List.filter_eq_self]
    intro c hc
    rw [decide_eq_true_eq]
    rintro rfl
    rcases List.mem_append.mp hc with hf | hs
    · exact hg.first hf
    · exact hg.second hs
  rw [← hsl]
  simp [Groups.text, Groups.first, Groups.second]

theorem fromHyphenated_text (hg : g.Sized) : fromHyphenated g.text = .ok (fromHalves g.first g.second) := by
  have hl : (asBytes g.text).length = 36 := by
    simp [asBytes_text, hg.a, hg.b, hg.c, hg.d, hg.e]
  obtain ⟨h8, h13, h18, h23⟩ : (asBytes g.text)[8]? = some 0x2D ∧ (asBytes g.text)[13]? = some 0x2D ∧
      (asBytes g.text)[18]? = some 0x2D ∧ (asBytes g.text)[23]? = some 0x2D := by
    simp [asBytes_text, List.getElem?_append, hg.a, hg.b, hg.c, hg.d]
  have hf : (asBytes g.first).length = 16 := by
    simp [Groups.first, hg.a, hg.b, hg.c]
  have hs : (asBytes g.second).length = 16 := by
    simp [Groups.second, hg.d, hg.e]
  have hh : (asBytes (g.first ++ g.second)).length = 32 := by
    rw [asBytes_append, List.length_append, hf, hs]
  have hsp : Utf8.splitAtByte (g.first ++ g.second) 16 = some (g.first, g.second) := by
    rw [← hf]
    exact Utf8.splitAtByte_append g.first g.second
  unfold fromHyphenated
  dsimp only
  rw [hl, h8, h13, h18, h23, filter_text hg, hh, hsp, if_neg (by simp), if_neg (by simp)]

theorem fromHyphenated_cases (s : Str) : fromHyphenated s = .ok none ∨ ∃ g : Groups, g.Sized ∧ s = g.text := by
  unfold fromHyphenated
  dsimp only
  split_ifs with hby hh
  · exact Or.inl rfl
  · exact Or.inl rfl
  refine Or.inr ?_
  simp only [not_or, ne_eq, not_not] at hby hh
  obtain ⟨hl, h8, h13, h18, h23⟩ := hby
  -- one hyphen after the other: each is looked for in what follows the last one
  have hn : ∀ {t : Str} {n : ℕ}, (asBytes t)[n]? = some 0x2D →
      ∃ u v, t = u ++ '-' :: v ∧ (asBytes u).length = n ∧
        ∀ k, (asBytes t)[n + 1 + k]? = (asBytes v)[k]? := by
    intro t n h
    obtain ⟨u, v, rfl, hu⟩ := Utf8.exists_split_of_byte (d := '-') (by decide) h
    have hu : (asBytes u).length = n := hu
    refine ⟨u, v, rfl, hu, fun k => ?_⟩
    rw [asBytes_append, asBytes_hyphen, List.getElem?_append_right (by omega), hu,
      show n + 1 + k - n = k + 1 by omega, List.getElem?_cons_succ]
  obtain ⟨a, s1, rfl, ha, hr1⟩ := hn h8
  obtain ⟨b, s2, rfl, hb, hr2⟩ := hn (n := 4) (by rw [← hr1]; exact h13)
  obtain ⟨c, s3, rfl, hc, hr3⟩ := hn (n := 4) (by rw [← hr2, ← hr1]; exact h18)
  obtain ⟨d, e, rfl, hd, -⟩ := hn (n := 4) (by rw [← hr3, ← hr2, ← hr1]; exact h23)
  let g : Groups := ⟨a, b, c, d, e⟩
  have ht : a ++ '-' :: (b ++ '-' :: (c ++ '-' :: (d ++ '-' :: e))) = g.text := rfl
  rw [ht] at hl hh
  have hcn := length_filter_hyphen g.text
  rw [hh, hl, count_text] at hcn
  have he : (asBytes e).length = 12 := by
    have hs := congrArg List.length (asBytes_text g)
    rw [hl] at hs
    simp only [List.length_append, List.length_cons, g, ha, hb, hc, hd] at hs
    omega
  exact ⟨g, ⟨ha, hb, hc, hd, he, List.count_eq_zero.mp (by omega), List.count_eq_zero.mp (by omega)⟩, rfl⟩

/-! ### The groups of an identifier -/

theorem toNat_shift_and (v : UInt64) :
    (v >>> 32).toNat = v.toNat / 2 ^ 32 ∧ ((v >>> 16) &&& 0xFFFF).toNat = v.toNat / 2 ^ 16 % 2 ^ 16 ∧
      (v &&& 0xFFFF).toNat = v.toNat % 2 ^ 16 ∧ (v >>> 48).toNat = v.toNat / 2 ^ 48 ∧
      (v &&& 0xFFFFFFFFFFFF).toNat = v.toNat % 2 ^ 48 := by
  have h16 : ∀ n : ℕ, n &&& 0xFFFF = n % 2 ^ 16 := fun n => Nat.and_two_pow_sub_one_eq_mod n 16
  have h48 : ∀ n : ℕ, n &&& 0xFFFFFFFFFFFF = n % 2 ^ 48 := fun n => Nat.and_two_pow_sub_one_eq_mod n 48
  refine ⟨?_, ?_, ?_, ?_, ?_⟩ <;>
    simp [UInt64.toNat_shiftRight, UInt64.toNat_and, Nat.shiftRight_eq_div_pow, h16, h48]

theorem groups_halves (u : SoleUuid) : u.groups.first = hex 16 u.ab ∧ u.groups.second = hex 16 u.cd := by
  obtain ⟨h1, h2, h3, -, -⟩ := toNat_shift_and u.ab
  obtain ⟨-, -, -, h4, h5⟩ := toNat_shift_and u.cd
  have hab := u.ab.toNat_lt
  have hcd := u.cd.toNat_lt
  have hc : fixed 16 16 u.ab.toNat =
      fixed 16 8 (u.ab.toNat / 2 ^ 32) ++ fixed 16 4 (u.ab.toNat / 2 ^ 16 % 2 ^ 16) ++
        fixed 16 4 (u.ab.toNat % 2 ^ 16) := by
    rw [fixed_append (v := 12) (w := 4) (by norm_num) (by norm_num) (by norm_num) (by omega),
      fixed_append (v := 8) (w := 4) (by norm_num) (by norm_num) (by norm_num) (by omega), Nat.div_div_eq_div_mul]
    norm_num
  have hc' : fixed 16 16 u.cd.toNat =
      fixed 16 4 (u.cd.toNat / 2 ^ 48) ++ fixed 16 12 (u.cd.toNat % 2 ^ 48) := by
    rw [fixed_append (v := 4) (w := 12) (by norm_num) (by norm_num) (by norm_num) (by omega)]
    norm_num
  constructor
  · simp only [Groups.first, groups, hex, h1, h2, h3, hc, List.map_append]
  · simp only [Groups.second, groups, hex, h4, h5, hc', List.map_append]

theorem length_hex {w : ℕ} (hw : 0 < w) {n : UInt64} (h : n.toNat < 16 ^ w) : (hex w n).length = w := by
  rw [hex, List.length_map, length_fixed (by norm_num) hw h]

theorem toDigit_of_mem_hex {w : ℕ} {n : UInt64} (hc : c ∈ hex w n) : ∃ d, toDigit c = some d := by
  obtain ⟨d, hd, rfl⟩ := List.mem_map.mp hc
  exact ⟨d, toDigit_digitChar d (fixed_lt (by norm_num) hd)⟩

theorem length_asBytes_of_ascii (h : ∀ c ∈ s, c.toNat < 128) : (asBytes s).length = s.length := by
  rw [asBytes, Utf8.bytes_of_ascii h, List.length_map]

theorem groups_lengths (u : SoleUuid) :
    u.groups.a.length = 8 ∧ u.groups.b.length = 4 ∧ u.groups.c.length = 4 ∧ u.groups.d.length = 4 ∧
      u.groups.e.length = 12 := by
  obtain ⟨h1, h2, h3, -, -⟩ := toNat_shift_and u.ab
  obtain ⟨-, -, -, h4, h5⟩ := toNat_shift_and u.cd
  have hab := u.ab.toNat_lt
  have hcd := u.cd.toNat_lt
  refine ⟨?_, ?_, ?_, ?_, ?_⟩ <;> refine length_hex (by norm_num) ?_ <;> omega

theorem groups_sized (u : SoleUuid) : u.groups.Sized := by
  have has : ∀ w n, (asBytes (hex w n)).length = (hex w n).length := by
    intro w n
    refine length_asBytes_of_ascii fun c hc => ?_
    obtain ⟨d, hd⟩ := toDigit_of_mem_hex hc
    exact (of_toDigit hd).2.2.1
  have hh : ∀ w n, '-' ∉ hex w n := by
    intro w n hm
    obtain ⟨d, hd⟩ := toDigit_of_mem_hex hm
    exact (of_toDigit hd).2.2.2.1 rfl
  obtain ⟨ha, hb, hc, hd, he⟩ := groups_lengths u
  obtain ⟨hf, hs⟩ := groups_halves u
  refine ⟨(has _ _).trans ha, (has _ _).trans hb, (has _ _).trans hc, (has _ _).trans hd,
    (has _ _).trans he, ?_, ?_⟩
  · rw [hf]
    exact hh _ _
  · rw [hs]
    exact hh _ _

theorem no_plus_hex (w : ℕ) (n : UInt64) : '+' ∉ hex w n := by
  intro hm
  obtain ⟨d, hd⟩ := toDigit_of_mem_hex hm
  exact (of_toDigit hd).2.2.2.2 rfl

theorem withoutPlus_of_not_mem (hp : '+' ∉ h) : withoutPlus h = h := by
  rcases withoutPlus_cases h with heq | heq
  · exact heq
  · rw [heq] at hp
    exact absurd List.mem_cons_self hp

theorem fromStrRadix_hex (v : UInt64) : fromStrRadix (hex 16 v) = some v := by
  have hv := v.toNat_lt
  rw [fromStrRadix_eq_some_iff, withoutPlus_of_not_mem (no_plus_hex 16 v)]
  refine ⟨?_, fixed 16 16 v.toNat, ?_, value_fixed _ _⟩
  · rw [← List.length_pos_iff, length_hex (by norm_num) (by omega)]
    norm_num
  · rw [hex, List.map_map]
    exact List.map_congr_left fun d hd => toDigit_digitChar d (fixed_lt (by norm_num) hd)

theorem toLower_half (hln : h.length = 16) (hp : '+' ∉ h) (hv : fromStrRadix h = some v) :
    h.map Char.toLower = hex 16 v := by
  rw [fromStrRadix_eq_some_iff, withoutPlus_of_not_mem hp] at hv
  obtain ⟨hne, ds, hds, hvl⟩ := hv
  obtain ⟨hl, hlt⟩ := map_toDigit hds
  have hc : ds.length = 16 := by
    rw [← hln]
    simpa using (congrArg List.length hds).symm
  have hf := eq_fixed (b := 16) (by norm_num) (List.length_pos_iff.mp (by omega)) hlt
  rw [hc, hvl] at hf
  rw [hl, hex, ← hf]

/-! ### Inverses -/

/-- It is read back from both texts. -/
def RoundTrips (u : SoleUuid) : Prop :=
  (∃ t, base62 u = .ok t ∧ fromBase62 t = some u) ∧ fromHyphenated (hyphenated u) = .ok (some u)

/-- What a decoder makes is written alike. -/
def Canonical (s : Str) : Prop :=
  (∀ panic, fromHyphenated s ≠ .error panic) ∧
    (∀ u, fromHyphenated s = .ok (some u) → hyphenated u = s.map Char.toLower) ∧
    ∀ u, fromBase62 s = some u → ∃ k l ab cd, base62 u = .ok (ab ++ '-' :: cd) ∧
      s = List.replicate k '0' ++ ab ++ '-' :: (List.replicate l '0' ++ cd)

/-- Five groups, with a plus before a half. -/
def TakesPlus (s : Str) : Prop := ∃ g : Groups, g.Sized ∧ s = g.text ∧ IsHalf g.first ∧ IsHalf g.second ∧ '+' ∈ s

theorem base62_eq (u : SoleUuid) :
    base62 u = .ok ((numeral 62 u.ab.toNat).map letter ++ '-' :: (numeral 62 u.cd.toNat).map letter) := by
  rw [base62, encode_eq, encode_eq]
  rfl

theorem no_hyphen_letters (h : ∀ d ∈ ds, d < 62) : '-' ∉ ds.map letter := by
  intro hm
  obtain ⟨d, hd, hl⟩ := List.mem_map.mp hm
  exact (letter_ascii d (h d hd)).2.1 hl

theorem decode_numeral (v : UInt64) : decode ((numeral 62 v.toNat).map letter) = some v := by
  have hlt : v.toNat < 62 ^ 11 := lt_trans v.toNat_lt (by norm_num)
  exact decode_eq_some_iff.mpr ⟨_, numeral_ne_nil _, length_numeral_le (by norm_num) (by norm_num) hlt, rfl,
    fun d hd => numeral_lt (by norm_num) hd, value_numeral _⟩

variable {u : SoleUuid}

theorem fromBase62_eq_some_iff :
    fromBase62 s = some u ↔
      ∃ ab cd, s = ab ++ '-' :: cd ∧ '-' ∉ ab ∧ '-' ∉ cd ∧ decode ab = some u.ab ∧ decode cd = some u.cd := by
  unfold fromBase62
  simp only [Option.bind_eq_bind, Option.bind_eq_some_iff, Prod.exists, splitOnce_eq_some_iff,
    Option.ite_none_left_eq_some, Option.some.injEq]
  constructor
  · rintro ⟨ab, cd, ⟨hs, hab⟩, hcd, v, hv, w, hw, rfl⟩
    exact ⟨ab, cd, hs, hab, hcd, hv, hw⟩
  · rintro ⟨ab, cd, hs, hab, hcd, hv, hw⟩
    exact ⟨ab, cd, ⟨hs, hab⟩, hcd, _, hv, _, hw, rfl⟩

theorem roundTrips (u : SoleUuid) : RoundTrips u := by
  constructor
  · have hh : ∀ n, '-' ∉ (numeral 62 n).map letter := fun n =>
      no_hyphen_letters fun d hd => numeral_lt (by norm_num) hd
    exact ⟨_, base62_eq u, fromBase62_eq_some_iff.mpr
      ⟨_, _, rfl, hh _, hh _, decode_numeral u.ab, decode_numeral u.cd⟩⟩
  · obtain ⟨hf, hs⟩ := groups_halves u
    rw [hyphenated, fromHyphenated_text (groups_sized u), hf, hs, fromHalves, fromStrRadix_hex,
      fromStrRadix_hex]
    rfl

theorem exists_zeros {part : Str} (h : decode part = some v) :
    ∃ k, part = List.replicate k '0' ++ (numeral 62 v.toNat).map letter := by
  obtain ⟨ds, hne, -, rfl, hlt, hv⟩ := decode_eq_some_iff.mp h
  obtain ⟨k, hk⟩ := eq_replicate_append_numeral (b := 62) (by norm_num) hne hlt
  rw [hv] at hk
  refine ⟨k, ?_⟩
  rw [hk, List.map_append, List.map_replicate]
  rfl

theorem base62_of_fromBase62 (h : fromBase62 s = some u) :
    ∃ k l ab cd, base62 u = .ok (ab ++ '-' :: cd) ∧
      s = List.replicate k '0' ++ ab ++ '-' :: (List.replicate l '0' ++ cd) := by
  obtain ⟨ab, cd, rfl, -, -, hab, hcd⟩ := fromBase62_eq_some_iff.mp h
  obtain ⟨k, hk⟩ := exists_zeros hab
  obtain ⟨l, hl⟩ := exists_zeros hcd
  exact ⟨k, l, _, _, base62_eq u, by rw [hk, hl]⟩

theorem fromHalves_eq_some_iff {first second : Str} :
    fromHalves first second = some u ↔ fromStrRadix first = some u.ab ∧ fromStrRadix second = some u.cd := by
  unfold fromHalves
  simp only [Option.bind_eq_bind, Option.bind_eq_some_iff, Option.some.injEq]
  constructor
  · rintro ⟨ab, hab, cd, hcd, rfl⟩
    exact ⟨hab, hcd⟩
  · rintro ⟨hab, hcd⟩
    exact ⟨_, hab, _, hcd, rfl⟩

theorem Groups.Sized.chars (hg : g.Sized) (hf : IsHalf g.first) (hs : IsHalf g.second) :
    g.a.length = 8 ∧ g.b.length = 4 ∧ g.c.length = 4 ∧ g.d.length = 4 ∧ g.e.length = 12 := by
  have hin : ∀ {t : Str}, t ⊆ g.first ++ g.second → t.length = (asBytes t).length := by
    intro t ht
    refine (length_asBytes_of_ascii fun c hc => ?_).symm
    rcases List.mem_append.mp (ht hc) with hm | hm
    · exact ascii_of_half hf c hm
    · exact ascii_of_half hs c hm
  rw [hin, hin, hin, hin, hin]
  · exact ⟨hg.a, hg.b, hg.c, hg.d, hg.e⟩
  all_goals
    intro c hc
    simp [Groups.first, Groups.second, hc]

theorem hyphenated_of_groups (hg : g.Sized) (hu : fromHalves g.first g.second = some u)
    (hp : '+' ∉ g.text) : hyphenated u = g.text.map Char.toLower := by
  obtain ⟨hab, hcd⟩ := fromHalves_eq_some_iff.mp hu
  obtain ⟨ha, hb, hc, hd, he⟩ := hg.chars (isHalf_of_some hab) (isHalf_of_some hcd)
  obtain ⟨ha', hb', -, hd', -⟩ := groups_lengths u
  obtain ⟨hf, hs⟩ := groups_halves u
  have hlf : g.first.map Char.toLower = u.groups.first := by
    rw [hf]
    exact toLower_half (by simp [Groups.first, ha, hb, hc]) (fun hm => hp (mem_text (Or.inl hm))) hab
  have hl : g.second.map Char.toLower = u.groups.second := by
    rw [hs]
    exact toLower_half (by simp [Groups.second, hd, he]) (fun hm => hp (mem_text (Or.inr hm))) hcd
  rw [Groups.first, Groups.first, List.map_append, List.map_append] at hlf
  rw [Groups.second, Groups.second, List.map_append] at hl
  obtain ⟨hlw, hlc⟩ := List.append_inj hlf (by simp [ha, hb, ha', hb'])
  obtain ⟨hla, hlb⟩ := List.append_inj hlw (by simp [ha, ha'])
  obtain ⟨hld, hle⟩ := List.append_inj hl (by simp [hd, hd'])
  have hh : Char.toLower '-' = '-' := rfl
  rw [hyphenated]
  simp only [Groups.text, List.map_append, List.map_cons, hh, hla, hlb, hlc, hld, hle]

theorem no_plus_hyphenated (u : SoleUuid) : '+' ∉ hyphenated u := by
  have hg := no_plus_hex
  simp [hyphenated, Groups.text, groups, hg]

/-- **Identifiers and their texts.** Every identifier is read back from both texts. No text makes a decoder panic, and
what is read is written in the same way again, exactly if it is not in groups with a plus in front of a half. -/
theorem canonical_iff (u : SoleUuid) (s : Str) : RoundTrips u ∧ (Canonical s ↔ ¬ TakesPlus s) := by
  refine ⟨roundTrips u, ?_, fun hs => ⟨?_, ?_, fun v => base62_of_fromBase62⟩⟩
  · rintro ⟨-, hw, -⟩ ⟨g, hg, rfl, hf, hsc, hp⟩
    obtain ⟨ha, hb, hc, hd, he⟩ := hg.chars hf hsc
    obtain ⟨ab, hab⟩ := fromStrRadix_of_half (by simp [Groups.first, ha, hb, hc]) hf
    obtain ⟨cd, hcd⟩ := fromStrRadix_of_half (by simp [Groups.second, hd, he]) hsc
    have hr : fromHyphenated g.text = .ok (some ⟨ab, cd⟩) := by
      rw [fromHyphenated_text hg, (fromHalves_eq_some_iff (u := ⟨ab, cd⟩)).mpr ⟨hab, hcd⟩]
    apply no_plus_hyphenated ⟨ab, cd⟩
    rw [hw _ hr]
    exact List.mem_map.mpr ⟨'+', hp, rfl⟩
  · intro panic
    rcases fromHyphenated_cases s with hn | ⟨g, hg, rfl⟩
    · simp [hn]
    · simp [fromHyphenated_text hg]
  · intro v hu
    rcases fromHyphenated_cases s with hn | ⟨g, hg, rfl⟩
    · simp [hn] at hu
    · rw [fromHyphenated_text hg] at hu
      have hh := Except.ok.inj hu
      obtain ⟨hab, hcd⟩ := fromHalves_eq_some_iff.mp hh
      refine hyphenated_of_groups hg hh fun hp => hs ?_
      exact ⟨g, hg, rfl, isHalf_of_some hab, isHalf_of_some hcd, hp⟩

theorem plus_not_canonical :
    fromHyphenated (txt "+0000000-0000-0000-0000-000000000001") = .ok (some ⟨0, 1⟩) ∧
      hyphenated ⟨0, 1⟩ = txt "00000000-0000-0000-0000-000000000001" ∧
      ¬ Canonical (txt "+0000000-0000-0000-0000-000000000001") := by
  have hr : fromHyphenated (txt "+0000000-0000-0000-0000-000000000001") = .ok (some ⟨0, 1⟩) := rfl
  have hw : hyphenated ⟨0, 1⟩ = txt "00000000-0000-0000-0000-000000000001" := by decide
  refine ⟨hr, hw, ?_⟩
  rintro ⟨-, hwr, -⟩
  have hs := hwr _ hr
  rw [hw] at hs
  exact absurd hs (by decide)

end SoleUuid

end Sipi.Scripting
