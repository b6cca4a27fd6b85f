import Sipi.Serve.CacheKey
import Sipi.Iiif.Request

/-!
# Which file a key stands for

The server opens the file that `build_request_path` names, and looks into the cache under the key that
`build_canonical_url` writes.

## Honest scope

Paths are compared as texts.
-/

namespace Sipi.Serve

open Sipi.Iiif Sipi.Geometry Sipi.Theory

/-- `std::isspace`. -/
def isSpace (c : Char) : Bool := c = ' ' || (9 ≤ c.toNat && c.toNat ≤ 13)

/-- `std::stoi`, with no result outside `int`. -/
def stoi (s : Str) : Option ℤ :=
  let s := s.dropWhile isSpace
  let (negative, s) := match s with
    | '-' :: t => (true, t)
    | '+' :: t => (false, t)
    | t => (false, t)
  let value := (parseDigits (s.takeWhile Char.isDigit)).map fun (n : ℕ) => if negative then -(n : ℤ) else n
  value.filter fun n => -2 ^ 31 ≤ n ∧ n < 2 ^ 31

/-- `SipiIdentifier`: identifier and page. -/
def sipiIdentifier (str : Str) : Str × ℤ :=
  if '@' ∈ str then
    (Cpp.urldecode (str.takeWhile (· ≠ '@')), (stoi (str.dropWhile (· ≠ '@')).tail).getD 0)
  else (Cpp.urldecode str, 0)

/-- The prefix and the identifier of a request. -/
structure Name where
  pre : Str
  identifier : Str
  deriving DecidableEq

/-- What the key has of a name. -/
def Name.place (n : Name) (host : Str) : Place :=
  let sid := sipiIdentifier (Cpp.urldecode n.identifier)
  ⟨host, n.pre, sid.1, sid.2⟩

/-- The identifier in the key. -/
def Name.fullid (n : Name) : Str := (n.place []).fullid

/-- `build_request_path`. -/
def buildRequestPath (imgroot : Str) (n : Name) (prefixAsPath : Bool) : Str :=
  if prefixAsPath = true ∧ n.pre ≠ [] then imgroot ++ '/' :: (n.pre ++ '/' :: n.identifier)
  else imgroot ++ '/' :: n.identifier

/-- The fields of a key after the identifier. -/
def keyTail (full : Dims) (r : ImageRequest) (size : SizeParts) : Except CanonicalError (List Str) := do
  let found ← (cropFound r.region full).mapError .region
  let text ← sizeText size full
  let ext ← extension r.format
  return [regionText found, text, rotationText r.rotation, qualityText r.quality ++ '.' :: ext,
    watermarkText r.watermark]

theorem cacheKey_eq (host : Str) (n : Name) (full : Dims) (r : ImageRequest) (size : SizeParts) :
    cacheKey (n.place host) full r size =
      (keyTail full r size).map fun fields =>
        host ++ '/' :: ((n.pre ++ '/' :: n.fullid) ++ '/' :: ['/'].intercalate fields) := by
  unfold cacheKey buildCanonicalUrl keyTail
  cases cropFound r.region full with
  | error e => rfl
  | ok found =>
    cases sizeText size full with
    | error e => rfl
    | ok text =>
      cases extension r.format with
      | error e => rfl
      | ok ext =>
        refine congrArg Except.ok ?_
        show ['/'].intercalate (host :: n.pre :: n.fullid :: _) = _
        rw [intercalate_cons_cons, intercalate_cons_cons, intercalate_cons_cons]
        simp only [List.append_assoc, List.cons_append]

theorem keyTail_eq_ok {full : Dims} {r : ImageRequest} {size : SizeParts} {fields : List Str}
    (h : keyTail full r size = .ok fields) : fields.length = 5 ∧ ∀ w ∈ fields, '/' ∉ w := by
  obtain ⟨found, _, h⟩ := bind_eq_ok.mp h
  obtain ⟨text, ht, h⟩ := bind_eq_ok.mp h
  obtain ⟨ext, he, h⟩ := bind_eq_ok.mp h
  cases h
  exact ⟨rfl, slash_not_mem_fields found r ht he⟩

/-- The names meet in a key. -/
def Clash (a b : Name) : Prop :=
  (a.pre = b.pre ∧ a.fullid = b.fullid) ∨ (∃ m, a.pre = b.pre ++ '/' :: m ∧ b.fullid = m ++ '/' :: a.fullid) ∨
    ∃ m, b.pre = a.pre ++ '/' :: m ∧ a.fullid = m ++ '/' :: b.fullid

section
variable {host : Str} {a b : Name} {full full' : Dims} {r r' : ImageRequest} {size size' : SizeParts} {k k' : Str}

theorem cacheKey_eq_iff (h : cacheKey (a.place host) full r size = .ok k)
    (h' : cacheKey (b.place host) full' r' size' = .ok k') :
    k = k' ↔ keyTail full r size = keyTail full' r' size' ∧ Clash a b := by
  rw [cacheKey_eq] at h h'
  obtain ⟨fields, hf, rfl⟩ := map_eq_ok.mp h
  obtain ⟨fields', hf', rfl⟩ := map_eq_ok.mp h'
  obtain ⟨hl, hs⟩ := keyTail_eq_ok hf
  obtain ⟨hl', hs'⟩ := keyTail_eq_ok hf'
  rw [hf, hf']
  constructor
  · intro heq
    have hr := (List.cons.inj (List.append_cancel_left heq)).2
    obtain ⟨hn, rfl⟩ := append_intercalate_inj (hl.trans hl'.symm) hs hs' hr
    exact ⟨rfl, append_sep_eq_iff.mp hn⟩
  · rintro ⟨ht, hc⟩
    cases ht
    rw [append_sep_eq_iff.mpr hc]

end

/-- Different paths have different keys. -/
def Separates (imgroot host : Str) (prefixAsPath : Bool) (a b : Name) : Prop :=
  buildRequestPath imgroot a prefixAsPath ≠ buildRequestPath imgroot b prefixAsPath →
    ∀ full full' r r' size size' k k', effectiveSize full r.size r.restricted = .ok size →
      effectiveSize full' r'.size r'.restricted = .ok size' → cacheKey (a.place host) full r size = .ok k →
      cacheKey (b.place host) full' r' size' = .ok k' → k ≠ k'

theorem exists_keyed : ∃ full r size fields, effectiveSize full r.size r.restricted = .ok size ∧
    keyTail full r size = .ok fields :=
  ⟨portrait, ask strip sixtyFourWide sixtyFourWide_valid 0 [], sixtyFourWide,
    [txt "0,0,100,1000", txt "64,128", txt "0", txt "default.jpg", txt "0"], by
      show effectiveSize portrait sixtyFourWide ⟨.undefined, false, 0, 0, 0, 0⟩ = .ok sixtyFourWide
      decide +kernel, by decide +kernel⟩

theorem separates_of_not_clash (imgroot host : Str) (prefixAsPath : Bool) {a b : Name} (h : ¬ Clash a b) :
    Separates imgroot host prefixAsPath a b :=
  fun _ _ _ _ _ _ _ _ _ _ _ hk hk' heq => h ((cacheKey_eq_iff hk hk').mp heq).2

/-- **The keys of two names separate their files if and only if** there is one file, or the names do
not meet. -/
theorem separates_iff (imgroot host : Str) (prefixAsPath : Bool) (a b : Name) :
    Separates imgroot host prefixAsPath a b ↔
      buildRequestPath imgroot a prefixAsPath = buildRequestPath imgroot b prefixAsPath ∨ ¬ Clash a b := by
  constructor
  · intro h
    by_contra hn
    obtain ⟨hp, hc⟩ := not_or.mp hn
    obtain ⟨full, r, size, fields, he, ht⟩ := exists_keyed
    have hk : ∀ n : Name, cacheKey (n.place host) full r size = .ok _ := fun n => by rw [cacheKey_eq, ht]; rfl
    exact h hp full full r r size size _ _ he he (hk a) (hk b)
      ((cacheKey_eq_iff (hk a) (hk b)).mpr ⟨rfl, not_not.mp hc⟩)
  · rintro (hs | hc)
    · exact fun hp => absurd hs hp
    · exact separates_of_not_clash imgroot host prefixAsPath hc

/-- The name of a request. -/
def nameOfUri (uri : String) : Except ParseError Name :=
  (parseRequest (txt uri)).map fun p => ⟨p.iiifPrefix, p.identifier⟩

/-- The key of a strip of the image of a name. -/
def stripKey (n : Name) : Except CanonicalError Str :=
  cacheKey (n.place (txt "example.org")) portrait (ask strip sixtyFourWide sixtyFourWide_valid 0 []) sixtyFourWide

theorem one_key_for_two_files :
    (nameOfUri "/iiif/x@0/full/max/0/default.jpg" = .ok ⟨txt "iiif", txt "x@0"⟩ ∧
      nameOfUri "/iiif/x/full/max/0/default.jpg" = .ok ⟨txt "iiif", txt "x"⟩ ∧
      (∀ prefixAsPath, buildRequestPath (txt "/images") ⟨txt "iiif", txt "x@0"⟩ prefixAsPath ≠
        buildRequestPath (txt "/images") ⟨txt "iiif", txt "x"⟩ prefixAsPath) ∧
      stripKey ⟨txt "iiif", txt "x@0"⟩ = stripKey ⟨txt "iiif", txt "x"⟩) ∧
    (nameOfUri "/a/b%2Fc/full/max/0/default.jpg" = .ok ⟨txt "a", txt "b/c"⟩ ∧
      nameOfUri "/a/b/c/full/max/0/default.jpg" = .ok ⟨txt "a/b", txt "c"⟩ ∧
      buildRequestPath (txt "/images") ⟨txt "a", txt "b/c"⟩ false ≠
        buildRequestPath (txt "/images") ⟨txt "a/b", txt "c"⟩ false ∧
      stripKey ⟨txt "a", txt "b/c"⟩ = stripKey ⟨txt "a/b", txt "c"⟩) := by
  decide +kernel

end Sipi.Serve
