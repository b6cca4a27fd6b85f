import Sipi.Iiif.Request
import Sipi.Preflight.Cache

/-!
# The keys of the preflight cache

`make_key` of `src/server-rs/src/preflight_cache.rs`, with the head of `iiif` and `header_str` of
`src/server-rs/src/routes.rs`.

## Honest scope

That the decision of the hook depends on the four fields only is asked of it by the documentation.
-/

namespace Sipi.Preflight

open Sipi.Iiif Sipi.Theory

/-- The separator of the fields. -/
def nul : Char := '\x00'

/-- `push_optional`. -/
def pushOptional : Option Str → Str
  | some v => '\x01' :: v
  | none => ['\x00']

/-- The bytes of `make_key`. -/
def makeKey (iiifPrefix identifier : Str) (cookie authorization : Option Str) : Str :=
  iiifPrefix ++ nul :: (identifier ++ nul :: (pushOptional cookie ++ nul :: pushOptional authorization))

@[simp] theorem pushOptional_inj {v v' : Option Str} : pushOptional v = pushOptional v' ↔ v = v' := by
  cases v <;> cases v' <;> simp [pushOptional]

theorem pushOptional_sep_inj {v v' : Option Str} {b b' : Str} (hv : ∀ w ∈ v, nul ∉ w) (hv' : ∀ w ∈ v', nul ∉ w)
    (h : pushOptional v ++ nul :: b = pushOptional v' ++ nul :: b') : v = v' ∧ b = b' := by
  cases v with
  | none =>
    cases v' with
    | none => simpa [pushOptional] using h
    | some w' => simp [pushOptional] at h
  | some w =>
    cases v' with
    | none => simp [pushOptional] at h
    | some w' =>
      have hr : w ++ nul :: b = w' ++ nul :: b' := by simpa [pushOptional] using h
      obtain ⟨rfl, rfl⟩ := append_sep_inj (hv w rfl) (hv' w' rfl) hr
      exact ⟨rfl, rfl⟩

theorem makeKey_inj {p p' i i' : Str} {c c' a a' : Option Str} (hp : nul ∉ p) (hp' : nul ∉ p') (hi : nul ∉ i)
    (hi' : nul ∉ i') (hc : ∀ w ∈ c, nul ∉ w) (hc' : ∀ w ∈ c', nul ∉ w) (h : makeKey p i c a = makeKey p' i' c' a') :
    p = p' ∧ i = i' ∧ c = c' ∧ a = a' := by
  obtain ⟨rfl, hir⟩ := append_sep_inj hp hp' h
  obtain ⟨rfl, hcr⟩ := append_sep_inj hi hi' hir
  obtain ⟨rfl, ha⟩ := pushOptional_sep_inj hc hc' hcr
  exact ⟨rfl, rfl, rfl, pushOptional_inj.mp ha⟩

/-! ### Requests -/

/-- The headers of a request. -/
abbrev HeaderMap := List (Str × Str)

/-- `HeaderMap::get`: the first value under a name. -/
def HeaderMap.get (headers : HeaderMap) (name : Str) : Option Str :=
  (headers.find? fun h => decide (h.1 = name)).map Prod.snd

/-- A visible ASCII character, or a tab. -/
def isVisibleAscii (c : Char) : Bool := (decide (32 ≤ c.toNat) && decide (c.toNat < 127)) || decide (c = '\t')

/-- `HeaderValue::to_str`. -/
def toStr (value : Str) : Option Str := if value.all isVisibleAscii then some value else none

/-- `header_str`. -/
def headerStr (headers : HeaderMap) (name : Str) : Option Str := (headers.get name).bind toStr

theorem nul_not_mem_headerStr {headers : HeaderMap} {name w : Str} (h : w ∈ headerStr headers name) : nul ∉ w := by
  obtain ⟨value, -, hv⟩ := Option.bind_eq_some_iff.mp h
  unfold toStr at hv
  split at hv
  · next ha =>
    cases hv
    intro hm
    exact absurd (List.all_eq_true.mp ha nul hm) (by decide)
  · cases hv

/-- A request for the hook, as a text. -/
structure IiifRequest where
  path : Str
  headers : HeaderMap
  parsed : ParsedRequest
  accepted : parseRequest path = .ok parsed
  identifier_ok : nul ∉ parsed.identifier
  prefix_ok : nul ∉ parsed.iiifPrefix

/-- The head of `iiif`. -/
def IiifRequest.ofPath (path : Str) (headers : HeaderMap) : Option IiifRequest :=
  match h : parseRequest path with
  | .error _ => none
  | .ok parsed =>
    if hnul : nul ∈ parsed.identifier ∨ nul ∈ parsed.iiifPrefix then none
    else some ⟨path, headers, parsed, h, fun hi => hnul (Or.inl hi), fun hp => hnul (Or.inr hp)⟩

@[simp] theorem IiifRequest.ofPath_path (r : IiifRequest) : ofPath r.path r.headers = some r := by
  obtain ⟨path, headers, parsed, accepted, identifier_ok, prefix_ok⟩ := r
  unfold ofPath
  split
  · next e h => cases h.symm.trans accepted
  · next parsed' h =>
    cases h.symm.trans accepted
    rw [dif_neg (not_or.mpr ⟨identifier_ok, prefix_ok⟩)]

/-- What a decision is made for. -/
structure Asked where
  iiifPrefix : Str
  identifier : Str
  cookie : Option Str
  authorization : Option Str
  deriving DecidableEq, Repr

namespace IiifRequest

/-- The four fields of a request. -/
def asked (r : IiifRequest) : Asked :=
  ⟨r.parsed.iiifPrefix, r.parsed.identifier, headerStr r.headers (txt "cookie"),
    headerStr r.headers (txt "authorization")⟩

/-- The key of `iiif_access`. -/
def cacheKey (r : IiifRequest) : Str :=
  makeKey r.parsed.iiifPrefix r.parsed.identifier (headerStr r.headers (txt "cookie"))
    (headerStr r.headers (txt "authorization"))

theorem asked_eq_of_cacheKey_eq {r r' : IiifRequest} (h : r.cacheKey = r'.cacheKey) : r.asked = r'.asked := by
  obtain ⟨hp, hi, hc, ha⟩ := makeKey_inj r.prefix_ok r'.prefix_ok r.identifier_ok r'.identifier_ok
    (fun _ => nul_not_mem_headerStr) (fun _ => nul_not_mem_headerStr) h
  rw [asked, hp, hi, hc, ha, asked]

end IiifRequest

/-! ### Runs -/

/-- A call for a request. -/
inductive RequestCall (δ : Type*) where
  | get (r : IiifRequest) (now : ℕ)
  | insert (r : IiifRequest) (decision : δ) (now : ℕ)

/-- The call of the cache that is made. -/
def RequestCall.event {δ : Type*} : RequestCall δ → Event Str δ
  | .get r now => .get r.cacheKey now
  | .insert r decision now => .insert r.cacheKey decision now

section
variable {κ δ : Type*} [DecidableEq κ] {lay : Layout} {fp : κ → ℕ} {es : List (Event κ δ)} {c : PreflightCache lay κ δ}

/-- Every slot was written for its key. -/
def Provenance (es : List (Event κ δ)) (c : PreflightCache lay κ δ) : Prop :=
  ∀ sh i slot, c.shards sh i = some slot → ∃ t, Event.insert slot.key slot.decision t ∈ es

theorem shards_call (fp : κ → ℕ) (c : PreflightCache lay κ δ) (e : Event κ δ) (sh : Fin numShards)
    (i : Fin lay.slots) (slot : Slot κ δ) (h : (c.call fp e).shards sh i = some slot) :
    c.shards sh i = some slot ∨ ∃ t, e = .insert slot.key slot.decision t := by
  cases e with
  | get key now =>
    refine Or.inl ?_
    change (c.get fp key now).1.shards sh i = some slot at h
    unfold PreflightCache.get at h
    split at h
    · split at h
      · exact h
      · change (c.put fp key _ none).shards sh i = some slot at h
        rw [shards_put] at h
        split at h
        · cases h
        · exact h
    · exact h
  | insert key decision now =>
    change (c.put fp key _ _).shards sh i = some slot at h
    rw [shards_put] at h
    split at h
    · cases h
      exact Or.inr ⟨now, rfl⟩
    · exact Or.inl h

theorem provenance_step (h : Provenance es c) (e : Event κ δ) : Provenance (es ++ [e]) (c.call fp e) := by
  intro sh i slot hs
  rcases shards_call fp c e sh i slot hs with ho | ⟨t, rfl⟩
  · obtain ⟨t, ht⟩ := h sh i slot ho
    exact ⟨t, List.mem_append_left _ ht⟩
  · exact ⟨t, by simp⟩

theorem slot_of_get {key : κ} {now : ℕ} {decision : δ} (h : (c.get fp key now).2 = some decision) :
    ∃ sh i slot, c.shards sh i = some slot ∧ slot.key = key ∧ slot.decision = decision := by
  unfold PreflightCache.get at h
  split at h
  · next i slot hl =>
    split at h
    · obtain ⟨-, hs, hk⟩ := getLoop_eq_some hl
      exact ⟨_, i, slot, hs, hk, Option.some.inj h⟩
    · cases h
  · cases h

end

/-- **A decision never crosses credentials**: for every fingerprint function and in every run, what `get` returns
for a request has been inserted for one that agrees with it in prefix, identifier, cookie and authorization. -/
theorem decision_keeps_to_credentials {δ : Type*} {lay : Layout} (fp : Str → ℕ) :
    (∀ r r' : IiifRequest, r.cacheKey = r'.cacheKey → r.asked = r'.asked) ∧
    ∀ (calls : List (RequestCall δ)) (c : PreflightCache lay Str δ),
      Run (fun c (e : RequestCall δ) c' => c.call fp e.event = c') PreflightCache.new calls c →
      ∀ (r : IiifRequest) (now : ℕ) (decision : δ), (c.get fp r.cacheKey now).2 = some decision →
        ∃ r' t, RequestCall.insert r' decision t ∈ calls ∧ r'.asked = r.asked := by
  refine ⟨fun r r' => IiifRequest.asked_eq_of_cacheKey_eq, fun calls c hr r now decision hg => ?_⟩
  have hp : Provenance (calls.map RequestCall.event) c := by
    refine hr.history (fun calls c => Provenance (calls.map RequestCall.event) c) ?_ fun es t e u _ h hs => ?_
    · intro sh i slot h
      cases h
    · obtain rfl : t.call fp e.event = u := hs
      rw [List.map_append]
      exact provenance_step h e.event
  obtain ⟨sh, i, slot, hsl, hk, rfl⟩ := slot_of_get hg
  obtain ⟨t, ht⟩ := hp sh i slot hsl
  obtain ⟨call, hm, hc⟩ := List.mem_map.mp ht
  cases call with
  | get r' now' => cases hc
  | insert r' decision' t' =>
    obtain ⟨hk', rfl, rfl⟩ : r'.cacheKey = slot.key ∧ decision' = slot.decision ∧ t' = t := by
      simpa [RequestCall.event] using hc
    exact ⟨r', t', hm, IiifRequest.asked_eq_of_cacheKey_eq (hk'.trans hk)⟩

def withCookie (cookie : Str) : IiifRequest where
  path := txt "/0803/abc.jp2/info.json"
  headers := [(txt "host", txt "iiif"), (txt "cookie", cookie)]
  parsed := ⟨.infoJson, txt "0803", txt "abc.jp2", none⟩
  accepted := by decide +kernel
  identifier_ok := by decide
  prefix_ok := by decide

def twoUsers : List (RequestCall String) :=
  [.insert (withCookie (txt "session=alice")) "allow" 0, .insert (withCookie (txt "session=bob")) "deny" 1,
    .get (withCookie (txt "session=alice")) 3]

theorem decision_keeps_to_cookie :
    ∃ c : PreflightCache eightSlots Str String,
      Run (fun c (e : RequestCall String) c' => c.call (fun _ => 0) e.event = c') PreflightCache.new twoUsers c ∧
      ((c.get (fun _ => 0) (withCookie (txt "session=alice")).cacheKey 5).2 = some "allow" ∧
        (c.get (fun _ => 0) (withCookie (txt "session=bob")).cacheKey 5).2 = some "deny") ∧
      ∃ r' t, RequestCall.insert r' "deny" t ∈ twoUsers ∧ r'.asked = (withCookie (txt "session=bob")).asked := by
  have hp : ((play (fun c (e : RequestCall String) => some (PreflightCache.call (fun _ => 0) c e.event))
      (fun _ _ => True) (PreflightCache.new : PreflightCache eightSlots Str String) twoUsers).map fun c =>
        ((c.get (fun _ => 0) (withCookie (txt "session=alice")).cacheKey 5).2,
          (c.get (fun _ => 0) (withCookie (txt "session=bob")).cacheKey 5).2)) = some (some "allow", some "deny") := by
    decide +kernel
  obtain ⟨c, hc, hg⟩ := Option.map_eq_some_iff.mp hp
  obtain ⟨hal, hbo⟩ := Prod.mk.inj hg
  have hr : Run (fun c (e : RequestCall String) c' => c.call (fun _ => 0) e.event = c') PreflightCache.new twoUsers c :=
    (run_of_play hc).mono fun _ _ _ hs => Option.some.inj hs.2
  exact ⟨c, hr, ⟨hal, hbo⟩, (decision_keeps_to_credentials fun _ => 0).2 _ c hr _ 5 "deny" hbo⟩

section
variable {κ δ : Type*} [DecidableEq κ] {lay : Layout} {fp : κ → ℕ} {es : List (Event κ δ)} {c : PreflightCache lay κ δ}

/-- Every slot expires one time to live later. -/
def Timely (es : List (Event κ δ)) (c : PreflightCache lay κ δ) : Prop :=
  ∀ sh i slot, c.shards sh i = some slot → ∃ t, Event.insert slot.key slot.decision t ∈ es ∧ slot.expiry = t + lay.ttl

theorem timely_step (h : Timely es c) (e : Event κ δ) : Timely (es ++ [e]) (c.call fp e) := by
  intro sh i slot hs
  have hold : c.shards sh i = some slot →
      ∃ t, Event.insert slot.key slot.decision t ∈ es ++ [e] ∧ slot.expiry = t + lay.ttl := fun ho => by
    obtain ⟨t, ht, hx⟩ := h sh i slot ho
    exact ⟨t, List.mem_append_left _ ht, hx⟩
  rcases shards_call fp c e sh i slot hs with ho | ⟨t, rfl⟩
  · exact hold ho
  · change (c.put fp slot.key _ (some ⟨_, _, t + lay.ttl, _⟩)).shards sh i = some slot at hs
    rw [shards_put] at hs
    split at hs
    · exact ⟨t, by simp, congrArg Slot.expiry (Option.some.inj hs).symm⟩
    · exact hold hs

/-- **No decision outlives its time to live**, also where an older one is found in place of a newer: in every run,
what `get` returns for a key has been inserted for it less than a time to live before. -/
theorem get_within_ttl (hr : Run (fun c e c' => PreflightCache.call fp c e = c') PreflightCache.new es c) {key : κ}
    {now : ℕ} {decision : δ} (hg : (c.get fp key now).2 = some decision) :
    ∃ t, Event.insert key decision t ∈ es ∧ now < t + lay.ttl := by
  have ht : Timely es c := by
    refine hr.history Timely (fun sh i slot h => by cases h) fun es t e u _ h hs => ?_
    obtain rfl : t.call fp e = u := hs
    exact timely_step h e
  unfold PreflightCache.get at hg
  split at hg
  · next i slot hl =>
    split at hg
    · next hx =>
      obtain ⟨-, hs, rfl⟩ := getLoop_eq_some hl
      obtain ⟨t, hm, he⟩ := ht _ i slot hs
      exact ⟨t, Option.some.inj hg ▸ hm, he ▸ hx⟩
    · cases hg
  · cases hg

end

theorem get_within_ten : ∃ c : PreflightCache eightSlots ℕ String, (c.get inFirstShard 1 12).2 = some "allow" ∧
    ∃ t, Event.insert 1 "allow" t ∈ [Event.insert 1 "allow" 3, .get 1 5] ∧ 12 < t + eightSlots.ttl := by
  obtain ⟨c, hr, hg⟩ : ∃ c : PreflightCache eightSlots ℕ String, Run (fun c e c' => c.call inFirstShard e = c') .new
      [.insert 1 "allow" 3, .get 1 5] c ∧ (c.get inFirstShard 1 12).2 = some "allow" :=
    ⟨_, .snoc (.snoc (.nil _) rfl) rfl, by decide +kernel⟩
  exact ⟨c, hg, get_within_ttl hr hg⟩

end Sipi.Preflight
