import Sipi.Theory.Runs
import Sipi.Theory.Tally

/-!
# The preflight cache

`src/server-rs/src/preflight_cache.rs`.

## Honest scope

The counters of the process are those of one cache. The gauge is an integer between zero and the number of slots.
-/

namespace Sipi.Preflight

open Sipi.Theory

/-- `NUM_SHARDS`. -/
def numShards : ℕ := 16

/-- `PROBE`. -/
def probeLength : ℕ := 4

/-- The size of a cache, and its time to live. -/
structure Layout where
  slots : ℕ
  slots_pos : 0 < slots
  ttl : ℕ
  ttl_pos : 0 < ttl

/-- The sizes in `PreflightCache::new`. -/
def Layout.new (slots ttl : ℕ) : Option Layout :=
  if h : ttl = 0 then none
  else some ⟨max ((slots + numShards - 1) / numShards) 1, Nat.lt_of_lt_of_le Nat.one_pos (Nat.le_max_right _ _), ttl,
    Nat.pos_of_ne_zero h⟩

variable {κ δ : Type*} [DecidableEq κ]

/-- `Slot`. -/
structure Slot (κ δ : Type*) where
  fingerprint : ℕ
  key : κ
  expiry : ℕ
  decision : δ

/-- The slots of a shard. -/
abbrev Shard (n : ℕ) (κ δ : Type*) := Fin n → Option (Slot κ δ)

/-- `PreflightCache`. -/
structure PreflightCache (lay : Layout) (κ δ : Type*) where
  shards : Fin numShards → Shard lay.slots κ δ
  hits : ℕ
  misses : ℕ
  entries : ℤ

variable {lay : Layout}

/-- A cache in which all slots are empty. -/
def PreflightCache.new : PreflightCache lay κ δ := ⟨fun _ _ => none, 0, 0, 0⟩

/-- The shard of a fingerprint: its low bits. -/
def shardOf (fingerprint : ℕ) : Fin numShards := ⟨fingerprint % numShards, Nat.mod_lt _ (by decide)⟩

/-- `base_index`. -/
def baseIndex (lay : Layout) (fingerprint : ℕ) : Fin lay.slots :=
  ⟨fingerprint / numShards % lay.slots, Nat.mod_lt _ lay.slots_pos⟩

/-- The window of a fingerprint, in order. -/
def window (lay : Layout) (fingerprint : ℕ) : List (Fin lay.slots) :=
  (List.range probeLength).map fun i => ⟨(baseIndex lay fingerprint + i) % lay.slots, Nat.mod_lt _ lay.slots_pos⟩

theorem baseIndex_mem_window (lay : Layout) (fingerprint : ℕ) :
    baseIndex lay fingerprint ∈ window lay fingerprint := by
  refine List.mem_map.mpr ⟨0, by decide, Fin.ext ?_⟩
  exact Nat.mod_eq_of_lt (baseIndex lay fingerprint).isLt

/-- The slot has this fingerprint and key. -/
def Slot.isFor (fingerprint : ℕ) (key : κ) (slot : Option (Slot κ δ)) : Bool :=
  match slot with
  | some slot => decide (slot.fingerprint = fingerprint) && decide (slot.key = key)
  | none => false

/-- The loop of `get`: the first slot with the key. -/
def getLoop {n : ℕ} (fingerprint : ℕ) (key : κ) (shard : Shard n κ δ) : List (Fin n) → Option (Fin n × Slot κ δ)
  | [] => none
  | i :: is =>
    match shard i with
    | some slot =>
      if slot.fingerprint = fingerprint ∧ slot.key = key then some (i, slot)
      else getLoop fingerprint key shard is
    | none => getLoop fingerprint key shard is

/-- The earlier of two slots. -/
def older {n : ℕ} (i : Fin n) (expiry : ℕ) : Option (Fin n × ℕ) → Option (Fin n × ℕ)
  | some (j, e) => if expiry < e then some (i, expiry) else some (j, e)
  | none => some (i, expiry)

/-- The loop of `insert`. -/
def insertLoop {n : ℕ} (fingerprint : ℕ) (key : κ) (now : ℕ) (shard : Shard n κ δ) (base : Fin n) :
    List (Fin n) → Option (Fin n) → Option (Fin n × ℕ) → Fin n × Bool
  | [], free, oldest => ((free.or (oldest.map Prod.fst)).getD base, false)
  | i :: is, free, oldest =>
    match shard i with
    | some slot =>
      if slot.fingerprint = fingerprint ∧ slot.key = key then (i, false)
      else insertLoop fingerprint key now shard base is (free.or (if slot.expiry ≤ now then some i else none))
        (older i slot.expiry oldest)
    | none => (i, true)

namespace PreflightCache

variable (fp : κ → ℕ)

/-- The slots of the shard of a key. -/
def shard (c : PreflightCache lay κ δ) (key : κ) : Shard lay.slots κ δ := c.shards (shardOf (fp key))

/-- A slot of the shard of a key is now `slot`. -/
def put (c : PreflightCache lay κ δ) (key : κ) (i : Fin lay.slots) (slot : Option (Slot κ δ)) :
    PreflightCache lay κ δ :=
  { c with shards := Function.update c.shards (shardOf (fp key)) (Function.update (c.shard fp key) i slot) }

/-- `PreflightCache::get`. -/
def get (c : PreflightCache lay κ δ) (key : κ) (now : ℕ) : PreflightCache lay κ δ × Option δ :=
  match getLoop (fp key) key (c.shard fp key) (window lay (fp key)) with
  | some (i, slot) =>
    if now < slot.expiry then ({ c with hits := c.hits + 1 }, some slot.decision)
    else ({ c.put fp key i none with entries := c.entries - 1, misses := c.misses + 1 }, none)
  | none => ({ c with misses := c.misses + 1 }, none)

/-- The slot that `insert` writes. -/
def place (c : PreflightCache lay κ δ) (key : κ) (now : ℕ) : Fin lay.slots × Bool :=
  insertLoop (fp key) key now (c.shard fp key) (baseIndex lay (fp key)) (window lay (fp key)) none none

/-- `PreflightCache::insert`. -/
def insert (c : PreflightCache lay κ δ) (key : κ) (decision : δ) (now : ℕ) : PreflightCache lay κ δ :=
  { c.put fp key (c.place fp key now).1 (some ⟨fp key, key, now + lay.ttl, decision⟩) with
    entries := c.entries + if (c.place fp key now).2 then 1 else 0 }

end PreflightCache

section Loops
variable {n : ℕ} {fingerprint : ℕ} {key : κ} {shard : Shard n κ δ}

theorem getLoop_eq_some {is : List (Fin n)} {i : Fin n} {slot : Slot κ δ}
    (h : getLoop fingerprint key shard is = some (i, slot)) : i ∈ is ∧ shard i = some slot ∧ slot.key = key := by
  induction is with
  | nil => cases h
  | cons j is ih =>
    rw [getLoop] at h
    split at h
    · next s hs =>
      split at h
      · next heq =>
        cases h
        exact ⟨List.mem_cons_self, hs, heq.2⟩
      · exact (ih h).imp_left (List.mem_cons_of_mem j)
    · exact (ih h).imp_left (List.mem_cons_of_mem j)

/-- The search of `insert` ends at this slot. -/
def endsAt (fingerprint : ℕ) (key : κ) (shard : Shard n κ δ) (i : Fin n) : Bool :=
  (shard i).isNone || Slot.isFor fingerprint key (shard i)

theorem insertLoop_of_find {now : ℕ} {base i : Fin n} {is : List (Fin n)} (free : Option (Fin n))
    (oldest : Option (Fin n × ℕ)) (h : is.find? (endsAt fingerprint key shard) = some i) :
    insertLoop fingerprint key now shard base is free oldest = (i, (shard i).isNone) := by
  induction is generalizing free oldest with
  | nil => cases h
  | cons j is ih =>
    rw [insertLoop]
    cases hj : shard j with
    | none =>
      obtain rfl : j = i := by simpa [List.find?_cons, endsAt, hj] using h
      simp [hj]
    | some slot =>
      by_cases heq : slot.fingerprint = fingerprint ∧ slot.key = key
      · obtain rfl : j = i := by simpa [List.find?_cons, endsAt, Slot.isFor, hj, heq] using h
        simp [hj, heq]
      · simp only [heq, if_false]
        refine ih _ _ ?_
        have he : endsAt fingerprint key shard j = false := by
          simpa [endsAt, Slot.isFor, hj] using heq
        rwa [List.find?_cons, he] at h

theorem insertLoop_cases {now : ℕ} {base : Fin n} {is : List (Fin n)} {free : Option (Fin n)}
    {oldest : Option (Fin n × ℕ)} (P : Fin n → Prop) (hb : base ∈ is ∨ P base)
    (his : ∀ i ∈ is, shard i ≠ none → P i) (hf : ∀ i ∈ free, P i) (ho : ∀ p ∈ oldest, P p.1) :
    (∃ i ∈ is, shard i = none ∧ insertLoop fingerprint key now shard base is free oldest = (i, true)) ∨
      ∃ i, P i ∧ insertLoop fingerprint key now shard base is free oldest = (i, false) := by
  induction is generalizing free oldest with
  | nil =>
    refine Or.inr ⟨_, ?_, rfl⟩
    cases free with
    | some i => exact hf i rfl
    | none =>
      cases oldest with
      | some p => exact ho p rfl
      | none => exact hb.resolve_left List.not_mem_nil
  | cons j is ih =>
    rw [insertLoop]
    split
    · next slot hs =>
      have hj : P j := his j List.mem_cons_self (by simp [hs])
      split
      · exact Or.inr ⟨j, hj, rfl⟩
      · refine (ih ?_ (fun i hi => his i (List.mem_cons_of_mem j hi)) ?_ ?_).imp_left
          fun ⟨i, hi, h⟩ => ⟨i, List.mem_cons_of_mem j hi, h⟩
        · rcases hb with hb | hb
          · exact (List.mem_cons.mp hb).elim (fun h => Or.inr (h ▸ hj)) Or.inl
          · exact Or.inr hb
        · cases free with
          | some k => exact hf
          | none =>
            rw [Option.none_or]
            split <;> simp [hj]
        · unfold older
          split
          · split
            · simp [hj]
            · exact ho
          · simp [hj]
    · next hs => exact Or.inl ⟨j, List.mem_cons_self, hs, rfl⟩

end Loops

/-! ### Runs -/

/-- A call. -/
inductive Event (κ δ : Type*) where
  | get (key : κ) (now : ℕ)
  | insert (key : κ) (decision : δ) (now : ℕ)

/-- The cache after a call. -/
def PreflightCache.call (fp : κ → ℕ) (c : PreflightCache lay κ δ) : Event κ δ → PreflightCache lay κ δ
  | .get key now => (c.get fp key now).1
  | .insert key decision now => c.insert fp key decision now

/-- The newest decision for a key, and its time. -/
def lastInsert (key : κ) (es : List (Event κ δ)) : Option (δ × ℕ) :=
  es.foldl (fun last e => match e with
    | .insert k decision now => if k = key then some (decision, now) else last
    | .get .. => last) none

/-- A slot behind an empty one has the key. -/
def PreflightCache.Hole (fp : κ → ℕ) (c : PreflightCache lay κ δ) (key : κ) : Prop :=
  ∃ i, (window lay (fp key)).find? (endsAt (fp key) key (c.shard fp key)) = some i ∧
    (c.shard fp key i).isNone = true ∧ ∃ j ∈ window lay (fp key), Slot.isFor (fp key) key (c.shard fp key j) = true

instance (fp : κ → ℕ) (c : PreflightCache lay κ δ) (key : κ) : Decidable (c.Hole fp key) :=
  inferInstanceAs (Decidable (∃ _, _))

/-- An `insert` finds no hole before its key. -/
def PreflightCache.NoHole (fp : κ → ℕ) (c : PreflightCache lay κ δ) : Event κ δ → Prop
  | .get .. => True
  | .insert key _ _ => ¬ c.Hole fp key

instance (fp : κ → ℕ) (c : PreflightCache lay κ δ) : (e : Event κ δ) → Decidable (c.NoHole fp e)
  | .get .. => inferInstanceAs (Decidable True)
  | .insert .. => inferInstanceAs (Decidable (¬ _))

/-- Every slot has the newest decision, alone. -/
structure WellPlaced (fp : κ → ℕ) (es : List (Event κ δ)) (c : PreflightCache lay κ δ) : Prop where
  placed : ∀ sh i slot, c.shards sh i = some slot →
    slot.fingerprint = fp slot.key ∧ sh = shardOf (fp slot.key) ∧ i ∈ window lay (fp slot.key)
  newest : ∀ sh i slot, c.shards sh i = some slot →
    ∃ t, lastInsert slot.key es = some (slot.decision, t) ∧ slot.expiry = t + lay.ttl
  unique : ∀ sh i j slot slot', c.shards sh i = some slot → c.shards sh j = some slot' → slot.key = slot'.key → i = j

theorem lastInsert_get (key k : κ) (now : ℕ) (es : List (Event κ δ)) :
    lastInsert key (es ++ [.get k now]) = lastInsert key es := by
  simp [lastInsert]

theorem lastInsert_insert (key k : κ) (decision : δ) (now : ℕ) (es : List (Event κ δ)) :
    lastInsert key (es ++ [.insert k decision now]) =
      if k = key then some (decision, now) else lastInsert key es := by
  simp [lastInsert]

section Steps
variable {fp : κ → ℕ} {c : PreflightCache lay κ δ} {es : List (Event κ δ)} {key : κ}

omit [DecidableEq κ] in
theorem shards_put (c : PreflightCache lay κ δ) (key : κ) (i : Fin lay.slots) (slot : Option (Slot κ δ))
    (sh : Fin numShards) (j : Fin lay.slots) :
    (c.put fp key i slot).shards sh j = if sh = shardOf (fp key) ∧ j = i then slot else c.shards sh j := by
  unfold PreflightCache.put
  by_cases hsh : sh = shardOf (fp key)
  · subst hsh
    by_cases hj : j = i
    · simp [hj]
    · simp [hj, PreflightCache.shard]
  · simp [hsh]

theorem WellPlaced.mono {c' : PreflightCache lay κ δ} {es' : List (Event κ δ)} (h : WellPlaced fp es c)
    (hsb : ∀ sh i slot, c'.shards sh i = some slot → c.shards sh i = some slot)
    (hl : ∀ key, lastInsert key es' = lastInsert key es) : WellPlaced fp es' c' where
  placed sh i slot hs := h.placed sh i slot (hsb sh i slot hs)
  newest sh i slot hs := by
    rw [hl]
    exact h.newest sh i slot (hsb sh i slot hs)
  unique sh i j slot slot' hs hs' := h.unique sh i j slot slot' (hsb sh i slot hs) (hsb sh j slot' hs')

theorem wellPlaced_get (h : WellPlaced fp es c) (key : κ) (now : ℕ) :
    WellPlaced fp (es ++ [.get key now]) (c.get fp key now).1 := by
  refine h.mono (fun sh i slot hs => ?_) fun k => lastInsert_get k key now es
  unfold PreflightCache.get at hs
  split at hs
  · split at hs
    · exact hs
    · next j _ _ _ =>
      have hp : (c.put fp key j none).shards sh i = some slot := hs
      rw [shards_put] at hp
      split at hp
      · cases hp
      · exact hp
  · exact hs

theorem place_spec (c : PreflightCache lay κ δ) (key : κ) (now : ℕ) :
    (c.place fp key now).1 ∈ window lay (fp key) ∧
      (c.place fp key now).2 = (c.shard fp key (c.place fp key now).1).isNone := by
  have hc : (∃ i ∈ window lay (fp key), c.shard fp key i = none ∧ c.place fp key now = (i, true)) ∨
      ∃ i, (i ∈ window lay (fp key) ∧ c.shard fp key i ≠ none) ∧ c.place fp key now = (i, false) :=
    insertLoop_cases _ (Or.inl (baseIndex_mem_window lay (fp key))) (fun i hi hn => ⟨hi, hn⟩) (by simp) (by simp)
  rcases hc with ⟨i, hi, hn, hp⟩ | ⟨i, ⟨hi, hn⟩, hp⟩ <;> rw [hp]
  · exact ⟨hi, by rw [hn]; rfl⟩
  · exact ⟨hi, (Option.isNone_eq_false_iff.mpr (Option.isSome_iff_ne_none.mpr hn)).symm⟩

theorem eq_place_of_noHole (h : WellPlaced fp es c) (hh : ¬ c.Hole fp key) (now : ℕ) {j : Fin lay.slots}
    {slot : Slot κ δ} (hs : c.shards (shardOf (fp key)) j = some slot) (hk : slot.key = key) :
    j = (c.place fp key now).1 := by
  obtain ⟨hfp, -, hw⟩ := h.placed _ j slot hs
  rw [hk] at hfp hw
  have hfr : Slot.isFor (fp key) key (c.shard fp key j) = true := by
    simp [PreflightCache.shard, hs, Slot.isFor, hfp, hk]
  cases hf : (window lay (fp key)).find? (endsAt (fp key) key (c.shard fp key)) with
  | none =>
    have he := List.find?_eq_none.mp hf j hw
    simp [endsAt, hfr] at he
  | some i =>
    have hp : c.place fp key now = (i, (c.shard fp key i).isNone) := insertLoop_of_find none none hf
    rw [hp]
    have he := List.find?_some hf
    cases hi : c.shard fp key i with
    | none => exact absurd ⟨i, hf, by rw [hi]; rfl, j, hw, hfr⟩ hh
    | some slot' =>
      have hf' : slot'.key = key := by
        simp only [endsAt, hi, Slot.isFor, Option.isNone_some, Bool.false_or, Bool.and_eq_true,
          decide_eq_true_eq] at he
        exact he.2
      exact h.unique _ j i slot slot' hs hi (hk.trans hf'.symm)

theorem wellPlaced_insert (h : WellPlaced fp es c) (hh : ¬ c.Hole fp key) (decision : δ) (now : ℕ) :
    WellPlaced fp (es ++ [.insert key decision now]) (c.insert fp key decision now) := by
  set i := (c.place fp key now).1 with hi
  set new : Slot κ δ := ⟨fp key, key, now + lay.ttl, decision⟩ with hn
  -- a slot is the new one, or an old one that has another key or is in another shard
  have hc : ∀ {sh j slot}, (c.insert fp key decision now).shards sh j = some slot →
      (sh = shardOf (fp key) ∧ j = i ∧ slot = new) ∨ (slot.key ≠ key ∧ c.shards sh j = some slot) := by
    intro sh j slot hs
    have hp : (c.put fp key i (some new)).shards sh j = some slot := hs
    rw [shards_put] at hp
    split at hp
    · next heq => exact Or.inl ⟨heq.1, heq.2, (Option.some.inj hp).symm⟩
    · next hne =>
      refine Or.inr ⟨fun hk => hne ?_, hp⟩
      have hsh : sh = shardOf (fp key) := hk ▸ (h.placed sh j slot hp).2.1
      exact ⟨hsh, eq_place_of_noHole h hh now (hsh ▸ hp) hk⟩
  have hm : i ∈ window lay (fp key) := (place_spec c key now).1
  constructor
  · intro sh j slot hs
    rcases hc hs with ⟨rfl, rfl, rfl⟩ | ⟨-, ho⟩
    · exact ⟨rfl, rfl, hm⟩
    · exact h.placed sh j slot ho
  · intro sh j slot hs
    rw [lastInsert_insert]
    rcases hc hs with ⟨-, -, rfl⟩ | ⟨hk, ho⟩
    · exact ⟨now, if_pos rfl, rfl⟩
    · rw [if_neg hk.symm]
      exact h.newest sh j slot ho
  · intro sh j k slot slot' hs hs' heq
    rcases hc hs with ⟨-, rfl, rfl⟩ | ⟨hk, ho⟩ <;> rcases hc hs' with ⟨-, rfl, rfl⟩ | ⟨hk', ho'⟩
    · rfl
    · exact absurd heq.symm hk'
    · exact absurd heq hk
    · exact h.unique sh j k slot slot' ho ho' heq

theorem wellPlaced_step (h : WellPlaced fp es c) {e : Event κ δ} (hh : c.NoHole fp e) :
    WellPlaced fp (es ++ [e]) (c.call fp e) := by
  cases e with
  | get key now => exact wellPlaced_get h key now
  | insert key decision now => exact wellPlaced_insert h hh decision now

end Steps

/-- **`get` gives the newest decision or none**, in every run in which no `insert` finds a hole before its key. -/
theorem newest_of_run {fp : κ → ℕ} {es : List (Event κ δ)} {c : PreflightCache lay κ δ}
    (hrun : Run (When (PreflightCache.NoHole fp) fun c e c' => c.call fp e = c') PreflightCache.new es c) :
    (∀ key now decision, (c.get fp key now).2 = some decision →
      ∃ t, lastInsert key es = some (decision, t) ∧ now < t + lay.ttl) ∧
    ∀ sh i j slot slot', c.shards sh i = some slot → c.shards sh j = some slot' → slot.key = slot'.key → i = j := by
  have hp : WellPlaced fp es c := by
    refine hrun.history (WellPlaced fp) ⟨?_, ?_, ?_⟩ fun es t e u _ h hs => hs.2 ▸ wellPlaced_step h hs.1
    all_goals intro sh i; intros; contradiction
  refine ⟨fun key now decision hg => ?_, hp.unique⟩
  unfold PreflightCache.get at hg
  split at hg
  · next i slot hlp =>
    split at hg
    · next hlv =>
      obtain ⟨-, hsl, hk⟩ := getLoop_eq_some hlp
      obtain ⟨t, hl, he⟩ := hp.newest _ i slot hsl
      exact ⟨t, by rw [← hk, hl, Option.some.inj hg], he ▸ hlv⟩
    · cases hg
  · cases hg

def eightSlots : Layout := ⟨8, by decide, 10, by decide⟩

/-- Key `k` begins at `k % 8` of the first shard. -/
def inFirstShard (k : ℕ) : ℕ := 16 * k

theorem newest_of_refresh :
    ∃ c : PreflightCache eightSlots ℕ String,
      Run (When (PreflightCache.NoHole inFirstShard) fun c e c' => c.call inFirstShard e = c') PreflightCache.new
        [.insert 3 "deny" 0, .insert 3 "allow" 5] c ∧
      (c.get inFirstShard 3 12).2 = some "allow" ∧
      ∃ t, lastInsert 3 [Event.insert 3 "deny" 0, .insert 3 "allow" 5] = some ("allow", t) ∧
        12 < t + eightSlots.ttl := by
  have hp : ((play (fun c e => some (PreflightCache.call inFirstShard c e)) (PreflightCache.NoHole inFirstShard)
      (PreflightCache.new : PreflightCache eightSlots ℕ String) [.insert 3 "deny" 0, .insert 3 "allow" 5]).map fun c =>
        (c.get inFirstShard 3 12).2) = some (some "allow") := by decide +kernel
  obtain ⟨c, hc, hg⟩ := Option.map_eq_some_iff.mp hp
  have hr : Run (When (PreflightCache.NoHole inFirstShard) fun c e c' => c.call inFirstShard e = c')
      PreflightCache.new [.insert 3 "deny" 0, .insert 3 "allow" 5] c :=
    (run_of_play hc).mono fun _ _ _ hs => ⟨hs.1, Option.some.inj hs.2⟩
  exact ⟨c, hr, hg, (newest_of_run hr).1 3 12 "allow" hg⟩

theorem stale_decision_served :
    ∃ c : PreflightCache eightSlots ℕ String,
      Run (fun c e c' => c.call inFirstShard e = c') PreflightCache.new
        [.insert 3 "other" 0, .insert 11 "allow" 5, .get 3 10, .insert 11 "deny" 10, .insert 0 "other" 11,
          .insert 1 "other" 11, .insert 2 "other" 11, .insert 8 "other" 11] c ∧
      lastInsert 11 [Event.insert 3 "other" 0, .insert 11 "allow" 5, .get 3 10, .insert 11 "deny" 10,
        .insert 0 "other" 11, .insert 1 "other" 11, .insert 2 "other" 11, .insert 8 "other" 11] = some ("deny", 10) ∧
      (c.get inFirstShard 11 12).2 = some "allow" := by
  have hp : ((play (fun c e => some (PreflightCache.call inFirstShard c e)) (fun _ _ => True)
      (PreflightCache.new : PreflightCache eightSlots ℕ String)
      [.insert 3 "other" 0, .insert 11 "allow" 5, .get 3 10, .insert 11 "deny" 10, .insert 0 "other" 11,
        .insert 1 "other" 11, .insert 2 "other" 11, .insert 8 "other" 11]).map fun c =>
        (c.get inFirstShard 11 12).2) = some (some "allow") := by decide +kernel
  obtain ⟨c, hc, hg⟩ := Option.map_eq_some_iff.mp hp
  exact ⟨c, (run_of_play hc).mono fun _ _ _ hs => Option.some.inj hs.2, rfl, hg⟩

/-- How many slots of the table are filled. -/
def PreflightCache.filled (c : PreflightCache lay κ δ) : ℕ := tally (tally fun slot => slot.isSome.toNat) c.shards

omit [DecidableEq κ] in
theorem filled_put (fp : κ → ℕ) (c : PreflightCache lay κ δ) (key : κ) (i : Fin lay.slots)
    (slot : Option (Slot κ δ)) :
    (c.put fp key i slot).filled + (c.shard fp key i).isSome.toNat = c.filled + slot.isSome.toNat := by
  have hs := tally_update (fun slot => slot.isSome.toNat) (c.shard fp key) i slot
  have ht := tally_update (tally fun slot => slot.isSome.toNat) c.shards (shardOf (fp key))
    (Function.update (c.shard fp key) i slot)
  simp only [PreflightCache.filled, PreflightCache.put, PreflightCache.shard] at *
  omega

omit [DecidableEq κ] in
theorem filled_le (c : PreflightCache lay κ δ) : c.filled ≤ numShards * lay.slots := by
  have h : ∀ sh : Shard lay.slots κ δ, tally (fun slot => slot.isSome.toNat) sh ≤ lay.slots := fun sh => by
    simpa using tally_le (fun slot => Bool.toNat_le slot.isSome) sh
  simpa [PreflightCache.filled] using tally_le h c.shards

theorem entries_call (fp : κ → ℕ) (c : PreflightCache lay κ δ) (e : Event κ δ) :
    (c.call fp e).entries - c.entries = (c.call fp e).filled - c.filled := by
  cases e with
  | get key now =>
    simp only [PreflightCache.call, PreflightCache.get]
    split
    · next i slot hl =>
      split
      · exact (sub_self _).trans (sub_self _).symm
      · -- an expired slot of the key was filled, and is emptied
        have hp := filled_put fp c key i none
        rw [(getLoop_eq_some hl).2.1] at hp
        simp only [Option.isSome_some, Option.isSome_none, Bool.toNat_true, Bool.toNat_false] at hp
        change c.entries - 1 - c.entries = (c.put fp key i none).filled - c.filled
        omega
    · exact (sub_self _).trans (sub_self _).symm
  | insert key decision now =>
    have hp := filled_put fp c key (c.place fp key now).1 (some ⟨fp key, key, now + lay.ttl, decision⟩)
    have hc : (c.place fp key now).2 = _ := (place_spec c key now).2
    change c.entries + (if (c.place fp key now).2 then 1 else 0) - c.entries = (c.put fp key _ _).filled - c.filled
    cases hs : c.shard fp key (c.place fp key now).1 with
    | none =>
      rw [hs] at hp hc
      rw [hc]
      simp only [Option.isSome_some, Option.isSome_none, Option.isNone_none, if_true, Bool.toNat_true,
        Bool.toNat_false] at hp ⊢
      omega
    | some slot =>
      rw [hs] at hp hc
      rw [hc]
      simp only [Option.isSome_some, Option.isNone_some, Bool.false_eq_true, if_false, Bool.toNat_true] at hp ⊢
      omega

/-- **The gauge is the number of filled slots.** A call in any state changes both by the same amount;
so, after any calls on a new cache of any size, they are equal, and the gauge is between zero and the
number of slots. -/
theorem gauge_counts (fp : κ → ℕ) (lay : Layout) :
    (∀ (c : PreflightCache lay κ δ) e, (c.call fp e).entries - c.entries = (c.call fp e).filled - c.filled) ∧
    ∀ es : List (Event κ δ), let c : PreflightCache lay κ δ := es.foldl (PreflightCache.call fp) PreflightCache.new
      c.entries = c.filled ∧ 0 ≤ c.entries ∧ c.entries ≤ numShards * lay.slots := by
  refine ⟨entries_call fp, ?_⟩
  intro es c
  have heq : c.entries = c.filled := by
    refine List.foldlRecOn (motive := fun c : PreflightCache lay κ δ => c.entries = c.filled) es _ ?_ fun c h e _ => ?_
    · exact (Int.natCast_eq_zero.mpr (tally_eq_zero fun _ => tally_eq_zero fun _ => rfl)).symm
    · have hc := entries_call fp c e
      omega
  have hle := filled_le c
  exact ⟨heq, by omega, by omega⟩

end Sipi.Preflight
