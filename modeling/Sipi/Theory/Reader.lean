import Mathlib.Computability.Language
import Mathlib.Data.List.DropRight

/-!
# Reading a language off the front of a string

A hand-written recogniser is a chain of small readers.

## The rule

A greedy reader is right only in front of text that cannot prolong what it has read. `Reads f stop L` says that `f`
reads `L` in front of every continuation whose words are empty or begin with a symbol of `stop`:

    s ∈ L * K ↔ f s succeeds with a rest in K.

The rule composes (`Reads.seq`), and at the end of the input becomes membership (`Reads.mem_iff`).
-/

namespace Sipi.Theory

variable {α : Type*}

/-- It takes a word off and gives the rest. -/
abbrev Reader (α : Type*) := List α → Option (List α)

/-- Empty, or begun by a symbol of `stop`. -/
def Stops (stop : α → Prop) (K : Language α) : Prop := ∀ a t, a :: t ∈ K → stop a

theorem Stops.mono {P Q : α → Prop} {K : Language α} (h : Stops P K) (hPQ : ∀ a, P a → Q a) : Stops Q K :=
  fun a t ht => hPQ a (h a t ht)

theorem stops_one (stop : α → Prop) : Stops stop (1 : Language α) := by
  intro a t h
  simp [Language.mem_one] at h

theorem stops_add {stop : α → Prop} {K M : Language α} (hK : Stops stop K) (hM : Stops stop M) :
    Stops stop (K + M) := by
  intro a t h
  rcases (Language.mem_add K M _).mp h with h | h
  · exact hK a t h
  · exact hM a t h

/-- Begun by a symbol of `first`. -/
def Begins (first : α → Prop) (L : Language α) : Prop := ∀ w ∈ L, ∃ a t, w = a :: t ∧ first a

variable {a : α}

theorem begins_word {first : α → Prop} (w : List α) (h : first a) : Begins first ({a :: w} : Language α) := by
  rintro _ rfl
  exact ⟨a, w, rfl, h⟩

variable {L : Language α}

theorem Begins.mono {P Q : α → Prop} (h : Begins P L) (hPQ : ∀ a, P a → Q a) : Begins Q L := by
  intro w hw
  obtain ⟨a, t, rfl, ha⟩ := h w hw
  exact ⟨a, t, rfl, hPQ a ha⟩

theorem Begins.mul {first : α → Prop} (h : Begins first L) (K : Language α) : Begins first (L * K) := by
  rintro _ ⟨w, hw, r, -, rfl⟩
  obtain ⟨a, t, rfl, ha⟩ := h w hw
  exact ⟨a, t ++ r, rfl, ha⟩

theorem Begins.stops {first : α → Prop} (h : Begins first L) : Stops first L := by
  intro a t ht
  obtain ⟨b, u, hbu, hb⟩ := h _ ht
  rw [(List.cons.inj hbu).1]
  exact hb

theorem Begins.not_mem {first : α → Prop} (h : Begins first L) (ha : ¬ first a) (t : List α) : a :: t ∉ L :=
  fun ht => ha (h.stops a t ht)

/-- `f` reads `L` before what stops it. -/
def Reads (f : Reader α) (stop : α → Prop) (L : Language α) : Prop :=
  ∀ K : Language α, Stops stop K → ∀ s, s ∈ L * K ↔ ∃ r, f s = some r ∧ r ∈ K

theorem Reads.mem_iff {f : Reader α} {stop : α → Prop} (h : Reads f stop L) (s : List α) :
    s ∈ L ↔ f s = some [] := by
  have := h 1 (stops_one stop) s
  rw [mul_one] at this
  rw [this]
  constructor
  · rintro ⟨r, hr, hr1⟩
    rw [Language.mem_one] at hr1
    rw [hr, hr1]
  · exact fun hs => ⟨[], hs, Language.nil_mem_one⟩

theorem Reads.seq {f g : Reader α} {stop₁ stop₂ : α → Prop} {L₁ L₂ : Language α} (hf : Reads f stop₁ L₁)
    (hg : Reads g stop₂ L₂) (hs : ∀ K, Stops stop₂ K → Stops stop₁ (L₂ * K)) :
    Reads (fun s => (f s).bind g) stop₂ (L₁ * L₂) := by
  intro K hK s
  rw [mul_assoc, hf _ (hs K hK)]
  constructor
  · rintro ⟨r, hr, hrK⟩
    obtain ⟨q, hq, hqK⟩ := (hg K hK r).mp hrK
    exact ⟨q, by simp [hr, hq], hqK⟩
  · rintro ⟨q, hq, hqK⟩
    obtain ⟨r, hr, hrq⟩ := Option.bind_eq_some_iff.mp hq
    exact ⟨r, hr, (hg K hK r).mpr ⟨q, hrq, hqK⟩⟩

/-- No word of `L` has the symbol `a` in it. -/
def Avoids (a : α) (L : Language α) : Prop := ∀ w ∈ L, a ∉ w

theorem avoids_one (a : α) : Avoids a (1 : Language α) := by
  intro w hw
  rw [(Language.mem_one w).mp hw]
  exact List.not_mem_nil

theorem avoids_word {w : List α} (h : a ∉ w) : Avoids a ({w} : Language α) := by
  rintro _ rfl
  exact h

theorem Avoids.add {L K : Language α} (hL : Avoids a L) (hK : Avoids a K) : Avoids a (L + K) := by
  intro w hw
  rcases (Language.mem_add L K w).mp hw with hw | hw
  · exact hL w hw
  · exact hK w hw

theorem Avoids.mul {L K : Language α} (hL : Avoids a L) (hK : Avoids a K) : Avoids a (L * K) := by
  rintro _ ⟨u, hu, v, hv, rfl⟩ hm
  rcases List.mem_append.mp hm with hm | hm
  · exact hL u hu hm
  · exact hK v hv hm

section Words

variable [BEq α] [LawfulBEq α]

theorem dropPrefix?_eq_some {w s r : List α} : s.dropPrefix? w = some r ↔ s = w ++ r := by
  rw [List.dropPrefix?_eq_some_iff]
  constructor
  · rintro ⟨p, rfl, hp⟩
    rw [eq_of_beq hp]
  · rintro rfl
    exact ⟨w, rfl, beq_self_eq_true w⟩

theorem dropPrefix?_cons_of_ne {a b : α} (w t : List α) (h : b ≠ a) : (b :: t).dropPrefix? (a :: w) = none := by
  by_contra hne
  obtain ⟨r, hr⟩ := Option.ne_none_iff_exists'.mp hne
  exact h (List.cons.inj (dropPrefix?_eq_some.mp hr)).1

/-- An optional symbol in front. -/
def mark (b : Bool) (a : α) : List α := if b then [a] else []

theorem dropPrefix?_mark {r : List α} (b : Bool) (h : r.head? ≠ some a) :
    ((mark b a ++ r).dropPrefix? [a]).isSome = b ∧ ((mark b a ++ r).dropPrefix? [a]).getD (mark b a ++ r) = r := by
  cases b with
  | true =>
    have hd : (mark true a ++ r).dropPrefix? [a] = some r := dropPrefix?_eq_some.mpr rfl
    rw [hd]
    exact ⟨rfl, rfl⟩
  | false =>
    have hn : (mark false a ++ r).dropPrefix? [a] = none := by
      cases r with
      | nil => rfl
      | cons c t => exact dropPrefix?_cons_of_ne [] t fun hc => h (by rw [hc]; rfl)
    rw [hn]
    exact ⟨rfl, rfl⟩

theorem reads_word (w : List α) : Reads (fun s => s.dropPrefix? w) (fun _ => True) ({w} : Language α) := by
  intro K _ s
  constructor
  · rintro ⟨_, rfl, r, hr, rfl⟩
    exact ⟨r, dropPrefix?_eq_some.mpr rfl, hr⟩
  · rintro ⟨r, hr, hrK⟩
    exact ⟨w, rfl, r, hrK, (dropPrefix?_eq_some.mp hr).symm⟩

theorem mem_optional_mul {K : Language α} (hK : Stops (· ≠ a) K) (s : List α) :
    s ∈ (1 + {[a]}) * K ↔ (s.dropPrefix? [a]).getD s ∈ K := by
  rw [add_mul, one_mul, Language.mem_add, reads_word [a] K (fun _ _ _ => trivial)]
  cases hs : s.dropPrefix? [a] with
  | none => simp [hs]
  | some t =>
    have hn : s ∉ K := by
      rw [dropPrefix?_eq_some.mp hs]
      exact fun h => hK a t h rfl
    simp [hs, hn]

/-- A tail announced by its first symbol. -/
def readOptional (a : α) (g : Reader α) : Reader α := fun s =>
  match s.dropPrefix? [a] with
  | some t => g t
  | none => some s

theorem Reads.optional {g : Reader α} {stop : α → Prop} (hg : Reads g stop L) (a : α) :
    Reads (readOptional a g) (fun b => stop b ∧ b ≠ a) (1 + {[a]} * L) := by
  intro K hK s
  unfold readOptional
  rw [add_mul, one_mul, Language.mem_add, mul_assoc, reads_word [a] (L * K) (fun _ _ _ => trivial)]
  cases hs : s.dropPrefix? [a] with
  | none => simp [hs]
  | some t =>
    have hn : s ∉ K := by
      rw [dropPrefix?_eq_some.mp hs]
      exact fun h => (hK a t h).2 rfl
    simp [hs, hn, hg K (hK.mono fun _ h => h.1) t]

theorem Reads.sep {f g : Reader α} {stop₁ stop₂ : α → Prop} {L₁ L₂ : Language α} (hf : Reads f stop₁ L₁)
    (ha : stop₁ a) (hg : Reads g stop₂ L₂) :
    Reads (fun s => (f s).bind fun r => (r.dropPrefix? [a]).bind g) stop₂ (L₁ * ({[a]} * L₂)) := by
  refine hf.seq ((reads_word [a]).seq hg fun _ _ _ _ _ => trivial) fun K _ => ?_
  rw [mul_assoc]
  exact ((begins_word [] ha).mul _).stops

end Words

section Runs

/-- Nonempty words of symbols of `p`. -/
def runs (p : α → Bool) : Language α := {w : List α | w ≠ [] ∧ ∀ a ∈ w, p a = true}

variable {p : α → Bool}

theorem mem_runs {w : List α} : w ∈ runs p ↔ w ≠ [] ∧ ∀ a ∈ w, p a = true := Iff.rfl

theorem begins_runs (p : α → Bool) : Begins (fun a => p a = true) (runs p) := by
  intro w hw
  obtain ⟨hne, ha⟩ := mem_runs.mp hw
  cases w with
  | nil => exact absurd rfl hne
  | cons a t => exact ⟨a, t, rfl, ha a (List.mem_cons_self ..)⟩

theorem avoids_runs (h : p a = false) : Avoids a (runs p) := by
  rintro w ⟨-, hw⟩ ha
  rw [hw a ha] at h
  cases h

/-- The longest run of `p`, not empty. -/
def readRun (p : α → Bool) : Reader α := fun s =>
  let n := s.findIdx fun a => !p a
  if n = 0 then none else some (s.drop n)

theorem takeWhile_dropWhile_eq_iff {s w r : List α} :
    s.takeWhile p = w ∧ s.dropWhile p = r ↔
      s = w ++ r ∧ (∀ a ∈ w, p a = true) ∧ ∀ a t, r = a :: t → p a = false := by
  constructor
  · rintro ⟨rfl, rfl⟩
    refine ⟨List.takeWhile_append_dropWhile.symm, fun a ha => List.mem_takeWhile_imp ha, ?_⟩
    intro a t hat
    have hne : s.dropWhile p ≠ [] := by simp [hat]
    have hh := List.head_dropWhile_not p hne
    simpa [hat] using hh
  · rintro ⟨rfl, hw, hr⟩
    rw [List.takeWhile_append_of_pos hw, List.dropWhile_append_of_pos hw]
    cases r with
    | nil => simp
    | cons a t => simp [hr a t rfl]

theorem exists_rdropWhile (p : α → Bool) (s : List α) :
    ∃ trail, s = s.rdropWhile p ++ trail ∧ ∀ a ∈ trail, p a = true :=
  ⟨s.rtakeWhile p, List.rdropWhile_append_rtakeWhile.symm, fun _ ha => List.mem_rtakeWhile_imp ha⟩

theorem rdropWhile_append_cons (ha : p a = false) (u v : List α) :
    (u ++ a :: v).rdropWhile p = u ++ a :: v.rdropWhile p := by
  induction v using List.reverseRecOn with
  | nil => rw [List.rdropWhile_concat_neg p u a (by simp [ha]), List.rdropWhile_nil]
  | append_singleton v b ih =>
    rw [← List.cons_append, ← List.append_assoc]
    by_cases hb : p b = true
    · rw [List.rdropWhile_concat_pos p _ b hb, ih, List.rdropWhile_concat_pos p v b hb]
    · rw [List.rdropWhile_concat_neg p _ b hb, List.rdropWhile_concat_neg p v b hb]
      simp

theorem readRun_eq (p : α → Bool) (s : List α) :
    readRun p s = if s.takeWhile p = [] then none else some (s.dropWhile p) := by
  rw [List.takeWhile_eq_take_findIdx_not, List.dropWhile_eq_drop_findIdx_not, readRun]
  refine if_congr ⟨fun h => ?_, fun h => ?_⟩ rfl rfl
  · rw [h, List.take_zero]
  · rcases List.take_eq_nil_iff.mp h with h0 | rfl
    · exact h0
    · rfl

theorem readRun_eq_some {s r : List α} :
    readRun p s = some r ↔ ∃ w ∈ runs p, s = w ++ r ∧ ∀ a t, r = a :: t → p a = false := by
  rw [readRun_eq]
  constructor
  · intro h
    split_ifs at h with hn
    cases h
    obtain ⟨hs, hw, hr⟩ := takeWhile_dropWhile_eq_iff.mp ⟨rfl, rfl⟩
    exact ⟨_, ⟨hn, hw⟩, hs, hr⟩
  · rintro ⟨w, ⟨hne, hw⟩, hs, hr⟩
    obtain ⟨rfl, rfl⟩ := takeWhile_dropWhile_eq_iff.mpr ⟨hs, hw, hr⟩
    rw [if_neg hne]

theorem reads_run (p : α → Bool) : Reads (readRun p) (fun a => p a = false) (runs p) := by
  intro K hK s
  constructor
  · rintro ⟨w, hw, r, hr, rfl⟩
    refine ⟨r, readRun_eq_some.mpr ⟨w, hw, rfl, ?_⟩, hr⟩
    rintro a t rfl
    exact hK a t hr
  · rintro ⟨r, hr, hrK⟩
    obtain ⟨w, hw, rfl, -⟩ := readRun_eq_some.mp hr
    exact ⟨w, hw, r, hrK, rfl⟩

end Runs

end Sipi.Theory
