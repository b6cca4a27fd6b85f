import Mathlib.Data.List.Basic

/-!
# Texts in UTF-8

A character below 128 is one byte, and every byte of another one is at least 128.
-/

namespace Sipi.Theory

namespace Utf8

variable {c : Char}

theorem encode_ascii (h : c.toNat < 128) : String.utf8EncodeChar c = [UInt8.ofNat c.toNat] := by
  have hv : c.val.toNat < 128 := h
  unfold String.utf8EncodeChar
  dsimp only
  rw [if_pos (by omega)]
  rfl

variable {b : UInt8}

theorem high_of_mem_encode (h : 128 ≤ c.toNat) (hb : b ∈ String.utf8EncodeChar c) : 128 ≤ b.toNat := by
  have hv : 128 ≤ c.val.toNat := h
  unfold String.utf8EncodeChar at hb
  dsimp only at hb
  rw [if_neg (by omega)] at hb
  split_ifs at hb <;> simp only [List.mem_cons, List.not_mem_nil, or_false] at hb
  all_goals
    rcases hb with rfl | rfl | rfl | rfl <;> simp only [UInt8.toNat_ofNat'] <;> omega

theorem toNat_byte {n : ℕ} (h : n < 128) : (UInt8.ofNat n).toNat = n := by
  rw [UInt8.toNat_ofNat']
  omega

theorem encode_of_low_mem (hb : b ∈ String.utf8EncodeChar c) (hl : b.toNat < 128) :
    String.utf8EncodeChar c = [b] ∧ c.toNat = b.toNat := by
  rcases Nat.lt_or_ge c.toNat 128 with ha | hh
  · rw [encode_ascii ha, List.mem_singleton] at hb
    rw [encode_ascii ha, hb, toNat_byte ha]
    exact ⟨rfl, rfl⟩
  · have := high_of_mem_encode hh hb
    omega

variable {s : List Char}

theorem eq_concat_of_last_low (h : (s.flatMap String.utf8EncodeChar).getLast? = some b) (hl : b.toNat < 128) :
    ∃ t c, s = t ++ [c] ∧ String.utf8EncodeChar c = [b] ∧ c.toNat = b.toNat := by
  rcases List.eq_nil_or_concat s with rfl | ⟨t, c, rfl⟩
  · simp at h
  · refine ⟨t, c, List.concat_eq_append, encode_of_low_mem ?_ hl⟩
    rw [List.concat_eq_append, List.flatMap_append, List.flatMap_singleton,
      List.getLast?_append_of_ne_nil _ String.utf8EncodeChar_ne_nil] at h
    exact List.mem_of_getLast? h

theorem exists_split_of_byte {d : Char} (hd : d.toNat < 128) {n : ℕ}
    (h : (s.flatMap String.utf8EncodeChar)[n]? = some (UInt8.ofNat d.toNat)) :
    ∃ u v, s = u ++ d :: v ∧ (u.flatMap String.utf8EncodeChar).length = n := by
  induction s generalizing n with
  | nil => simp at h
  | cons c t ih =>
    rw [List.flatMap_cons] at h
    rcases Nat.lt_or_ge n (String.utf8EncodeChar c).length with hin | ho
    · rw [List.getElem?_append_left hin] at h
      have hm := List.mem_of_getElem? h
      have hb := toNat_byte hd
      obtain ⟨he, hc⟩ := encode_of_low_mem hm (by omega)
      obtain rfl : c = d := Char.toNat_inj.mp (by omega)
      rw [he, List.length_singleton] at hin
      exact ⟨[], t, rfl, by simp; omega⟩
    · rw [List.getElem?_append_right ho] at h
      obtain ⟨u, v, rfl, hl⟩ := ih h
      refine ⟨c :: u, v, rfl, ?_⟩
      rw [List.flatMap_cons, List.length_append, hl]
      omega

theorem bytes_of_ascii (h : ∀ c ∈ s, c.toNat < 128) :
    s.flatMap String.utf8EncodeChar = s.map fun c => UInt8.ofNat c.toNat := by
  rw [List.flatMap_congr fun c hc => encode_ascii (h c hc), List.map_eq_flatMap]

theorem ascii_of_bytes (h : ∀ b ∈ s.flatMap String.utf8EncodeChar, b.toNat < 128) : ∀ c ∈ s, c.toNat < 128 := by
  intro c hc
  cases he : String.utf8EncodeChar c with
  | nil => exact absurd he String.utf8EncodeChar_ne_nil
  | cons b t =>
    have hm : b ∈ String.utf8EncodeChar c := by simp [he]
    have hl := h b (List.mem_flatMap.mpr ⟨c, hc, hm⟩)
    rw [(encode_of_low_mem hm hl).2]
    exact hl

/-- A text, split after a number of bytes. -/
def splitAtByte : List Char → ℕ → Option (List Char × List Char)
  | s, 0 => some ([], s)
  | [], _ + 1 => none
  | c :: t, n + 1 =>
    if c.utf8Size ≤ n + 1 then (splitAtByte t (n + 1 - c.utf8Size)).map fun (u, v) => (c :: u, v) else none

theorem splitAtByte_append (u v : List Char) :
    splitAtByte (u ++ v) (u.flatMap String.utf8EncodeChar).length = some (u, v) := by
  induction u with
  | nil => simp [splitAtByte]
  | cons c t ih =>
    have hp := Char.utf8Size_pos c
    rw [List.flatMap_cons, List.length_append, String.length_utf8EncodeChar, List.cons_append]
    obtain ⟨n, hn⟩ : ∃ n, c.utf8Size + (t.flatMap String.utf8EncodeChar).length = n + 1 :=
      ⟨_, (Nat.succ_pred_eq_of_pos (by omega)).symm⟩
    have hr : n + 1 - c.utf8Size = (t.flatMap String.utf8EncodeChar).length := by omega
    rw [hn, splitAtByte, if_pos (by omega), hr, ih]
    rfl

end Utf8

end Sipi.Theory
