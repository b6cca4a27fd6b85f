import Sipi.Geometry.Reduce
import Sipi.Serve.InfoJson
import Sipi.Serve.Restricted

/-!
# What an advertised size costs

The sizes of `info.json` are those a client should ask for, as they are there already: each is the image halved
a number of times, and a JPEG 2000 file holds the image at each halving.
-/

namespace Sipi.Serve

open Sipi.Iiif Sipi.Geometry Sipi.Theory

/-- The request asks for just this size, as `w,h`. -/
def ImageSize.AskedBy (size : ImageSize) (s : SizeParts) : Prop :=
  s.kind = .pixelsXy ∧ s.nx = size.width ∧ s.ny = size.height

instance (size : ImageSize) (s : SizeParts) : Decidable (size.AskedBy s) := inferInstanceAs (Decidable (_ ∧ _ ∧ _))

section
variable {side k : ℕ}

theorem level_ceilDiv (h : 1 < side ⌈/⌉ 2 ^ k) : level side (side ⌈/⌉ 2 ^ k) = k := by
  have hp : 0 < side ⌈/⌉ 2 ^ k := by omega
  have hle : level side (side ⌈/⌉ 2 ^ k) ≤ k := (level_le_iff hp k).2 le_rfl
  by_contra hne
  have hk : k ≤ level side 1 := by
    by_contra hl
    have := (level_le_iff Nat.one_pos k).1 (by omega : level side 1 ≤ k)
    omega
  have hlt := ceilDiv_two_pow_lt Nat.one_pos (lt_of_le_of_ne hle hne) hk
  have hge := (level_le_iff (a := side) hp _).1 le_rfl
  omega

theorem hits_ceilDiv (h : 1 < side ⌈/⌉ 2 ^ k) : Hits side (side ⌈/⌉ 2 ^ k) := by
  rw [Hits, level_ceilDiv h]

theorem reach_ceilDiv (h : 1 < side ⌈/⌉ 2 ^ k) : reach side (side ⌈/⌉ 2 ^ k) = k := by
  rw [reach_of_hits (hits_ceilDiv h), level_ceilDiv h]

end

theorem getSize_ladder (cap : Option ℕ) {s : SizeParts} {d : Dims} {k : ℕ} (hk : s.kind = .pixelsXy)
    (hx : s.nx = d.w ⌈/⌉ 2 ^ k) (hy : s.ny = d.h ⌈/⌉ 2 ^ k) (hw : 1 < s.nx) (hh : 1 < s.ny)
    (hsf : k ≤ 30 ∨ ∃ m ∈ cap, m ≤ 30) :
    getSize cap s d = .ok ⟨s.nx, s.ny, if Below cap k then k else 0, decide (Below cap k ∨ k = 0)⟩ := by
  have hxp : 0 < s.nx := by omega
  have hyp : 0 < s.ny := by omega
  have hle : ∀ side, side ⌈/⌉ 2 ^ k ≤ side := fun side => by
    rw [ceilDiv_two_pow_le_iff]
    exact Nat.le_mul_of_pos_left _ (Nat.two_pow_pos k)
  have hwd : s.nx ≤ d.w := hx.le.trans (hle d.w)
  have hhd : s.ny ≤ d.h := hy.le.trans (hle d.h)
  have hrw : reach d.w s.nx = k := by rw [hx] at hw ⊢; exact reach_ceilDiv hw
  have hrh : reach d.h s.ny = k := by rw [hy] at hh ⊢; exact reach_ceilDiv hh
  have hbd : ∀ {side n}, n = side ⌈/⌉ 2 ^ k → k ≤ 30 → side ≤ 2 ^ 30 * n := by
    rintro side _ rfl hk30
    have h := ceilDiv_two_pow_antitone side hk30
    rwa [ceilDiv_two_pow_le_iff] at h
  have hdf : SizeParts.Defined cap s d := by
    unfold SizeParts.Defined Bounded
    rw [hk, hrw]
    rcases hsf with hk30 | ⟨m, hm, hm30⟩
    · exact ⟨.inl (hbd hx hk30), .inl (hbd hy hk30)⟩
    · refine ⟨.inr ⟨m, hm, hm30⟩, ?_⟩
      by_cases hk30 : k ≤ 30
      · exact .inl (hbd hy hk30)
      · exact .inr fun hb => absurd (hb m hm) (by omega)
  have hac : SizeParts.Accepted s d := by
    unfold SizeParts.Accepted
    rw [hk]
    exact .inr ⟨hwd, hhd⟩
  obtain ⟨r, hr⟩ := (getSizeXy_ok_iff cap hxp hyp hk).mpr ⟨hac, hdf⟩
  have hsd := sides_of_getSizeXy hr
  have hrd := getSizeXy_reduce hxp hyp hr
  have hro := getSizeXy_redonly hxp hyp hwd hhd hr
  rw [hrw, hrh] at hrd hro
  have hb : r.redonly = decide (Below cap k ∨ k = 0) := by
    rw [Bool.eq_iff_iff, hro, decide_eq_true_eq]
    refine ⟨fun h => h.2.2.2, fun h => ⟨?_, ?_, rfl, h⟩⟩
    · rw [hx] at hw ⊢
      exact hits_ceilDiv hw
    · rw [hy] at hh ⊢
      exact hits_ceilDiv hh
  rw [getSize_of_pixelsXy cap hk, hr]
  obtain ⟨w, h, reduce, redonly⟩ := r
  obtain ⟨rfl, rfl⟩ := Prod.mk.inj hsd
  obtain rfl : reduce = _ := hrd
  obtain rfl : redonly = _ := hb
  rw [pairLevel, min_self]

theorem mem_sizes {id : Str} {dims : SipiImageDims} {info : ImageInfo} {size : ImageSize}
    (hi : imageInfoJson id dims = .ok info) (hs : size ∈ info.sizes) :
    ∃ k, size = ⟨dims.width.toNat ⌈/⌉ 2 ^ k, dims.height.toNat ⌈/⌉ 2 ^ k⟩ := by
  obtain ⟨⟨hw, hwl⟩, hh, hhl⟩ := tileGrid_bounds dims
  obtain ⟨n, -, hf⟩ := pyramidScaleFactors_eq dims.width.toNat_lt dims.height.toNat_lt hw hwl hh hhl
  rw [imageInfoJson, hf] at hi
  simp only [bind, Except.bind, sizesFor_eq] at hi
  cases hi
  obtain ⟨k, -, rfl⟩ := List.mem_map.1 (List.mem_reverse.1 hs)
  exact ⟨k, rfl⟩

/-- **What an advertised size costs.** Asked for it, of the whole image, a JPEG 2000 reader decodes just its level
and scales nothing, if the codestream has more levels; else it decodes the image in full and scales it. Beyond
`2 ^ 31` the factor of `get_size` may overflow. -/
theorem decode_advertised {id : Str} {dims : SipiImageDims} {full : Dims} {info : ImageInfo} {size : ImageSize}
    (hd : full.sides = (dims.width.toNat, dims.height.toNat)) (hi : imageInfoJson id dims = .ok info)
    (hs : size ∈ info.sizes) (hw : 1 < size.width) (hh : 1 < size.height) {s : SizeParts} (ha : size.AskedBy s)
    {region : Region} (hr : region.kind = .full) {levels : ℕ}
    (hsf : full.w ≤ 2 ^ 31 ∨ full.h ≤ 2 ^ 31 ∨ levels ≤ 30) :
    ∃ k, (full.reduced k).sides = (size.width, size.height) ∧ decodeJ2k full levels region s =
      .ok (if k < levels ∨ k = 0 then ⟨full.reduced k, none⟩ else ⟨full, some (size.width, size.height)⟩) := by
  obtain ⟨k, rfl⟩ := mem_sizes hi hs
  obtain ⟨hdw, hdh⟩ := Prod.mk.inj hd
  obtain ⟨hk, hx, hy⟩ := ha
  simp only [← hdw, ← hdh] at hw hh hx hy ⊢
  refine ⟨k, rfl, ?_⟩
  have hk30 : k ≤ 30 ∨ ∃ m ∈ some levels, m ≤ 30 := by
    by_contra hn
    obtain ⟨hkn, hl⟩ := not_or.mp hn
    have hone : ∀ side, side ≤ 2 ^ 31 → side ⌈/⌉ 2 ^ k ≤ 1 := fun side hs => by
      rw [ceilDiv_two_pow_le_iff, mul_one]
      exact hs.trans (Nat.pow_le_pow_right (by norm_num) (by omega))
    rcases hsf with h | h | h
    · exact absurd (hone _ h) (by omega)
    · exact absurd (hone _ h) (by omega)
    · exact hl ⟨levels, rfl, h⟩
  have hg := getSize_ladder (some levels) hk hx hy (hx ▸ hw) (hy ▸ hh) hk30
  have hbl : Below (some levels) k ↔ k < levels := by simp [Below]
  simp only [hbl] at hg
  have hf : s.kind ≠ .full := by
    rw [hk]
    decide
  simp only [decodeJ2k, cropWhole, hr, hf, if_true, if_false, resolve_eq_ok.mpr hg, Resolved.sides, bind, Except.bind,
    pure, Except.pure, decide_eq_true_eq]
  by_cases hl : k < levels
  · simp only [hl, if_true, true_or]
  by_cases hz : k = 0
  · simp only [hz, or_true, if_true, ite_self]
  · simp only [hl, hz, if_false, or_self, full.reduced_zero, hx, hy]

theorem decode_advertised_half : ∃ k, ((Dims.mk 100 60).reduced k).sides = (50, 30) ∧
    decodeJ2k (.mk 100 60) 5 wholeImage ⟨.pixelsXy, false, 0, 0, 50, 30⟩ =
      .ok (if k < 5 ∨ k = 0 then ⟨(Dims.mk 100 60).reduced k, none⟩ else ⟨.mk 100 60, some (50, 30)⟩) := by
  have hi : ∃ info, imageInfoJson [] ⟨100, 60, 0, 32, 32⟩ = .ok info ∧ ⟨50, 30⟩ ∈ info.sizes :=
    ⟨_, rfl, by decide⟩
  obtain ⟨info, hi, hs⟩ := hi
  exact decode_advertised rfl hi hs (by decide) (by decide) (by decide) rfl
    (.inl (by decide))

end Sipi.Serve
