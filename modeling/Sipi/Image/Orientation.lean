import Sipi.Image.Raster

/-!
# Turning an image upright

`SipiImage::rotate` in `src/SipiImage.cpp` mirrors an image and then turns it.

## Honest scope

The other angles are left out; for these four the loops of `Sipi.Geometry.Rotation` do not run.
-/

namespace Sipi.Image

open Sipi.Theory

/-- The angles that `rotate` treats specially. -/
inductive Angle where
  | zero
  | ninety
  | oneEighty
  | twoSeventy
  deriving DecidableEq

namespace SipiImage

/-- The loop for the mirror. -/
def mirrored (img : SipiImage) : Except ImageError SipiImage :=
  img.gather img.nx img.ny (fun i _ => img.nx - i - 1) fun _ j => j

/-- The loop for an angle. -/
def turned (img : SipiImage) : Angle → Except ImageError SipiImage
  | .zero => .ok img
  | .ninety => img.gather img.ny img.nx (fun _ j => j) fun i _ => img.ny - i - 1
  | .oneEighty => img.gather img.nx img.ny (fun i _ => img.nx - i - 1) fun _ j => img.ny - j - 1
  | .twoSeventy => img.gather img.ny img.nx (fun _ j => img.nx - j - 1) fun i _ => i

/-- `SipiImage::rotate`. -/
def rotate (angle : Angle) (mirror : Bool) (img : SipiImage) : Except ImageError SipiImage :=
  (if mirror then img.mirrored else .ok img) >>= fun img => img.turned angle

/-- Calls of `rotate`, one after the other. -/
def rotateAll (calls : List (Angle × Bool)) (img : SipiImage) : Except ImageError SipiImage :=
  calls.foldlM (fun img call => img.rotate call.1 call.2) img

/-- What `set_topleft` asks for. -/
def topleftCall : Orientation → Option (Angle × Bool)
  | .topLeft => none
  | .topRight => some (.zero, true)
  | .botRight => some (.oneEighty, false)
  | .botLeft => some (.oneEighty, true)
  | .leftTop => some (.twoSeventy, true)
  | .rightTop => some (.ninety, false)
  | .rightBot => some (.ninety, true)
  | .leftBot => some (.twoSeventy, false)
  | .other _ => none

/-- `SipiImage::set_topleft`. -/
def setTopleft (img : SipiImage) : Except ImageError SipiImage :=
  if img.orientation = .topLeft then .ok img
  else do
    let img ← rotateAll (topleftCall img.orientation).toList img
    return { img with orientation := .topLeft, exif := img.exif.map fun _ => some .topLeft }

end SipiImage

/-- The side that the first row stands for. -/
def Orientation.row : Orientation → Option Side
  | .topLeft => some .top
  | .topRight => some .top
  | .botRight => some .bottom
  | .botLeft => some .bottom
  | .leftTop => some .left
  | .rightTop => some .right
  | .rightBot => some .right
  | .leftBot => some .left
  | .other _ => none

/-- The side that the first column stands for. -/
def Orientation.column : Orientation → Option Side
  | .topLeft => some .left
  | .topRight => some .right
  | .botRight => some .right
  | .botLeft => some .left
  | .leftTop => some .top
  | .rightTop => some .top
  | .rightBot => some .bottom
  | .leftBot => some .bottom
  | .other _ => none

/-! ### What they do to the picture -/

/-- A turned picture. -/
def Angle.turn (p : Picture (ℕ → ℕ)) : Angle → Picture (ℕ → ℕ)
  | .zero => p
  | .ninety => p.turn
  | .oneEighty => p.half
  | .twoSeventy => p.unturn

/-- What a call of `rotate` makes of a picture. -/
def callPicture (call : Angle × Bool) (p : Picture (ℕ → ℕ)) : Picture (ℕ → ℕ) :=
  call.1.turn (if call.2 then p.mirror else p)

namespace SipiImage

variable {img : SipiImage} {p : Picture (ℕ → ℕ)}

/-- Only sides and samples change. -/
def OnlyPixels (img out : SipiImage) : Prop := ∃ nnx nny pixels, out = img.withPixels nnx nny pixels

theorem OnlyPixels.refl (img : SipiImage) : OnlyPixels img img := ⟨img.nx, img.ny, img.pixels, rfl⟩

theorem OnlyPixels.trans {a b c : SipiImage} (h : OnlyPixels a b) (h' : OnlyPixels b c) : OnlyPixels a c := by
  obtain ⟨_, _, _, rfl⟩ := h
  obtain ⟨nnx, nny, pixels, rfl⟩ := h'
  exact ⟨nnx, nny, pixels, rfl⟩

theorem OnlyPixels.nc {a b : SipiImage} (h : OnlyPixels a b) : b.nc = a.nc := by
  obtain ⟨_, _, _, rfl⟩ := h
  rfl

theorem OnlyPixels.bps {a b : SipiImage} (h : OnlyPixels a b) : b.bps = a.bps := by
  obtain ⟨_, _, _, rfl⟩ := h
  rfl

theorem mirrored_shows (h : img.Shows p) :
    ∃ out, img.mirrored = .ok out ∧ out.Shows p.mirror ∧ OnlyPixels img out := by
  obtain ⟨out, ho, hs⟩ := gather_shows h p.mirror (fun i _ => img.nx - i - 1) (fun _ j => j) h.nx h.ny
    fun x y => ⟨x.rev, y, rfl, by rw [h.nx, Fin.val_rev, Nat.sub_sub]; rfl, rfl⟩
  exact ⟨_, ho, hs, _, _, _, rfl⟩

theorem turned_shows (angle : Angle) (h : img.Shows p) :
    ∃ out, img.turned angle = .ok out ∧ out.Shows (angle.turn p) ∧ OnlyPixels img out := by
  cases angle with
  | zero => exact ⟨img, rfl, h, OnlyPixels.refl img⟩
  | ninety =>
    obtain ⟨out, ho, hs⟩ := gather_shows h p.turn (fun _ j => j) (fun i _ => img.ny - i - 1) h.ny h.nx
      fun x y => ⟨y, x.rev, rfl, rfl, by rw [h.ny, Fin.val_rev, Nat.sub_sub]; rfl⟩
    exact ⟨_, ho, hs, _, _, _, rfl⟩
  | oneEighty =>
    obtain ⟨out, ho, hs⟩ := gather_shows h p.half (fun i _ => img.nx - i - 1) (fun _ j => img.ny - j - 1) h.nx
      h.ny fun x y => ⟨x.rev, y.rev, rfl, by rw [h.nx, Fin.val_rev, Nat.sub_sub]; rfl,
        by rw [h.ny, Fin.val_rev, Nat.sub_sub]; rfl⟩
    exact ⟨_, ho, hs, _, _, _, rfl⟩
  | twoSeventy =>
    obtain ⟨out, ho, hs⟩ := gather_shows h p.unturn (fun _ j => img.nx - j - 1) (fun i _ => i) h.ny h.nx
      fun x y => ⟨y.rev, x, rfl, by rw [h.nx, Fin.val_rev, Nat.sub_sub]; rfl, rfl⟩
    exact ⟨_, ho, hs, _, _, _, rfl⟩

theorem rotate_shows (call : Angle × Bool) (h : img.Shows p) :
    ∃ out, img.rotate call.1 call.2 = .ok out ∧ out.Shows (callPicture call p) ∧ OnlyPixels img out := by
  obtain ⟨angle, mirror⟩ := call
  cases mirror with
  | false => exact turned_shows angle h
  | true =>
    obtain ⟨mid, hm, hs, hk⟩ := mirrored_shows h
    obtain ⟨out, ho, hs, hk'⟩ := turned_shows angle hs
    refine ⟨out, ?_, hs, hk.trans hk'⟩
    rw [rotate, if_pos rfl, hm, ok_bind, ho]

theorem rotateAll_shows (calls : List (Angle × Bool)) (h : img.Shows p) :
    ∃ out, rotateAll calls img = .ok out ∧ out.Shows (calls.foldl (fun p call => callPicture call p) p) ∧
      OnlyPixels img out := by
  induction calls generalizing img p with
  | nil => exact ⟨img, rfl, h, OnlyPixels.refl img⟩
  | cons call calls ih =>
    obtain ⟨mid, hm, hs, hk⟩ := rotate_shows call h
    obtain ⟨out, ho, hs, hk'⟩ := ih hs
    refine ⟨out, ?_, hs, hk.trans hk'⟩
    rw [rotateAll, List.foldlM_cons, hm]
    exact ho

end SipiImage

section
variable {p : Picture (ℕ → ℕ)}

/-- What the call makes of a picture. -/
def Orientation.uprightPicture (o : Orientation) (p : Picture (ℕ → ℕ)) : Picture (ℕ → ℕ) :=
  (SipiImage.topleftCall o).elim p fun call => callPicture call p

theorem Orientation.uprightOf {o : Orientation} {row column : Side} (hr : o.row = some row)
    (hc : o.column = some column) (p : Picture (ℕ → ℕ)) : Picture.UprightOf row column p (o.uprightPicture p) := by
  cases o with
  | topLeft =>
    obtain ⟨rfl, rfl⟩ := And.intro (Option.some.inj hr) (Option.some.inj hc)
    exact Picture.uprightOf_of_place (Picture.fits_of_level (by decide) rfl rfl) fun x y => ⟨x, y, rfl, rfl, rfl⟩
  | topRight =>
    obtain ⟨rfl, rfl⟩ := And.intro (Option.some.inj hr) (Option.some.inj hc)
    exact Picture.uprightOf_of_place (Picture.fits_of_level (by decide) rfl rfl) fun x y => ⟨x.rev, y, rfl, rfl, rfl⟩
  | botRight =>
    obtain ⟨rfl, rfl⟩ := And.intro (Option.some.inj hr) (Option.some.inj hc)
    exact Picture.uprightOf_of_place (Picture.fits_of_level (by decide) rfl rfl)
      fun x y => ⟨x.rev, y.rev, rfl, rfl, rfl⟩
  | botLeft =>
    obtain ⟨rfl, rfl⟩ := And.intro (Option.some.inj hr) (Option.some.inj hc)
    refine Picture.uprightOf_of_place (Picture.fits_of_level (by decide) rfl rfl) fun x y => ⟨x, y.rev, ?_, rfl, rfl⟩
    exact congrArg (p.pixel · y.rev) (Fin.rev_rev x)
  | leftTop =>
    obtain ⟨rfl, rfl⟩ := And.intro (Option.some.inj hr) (Option.some.inj hc)
    refine Picture.uprightOf_of_place (Picture.fits_of_not_level (by decide) rfl rfl) fun x y => ⟨y, x, ?_, rfl, rfl⟩
    exact congrArg (p.pixel · x) (Fin.rev_rev y)
  | rightTop =>
    obtain ⟨rfl, rfl⟩ := And.intro (Option.some.inj hr) (Option.some.inj hc)
    exact Picture.uprightOf_of_place (Picture.fits_of_not_level (by decide) rfl rfl)
      fun x y => ⟨y, x.rev, rfl, rfl, rfl⟩
  | rightBot =>
    obtain ⟨rfl, rfl⟩ := And.intro (Option.some.inj hr) (Option.some.inj hc)
    exact Picture.uprightOf_of_place (Picture.fits_of_not_level (by decide) rfl rfl)
      fun x y => ⟨y.rev, x.rev, rfl, rfl, rfl⟩
  | leftBot =>
    obtain ⟨rfl, rfl⟩ := And.intro (Option.some.inj hr) (Option.some.inj hc)
    exact Picture.uprightOf_of_place (Picture.fits_of_not_level (by decide) rfl rfl)
      fun x y => ⟨y.rev, x, rfl, rfl, rfl⟩
  | other value => cases hr

end

theorem SipiImage.setTopleft_shows {img : SipiImage} {p : Picture (ℕ → ℕ)} (h : img.Shows p) :
    ∃ out, img.setTopleft = .ok out ∧ out.Shows (img.orientation.uprightPicture p) ∧ out.orientation = .topLeft ∧
      out.nc = img.nc ∧ out.bps = img.bps := by
  by_cases hf : img.orientation = .topLeft
  · refine ⟨img, if_pos hf, ?_, hf, rfl, rfl⟩
    rwa [hf]
  · obtain ⟨out, ho, hs, hk⟩ := rotateAll_shows (topleftCall img.orientation).toList h
    refine ⟨{ out with orientation := .topLeft, exif := out.exif.map fun _ => some .topLeft }, ?_, ?_, rfl, hk.nc,
      hk.bps⟩
    · rw [setTopleft, if_neg hf, ho]
      rfl
    · have hp : (topleftCall img.orientation).toList.foldl (fun p call => callPicture call p) p =
          img.orientation.uprightPicture p := by
        rw [Orientation.uprightPicture]
        cases topleftCall img.orientation <;> rfl
      rw [← hp]
      exact ⟨hs.nx, hs.ny, hs.pixels⟩

/-- Two sequences of calls leave the image alike. -/
def SameCalls (img : SipiImage) (calls calls' : List (Angle × Bool)) : Prop :=
  ∃ out out', SipiImage.rotateAll calls img = .ok out ∧ SipiImage.rotateAll calls' img = .ok out' ∧ out.Alike out'

theorem sameCalls_of_picture {img : SipiImage} (h : img.Full) {calls calls' : List (Angle × Bool)}
    (hp : ∀ p, calls.foldl (fun p call => callPicture call p) p =
      calls'.foldl (fun p call => callPicture call p) p) : SameCalls img calls calls' := by
  obtain ⟨out, ho, hs, hk⟩ := SipiImage.rotateAll_shows calls h.shows
  obtain ⟨out', ho', hs', hk'⟩ := SipiImage.rotateAll_shows calls' h.shows
  rw [← hp] at hs'
  exact ⟨out, out', ho, ho', hs.alike hs' (hk.nc.trans hk'.nc.symm)
    (hk.bps.trans hk'.bps.symm)⟩

/-- A call that only mirrors. -/
def mirrorCall : Angle × Bool := (.zero, true)

/-- A call that only turns. -/
def turnCall (angle : Angle) : Angle × Bool := (angle, false)

/-- The laws of the symmetries of a rectangle. -/
structure ActsAsSymmetries (img : SipiImage) : Prop where
  quarters : SameCalls img (List.replicate 4 (turnCall .ninety)) []
  quarters_back : SameCalls img (List.replicate 4 (turnCall .twoSeventy)) []
  halves : SameCalls img [turnCall .oneEighty, turnCall .oneEighty] []
  mirrors : SameCalls img [mirrorCall, mirrorCall] []
  opposite : SameCalls img [turnCall .twoSeventy, turnCall .ninety] []
  half : SameCalls img [turnCall .ninety, turnCall .ninety] [turnCall .oneEighty]
  mirror_quarter : SameCalls img [mirrorCall, turnCall .ninety] [turnCall .twoSeventy, mirrorCall]
  mirror_back : SameCalls img [mirrorCall, turnCall .twoSeventy] [turnCall .ninety, mirrorCall]
  both : ∀ angle, SameCalls img [(angle, true)] [mirrorCall, turnCall angle]

/-- `set_topleft` turns it upright, once. -/
def SetsUpright (img : SipiImage) : Prop :=
  ∀ row column, img.orientation.row = some row → img.orientation.column = some column →
    ∃ out upright, img.setTopleft = .ok out ∧ Picture.UprightOf row column img.picture upright ∧ out.Shows upright ∧
      out.nc = img.nc ∧ out.bps = img.bps ∧ out.orientation = .topLeft ∧ out.setTopleft = .ok out

/-- **The turns and mirrors are the symmetries of a rectangle, and `set_topleft` turns every image upright.** -/
theorem orientation_group (img : SipiImage) (h : img.Full) : ActsAsSymmetries img ∧ SetsUpright img := by
  refine ⟨⟨sameCalls_of_picture h ?_, sameCalls_of_picture h ?_, sameCalls_of_picture h ?_, sameCalls_of_picture h ?_,
    sameCalls_of_picture h ?_, sameCalls_of_picture h fun p => p.turn_turn, sameCalls_of_picture h fun p => p.turn_mirror,
    sameCalls_of_picture h fun p => p.unturn_mirror, fun angle => sameCalls_of_picture h fun p => rfl⟩, ?_⟩
  · intro p
    exact p.half_half
  · intro p
    exact p.half_half
  · intro p
    exact p.half_half
  · intro p
    exact p.mirror_mirror
  · intro p
    exact p.unturn_turn
  · intro row column hr hc
    obtain ⟨out, ho, hs, hf, hnc, hb⟩ := SipiImage.setTopleft_shows h.shows
    exact ⟨out, _, ho, Orientation.uprightOf hr hc _, hs, hnc, hb, hf, if_pos hf⟩

/-- The picture in the comments of the source. -/
def letters : SipiImage where
  nx := 6
  ny := 3
  nc := 1
  bps := .eight
  photo := .minisblack
  es := []
  orientation := .rightTop
  exif := some none
  pixels := ⟨18, id⟩

theorem orientation_group_letters :
    (letters.setTopleft.map fun out => (out.nx, out.ny, (List.range 18).map out.pixels.get, out.exif)) =
        .ok (3, 6, [12, 6, 0, 13, 7, 1, 14, 8, 2, 15, 9, 3, 16, 10, 4, 17, 11, 5], some (some .topLeft)) ∧
      ActsAsSymmetries letters ∧ SetsUpright letters :=
  ⟨by decide +kernel, orientation_group letters rfl⟩

end Sipi.Image
