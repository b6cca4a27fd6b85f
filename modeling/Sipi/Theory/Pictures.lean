import Sipi.Theory.Buffers
import Mathlib.Order.Fin.Basic

/-!
# Pictures

A picture is a rectangle of pixels. It can be mirrored and turned.
-/

namespace Sipi.Theory

/-! ### Mirrors and turns -/

/-- A rectangle of pixels. -/
structure Picture (α : Type) where
  w : ℕ
  h : ℕ
  pixel : Fin w → Fin h → α

namespace Picture

variable {α : Type} (p : Picture α)

/-- Left and right exchanged. -/
def mirror : Picture α := ⟨p.w, p.h, fun x y => p.pixel x.rev y⟩

/-- A quarter turn clockwise. -/
def turn : Picture α := ⟨p.h, p.w, fun x y => p.pixel y x.rev⟩

/-- A half turn. -/
def half : Picture α := ⟨p.w, p.h, fun x y => p.pixel x.rev y.rev⟩

/-- A quarter turn counterclockwise. -/
def unturn : Picture α := ⟨p.h, p.w, fun x y => p.pixel y.rev x⟩

@[simp] theorem mirror_mirror : p.mirror.mirror = p := by simp [mirror]

@[simp] theorem half_half : p.half.half = p := by simp [half]

@[simp] theorem unturn_turn : p.unturn.turn = p := by simp [unturn, turn]

theorem turn_turn : p.turn.turn = p.half := rfl

theorem turn_mirror : p.mirror.turn = p.unturn.mirror := rfl

theorem unturn_mirror : p.mirror.unturn = p.turn.mirror := by simp [mirror, turn, unturn]

end Picture

/-- A side of a picture. -/
inductive Side where
  | top
  | bottom
  | left
  | right
  deriving DecidableEq

/-- How far a place is from a side. -/
def Side.distance {w h : ℕ} (x : Fin w) (y : Fin h) : Side → ℕ
  | .top => y
  | .bottom => y.rev
  | .left => x
  | .right => x.rev

/-- The side is one of those that bound the rows. -/
def Side.Level (s : Side) : Prop := s = .top ∨ s = .bottom

instance (s : Side) : Decidable s.Level := inferInstanceAs (Decidable (_ ∨ _))

namespace Picture

variable {α : Type}

/-- The sides, for a first row along a side. -/
def Fits (row : Side) (stored upright : Picture α) : Prop :=
  (row.Level → upright.w = stored.w ∧ upright.h = stored.h) ∧
    (¬ row.Level → upright.w = stored.h ∧ upright.h = stored.w)

/-- **The upright picture** of a stored one. -/
structure UprightOf (row column : Side) (stored upright : Picture α) : Prop where
  fits : Fits row stored upright
  pixels : ∀ x y, ∃ (hcolumn : column.distance x y < stored.w) (hrow : row.distance x y < stored.h),
    upright.pixel x y = stored.pixel ⟨_, hcolumn⟩ ⟨_, hrow⟩

variable {row : Side}

theorem uprightOf_of_place {column : Side} {stored upright : Picture α} (hf : Fits row stored upright)
    (hpl : ∀ x y, ∃ x' y', upright.pixel x y = stored.pixel x' y' ∧ column.distance x y = x' ∧
      row.distance x y = y') : UprightOf row column stored upright := by
  refine ⟨hf, fun x y => ?_⟩
  obtain ⟨x', y', hp, hc, hr⟩ := hpl x y
  refine ⟨hc ▸ x'.isLt, hr ▸ y'.isLt, hp.trans ?_⟩
  congr
  · exact Fin.ext hc.symm
  · exact Fin.ext hr.symm

theorem fits_of_level (h : row.Level) {stored upright : Picture α} (hw : upright.w = stored.w)
    (hh : upright.h = stored.h) : Fits row stored upright :=
  ⟨fun _ => ⟨hw, hh⟩, fun hn => absurd h hn⟩

theorem fits_of_not_level (h : ¬ row.Level) {stored upright : Picture α} (hw : upright.w = stored.h)
    (hh : upright.h = stored.w) : Fits row stored upright :=
  ⟨fun hl => absurd hl h, fun _ => ⟨hw, hh⟩⟩

end Picture

namespace Buffer

variable {α : Type}

/-- The same block of memory, as far as it goes. -/
def Same (a b : Buffer α) : Prop := a.size = b.size ∧ ∀ p < a.size, a.get p = b.get p

end Buffer

variable {w h nc : ℕ}

theorem exists_index {p : ℕ} (hp : p < w * h * nc) : ∃ x < w, ∃ y < h, ∃ c < nc, p = index w nc x y c := by
  have hnc : 0 < nc := Nat.pos_of_ne_zero fun h0 => by simp [h0] at hp
  have hpx : p / nc < h * w := Nat.div_lt_of_lt_mul (by rw [Nat.mul_comm nc, Nat.mul_comm h]; exact hp)
  have hw : 0 < w := Nat.pos_of_ne_zero fun h0 => by simp [h0] at hp
  refine ⟨p / nc % w, Nat.mod_lt _ hw, p / nc / w, Nat.div_lt_of_lt_mul (by rwa [Nat.mul_comm w]), p % nc,
    Nat.mod_lt _ hnc, ?_⟩
  rw [index, Nat.div_add_mod', Nat.div_add_mod]

section
variable {α : Type}

/-- The buffer holds the samples of the picture. -/
structure Depicts (nc : ℕ) (p : Picture (ℕ → α)) (b : Buffer α) : Prop where
  size : b.size = p.w * p.h * nc
  sample : ∀ (x : Fin p.w) (y : Fin p.h), ∀ c < nc, b.get (index p.w nc x y c) = p.pixel x y c

theorem Depicts.same {p : Picture (ℕ → α)} {b b' : Buffer α} (h : Depicts nc p b) (h' : Depicts nc p b') :
    b.Same b' := by
  refine ⟨h.size.trans h'.size.symm, fun q hq => ?_⟩
  rw [h.size] at hq
  obtain ⟨x, hx, y, hy, c, hc, rfl⟩ := exists_index hq
  rw [h.sample ⟨x, hx⟩ ⟨y, hy⟩ c hc, h'.sample ⟨x, hx⟩ ⟨y, hy⟩ c hc]

/-- The picture that a buffer depicts. -/
def Buffer.picture (w h nc : ℕ) (b : Buffer α) : Picture (ℕ → α) := ⟨w, h, fun x y c => b.get (index w nc x y c)⟩

theorem Buffer.depicts_picture {b : Buffer α} (hb : b.size = w * h * nc) : Depicts nc (b.picture w h nc) b :=
  ⟨hb, fun _ _ _ _ => rfl⟩

end

section
variable {ε α : Type} {E : ε → Prop}

/-- The loop that fills a new buffer. -/
def fill (e : ε) (zero : α) (w h nc : ℕ) (value : ℕ → ℕ → ℕ → Except ε α) : Except ε (Buffer α) :=
  forSamples w h nc (fun x y c out => value x y c >>= out.put e (index w nc x y c)) (.const (w * h * nc) zero)

/-- The samples before `q` are filled in. -/
structure Filled (w h nc : ℕ) (Q : ℕ → ℕ → ℕ → α → Prop) (q : ℕ) (out : Buffer α) : Prop where
  size : out.size = w * h * nc
  done : ∀ x < w, ∀ y, ∀ c < nc, index w nc x y c < q → Q x y c (out.get (index w nc x y c))

theorem filled_zero (w h nc : ℕ) (Q : ℕ → ℕ → ℕ → α → Prop) (zero : α) :
    Filled w h nc Q 0 (.const (w * h * nc) zero) :=
  ⟨rfl, fun _ _ _ _ _ hlt => absurd hlt (Nat.not_lt_zero _)⟩

variable {Q : ℕ → ℕ → ℕ → α → Prop}

theorem Filled.put {x y c : ℕ} {out : Buffer α}
    (ho : Filled w h nc Q (index w nc x y c) out) (hx : x < w) (hy : y < h) (hc : c < nc) (e : ε) {a : α}
    (ha : Q x y c a) : Ends (out.put e (index w nc x y c) a) (Filled w h nc Q (index w nc x y c + 1)) E := by
  have hlt : index w nc x y c < out.size := by
    rw [ho.size]
    exact index_lt hx hy hc
  rw [Buffer.put_of_lt e hlt]
  refine ⟨ho.size, fun x' hx' y' c' hc' hd => ?_⟩
  by_cases heq : index w nc x' y' c' = index w nc x y c
  · obtain ⟨rfl, rfl, rfl⟩ := index_inj hx' hc' hx hc heq
    rwa [Buffer.get_set_self]
  · rw [Buffer.get_set_of_ne _ heq]
    exact ho.done x' hx' y' c' hc' (by omega)

variable {value : ℕ → ℕ → ℕ → Except ε α}

theorem fill_ends {e : ε} {zero : α} (hv : ∀ x < w, ∀ y < h, ∀ c < nc, Ends (value x y c) (Q x y c) E) :
    Ends (fill e zero w h nc value) (Filled w h nc Q (w * h * nc)) E := by
  refine forSamples_ends (Filled w h nc Q) (filled_zero w h nc Q zero) fun x hx y hy c hc out ho => ?_
  exact (hv x hx y hy c hc).bind fun a ha => ho.put hx hy hc e ha

theorem Filled.get {x y c : ℕ} {out : Buffer α}
    (ho : Filled w h nc Q (w * h * nc) out) (hx : x < w) (hy : y < h) (hc : c < nc) :
    Q x y c (out.get (index w nc x y c)) :=
  ho.done x hx y c hc (index_lt hx hy hc)

theorem size_of_fill {e : ε} {zero : α} {out : Buffer α}
    (ho : fill e zero w h nc value = .ok out) : out.size = w * h * nc := by
  have he : Ends (fill e zero w h nc value) (Filled w h nc (fun _ _ _ _ => True) (w * h * nc)) fun _ => True :=
    fill_ends fun x _ y _ c _ => ends_trivial _
  exact (he.of_ok ho).size

theorem value_of_fill {e : ε} {zero : α} {out : Buffer α}
    (ho : fill e zero w h nc value = .ok out) {x y c : ℕ} (hx : x < w) (hy : y < h) (hc : c < nc) :
    value x y c = .ok (out.get (index w nc x y c)) := by
  have he : Ends (fill e zero w h nc value)
      (Filled w h nc (fun x y c a => value x y c = .ok a) (w * h * nc)) fun _ => True := by
    refine fill_ends fun x _ y _ c _ => ?_
    cases hv : value x y c with
    | error e => exact trivial
    | ok a => exact rfl
  exact (he.of_ok ho).get hx hy hc

end

end Sipi.Theory
