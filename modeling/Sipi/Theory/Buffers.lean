import Mathlib.Tactic.Ring

/-!
# Blocks of memory and counted loops

A `Buffer` is a block of memory. A write beyond its end is an error, a read gives whatever is there.
-/

namespace Sipi.Theory

/-! ### Postconditions -/

variable {n i : ℕ}

section
variable {ε α β σ : Type} {Q Q' : α → Prop} {E E' : ε → Prop}

/-- How a computation ends. -/
def Ends (x : Except ε α) (Q : α → Prop) (E : ε → Prop) : Prop :=
  match x with
  | .ok a => Q a
  | .error e => E e

@[simp] theorem ok_bind (a : α) (f : α → Except ε β) : (Except.ok a >>= f) = f a := rfl

@[simp] theorem error_bind (e : ε) (f : α → Except ε β) : (Except.error e >>= f) = .error e := rfl

@[simp] theorem ends_ok {a : α} : Ends (.ok a : Except ε α) Q E ↔ Q a := Iff.rfl

@[simp] theorem ends_pure {a : α} : Ends (pure a : Except ε α) Q E ↔ Q a := Iff.rfl

@[simp] theorem ends_error {e : ε} : Ends (.error e : Except ε α) Q E ↔ E e := Iff.rfl

variable {x : Except ε α}

theorem Ends.mono (h : Ends x Q E) (hQ : ∀ a, Q a → Q' a) (hE : ∀ e, E e → E' e) : Ends x Q' E' := by
  cases x with
  | ok a => exact hQ a h
  | error e => exact hE e h

theorem Ends.imp (h : Ends x Q E) (hQ : ∀ a, Q a → Q' a) : Ends x Q' E := h.mono hQ fun _ => id

theorem Ends.bind {f : α → Except ε β} {R : β → Prop} (h : Ends x Q E)
    (hf : ∀ a, Q a → Ends (f a) R E) : Ends (x >>= f) R E := by
  cases x with
  | ok a => exact hf a h
  | error e => exact h

theorem Ends.and (h : Ends x Q E) (h' : Ends x Q' E') : Ends x (fun a => Q a ∧ Q' a) fun e => E e ∧ E' e := by
  cases x with
  | ok | error => exact ⟨h, h'⟩

theorem Ends.map {f : α → β} {R : β → Prop} (h : Ends x Q E) (hf : ∀ a, Q a → R (f a)) : Ends (x.map f) R E := by
  cases x with
  | ok a => exact hf a h
  | error e => exact h

theorem ends_trivial (x : Except ε α) : Ends x (fun _ => True) fun _ => True := by cases x <;> trivial

theorem Ends.exists_ok (h : Ends x Q fun _ => False) : ∃ a, x = .ok a ∧ Q a := by
  cases x with
  | ok a => exact ⟨a, rfl, h⟩
  | error e => exact h.elim

theorem Ends.of_ok (h : Ends x Q E) {a : α} (ha : x = .ok a) : Q a := by
  subst ha
  exact h

/-! ### Counted loops -/

/-- `for (i = lo; i < lo + n; ++i) body`. -/
def forRange (body : ℕ → σ → Except ε σ) : ℕ → ℕ → σ → Except ε σ
  | 0, _, s => .ok s
  | n + 1, lo, s => body lo s >>= forRange body n (lo + 1)

variable {lo : ℕ} {body : ℕ → σ → Except ε σ}

theorem forRange_ends (Inv : ℕ → σ → Prop) {s : σ} (h0 : Inv lo s)
    (hs : ∀ i t, lo ≤ i → i < lo + n → Inv i t → Ends (body i t) (Inv (i + 1)) E) :
    Ends (forRange body n lo s) (Inv (lo + n)) E := by
  induction n generalizing lo s with
  | zero => exact h0
  | succ n ih =>
    rw [forRange]
    refine (hs lo s le_rfl (by omega) h0).bind fun t ht => ?_
    have h := ih ht fun i u hlo hi => hs i u (by omega) (by omega)
    rwa [show lo + 1 + n = lo + (n + 1) by omega] at h

theorem forCount_ends (Inv : ℕ → σ → Prop) {s : σ} (h0 : Inv 0 s)
    (hs : ∀ i t, i < n → Inv i t → Ends (body i t) (Inv (i + 1)) E) : Ends (forRange body n 0 s) (Inv n) E := by
  have h := forRange_ends Inv h0 (n := n) fun i t _ hi => hs i t (by omega)
  rwa [Nat.zero_add] at h

theorem forCount_reaches (F : σ → Prop) (H : ℕ → Prop) {s : σ} {Z : Prop}
    (h0 : Z → F s) (hs : ∀ i < n, ∀ t (Z : Prop), (Z → F t) → Ends (body i t) (fun t' => Z ∨ H i → F t') E) :
    Ends (forRange body n 0 s) (fun t => (Z ∨ ∃ i < n, H i) → F t) E := by
  refine forCount_ends (fun k t => (Z ∨ ∃ i < k, H i) → F t) (by simpa using h0) fun i t hi ht => ?_
  refine (hs i hi t _ ht).imp fun t' ht' hr => ht' ?_
  rcases hr with hZ | ⟨j, hj, hH⟩
  · exact .inl (.inl hZ)
  · rcases Nat.lt_succ_iff_lt_or_eq.1 hj with hlt | rfl
    · exact .inl (.inr ⟨j, hlt, hH⟩)
    · exact .inr hH

theorem forRange_add (body : ℕ → σ → Except ε σ) (m n lo : ℕ) (s : σ) :
    forRange body (m + n) lo s = forRange body m lo s >>= forRange body n (lo + m) := by
  induction m generalizing lo s with
  | zero => rw [Nat.zero_add, Nat.add_zero, forRange, ok_bind]
  | succ m ih =>
    rw [Nat.succ_add, forRange, forRange]
    cases body lo s with
    | error e => rfl
    | ok t => rw [ok_bind, ok_bind, ih, Nat.add_right_comm, Nat.add_assoc]

theorem forRange_congr {body body' : ℕ → σ → Except ε σ} {lo' : ℕ} {s : σ}
    (h : ∀ i < n, body (lo + i) = body' (lo' + i)) : forRange body n lo s = forRange body' n lo' s := by
  induction n generalizing lo lo' s with
  | zero => rfl
  | succ n ih =>
    have hf := h 0 n.succ_pos
    rw [Nat.add_zero, Nat.add_zero] at hf
    rw [forRange, forRange, hf]
    congr 1
    funext t
    refine ih fun i hi => ?_
    rw [Nat.add_right_comm, Nat.add_assoc, h (i + 1) (by omega), Nat.add_right_comm lo', Nat.add_assoc]

theorem forRange_of_ok {body body' : ℕ → σ → Except ε σ} (h : ∀ i s t, body i s = .ok t → body' i s = .ok t)
    {s t : σ} (hr : forRange body n lo s = .ok t) : forRange body' n lo s = .ok t := by
  induction n generalizing lo s with
  | zero => exact hr
  | succ n ih =>
    rw [forRange] at hr ⊢
    cases hf : body lo s with
    | error e => simp [hf] at hr
    | ok u =>
      rw [hf, ok_bind] at hr
      rw [h lo s u hf, ok_bind]
      exact ih hr

theorem forRange_error {s : σ} {e : ε} (hn : 0 < n) (h : body lo s = .error e) :
    forRange body n lo s = .error e := by
  obtain ⟨n, rfl⟩ := Nat.exists_eq_add_one.2 hn
  rw [forRange, h, error_bind]

theorem forRange_fails (hlo : lo ≤ i) (hi : i < lo + n)
    (h : ∀ t, Ends (body i t) (fun _ => False) fun _ => True) (s : σ) :
    Ends (forRange body n lo s) (fun _ => False) fun _ => True := by
  refine (forRange_ends (fun j _ => j ≤ i) hlo fun j t _ _ hj => ?_).imp fun _ he => by omega
  rcases Nat.lt_or_eq_of_le hj with hlt | rfl
  · exact (ends_trivial _).imp fun _ _ => hlt
  · exact (h t).imp fun _ => False.elim

/-- A loop whose counter wraps around at `limit`. -/
def forCounter (limit : ℕ) (e : ε) (n : ℕ) (body : ℕ → σ → Except ε σ) (s : σ) : Except ε σ :=
  if n < limit then forRange body n 0 s else .error e

theorem forCounter_of_lt {limit : ℕ} (h : n < limit) (e : ε) (body : ℕ → σ → Except ε σ) :
    forCounter limit e n body = forRange body n 0 := funext fun _ => if_pos h

theorem forCounter_of_ge {limit : ℕ} (h : limit ≤ n) (e : ε) (body : ℕ → σ → Except ε σ) (s : σ) :
    forCounter limit e n body s = .error e := if_neg (not_lt.2 h)

end

/-! ### Buffers -/

/-- A block of memory, of `size` cells. -/
@[ext] structure Buffer (α : Type*) where
  /-- The number of cells. -/
  size : ℕ
  /-- What the cells hold. -/
  get : ℕ → α

namespace Buffer

variable {α ε : Type*}

/-- A block that holds the same everywhere. -/
def const (n : ℕ) (a : α) : Buffer α := ⟨n, fun _ => a⟩

@[simp] theorem const_size (n : ℕ) (a : α) : (const n a).size = n := rfl

@[simp] theorem const_get (n : ℕ) (a : α) (p : ℕ) : (const n a).get p = a := rfl

/-- `n` cells from `d` on are those of `src`. -/
def blit (dst : Buffer α) (d : ℕ) (src : Buffer α) (s n : ℕ) : Buffer α :=
  ⟨dst.size, fun p => if d ≤ p ∧ p < d + n then src.get (s + (p - d)) else dst.get p⟩

variable (dst : Buffer α)

@[simp] theorem blit_size (d : ℕ) (src : Buffer α) (s n : ℕ) : (dst.blit d src s n).size = dst.size := rfl

theorem get_blit_of_lt (d : ℕ) (src : Buffer α) (s : ℕ) {j : ℕ} (hj : j < n) :
    (dst.blit d src s n).get (d + j) = src.get (s + j) := by
  simp [blit, hj]

theorem get_blit_of_disjoint (d : ℕ) (src : Buffer α) (s n : ℕ) {p : ℕ} (hp : p < d ∨ d + n ≤ p) :
    (dst.blit d src s n).get p = dst.get p := by
  simp only [blit]
  rw [if_neg (by omega)]

theorem get_blit_of_ne (src : Buffer α) (s : ℕ) {len j b : ℕ} (hne : i ≠ j) (hb : b < len) :
    (dst.blit (len * j) src s len).get (len * i + b) = dst.get (len * i + b) := by
  apply get_blit_of_disjoint
  rcases Nat.lt_or_gt_of_ne hne with hlt | hgt
  · have := Nat.mul_le_mul_left len (Nat.succ_le_of_lt hlt)
    rw [Nat.mul_succ] at this
    omega
  · have := Nat.mul_le_mul_left len (Nat.succ_le_of_lt hgt)
    rw [Nat.mul_succ] at this
    omega

/-- `memcpy`, or an error if it is too short. -/
def copy (e : ε) (dst : Buffer α) (d : ℕ) (src : Buffer α) (s n : ℕ) : Except ε (Buffer α) :=
  if d + n ≤ dst.size then .ok (dst.blit d src s n) else .error e

theorem copy_of_le (e : ε) {dst : Buffer α} {d : ℕ} (h : d + n ≤ dst.size) (src : Buffer α) (s : ℕ) :
    copy e dst d src s n = .ok (dst.blit d src s n) := if_pos h

theorem copy_of_lt (e : ε) {dst : Buffer α} {d : ℕ} (h : dst.size < d + n) (src : Buffer α) (s : ℕ) :
    copy e dst d src s n = .error e := if_neg h.not_ge

theorem copy_ends {α ε : Type} {e : ε} {dst src : Buffer α} {d s : ℕ} {Q : Buffer α → Prop} {E : ε → Prop}
    (hr : d + n ≤ dst.size → Q (dst.blit d src s n)) (hs : dst.size < d + n → E e) :
    Ends (copy e dst d src s n) Q E := by
  rcases Nat.lt_or_ge dst.size (d + n) with hlt | hge
  · rw [copy_of_lt e hlt]
    exact hs hlt
  · rw [copy_of_le e hge]
    exact hr hge

/-- The block with one cell replaced. -/
def set (dst : Buffer α) (i : ℕ) (a : α) : Buffer α := ⟨dst.size, Function.update dst.get i a⟩

@[simp] theorem get_set_self (i : ℕ) (a : α) : (dst.set i a).get i = a := Function.update_self ..

theorem get_set_of_ne {p : ℕ} (h : p ≠ i) (a : α) : (dst.set i a).get p = dst.get p :=
  Function.update_of_ne h ..

/-- `dst[i] = a`: an error beyond the end. -/
def put (e : ε) (dst : Buffer α) (i : ℕ) (a : α) : Except ε (Buffer α) :=
  if i < dst.size then .ok (dst.set i a) else .error e

theorem put_of_lt (e : ε) {dst : Buffer α} (h : i < dst.size) (a : α) : put e dst i a = .ok (dst.set i a) :=
  if_pos h

theorem put_ends {α ε : Type} {e : ε} {dst : Buffer α} {a : α} {Q : Buffer α → Prop} {E : ε → Prop}
    (hr : i < dst.size → Q (dst.set i a)) (hs : dst.size ≤ i → E e) : Ends (put e dst i a) Q E := by
  unfold put
  split_ifs with h
  · exact hr h
  · exact hs (Nat.le_of_not_lt h)

/-- `src[i]`: an error beyond the end. -/
def fetch (e : ε) (src : Buffer α) (i : ℕ) : Except ε α := if i < src.size then .ok (src.get i) else .error e

theorem fetch_of_lt (e : ε) {src : Buffer α} (h : i < src.size) : fetch e src i = .ok (src.get i) := if_pos h

/-- The first `r` rows of `b` are those of `row`. -/
def Rows (len : ℕ) (row : ℕ → ℕ → α) (r : ℕ) (b : Buffer α) : Prop :=
  ∀ q < r, ∀ j < len, b.get (len * q + j) = row q j

theorem rows_zero (len : ℕ) (row : ℕ → ℕ → α) (b : Buffer α) : Rows len row 0 b := nofun

theorem Rows.blit {len r : ℕ} {row : ℕ → ℕ → α} {b : Buffer α} (h : Rows len row r b) {src : Buffer α} {s : ℕ}
    (hs : ∀ j < len, src.get (s + j) = row r j) : Rows len row (r + 1) (b.blit (len * r) src s len) := by
  intro q hq j hj
  rcases Nat.lt_succ_iff_lt_or_eq.1 hq with hlt | rfl
  · rw [get_blit_of_ne _ _ _ hlt.ne hj]
    exact h q hlt j hj
  · rw [get_blit_of_lt _ _ _ _ hj]
    exact hs j hj

end Buffer

/-! ### Interleaved samples -/

/-- The place of a sample. -/
def index (w nc x y c : ℕ) : ℕ := nc * (y * w + x) + c

variable {w nc : ℕ}

theorem place_lt {h x y : ℕ} (hx : x < w) (hy : y < h) : y * w + x < w * h := by
  calc y * w + x < y * w + w := Nat.add_lt_add_left hx _
    _ = (y + 1) * w := by ring
    _ ≤ h * w := Nat.mul_le_mul_right _ hy
    _ = w * h := Nat.mul_comm _ _

theorem index_lt {h x y c : ℕ} (hx : x < w) (hy : y < h) (hc : c < nc) : index w nc x y c < w * h * nc := by
  calc index w nc x y c < nc * (y * w + x) + nc := Nat.add_lt_add_left hc _
    _ = nc * (y * w + x + 1) := by ring
    _ ≤ nc * (w * h) := Nat.mul_le_mul_left _ (place_lt hx hy)
    _ = w * h * nc := Nat.mul_comm _ _

theorem index_byte_lt {h x y c n b : ℕ} (hx : x < w) (hy : y < h) (hc : c < nc) (hb : b < n) :
    n * index w nc x y c + b < n * (w * h * nc) := by
  calc n * index w nc x y c + b < n * index w nc x y c + n := Nat.add_lt_add_left hb _
    _ = n * (index w nc x y c + 1) := by ring
    _ ≤ n * (w * h * nc) := Nat.mul_le_mul_left _ (index_lt hx hy hc)

theorem eq_iff_div_mod {side q r x : ℕ} (hr : r < side) : x = q * side + r ↔ x / side = q ∧ x % side = r := by
  rw [Nat.div_mod_unique (Nat.zero_lt_of_lt hr), and_iff_left hr, Nat.mul_comm, Nat.add_comm, eq_comm]

theorem pixel_of_place {h q : ℕ} (hq : q < w * h) : q % w < w ∧ q / w < h ∧ q / w * w + q % w = q :=
  ⟨Nat.mod_lt q (Nat.pos_of_mul_pos_right (Nat.zero_lt_of_lt hq)), Nat.div_lt_of_lt_mul hq, Nat.div_add_mod' q w⟩

theorem index_inj {x y c x' y' c' : ℕ} (hx : x < w) (hc : c < nc) (hx' : x' < w) (hc' : c' < nc)
    (h : index w nc x y c = index w nc x' y' c') : x = x' ∧ y = y' ∧ c = c' := by
  have hp : y * w + x = y' * w + x' := by
    have hd := congrArg (· / nc) h
    simpa [index, Nat.mul_add_div (Nat.zero_lt_of_lt hc), Nat.div_eq_of_lt hc, Nat.div_eq_of_lt hc'] using hd
  have hch : c = c' := by simpa [index, hp] using h
  have hr : y = y' := by
    have hd := congrArg (· / w) hp
    simpa [Nat.mul_comm, Nat.mul_add_div (Nat.zero_lt_of_lt hx), Nat.div_eq_of_lt hx, Nat.div_eq_of_lt hx'] using hd
  subst hr
  exact ⟨by omega, rfl, hch⟩

section
variable {ε σ : Type} {E : ε → Prop}

/-- The loop over rows and columns. -/
def forPixels (w h : ℕ) (body : ℕ → ℕ → σ → Except ε σ) (s : σ) : Except ε σ :=
  forRange (fun y => forRange (fun x => body x y) w 0) h 0 s

theorem forPixels_ends {h : ℕ} {body : ℕ → ℕ → σ → Except ε σ} (Inv : ℕ → σ → Prop) {s : σ} (h0 : Inv 0 s)
    (hs : ∀ x < w, ∀ y < h, ∀ t, Inv (y * w + x) t → Ends (body x y t) (Inv (y * w + x + 1)) E) :
    Ends (forPixels w h body s) (Inv (w * h)) E := by
  have hr : Ends (forPixels w h body s) (Inv (h * w)) E := by
    refine forCount_ends (fun y => Inv (y * w)) (by simpa using h0) fun y row hy hrw => ?_
    have hc : Ends (forRange (fun x => body x y) w 0 row) (Inv (y * w + w)) E :=
      forCount_ends (fun x => Inv (y * w + x)) hrw fun x t hx => hs x hx y hy t
    rwa [← Nat.succ_mul] at hc
  rwa [Nat.mul_comm] at hr

theorem forPixels_eq_forRange (w h : ℕ) (body : ℕ → ℕ → σ → Except ε σ) (s : σ) :
    forPixels w h body s = forRange (fun i => body (i % w) (i / w)) (h * w) 0 s := by
  have hr : ∀ n y s, forRange (fun y => forRange (fun x => body x y) w 0) n y s =
      forRange (fun i => body (i % w) (i / w)) (n * w) (y * w) s := by
    intro n
    induction n with
    | zero => intro y s; rw [Nat.zero_mul]; rfl
    | succ n ih =>
      intro y s
      have hrw : ∀ t, forRange (fun x => body x y) w 0 t =
          forRange (fun i => body (i % w) (i / w)) w (y * w) t := by
        intro t
        refine forRange_congr fun x hx => ?_
        obtain ⟨hd, hm⟩ := (eq_iff_div_mod hx).mp (rfl : y * w + x = y * w + x)
        rw [hd, hm, Nat.zero_add]
      rw [forRange, hrw, Nat.succ_mul, Nat.add_comm (n * w), forRange_add, ← Nat.succ_mul]
      congr 1
      funext t
      exact ih (y + 1) t
  rw [forPixels, hr, Nat.zero_mul]

/-- The loop over rows, columns and channels. -/
def forSamples (w h nc : ℕ) (body : ℕ → ℕ → ℕ → σ → Except ε σ) (s : σ) : Except ε σ :=
  forRange (fun y => forRange (fun x => forRange (fun c => body x y c) nc 0) w 0) h 0 s

theorem forSamples_eq (w h nc : ℕ) (body : ℕ → ℕ → ℕ → σ → Except ε σ) (s : σ) :
    forSamples w h nc body s = forPixels w h (fun x y => forRange (fun c => body x y c) nc 0) s := rfl

theorem forSamples_ends {h : ℕ} {body : ℕ → ℕ → ℕ → σ → Except ε σ} (Inv : ℕ → σ → Prop) {s : σ} (h0 : Inv 0 s)
    (hs : ∀ x < w, ∀ y < h, ∀ c < nc, ∀ t, Inv (index w nc x y c) t →
      Ends (body x y c t) (Inv (index w nc x y c + 1)) E) :
    Ends (forSamples w h nc body s) (Inv (w * h * nc)) E := by
  rw [forSamples_eq, Nat.mul_comm (w * h)]
  refine forPixels_ends (fun p => Inv (nc * p)) h0 fun x hx y hy pixel hp => ?_
  exact forCount_ends (fun c => Inv (index w nc x y c)) hp fun c t hc => hs x hx y hy c hc t

end

end Sipi.Theory
