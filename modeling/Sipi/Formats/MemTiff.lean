import Mathlib.Data.UInt
import Sipi.Theory.ByteFile
import Sipi.Theory.Runs

/-!
# A TIFF in memory

An image that is sent as a TIFF is written to memory first: `MEMTIFF` in `src/formats/SipiIOTiff.cpp` is a block
that grows, with calls for libtiff to read, write and seek.
-/

namespace Sipi.Formats

open Sipi.Theory

/-! ### The calls -/

/-- What goes wrong. -/
inductive MemError where
  | overrun
  | overflow
  deriving DecidableEq

/-- `malloc` and `realloc`. -/
structure Heap where
  room : ℕ → Option (ℕ → UInt8)
  room_lt : ∀ n, (room n).isSome → n < 2 ^ 63

/-- `MEMTIFF`. -/
structure MemTiff where
  data : Buffer UInt8
  size : ℤ
  incsiz : Int64
  flen : ℤ
  fptr : ℕ

/-- `(tsize_t)n`. -/
def toTsize (n : ℕ) : ℤ := if n % 2 ^ 64 < 2 ^ 63 then (n % 2 ^ 64 : ℕ) else (n % 2 ^ 64 : ℕ) - 2 ^ 64

/-- `(toff_t)v`. -/
def toToff (v : ℤ) : ℕ := (v % 2 ^ 64).toNat

/-- A sum of two `tsize_t`. -/
def addTsize (a b : ℤ) : Except MemError ℤ :=
  if -2 ^ 63 ≤ a + b ∧ a + b < 2 ^ 63 then .ok (a + b) else .error .overflow

/-- `memcpy` out of the block. -/
def memcpyFrom (data : Buffer UInt8) (p : ℕ) (n : ℤ) : Except MemError (List UInt8) :=
  if 0 ≤ n ∧ p + n ≤ data.size then .ok (data.slice p n.toNat) else .error .overrun

/-- `memcpy` into the block. -/
def memcpyTo (data : Buffer UInt8) (p : ℕ) (buf : List UInt8) : Except MemError (Buffer UInt8) :=
  if p + buf.length ≤ data.size then .ok ⟨data.size, overlay p buf data.get⟩ else .error .overrun

/-- A call of libtiff. -/
inductive Call where
  | read (size : ℕ)
  | write (buf : List UInt8)
  | seek (off : UInt64) (whence : Whence)

/-- What it returns; a read also returns the bytes. -/
inductive Reply where
  | got (bytes : List UInt8)
  | wrote (size : ℕ)
  | offset (off : ℕ)
  deriving DecidableEq

namespace MemTiff

/-- `memTiffOpen`. -/
def memTiffOpen (heap : Heap) (incsiz initsiz : Int64) : Option MemTiff :=
  let initsiz := if initsiz = 0 then incsiz else initsiz
  (heap.room (toToff initsiz.toInt)).map fun fresh => ⟨⟨toToff initsiz.toInt, fresh⟩, initsiz.toInt, incsiz, 0, 0⟩

/-- `realloc`, and the new capacity. -/
def realloc (m : MemTiff) (heap : Heap) (size : ℕ) : Option MemTiff :=
  (heap.room size).map fun fresh =>
    { m with
      data := ⟨size, fun p => if p < m.data.size then m.data.get p else fresh p⟩
      size := toTsize size }

/-- The new position, and the length if it is beyond. -/
def moveTo (m : MemTiff) (fptr : ℕ) : MemTiff :=
  { m with fptr := fptr, flen := if toToff m.flen < fptr then toTsize fptr else m.flen }

/-- `fptr + incsiz + size`. -/
def grownSize (m : MemTiff) (size : ℕ) : ℕ := toToff (m.fptr + m.incsiz.toInt + size)

/-- How many bytes a read copies. -/
def readLength (m : MemTiff) (size : ℕ) : Except MemError ℤ := do
  let stop ← addTsize (toTsize m.fptr) size
  if stop ≤ m.flen then .ok (size : ℤ) else addTsize m.flen (-toTsize m.fptr)

/-- `memTiffReadProc`. -/
def memTiffRead (m : MemTiff) (size : ℕ) : Except MemError (Reply × MemTiff) := do
  let n ← m.readLength size
  let bytes ← memcpyFrom m.data m.fptr n
  return (.got bytes, { m with fptr := (m.fptr + bytes.length) % 2 ^ 64 })

/-- The end of a write: the copy. -/
def store (m : MemTiff) (buf : List UInt8) : Except MemError (Reply × MemTiff) := do
  let data ← memcpyTo m.data m.fptr buf
  return (.wrote buf.length, { m with data := data }.moveTo ((m.fptr + buf.length) % 2 ^ 64))

/-- `memTiffWriteProc`. -/
def memTiffWrite (m : MemTiff) (heap : Heap) (buf : List UInt8) : Except MemError (Reply × MemTiff) := do
  let stop ← addTsize (toTsize m.fptr) buf.length
  let grown := if m.size < stop then m.realloc heap (m.grownSize buf.length) else some m
  match grown with
  | none => .ok (.wrote 0, m)
  | some m => m.store buf

/-- A seek beyond the capacity. -/
def growBy (m : MemTiff) (heap : Heap) (off : ℕ) (target : ℤ) : Except MemError (Option MemTiff) :=
  if m.size < target then do
    let sum ← addTsize m.size m.incsiz.toInt
    return m.realloc heap ((toToff sum + off) % 2 ^ 64)
  else .ok (some m)

/-- The end of a seek, unless there is no memory. -/
def settle (m : MemTiff) (target : MemTiff → ℕ) : Option MemTiff → Reply × MemTiff
  | none => (.offset (2 ^ 64 - 1), m)
  | some m => (.offset (target m), m.moveTo (target m))

/-- `memTiffSeekProc`. -/
def memTiffSeek (m : MemTiff) (heap : Heap) (off : ℕ) : Whence → Except MemError (Reply × MemTiff)
  | .set => (m.growBy heap off (toTsize off)).map (m.settle fun _ => off)
  | .cur =>
    let target := (m.fptr + off) % 2 ^ 64
    let grown := if m.size < toTsize target then m.realloc heap (m.grownSize off) else some m
    .ok (m.settle (fun _ => target) grown)
  | .fromEnd =>
    (m.growBy heap off (toTsize ((toToff m.size + off) % 2 ^ 64))).map
      (m.settle fun m => (toToff m.size + off) % 2 ^ 64)

/-- A call. -/
def call (m : MemTiff) (heap : Heap) : Call → Except MemError (Reply × MemTiff)
  | .read size => m.memTiffRead size
  | .write buf => m.memTiffWrite heap buf
  | .seek off whence => m.memTiffSeek heap off.toNat whence

/-- `memTiffSizeProc`. -/
def memTiffSize (m : MemTiff) : ℕ := toToff m.flen

/-- The reply to a call, and the size after it. -/
def next (heap : Heap) (m : MemTiff) (c : Call) : (Except MemError Reply × ℕ) × MemTiff :=
  match m.call heap c with
  | .ok (reply, m) => ((.ok reply, m.memTiffSize), m)
  | .error e => ((.error e, m.memTiffSize), m)

end MemTiff

/-- The same call, to a file. -/
def fileCall (f : ByteFile UInt8) : Call → Reply × ByteFile UInt8
  | .read size => (.got (f.read size).1, (f.read size).2)
  | .write buf => (.wrote buf.length, f.write buf)
  | .seek off whence =>
    match f.seek (toTsize off.toNat) whence with
    | none => (.offset (2 ^ 64 - 1), f)
    | some f => (.offset f.pos, f)

/-- What libtiff would see. -/
def fileNext (f : ByteFile UInt8) (c : Call) : (Except MemError Reply × ℕ) × ByteFile UInt8 :=
  ((.ok (fileCall f c).1, (fileCall f c).2.size), (fileCall f c).2)

/-- **What a call must satisfy in its state.** -/
def Fits (heap : Heap) (m : MemTiff) : Call → Prop
  | .read size => m.fptr + size < 2 ^ 63
  | .write buf => m.fptr + buf.length < 2 ^ 63 ∧
      (m.fptr + buf.length ≤ m.size ∨ 0 ≤ m.incsiz.toInt ∧ (heap.room (m.grownSize buf.length)).isSome)
  | .seek off .set => off.toNat ≤ m.flen
  | .seek off .cur => 0 ≤ m.fptr + toTsize off.toNat ∧ m.fptr + toTsize off.toNat ≤ m.flen
  | .seek off .fromEnd => m.size = m.flen ∧ toTsize off.toNat ≤ 0 ∧ 0 ≤ m.flen + toTsize off.toNat

instance (heap : Heap) (m : MemTiff) : ∀ c, Decidable (Fits heap m c)
  | .read _ => inferInstanceAs (Decidable (_ < _))
  | .write _ => inferInstanceAs (Decidable (_ ∧ _))
  | .seek _ .set => inferInstanceAs (Decidable (_ ≤ _))
  | .seek _ .cur => inferInstanceAs (Decidable (_ ∧ _))
  | .seek _ .fromEnd => inferInstanceAs (Decidable (_ ∧ _))

/-- **The state stands for the file.** -/
structure Models (m : MemTiff) (f : ByteFile UInt8) : Prop where
  fptr : m.fptr = f.pos
  flen : m.flen = f.size
  pos_le : f.pos ≤ f.size
  capacity : m.size = m.data.size
  size_le : f.size ≤ m.data.size
  lt : m.data.size < 2 ^ 63
  bytes : ∀ p < f.size, m.data.get p = f.content.get p

variable {n : ℕ}

theorem toTsize_cases (hn : n < 2 ^ 64) : n < 2 ^ 63 ∧ toTsize n = n ∨ 2 ^ 63 ≤ n ∧ toTsize n = n - 2 ^ 64 := by
  unfold toTsize
  rw [Nat.mod_eq_of_lt hn]
  split_ifs with hlt
  · exact Or.inl ⟨hlt, rfl⟩
  · exact Or.inr ⟨not_lt.mp hlt, rfl⟩

theorem toTsize_of_lt (hn : n < 2 ^ 63) : toTsize n = n := by
  rcases toTsize_cases (hn.trans (by decide)) with h | h <;> omega

theorem wrapped_sum {off : ℕ} (hn : n < 2 ^ 63) (ho : off < 2 ^ 64) :
    (n : ℤ) + toTsize off = ((n + off) % 2 ^ 64 : ℕ) ∧ (n + off) % 2 ^ 64 < n + 2 ^ 63 ∨
      (n : ℤ) + toTsize off < 0 ∧ 2 ^ 63 ≤ (n + off) % 2 ^ 64 := by
  rcases toTsize_cases ho with heq | heq <;> omega

theorem toToff_natCast (hn : n < 2 ^ 64) : toToff n = n := by
  unfold toToff
  omega

theorem toToff_toTsize (hn : n < 2 ^ 64) : toToff (toTsize n) = n := by
  unfold toToff
  rcases toTsize_cases hn with ⟨-, h⟩ | ⟨-, h⟩ <;> rw [h] <;> omega

theorem addTsize_eq {a b : ℤ} (hl : -2 ^ 63 ≤ a + b) (hh : a + b < 2 ^ 63) : addTsize a b = .ok (a + b) :=
  if_pos ⟨hl, hh⟩

theorem addTsize_error {a b : ℤ} (h : 2 ^ 63 ≤ a + b) : addTsize a b = .error .overflow := if_neg (by omega)

section
variable {heap : Heap} {m : MemTiff} {f : ByteFile UInt8} {c : Call}

theorem Models.size_lt (h : Models m f) : f.size < 2 ^ 63 := h.size_le.trans_lt h.lt

theorem Models.memTiffSize (h : Models m f) : m.memTiffSize = f.size := by
  rw [MemTiff.memTiffSize, h.flen, toToff_natCast (h.size_lt.trans (by decide))]

/-- **A call does what the file does if it fits.** -/
structure Mimics (heap : Heap) (m : MemTiff) (f : ByteFile UInt8) (c : Call) : Prop where
  same_iff : (m.next heap c).1 = (fileNext f c).1 ↔ Fits heap m c
  models : Fits heap m c → Models (m.next heap c).2 (fileNext f c).2

theorem mimics_of_fits (hf : Fits heap m c) {r : Reply × MemTiff} (hc : m.call heap c = .ok r)
    (hr : r.1 = (fileCall f c).1) (hm : Models r.2 (fileCall f c).2) : Mimics heap m f c := by
  have hn : m.next heap c = ((.ok (fileCall f c).1, r.2.memTiffSize), r.2) := by
    rw [MemTiff.next, hc, ← hr]
  refine ⟨iff_of_true ?_ hf, fun _ => ?_⟩
  · rw [hn, hm.memTiffSize]
    rfl
  · rw [hn]
    exact hm

theorem mimics_of_error (hf : ¬ Fits heap m c) {e : MemError} (hc : m.call heap c = .error e) :
    Mimics heap m f c := by
  refine ⟨iff_of_false ?_ hf, fun h => absurd h hf⟩
  rw [MemTiff.next, hc]
  exact fun h => by cases congrArg Prod.fst h

theorem mimics_of_differs (hf : ¬ Fits heap m c) {r : Reply × MemTiff} (hc : m.call heap c = .ok r)
    (hd : r.1 ≠ (fileCall f c).1 ∨ r.2.memTiffSize ≠ (fileCall f c).2.size) : Mimics heap m f c := by
  refine ⟨iff_of_false ?_ hf, fun h => absurd h hf⟩
  rw [MemTiff.next, hc]
  intro h
  obtain ⟨hr, hs⟩ := Prod.mk.inj h
  exact hd.elim (fun hne => hne (Except.ok.inj hr)) fun hne => hne hs

theorem Models.toTsize_fptr (h : Models m f) : toTsize m.fptr = f.pos := by
  rw [h.fptr, toTsize_of_lt (h.pos_le.trans_lt h.size_lt)]

theorem readLength_eq (h : Models m f) {size : ℕ} (hlt : f.pos + size < 2 ^ 63) :
    m.readLength size = .ok ((min size (f.size - f.pos) : ℕ) : ℤ) := by
  have hp := h.pos_le
  have hf := h.size_lt
  rw [MemTiff.readLength, h.toTsize_fptr, addTsize_eq (by omega) (by omega), ok_bind, h.flen]
  split_ifs with hi
  · rw [min_eq_left (by omega)]
  · rw [addTsize_eq (by omega) (by omega), min_eq_right (by omega)]
    congr 1
    omega

theorem memcpyFrom_eq (h : Models m f) (hn : f.pos + n ≤ f.size) :
    memcpyFrom m.data f.pos n = .ok (f.content.slice f.pos n) := by
  have hr := h.size_le
  rw [memcpyFrom, if_pos (by omega), Int.toNat_natCast]
  congr 1
  exact Buffer.slice_congr fun q _ hq => h.bytes q (by omega)

theorem memRead_step (h : Models m f) (size : ℕ) : Mimics heap m f (.read size) := by
  have hp := h.pos_le
  have hfl := h.size_lt
  by_cases hlt : f.pos + size < 2 ^ 63
  · have hf : Fits heap m (.read size) := by rwa [Fits, h.fptr]
    have hc : m.call heap (.read size) = .ok (.got (f.content.slice f.pos (min size (f.size - f.pos))),
        { m with fptr := f.pos + min size (f.size - f.pos) }) := by
      show m.memTiffRead size = _
      rw [MemTiff.memTiffRead, readLength_eq h hlt, ok_bind, h.fptr, memcpyFrom_eq h (by omega), ok_bind,
        Buffer.length_slice, Nat.mod_eq_of_lt (by omega)]
      rfl
    have he : f.pos + min size (f.size - f.pos) ≤ f.size := by omega
    exact mimics_of_fits hf hc rfl
      ⟨rfl, h.flen, he, h.capacity, h.size_le, h.lt, h.bytes⟩
  · have hf : ¬ Fits heap m (.read size) := by rwa [Fits, h.fptr]
    refine mimics_of_error hf (e := .overflow) ?_
    show m.memTiffRead size = _
    rw [MemTiff.memTiffRead, MemTiff.readLength, h.toTsize_fptr, addTsize_error (by omega)]
    rfl

/-! ### Writing -/

/-- What `realloc` delivers. -/
structure Grown (m m' : MemTiff) (n : ℕ) : Prop where
  fptr : m'.fptr = m.fptr
  flen : m'.flen = m.flen
  capacity : m'.size = n
  size : m'.data.size = n
  lt : n < 2 ^ 63
  bytes : ∀ p < m.data.size, m'.data.get p = m.data.get p

variable {m' : MemTiff}

theorem grown_of_realloc (h : m.realloc heap n = some m') : Grown m m' n := by
  obtain ⟨fresh, hr, rfl⟩ := Option.map_eq_some_iff.mp h
  have hlt := heap.room_lt n (by rw [hr]; rfl)
  exact ⟨rfl, rfl, toTsize_of_lt hlt, rfl, hlt, fun p hp => if_pos hp⟩

theorem Models.grown (h : Models m f) (hg : Grown m m' n) (hle : m.data.size ≤ n) : Models m' f := by
  have hs := h.size_le
  refine ⟨hg.fptr.trans h.fptr, hg.flen.trans h.flen, h.pos_le, ?_, ?_, ?_, fun p hp => ?_⟩
  · rw [hg.capacity, hg.size]
  · rw [hg.size]
    omega
  · rw [hg.size]
    exact hg.lt
  · rw [hg.bytes p (by omega), h.bytes p hp]

theorem grownSize_eq (h : Models m f) (hs : f.pos + n < 2 ^ 63) (hlt : m.grownSize n < 2 ^ 63) :
    (m.grownSize n : ℤ) = f.pos + m.incsiz.toInt + n := by
  have hl := m.incsiz.le_toInt
  have hh := m.incsiz.toInt_lt
  rw [MemTiff.grownSize, toToff, h.fptr] at hlt ⊢
  omega

variable {buf : List UInt8}

theorem Models.write (h : Models m f) (hr : f.pos + buf.length ≤ m.data.size) :
    Models ({ m with data := ⟨m.data.size, overlay f.pos buf m.data.get⟩ }.moveTo (f.pos + buf.length))
      (f.write buf) := by
  have hps := h.pos_le
  have hfl := h.size_lt
  have hlt := h.lt
  have hm : ({ m with data := ⟨m.data.size, overlay f.pos buf m.data.get⟩ }.moveTo (f.pos + buf.length)).flen =
      ((max f.size (f.pos + buf.length) : ℕ) : ℤ) := by
    rw [MemTiff.moveTo]
    dsimp only
    rw [h.flen, toToff_natCast (by omega)]
    split_ifs with hb
    · rw [toTsize_of_lt (by omega), max_eq_right hb.le]
    · rw [max_eq_left (by omega)]
  by_cases hn : buf = []
  · subst hn
    have hsm : f.write [] = f := if_pos rfl
    rw [hsm]
    refine ⟨rfl, ?_, hps, h.capacity, h.size_le, hlt, fun p hp => ?_⟩
    · rw [hm, List.length_nil, max_eq_left (by omega)]
    · rw [← h.bytes p hp]
      simp [MemTiff.moveTo, overlay]
  · have hs := f.size_write hn
    have hf : f.write buf = ⟨⟨max f.size (f.pos + buf.length),
      overlay f.pos buf fun q => if q < f.size then f.content.get q else 0⟩, f.pos + buf.length⟩ := if_neg hn
    refine ⟨by rw [hf]; rfl, by rw [hs]; exact hm, ?_, h.capacity, ?_, hlt, fun p hp => ?_⟩
    · rw [hs, hf]
      exact le_max_right _ _
    · rw [hs]
      exact max_le h.size_le hr
    · rw [hs] at hp
      rw [hf]
      show overlay f.pos buf m.data.get p = overlay f.pos buf (fun q => if q < f.size then f.content.get q else 0) p
      rcases Nat.lt_or_ge p f.size with hin | ho
      · refine overlay_congr ?_
        rw [if_pos hin]
        exact h.bytes p hin
      · exact overlay_of_mem (by omega) (by omega) _ _

theorem Models.store (h : Models m f) (hr : f.pos + buf.length ≤ m.data.size) :
    ∃ m', m.store buf = .ok (.wrote buf.length, m') ∧ Models m' (f.write buf) := by
  have hlt := h.lt
  refine ⟨_, ?_, h.write hr⟩
  rw [MemTiff.store, h.fptr, memcpyTo, if_pos hr, ok_bind, Nat.mod_eq_of_lt (by omega)]
  rfl

theorem store_overrun (h : m.data.size < m.fptr + buf.length) : m.store buf = .error .overrun := by
  rw [MemTiff.store, memcpyTo, if_neg (by omega)]
  rfl

theorem memTiffWrite_eq (h : Models m f) (hs : f.pos + buf.length < 2 ^ 63) :
    m.memTiffWrite heap buf =
      (if m.data.size < f.pos + buf.length then m.realloc heap (m.grownSize buf.length) else some m).elim
        (.ok (.wrote 0, m)) fun m => m.store buf := by
  have hb : (m.data.size : ℤ) < f.pos + buf.length ↔ m.data.size < f.pos + buf.length := by omega
  rw [MemTiff.memTiffWrite, h.toTsize_fptr, addTsize_eq (by omega) (by omega), ok_bind, h.capacity]
  simp only [hb]
  split <;> next hg => rw [hg]; rfl

theorem memWrite_grow (h : Models m f) (hsm : f.pos + buf.length < 2 ^ 63)
    (hgr : m.data.size < f.pos + buf.length) : Mimics heap m f (.write buf) := by
  have hp := h.pos_le
  have hcp := h.size_le
  have hc : m.call heap (.write buf) = m.memTiffWrite heap buf := rfl
  rw [memTiffWrite_eq h hsm, if_pos hgr] at hc
  have hf : Fits heap m (.write buf) ↔
      0 ≤ m.incsiz.toInt ∧ (m.realloc heap (m.grownSize buf.length)).isSome := by
    rw [Fits, h.fptr, h.capacity, MemTiff.realloc, Option.isSome_map, and_iff_right hsm, or_iff_right (by omega)]
  cases hr : m.realloc heap (m.grownSize buf.length) with
  | none =>
    have hft : ¬ Fits heap m (.write buf) := by simp [hf, hr]
    rw [hr] at hc
    refine mimics_of_differs hft hc (Or.inl fun heq => ?_)
    have hz : 0 = buf.length := Reply.wrote.inj heq
    omega
  | some m' =>
    have hg := grown_of_realloc hr
    have hsz := grownSize_eq h hsm hg.lt
    rw [hr] at hc
    rcases lt_or_ge m.incsiz.toInt 0 with hn | hi
    · -- with a negative increment the new block is too small
      have hft : ¬ Fits heap m (.write buf) := by simp [hf, hn]
      refine mimics_of_error hft (hc.trans (store_overrun ?_))
      rw [hg.size, hg.fptr, h.fptr]
      omega
    · have hft : Fits heap m (.write buf) := by simp [hf, hi, hr]
      have hr' : f.pos + buf.length ≤ m'.data.size := by
        rw [hg.size]
        omega
      obtain ⟨m'', hs, hm⟩ := (h.grown hg (by omega)).store hr'
      exact mimics_of_fits hft (hc.trans hs) rfl hm

theorem memWrite_step (h : Models m f) (buf : List UInt8) : Mimics heap m f (.write buf) := by
  have hc : m.call heap (.write buf) = m.memTiffWrite heap buf := rfl
  rcases Nat.lt_or_ge (f.pos + buf.length) (2 ^ 63) with hsm | hsm
  · rcases Nat.lt_or_ge m.data.size (f.pos + buf.length) with hg | hft
    · exact memWrite_grow h hsm hg
    · have hf : Fits heap m (.write buf) := by
        rw [Fits, h.capacity, h.fptr]
        exact ⟨hsm, Or.inl (by omega)⟩
      obtain ⟨m', hs, hm⟩ := h.store hft
      rw [memTiffWrite_eq h hsm, if_neg (by omega)] at hc
      exact mimics_of_fits hf (hc.trans hs) rfl hm
  · have hf : ¬ Fits heap m (.write buf) := by
      rw [Fits, h.fptr]
      omega
    rw [MemTiff.memTiffWrite, h.toTsize_fptr, addTsize_error (by omega), error_bind] at hc
    exact mimics_of_error hf hc

/-! ### Seeking -/

theorem fileCall_seek_size (f : ByteFile UInt8) (off : UInt64) (whence : Whence) :
    (fileCall f (.seek off whence)).2.size = f.size := by
  rw [fileCall, ByteFile.seek]
  split_ifs <;> rfl

variable {t : ℕ}

theorem fileCall_seek (f : ByteFile UInt8) (off : UInt64) (whence : Whence)
    (ht : f.base whence + toTsize off.toNat = t) :
    fileCall f (.seek off whence) = (.offset t, { f with pos := t }) := by
  rw [fileCall, ByteFile.seek, ht, if_neg (by omega), Int.toNat_natCast]

variable {off : UInt64} {whence : Whence}

theorem fileCall_seek_before (ht : f.base whence + toTsize off.toNat < 0) :
    fileCall f (.seek off whence) = (.offset (2 ^ 64 - 1), f) := by
  rw [fileCall, ByteFile.seek, if_pos ht]

theorem Models.moveTo (h : Models m f) (ht : t ≤ f.size) : Models (m.moveTo t) { f with pos := t } := by
  have hf := h.size_lt
  have hs : (m.moveTo t).flen = m.flen := by
    refine if_neg ?_
    rw [h.flen, toToff_natCast (by omega)]
    omega
  exact ⟨rfl, hs.trans h.flen, ht, h.capacity, h.size_le, h.lt, h.bytes⟩

theorem memTiffSize_moveTo (h : Models m f) (hf : m'.flen = m.flen) (ht : f.size < t)
    (hlt : t < 2 ^ 64) : (m'.moveTo t).memTiffSize = t := by
  have hs := h.size_lt
  have hn : (m'.moveTo t).flen = toTsize t := by
    refine if_pos ?_
    rw [hf, h.flen, toToff_natCast (by omega)]
    exact ht
  rw [MemTiff.memTiffSize, hn, toToff_toTsize hlt]

variable {target : MemTiff → ℕ}

theorem settle_differs (h : Models m f) {grown : Option MemTiff}
    (hs : ∀ m', grown = some m' → m'.flen = m.flen ∧ target m' < 2 ^ 64 ∧
      (f.size < target m' ∨ .offset (target m') ≠ (fileCall f (.seek off whence)).1))
    (hn : grown = none → (fileCall f (.seek off whence)).1 ≠ .offset (2 ^ 64 - 1)) :
    (m.settle target grown).1 ≠ (fileCall f (.seek off whence)).1 ∨
      (m.settle target grown).2.memTiffSize ≠ (fileCall f (.seek off whence)).2.size := by
  cases grown with
  | none => exact Or.inl fun heq => hn rfl heq.symm
  | some m' =>
    obtain ⟨hf, hlt, hb | hr⟩ := hs m' rfl
    · right
      rw [fileCall_seek_size]
      show (m'.moveTo (target m')).memTiffSize ≠ f.size
      rw [memTiffSize_moveTo h hf hb hlt]
      omega
    · exact Or.inl hr

theorem seek_mimics (h : Models m f) (hft : Fits heap m (.seek off whence))
    (hb : f.base whence + toTsize off.toNat = t) (hle : t ≤ f.size)
    (hc : m.call heap (.seek off whence) = .ok (.offset t, m.moveTo t)) : Mimics heap m f (.seek off whence) := by
  have hf := fileCall_seek f off whence hb
  refine mimics_of_fits hft hc ?_ ?_
  · rw [hf]
  · rw [hf]
    exact h.moveTo hle

theorem fileCall_seek_ne (hb : f.base whence + toTsize off.toNat = t)
    (ht : t < 2 ^ 64 - 1) : (fileCall f (.seek off whence)).1 ≠ .offset (2 ^ 64 - 1) := by
  rw [fileCall_seek f off whence hb]
  intro hs
  exact ht.ne (Reply.offset.inj hs)

theorem growBy_mimics (h : Models m f) (hf : ¬ Fits heap m (.seek off whence)) {beyond : ℤ} (hgr : m.size < beyond)
    (hc : m.call heap (.seek off whence) = (m.growBy heap off.toNat beyond).map (m.settle target))
    (ht : ∀ m' : MemTiff, 0 ≤ m'.size → m'.size < 2 ^ 63 → target m' < 2 ^ 64 ∧
      (f.size < target m' ∨ .offset (target m') ≠ (fileCall f (.seek off whence)).1))
    (hr : (fileCall f (.seek off whence)).1 ≠ .offset (2 ^ 64 - 1)) : Mimics heap m f (.seek off whence) := by
  have hcp := h.capacity
  have hlt := h.lt
  have hl := m.incsiz.le_toInt
  rw [MemTiff.growBy, if_pos hgr] at hc
  rcases lt_or_ge (m.size + m.incsiz.toInt) (2 ^ 63) with hsm | hsm
  · rw [addTsize_eq (by omega) hsm, ok_bind] at hc
    refine mimics_of_differs hf hc (settle_differs h (fun m' hm' => ?_) fun _ => hr)
    have hg := grown_of_realloc hm'
    have hs := hg.lt
    refine ⟨hg.flen, ht m' ?_ ?_⟩ <;> rw [hg.capacity] <;> omega
  · rw [addTsize_error hsm] at hc
    exact mimics_of_error hf hc

theorem stay_mimics (h : Models m f) (hf : ¬ Fits heap m (.seek off whence))
    (hc : m.call heap (.seek off whence) = .ok (m.settle target (some m)))
    (hb : f.size < target m) (hlt : target m < 2 ^ 64) : Mimics heap m f (.seek off whence) := by
  refine mimics_of_differs hf hc (settle_differs h (fun m' hm' => ?_) fun hn => by cases hn)
  cases hm'
  exact ⟨rfl, hlt, Or.inl hb⟩

theorem memSeek_set (h : Models m f) (off : UInt64) : Mimics heap m f (.seek off .set) := by
  have hsz := h.size_le
  have hcp := h.capacity
  have hlt := h.lt
  have ho : off.toNat < 2 ^ 64 := off.toNat_lt
  have hbs : (f.base .set : ℤ) = 0 := rfl
  have hc : m.call heap (.seek off .set) =
      (m.growBy heap off.toNat (toTsize off.toNat)).map (m.settle fun _ => off.toNat) := rfl
  rcases Nat.lt_or_ge f.size off.toNat with hb | hw
  · have hf : ¬ Fits heap m (.seek off .set) := by
      rw [Fits, h.flen]
      omega
    by_cases hg : m.size < toTsize off.toNat
    · have hs : off.toNat < 2 ^ 63 ∧ toTsize off.toNat = off.toNat := by
        rcases toTsize_cases ho with heq | heq <;> omega
      refine growBy_mimics h hf hg hc (fun _ _ _ => ⟨ho, Or.inl hb⟩) ?_
      exact fileCall_seek_ne (t := off.toNat) (by rw [hbs, hs.2, zero_add]) (by omega)
    · rw [MemTiff.growBy, if_neg hg] at hc
      exact stay_mimics h hf hc hb ho
  · have heq : toTsize off.toNat = off.toNat := toTsize_of_lt (by omega)
    have hf : Fits heap m (.seek off .set) := by
      rw [Fits, h.flen]
      omega
    rw [MemTiff.growBy, if_neg (by omega)] at hc
    exact seek_mimics h hf (by rw [hbs, heq, zero_add]) hw hc

theorem memSeek_cur (h : Models m f) (off : UInt64) : Mimics heap m f (.seek off .cur) := by
  have hsz := h.size_le
  have hp := h.pos_le
  have hcp := h.capacity
  have hlt := h.lt
  have ho : off.toNat < 2 ^ 64 := off.toNat_lt
  have hbs : (f.base .cur : ℤ) = f.pos := rfl
  set t := (f.pos + off.toNat) % 2 ^ 64 with ht
  have hc : m.call heap (.seek off .cur) = .ok (m.settle (fun _ => t) (if m.size < toTsize t then
      m.realloc heap (m.grownSize off.toNat) else some m)) := by
    rw [ht, ← h.fptr]
    rfl
  have htl : t < 2 ^ 64 := Nat.mod_lt _ (by decide)
  -- the target of the file is that of the block, as a signed number
  have hsm := wrapped_sum (hp.trans_lt h.size_lt) ho
  rw [← ht] at hsm
  rcases Nat.lt_or_ge f.size t with hb | hw
  · have hf : ¬ Fits heap m (.seek off .cur) := by
      rw [Fits, h.flen, h.fptr]
      omega
    by_cases hg : m.size < toTsize t
    · have hs : t < 2 ^ 63 := by
        rcases toTsize_cases htl with heq | heq <;> omega
      rw [if_pos hg] at hc
      refine mimics_of_differs hf hc (settle_differs h (fun m' hm' => ?_) fun _ => ?_)
      · exact ⟨(grown_of_realloc hm').flen, htl, Or.inl hb⟩
      · exact fileCall_seek_ne (t := t) (by rw [hbs]; omega) (by omega)
    · rw [if_neg hg] at hc
      exact stay_mimics h hf hc hb htl
  · have heq : toTsize t = t := toTsize_of_lt (by omega)
    have hf : Fits heap m (.seek off .cur) := by
      rw [Fits, h.flen, h.fptr]
      omega
    rw [if_neg (by omega)] at hc
    exact seek_mimics h hf (by rw [hbs]; omega) hw hc

theorem memSeek_end_grow (h : Models m f) (hft : ¬ Fits heap m (.seek off .fromEnd)) {beyond : ℤ}
    (hg : m.size < beyond) (hp : 0 < off.toNat) (hs : off.toNat < 2 ^ 63)
    (hc : m.call heap (.seek off .fromEnd) = (m.growBy heap off.toNat beyond).map
      (m.settle fun m => (toToff m.size + off.toNat) % 2 ^ 64)) : Mimics heap m f (.seek off .fromEnd) := by
  have hsz := h.size_lt
  have hf : (f.base .fromEnd : ℤ) + toTsize off.toNat = (f.size + off.toNat : ℕ) := by
    rw [toTsize_of_lt hs]
    rfl
  refine growBy_mimics h hft hg hc (fun m' hn hlt => ?_) (fileCall_seek_ne hf (by omega))
  have hr : (toToff m'.size + off.toNat) % 2 ^ 64 = m'.size.toNat + off.toNat := by
    unfold toToff
    omega
  rw [hr, fileCall_seek f off .fromEnd hf]
  refine ⟨by omega, ?_⟩
  by_cases hl : m'.size.toNat = f.size
  · left
    omega
  · right
    intro hsm
    have ho := Reply.offset.inj hsm
    omega

theorem fileCall_fromEnd_ne (hn : n < 2 ^ 63) (hne : n ≠ f.size) (hs : f.size < 2 ^ 63)
    (hw : (n + off.toNat) % 2 ^ 64 ≤ f.size) :
    .offset ((n + off.toNat) % 2 ^ 64) ≠ (fileCall f (.seek off .fromEnd)).1 := by
  intro heq
  have hb : (f.base .fromEnd : ℤ) = f.size := rfl
  have hsm := wrapped_sum hn off.toNat_lt
  rcases lt_or_ge ((f.base .fromEnd : ℤ) + toTsize off.toNat) 0 with hng | hnn
  · rw [fileCall_seek_before hng] at heq
    have ho := Reply.offset.inj heq
    omega
  · obtain ⟨u, hu⟩ := Int.eq_ofNat_of_zero_le hnn
    rw [fileCall_seek f off .fromEnd hu] at heq
    have ho := Reply.offset.inj heq
    omega

theorem memSeek_end (h : Models m f) (off : UInt64) : Mimics heap m f (.seek off .fromEnd) := by
  have hsz := h.size_le
  have hcp := h.capacity
  have hlt := h.lt
  have ho : off.toNat < 2 ^ 64 := off.toNat_lt
  have hb : (f.base .fromEnd : ℤ) = f.size := rfl
  have hsu := wrapped_sum hlt ho
  set t := (m.data.size + off.toNat) % 2 ^ 64 with ht
  have htr : (toToff m.size + off.toNat) % 2 ^ 64 = t := by
    rw [hcp, toToff_natCast (by omega)]
  have hc : m.call heap (.seek off .fromEnd) = (m.growBy heap off.toNat (toTsize t)).map
      (m.settle fun m => (toToff m.size + off.toNat) % 2 ^ 64) := by
    rw [← htr]
    rfl
  have htl : t < 2 ^ 64 := Nat.mod_lt _ (by decide)
  by_cases hg : m.size < toTsize t
  · have hs : off.toNat < 2 ^ 63 ∧ 0 < off.toNat := by
      rcases toTsize_cases htl with heq | heq <;> rcases toTsize_cases ho with he' | he' <;> omega
    have hf : ¬ Fits heap m (.seek off .fromEnd) := by
      rw [Fits, toTsize_of_lt hs.1]
      omega
    exact memSeek_end_grow h hf hg hs.2 hs.1 hc
  · rw [MemTiff.growBy, if_neg hg] at hc
    have hc' : m.call heap (.seek off .fromEnd) = .ok (.offset t, m.moveTo t) := by
      rw [hc, ← htr]
      rfl
    rcases Nat.lt_or_ge f.size t with hby | hw
    · -- beyond the length
      have hf : ¬ Fits heap m (.seek off .fromEnd) := by
        rw [Fits, h.flen, hcp]
        omega
      exact stay_mimics h hf hc (by rwa [htr]) (by rwa [htr])
    · by_cases hsm : m.data.size = f.size
      · have hf : Fits heap m (.seek off .fromEnd) := by
          rw [Fits, h.flen, hcp]
          omega
        exact seek_mimics h hf (by rw [hb]; omega) hw hc'
      · -- within the length, but counted from elsewhere
        have hf : ¬ Fits heap m (.seek off .fromEnd) := by
          rw [Fits, h.flen, hcp]
          omega
        exact mimics_of_differs hf hc' (Or.inl (fileCall_fromEnd_ne hlt hsm h.size_lt hw))

theorem call_mimics (h : Models m f) (c : Call) : Mimics heap m f c := by
  cases c with
  | read size => exact memRead_step h size
  | write buf => exact memWrite_step h buf
  | seek off whence =>
    cases whence with
    | set => exact memSeek_set h off
    | cur => exact memSeek_cur h off
    | fromEnd => exact memSeek_end h off

theorem models_open {incsiz initsiz : Int64} (ho : MemTiff.memTiffOpen heap incsiz initsiz = some m) :
    Models m .empty := by
  obtain ⟨fresh, hr, rfl⟩ := Option.map_eq_some_iff.mp ho
  have hlt := heap.room_lt _ (by rw [hr]; rfl)
  refine ⟨rfl, rfl, le_rfl, ?_, Nat.zero_le _, hlt, fun p hp => absurd hp (Nat.not_lt_zero p)⟩
  have hl := (if initsiz = 0 then incsiz else initsiz).le_toInt
  have hh := (if initsiz = 0 then incsiz else initsiz).toInt_lt
  unfold toToff at hlt ⊢
  dsimp only
  omega

end

/-- **A `MEMTIFF` is a file exactly as long as its calls fit.** -/
theorem memTiff_iff (heap : Heap) (incsiz initsiz : Int64) (m : MemTiff)
    (hopen : MemTiff.memTiffOpen heap incsiz initsiz = some m) (calls : List Call) :
    (script (MemTiff.next heap) m calls).1 = (script fileNext .empty calls).1 ↔
      Allowed (Fits heap) (MemTiff.next heap) m calls :=
  script_eq_iff Models (fun _ _ c h => (call_mimics h c).same_iff) (fun _ _ c h => (call_mimics h c).models)
    (models_open hopen) calls

/-- A heap with room for every block. -/
def plenty : Heap where
  room n := if n < 2 ^ 63 then some fun _ => 0 else none
  room_lt n h := by
    split_ifs at h with hlt
    · exact hlt
    · cases h

/-- The block with which a TIFF begins. -/
def newTiff : MemTiff := ⟨⟨10240, fun _ => 0⟩, 10240, 10240, 0, 0⟩

theorem memTiff_corrected :
    Allowed (Fits plenty) (MemTiff.next plenty) newTiff
        [.write [73, 73, 42], .seek 1 .set, .write [74], .seek 0 .set, .read 9] ∧
      (script (MemTiff.next plenty) newTiff [.write [73, 73, 42], .seek 1 .set, .write [74], .seek 0 .set, .read 9]).1 =
        (script fileNext .empty [.write [73, 73, 42], .seek 1 .set, .write [74], .seek 0 .set, .read 9]).1 := by
  have ho : MemTiff.memTiffOpen plenty 10240 10240 = some newTiff := rfl
  have hf : Allowed (Fits plenty) (MemTiff.next plenty) newTiff
      [.write [73, 73, 42], .seek 1 .set, .write [74], .seek 0 .set, .read 9] := by decide
  exact ⟨hf, (memTiff_iff plenty 10240 10240 newTiff ho _).mpr hf⟩

theorem seek_end_capacity :
    (script (MemTiff.next plenty) newTiff [.write [73, 73, 42], .seek 0 .fromEnd]).1 ≠
        (script fileNext .empty [.write [73, 73, 42], .seek 0 .fromEnd]).1 ∧
      (script (MemTiff.next plenty) newTiff [.seek 8 .set]).1 ≠ (script fileNext .empty [.seek 8 .set]).1 := by
  decide

end Sipi.Formats
