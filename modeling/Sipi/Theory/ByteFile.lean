import Sipi.Theory.Buffers

/-!
# A growable file

The file that a program reads, writes and seeks in. A read stops at the end.
-/

namespace Sipi.Theory

section
variable {α : Type}

/-- The cells `l`, put at the place `p` over others. -/
def overlay (p : ℕ) (l : List α) (get : ℕ → α) (q : ℕ) : α := if p ≤ q then l[q - p]?.getD (get q) else get q

theorem overlay_of_mem {p q : ℕ} {l : List α} (h : p ≤ q) (hq : q < p + l.length) (get get' : ℕ → α) :
    overlay p l get q = overlay p l get' q := by
  rw [overlay, overlay, if_pos h, if_pos h, List.getElem?_eq_getElem (by omega), Option.getD_some, Option.getD_some]

theorem overlay_congr {p q : ℕ} {l : List α} {get get' : ℕ → α} (h : get q = get' q) :
    overlay p l get q = overlay p l get' q := by
  rw [overlay, overlay, h]

/-- `n` cells from the place `p` on. -/
def Buffer.slice (b : Buffer α) (p n : ℕ) : List α := (List.range n).map fun i => b.get (p + i)

@[simp] theorem Buffer.length_slice (b : Buffer α) (p n : ℕ) : (b.slice p n).length = n := by simp [slice]

theorem Buffer.slice_congr {a b : Buffer α} {p n : ℕ} (h : ∀ q, p ≤ q → q < p + n → a.get q = b.get q) :
    a.slice p n = b.slice p n := by
  refine List.map_congr_left fun i hi => ?_
  rw [List.mem_range] at hi
  exact h (p + i) (by omega) (by omega)

end

/-- Where a seek counts from. -/
inductive Whence where
  | set
  | cur
  | fromEnd
  deriving DecidableEq

/-- A file. -/
structure ByteFile (α : Type) where
  content : Buffer α
  pos : ℕ

namespace ByteFile

variable {α : Type}

/-- How long it is. -/
def size (f : ByteFile α) : ℕ := f.content.size

/-- A read stops at the end. -/
def read (f : ByteFile α) (n : ℕ) : List α × ByteFile α :=
  (f.content.slice f.pos (min n (f.size - f.pos)), { f with pos := f.pos + min n (f.size - f.pos) })

/-- The place from which a seek counts. -/
def base (f : ByteFile α) : Whence → ℕ
  | .set => 0
  | .cur => f.pos
  | .fromEnd => f.size

/-- A seek fails before the start. -/
def seek (f : ByteFile α) (off : ℤ) (whence : Whence) : Option (ByteFile α) :=
  if f.base whence + off < 0 then none else some { f with pos := (f.base whence + off).toNat }

variable [Zero α]

/-- An empty file. -/
def empty : ByteFile α := ⟨.const 0 0, 0⟩

/-- A write, which fills the gap before it. -/
def write (f : ByteFile α) (l : List α) : ByteFile α :=
  if l = [] then f
  else
    ⟨⟨max f.size (f.pos + l.length), overlay f.pos l fun q => if q < f.size then f.content.get q else 0⟩,
      f.pos + l.length⟩

theorem size_write (f : ByteFile α) {l : List α} (hl : l ≠ []) : (f.write l).size = max f.size (f.pos + l.length) := by
  rw [write, if_neg hl]
  rfl

end ByteFile

end Sipi.Theory
