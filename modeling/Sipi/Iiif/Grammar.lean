import Sipi.Theory.Reader

/-!
# The grammar of an image request

The IIIF Image API writes an image request as

    {prefix}/{identifier}/{region}/{size}/{rotation}/{quality}.{format}

This module states the grammar the server implements for the last four segments, as languages over characters;
`Sipi.Iiif.Parse` and `Sipi.Iiif.Classifier` hold the two hand-written recognisers against it.
-/

namespace Sipi.Iiif

open Sipi.Theory

/-- A string, as the list of its bytes. -/
abbrev Str := List Char

/-- The bytes of a text. -/
def txt (w : String) : Str := w.toList

namespace Grammar

/-- The language of one fixed word. -/
def word (w : String) : Language Char := {txt w}

/-- `digit+`. -/
def posint : Language Char := runs Char.isDigit

/-- `digit+ ('.' digit+)?`. -/
def posfloat : Language Char := posint * (1 + {['.']} * posint)

/-- Four fields of `L`, separated by commas. -/
def four (L : Language Char) : Language Char :=
  L * ({[',']} * (L * ({[',']} * (L * ({[',']} * L)))))

/-- `full`, `square`, four numbers or `pct:`. -/
def region : Language Char :=
  word "full" + word "square" + four posint + word "pct:" * four posfloat

/-- A size without its `^`. -/
def sizeForm : Language Char :=
  word "max" + word "pct:" * posfloat + posint * {[',']} + {[',']} * posint +
    (1 + {['!']}) * (posint * ({[',']} * posint))

/-- `"^"? size-form`. -/
def size : Language Char := (1 + {['^']}) * sizeForm

/-- `"!"? posfloat`. -/
def rotation : Language Char := (1 + {['!']}) * posfloat

/-- The qualities. -/
def quality : Language Char := word "color" + word "gray" + word "bitonal" + word "default"

/-- The formats the server can write. -/
def format : Language Char := word "jpg" + word "tif" + word "png" + word "jp2"

/-- `quality "." format`. -/
def qualityFormat : Language Char := quality * ({['.']} * format)

/-- Prefix, identifier and four parameters. -/
def IsImageRequest (parts : List Str) : Prop :=
  ∃ pre identifier reg sz rot qf, parts = pre ++ [identifier, reg, sz, rot, qf] ∧
    reg ∈ region ∧ sz ∈ size ∧ rot ∈ rotation ∧ qf ∈ qualityFormat

/-- The last segment is a quality and format. -/
def HasQualityFormat (parts : List Str) : Prop := ∃ pre qf, parts = pre ++ [qf] ∧ qf ∈ qualityFormat

/-- A region, a size and a rotation before the last. -/
def HasGeometry (parts : List Str) : Prop :=
  ∃ pre reg sz rot last, parts = pre ++ [reg, sz, rot, last] ∧ reg ∈ region ∧ sz ∈ size ∧ rot ∈ rotation

theorem mem_word {w : String} {s : Str} : s ∈ word w ↔ s = txt w := Iff.rfl

theorem begins_posint : Begins (fun c => c.isDigit = true) posint := begins_runs _

theorem begins_posfloat : Begins (fun c => c.isDigit = true) posfloat := begins_posint.mul _

theorem begins_pair : Begins (fun c => c.isDigit = true) (posint * ({[',']} * posint)) := begins_posint.mul _

theorem stops_sizeForm : Stops (· ≠ '^') sizeForm := by
  have hd : ∀ c : Char, c.isDigit = true → c ≠ '^' := by
    rintro c hc rfl
    exact absurd hc (by decide)
  refine stops_add (stops_add (stops_add (stops_add ?_ ?_) ?_) ?_) ?_
  · exact (begins_word _ (by decide)).stops
  · exact ((begins_word _ (by decide)).mul _).stops
  · exact ((begins_posint.mono hd).mul _).stops
  · exact ((begins_word _ (by decide)).mul _).stops
  · rw [add_mul, one_mul]
    exact stops_add (begins_pair.mono hd).stops ((begins_word _ (by decide)).mul _).stops

theorem avoids_posint : Avoids '%' posint := avoids_runs (by decide)

theorem avoids_posfloat : Avoids '%' posfloat :=
  avoids_posint.mul ((avoids_one _).add ((avoids_word (by decide)).mul avoids_posint))

theorem avoids_four {L : Language Char} (h : Avoids '%' L) : Avoids '%' (four L) := by
  have hc : Avoids '%' ({[',']} : Language Char) := avoids_word (by decide)
  exact h.mul (hc.mul (h.mul (hc.mul (h.mul (hc.mul h)))))

theorem avoids_region : Avoids '%' region :=
  (((avoids_word (by decide)).add (avoids_word (by decide))).add (avoids_four avoids_posint)).add
    ((avoids_word (by decide)).mul (avoids_four avoids_posfloat))

theorem avoids_sizeForm : Avoids '%' sizeForm := by
  have hc : Avoids '%' ({[',']} : Language Char) := avoids_word (by decide)
  have hb : Avoids '%' (1 + {['!']} : Language Char) := (avoids_one _).add (avoids_word (by decide))
  exact ((((avoids_word (by decide)).add ((avoids_word (by decide)).mul avoids_posfloat)).add
    (avoids_posint.mul hc)).add (hc.mul avoids_posint)).add
      (hb.mul (avoids_posint.mul (hc.mul avoids_posint)))

theorem avoids_size : Avoids '%' size := ((avoids_one _).add (avoids_word (by decide))).mul avoids_sizeForm

theorem avoids_rotation : Avoids '%' rotation := ((avoids_one _).add (avoids_word (by decide))).mul avoids_posfloat

theorem avoids_qualityFormat : Avoids '%' qualityFormat := by
  have hq : Avoids '%' quality :=
    (((avoids_word (by decide)).add (avoids_word (by decide))).add (avoids_word (by decide))).add
      (avoids_word (by decide))
  have hf : Avoids '%' format :=
    (((avoids_word (by decide)).add (avoids_word (by decide))).add (avoids_word (by decide))).add
      (avoids_word (by decide))
  exact hq.mul ((avoids_word (by decide)).mul hf)

end Grammar

end Sipi.Iiif
