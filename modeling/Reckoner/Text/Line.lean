/-!
# Lines of bytes

Input arrives as bytes. A line reaches through its newline, or to the end of the input where no
newline follows; it is text only if its bytes are well-formed UTF-8.

* `takeLine` — the first line and what follows it.
* `lines` — all lines. `flatten_lines`: put together they are the input again.
* `decodeUtf8` — the text of some bytes. `decodeUtf8_toUTF8`: each text is had back from its bytes.
-/

set_option autoImplicit false

namespace Reckoner

/-- A sequence of bytes, first byte first. -/
abbrev Bytes := List UInt8

/-- The byte that ends a line. -/
def newline : UInt8 := 10

/-- The first line, its newline included, and the bytes after it. -/
def takeLine : Bytes → Bytes × Bytes
  | [] => ([], [])
  | b :: bs =>
    if b = newline then ([b], bs)
    else
      let (line, rest) := takeLine bs
      (b :: line, rest)

theorem takeLine_append (bs : Bytes) : (takeLine bs).1 ++ (takeLine bs).2 = bs := by
  induction bs with
  | nil => rfl
  | cons b bs ih =>
    unfold takeLine
    split
    · rfl
    · exact congrArg (b :: ·) ih

theorem takeLine_cons_ne_nil (b : UInt8) (bs : Bytes) : (takeLine (b :: bs)).1 ≠ [] := by
  unfold takeLine
  split <;> simp

/-- Beyond the first line there is less than before. -/
theorem length_takeLine_lt (b : UInt8) (bs : Bytes) :
    (takeLine (b :: bs)).2.length < (b :: bs).length := by
  have happ := congrArg List.length (takeLine_append (b :: bs))
  have hpos := List.length_pos_iff.mpr (takeLine_cons_ne_nil b bs)
  rw [List.length_append] at happ
  omega

/-- The lines of the input, each with its newline; a rest without newline is the last line. -/
def lines (bs : Bytes) : List Bytes :=
  match bs with
  | [] => []
  | b :: bs => (takeLine (b :: bs)).1 :: lines (takeLine (b :: bs)).2
termination_by bs.length
decreasing_by exact length_takeLine_lt b bs

/-- Put together, the lines are the input. -/
theorem flatten_lines (bs : Bytes) : (lines bs).flatten = bs := by
  fun_induction lines bs with
  | case1 => rfl
  | case2 b bs ih => rw [List.flatten_cons, ih, takeLine_append]

/-- The text that the bytes encode in UTF-8, if they are well-formed. -/
def decodeUtf8 (bs : Bytes) : Option String :=
  String.fromUTF8? ⟨bs.toArray⟩

/-- The bytes of a text decode to the text. -/
theorem decodeUtf8_toUTF8 (text : String) : decodeUtf8 text.toUTF8.data.toList = some text := by
  unfold decodeUtf8 String.fromUTF8?
  rw [Array.toArray_toList, String.toUTF8_eq_toByteArray, dif_pos text.isValidUTF8]
  rfl

/-- What is said of a line whose bytes are not well-formed. -/
def malformedUtf8 : String := "stream did not contain valid UTF-8"

end Reckoner
