/-!
# Reading decimal numbers

The numerals: an optional sign; digits, of which at least one, with an optional point among, before
or after them; an optional exponent. Besides these, `inf`, `infinity` and `nan` in any mixture of
cases, with or without a sign. A numeral stands for the double nearest to its exact value, of two
equally near for the one with an even last bit; beyond the largest double that is infinity.

* `read` — the double a text stands for, or why there is none. The text is taken whole: blanks are
  not skipped.
-/

set_option autoImplicit false

namespace Reckoner.Decimal

/-- Why a text is not a numeral. -/
inductive Flaw where
  | empty
  | invalid
  deriving DecidableEq, Repr

/-- What is said of such a text. -/
def Flaw.message : Flaw → String
  | .empty => "cannot parse float from empty string"
  | .invalid => "invalid float literal"

/-- The number that a decimal digit stands for. -/
def digitValue (c : Char) : Nat :=
  c.toNat - '0'.toNat

/-- The number that a row of digits stands for, most significant digit first. -/
def digitsValue (digits : List Char) : Nat :=
  digits.foldl (fun n c => 10 * n + digitValue c) 0

/-- The size of an exponent. Once it has reached 65536, far beyond the range of doubles, further digits
    no longer change it. -/
def exponentSize (digits : List Char) : Nat :=
  digits.foldl (fun n c => if n < 65536 then 10 * n + digitValue c else n) 0

/-- The double nearest to `coefficient * 10 ^ exponent`. -/
def nearest (coefficient : Nat) (exponent : Int) : Float :=
  Float.ofScientific coefficient (decide (exponent < 0)) exponent.natAbs

/-- A sign in front of a text, and the rest: `true` for minus. -/
def splitSign : List Char → Bool × List Char
  | '-' :: s => (true, s)
  | '+' :: s => (false, s)
  | s => (false, s)

/-- The exponent that ends a numeral; nothing at all is the exponent 0. -/
def readExponent? : List Char → Option Int
  | [] => some 0
  | mark :: s =>
    if mark = 'e' ∨ mark = 'E' then
      let (negative, digits) := splitSign s
      if digits ≠ [] ∧ digits.all Char.isDigit then
        some (if negative then -(exponentSize digits : Int) else exponentSize digits)
      else none
    else none

/-- The digits after a point, and what follows them; without a point there are none. -/
def splitFraction : List Char → List Char × List Char
  | '.' :: s => (s.takeWhile Char.isDigit, s.dropWhile Char.isDigit)
  | s => ([], s)

/-- The double of a numeral that is written with digits and has no sign. -/
def readDigits? (s : List Char) : Option Float :=
  let whole := s.takeWhile Char.isDigit
  let (fraction, rest) := splitFraction (s.dropWhile Char.isDigit)
  if whole = [] ∧ fraction = [] then none
  else
    match readExponent? rest with
    | none => none
    | some exponent => some (nearest (digitsValue (whole ++ fraction)) (exponent - fraction.length))

/-- Positive infinity. -/
def infinity : Float := 1.0 / 0.0

/-- The value that is no number. -/
def notANumber : Float := 0.0 / 0.0

/-- The double of a numeral that is written as a word. -/
def readWord? (s : List Char) : Option Float :=
  match String.ofList (s.map Char.toLower) with
  | "inf" => some infinity
  | "infinity" => some infinity
  | "nan" => some notANumber
  | _ => none

/-- The double of a numeral without a sign. -/
def readUnsigned? (s : List Char) : Option Float :=
  match readWord? s with
  | some value => some value
  | none => readDigits? s

/-- The double that the text stands for. -/
def read (s : List Char) : Except Flaw Float :=
  if s = [] then .error .empty
  else
    let (negative, body) := splitSign s
    match readUnsigned? body with
    | none => .error .invalid
    | some value => .ok (if negative then -value else value)

end Reckoner.Decimal
