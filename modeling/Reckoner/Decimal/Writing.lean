import Reckoner.Decimal.Digits

/-!
# Writing doubles

A double is written with the fewest digits that read back. From `0.0001` up to, but not including,
`10 ^ 16` the point stands in its place and at least one digit follows it (`7.0`, `0.0001`); other
magnitudes have one digit before the point and an exponent without plus sign (`1e16`, `9.9e-5`).
Zero keeps its sign. What is not finite is `inf`, `-inf` or `NaN`.
-/

set_option autoImplicit false

namespace Reckoner.Decimal

/-- The point is written in its place for a leading digit of at least this power of ten ... -/
def leastPlain : Int := -4

/-- ... and of less than this one. -/
def leastScientific : Int := 16

/-- `count` zeros. -/
def zeros (count : Nat) : List Char :=
  List.replicate count '0'

/-- Digits with the point in its place, which is behind the first `point` of them: in front of all of
    them, and zeros between, if `point` is not positive. -/
def plain (digits : List Char) (point : Int) : List Char :=
  if point ≤ 0 then '0' :: '.' :: (zeros (-point).toNat ++ digits)
  else if digits.length ≤ point.toNat then digits ++ zeros (point.toNat - digits.length) ++ ['.', '0']
  else digits.take point.toNat ++ '.' :: digits.drop point.toNat

/-- Digits with the point behind the first of them, and the power of ten of that digit. -/
def scientific (digits : List Char) (power : Int) : List Char :=
  let mantissa :=
    match digits with
    | [] => []
    | [d] => [d]
    | d :: fraction => d :: '.' :: fraction
  mantissa ++ 'e' :: (toString power).toList

/-- The text of a decimal. -/
def Scaled.write (d : Scaled) : List Char :=
  let digits := (toString d.coefficient).toList
  let point := digits.length + d.exponent
  if leastPlain < point ∧ point ≤ leastScientific then plain digits point
  else scientific digits (point - 1)

/-- The text of a double that is not negative. -/
def writeMagnitude (x : Float) : List Char :=
  if x.isInf then ['i', 'n', 'f']
  else if x == 0.0 then ['0', '.', '0']
  else (Interval.ofBits x.toBits).shortest.write

/-- The text of a double. -/
def write (x : Float) : String :=
  if x.isNaN then "NaN"
  else if x.toBits >>> 63 == 1 then String.ofList ('-' :: writeMagnitude (-x))
  else String.ofList (writeMagnitude x)

end Reckoner.Decimal
