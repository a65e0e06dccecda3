/-!
# The fewest digits that read back

A double stands for every real number that is rounded to it; these numbers form an interval around
it. Among the decimals in that interval one with the fewest digits is chosen, and among those the
nearest to the double; of two equally near the larger one.

* `Interval.ofBits` — the interval of a positive finite double.
* `Interval.candidate?` — the choice among the multiples of one power of ten.
* `Interval.shortest` — the choice among all decimals: the coarsest grid of multiples that has a
  candidate gives the fewest digits.

All of it is exact arithmetic on natural numbers.
-/

set_option autoImplicit false

namespace Reckoner.Decimal

/-- The numbers that are rounded to one positive finite double, as multiples of `2 ^ unit`: from
    `low` to `high`, with the double itself at `middle`. The ends belong to it if it is `closed`. -/
structure Interval where
  low : Nat
  middle : Nat
  high : Nat
  unit : Int
  closed : Bool
  deriving DecidableEq, Repr

/-- The interval of the positive finite double with these bits. With the significand `m` the double
    is `4 * m` quarter steps; its interval ends half a step away, but only a quarter of a step below a
    power of two, where the doubles lie twice as close. The ends are rounded to an even `m`. -/
def Interval.ofBits (bits : UInt64) : Interval :=
  let field := ((bits >>> 52) &&& 0x7FF).toNat
  let fraction := (bits &&& 0xFFFFFFFFFFFFF).toNat
  let significand := if field = 0 then fraction else 0x10000000000000 + fraction
  let exponent : Int := if field = 0 then -1074 else field - 1075
  { low := 4 * significand - (if fraction = 0 ∧ 1 < field then 1 else 2)
    middle := 4 * significand
    high := 4 * significand + 2
    unit := exponent - 2
    closed := significand % 2 == 0 }

/-- The unit of the interval is `factor / divisor` times the unit `10 ^ grid`. -/
def Interval.factor (i : Interval) (grid : Int) : Nat :=
  Nat.pow 2 i.unit.toNat * Nat.pow 10 (-grid).toNat

/-- See `Interval.factor`. -/
def Interval.divisor (i : Interval) (grid : Int) : Nat :=
  Nat.pow 2 (-i.unit).toNat * Nat.pow 10 grid.toNat

/-- The `n`-th multiple of `10 ^ grid` lies in the interval. -/
def Interval.holds (i : Interval) (grid : Int) (n : Nat) : Bool :=
  let low := i.low * i.factor grid
  let high := i.high * i.factor grid
  let point := n * i.divisor grid
  if i.closed then low ≤ point && point ≤ high else low < point && point < high

/-- The nearest multiple of `10 ^ grid` in the interval, the upper one if two are equally near. Only
    the two multiples around the double come into question. -/
def Interval.candidate? (i : Interval) (grid : Int) : Option Nat :=
  let middle := i.middle * i.factor grid
  let below := middle / i.divisor grid
  match i.holds grid below, i.holds grid (below + 1) with
  | false, false => none
  | true, false => some below
  | false, true => some (below + 1)
  | true, true =>
    if 2 * middle < (2 * below + 1) * i.divisor grid then some below else some (below + 1)

/-- The decimal `coefficient * 10 ^ exponent`. -/
structure Scaled where
  coefficient : Nat
  exponent : Int
  deriving DecidableEq, Repr

/-- A power of ten above the whole interval: with `high < 2 ^ b` it is enough that `top` exceeds
    `0.30103 * b`, because `0.30103` is the logarithm of two to five places, rounded up, and the
    exponents of doubles are too small for the difference to matter. -/
def Interval.top (i : Interval) : Int :=
  Int.fdiv ((i.high.log2 + 1 + i.unit) * 30103) 100000 + 1

/-- The double itself, all its digits written out. -/
def Interval.exact (i : Interval) : Scaled :=
  if 0 ≤ i.unit then ⟨i.middle * Nat.pow 2 i.unit.toNat, 0⟩
  else ⟨i.middle * Nat.pow 5 (-i.unit).toNat, i.unit⟩

/-- The decimal with the fewest digits in the interval. Seventeen digits always suffice; the grid is
    refined from the power of ten above the interval on. -/
def Interval.shortest (i : Interval) : Scaled :=
  let found := (List.range 20).findSome? fun (k : Nat) =>
    let grid := i.top - k
    (i.candidate? grid).map fun n => Scaled.mk n grid
  found.getD i.exact

end Reckoner.Decimal
