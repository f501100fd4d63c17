import SyntaxMarkup.Decimal.Binary64

namespace SyntaxMarkup.Decimal

def digits (n : Nat) : List Char :=
  Nat.toDigits 10 n

/-- The fractions between `low / den` and `high / den` round to the value `value / den`;
the ends do so if `closed`. -/
structure RoundingInterval where
  low : Nat
  value : Nat
  high : Nat
  den : Nat
  closed : Bool

namespace Binary64

/-- The fractions that round to a number other than zero. Below a power of two the neighbour is
half as far as above it. -/
def interval (x : Binary64) : RoundingInterval :=
  let up := 1 <<< (x.exponent - 2).toNat
  let narrow := x.significand = 1 <<< 52 ∧ leastExponent < x.exponent
  { low := (4 * x.significand - if narrow then 1 else 2) * up
    value := 4 * x.significand * up
    high := (4 * x.significand + 2) * up
    den := 1 <<< (2 - x.exponent).toNat
    closed := x.significand % 2 == 0 }

end Binary64

namespace RoundingInterval

def contains (i : RoundingInterval) (num den : Nat) : Bool :=
  if i.closed then i.low * den ≤ num * i.den && num * i.den ≤ i.high * den
  else i.low * den < num * i.den && num * i.den < i.high * den

/-- The exponent of the first digit of the value in scientific notation; values are above
`10 ^ (-400)`. -/
def scientificExponent (i : RoundingInterval) : Int :=
  (digits (i.value * Nat.pow 10 400 / i.den)).length - 401

/-- The decimal next to the value among the multiples of `10 ^ exponent` that round to it, as
its multiple; of two equally near the even one. -/
def onGrid? (i : RoundingInterval) (exponent : Int) : Option Nat :=
  let up := Nat.pow 10 exponent.toNat
  let down := Nat.pow 10 (-exponent).toNat
  let below := i.value * down / (i.den * up)
  let fits (n : Nat) : Bool := i.contains (n * up) down
  let past := 2 * (i.value * down) - 2 * (below * (i.den * up))
  let belowFirst := past < i.den * up || (past == i.den * up && below % 2 == 0)
  match fits below, fits (below + 1) with
  | true, true => some (if belowFirst then below else below + 1)
  | true, false => some below
  | false, true => some (below + 1)
  | false, false => none

end RoundingInterval

structure Scientific where
  digits : List Char
  exponent : Int
  deriving DecidableEq, Repr

namespace Scientific

def ofMultiple (multiple : Nat) (exponent : Int) : Scientific :=
  let all := Decimal.digits multiple
  ⟨(all.reverse.dropWhile (· == '0')).reverse, exponent + all.length - 1⟩

end Scientific

/-- The fewest digits that read back as a number other than zero; seventeen always do. -/
def shortest (x : Binary64) : Scientific :=
  let interval := x.interval
  let grids := (List.range 17).map fun (count : Nat) => interval.scientificExponent - count
  let found := grids.findSome? fun grid => (interval.onGrid? grid).map (·, grid)
  let (multiple, grid) := found.getD (0, 0)
  .ofMultiple multiple grid

end SyntaxMarkup.Decimal
