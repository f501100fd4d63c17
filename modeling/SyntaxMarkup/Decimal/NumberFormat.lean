import SyntaxMarkup.Decimal.Shortest

namespace SyntaxMarkup.Decimal

/-- Decimal text is positional for middling exponents and scientific for the others. -/
structure NumberFormat where
  /-- The least scientific exponent that is written positionally. -/
  leastPositional : Int
  greatestPositional : Int
  integralMark : String
  positiveExponent : String
  negativeExponent : String
  deriving DecidableEq, Repr

namespace NumberFormat

/-- Digits with a point after the first `whole` of them, padded with zeros where the point lies
outside the digits. -/
def positional (format : NumberFormat) (digits : List Char) (exponent : Int) : String :=
  if exponent < 0 then
    "0." ++ String.ofList (List.replicate ((-exponent).toNat - 1) '0' ++ digits)
  else
    let whole := exponent.toNat + 1
    let padded := digits ++ List.replicate (whole - digits.length) '0'
    let fraction := padded.drop whole
    String.ofList (padded.take whole) ++
      if fraction.isEmpty then format.integralMark else "." ++ String.ofList fraction

def scientific (format : NumberFormat) (digits : List Char) (exponent : Int) : String :=
  let fraction := digits.drop 1
  String.ofList (digits.take 1) ++
    (if fraction.isEmpty then "" else "." ++ String.ofList fraction) ++
    (if exponent < 0 then format.negativeExponent else format.positiveExponent) ++
    toString exponent.natAbs

/-- The text of a number by its fewest digits; zero keeps its sign. -/
def write (format : NumberFormat) (x : Binary64) : String :=
  let shape := if x.significand = 0 then ⟨['0'], 0⟩ else shortest x
  (if x.negative then "-" else "") ++
    if format.leastPositional ≤ shape.exponent ∧ shape.exponent ≤ format.greatestPositional then
      format.positional shape.digits shape.exponent
    else format.scientific shape.digits shape.exponent

end NumberFormat

end SyntaxMarkup.Decimal
