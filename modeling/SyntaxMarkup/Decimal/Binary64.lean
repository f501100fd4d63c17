namespace SyntaxMarkup.Decimal

/-- The number `significand * 2 ^ exponent`, negated if `negative`. -/
structure Binary64 where
  negative : Bool
  significand : Nat
  exponent : Int
  deriving DecidableEq, Repr

/-- `num / den` as an integer; a half goes to the even neighbour. -/
def roundDiv (num den : Nat) : Nat :=
  let quotient := num / den
  let remainder := num % den
  if den < 2 * remainder || (2 * remainder == den && quotient % 2 == 1) then quotient + 1
  else quotient

namespace Binary64

def leastExponent : Int := -1074

def greatestExponent : Int := 971

/-- `num / den / 2 ^ exponent` as a fraction of natural numbers. -/
def scaled (num den : Nat) (exponent : Int) : Nat × Nat :=
  (num <<< (-exponent).toNat, den <<< exponent.toNat)

/-- The exponent at which `num / den` has 53 bits before the binary point, or the least one. -/
def exponentOf (num den : Nat) : Int :=
  let guess : Int := (Nat.log2 num : Int) - (Nat.log2 den : Int) - 52
  let (n, d) := scaled num den guess
  max leastExponent (if n / d < 1 <<< 52 then guess - 1 else guess)

/-- The number nearest to `num / den`, unless that is too large. -/
def nearest (num den : Nat) : Option Binary64 :=
  if num = 0 then some ⟨false, 0, leastExponent⟩
  else
    let exponent := exponentOf num den
    let (n, d) := scaled num den exponent
    let rounded := roundDiv n d
    let (significand, exponent) :=
      if rounded = 1 <<< 53 then (1 <<< 52, exponent + 1) else (rounded, exponent)
    if greatestExponent < exponent then none else some ⟨false, significand, exponent⟩

def num (x : Binary64) : Nat := x.significand <<< x.exponent.toNat

def den (x : Binary64) : Nat := 1 <<< (-x.exponent).toNat

def mul? (x y : Binary64) : Option Binary64 :=
  nearest (x.num * y.num) (x.den * y.den)

def div? (x y : Binary64) : Option Binary64 :=
  nearest (x.num * y.den) (x.den * y.num)

def powerOfTen? (exponent : Nat) : Option Binary64 :=
  nearest (Nat.pow 10 exponent) 1

def greatestPowerOfTen : Nat := 308

/-- Multiplies or divides a magnitude by a power of ten, rounding once for each power in range;
there is no result above the largest number. -/
def scaleByTen? (x : Binary64) (exponent : Int) : Option Binary64 :=
  if 0 ≤ exponent then
    if greatestPowerOfTen < exponent.toNat then
      if x.significand = 0 then some x else none
    else (powerOfTen? exponent.toNat).bind x.mul?
  else if (-exponent).toNat ≤ greatestPowerOfTen then
    (powerOfTen? (-exponent).toNat).bind x.div?
  else if x.significand = 0 then some x
  else
    ((powerOfTen? greatestPowerOfTen).bind x.div?).bind
      (·.scaleByTen? (exponent + greatestPowerOfTen))
termination_by (-exponent).toNat
decreasing_by
  simp only [greatestPowerOfTen] at *
  omega

/-- A significand times a power of ten: the significand is rounded first. -/
def ofDecimal? (significand : Nat) (exponent : Int) : Option Binary64 :=
  (nearest significand 1).bind (·.scaleByTen? exponent)

def neg (x : Binary64) : Binary64 :=
  { x with negative := !x.negative }

end Binary64

end SyntaxMarkup.Decimal
