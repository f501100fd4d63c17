import SyntaxMarkup.Json.Basic

namespace SyntaxMarkup.Json

open Decimal

def isNumeralChar (c : Char) : Bool :=
  c.isDigit || c == '-' || c == '+' || c == '.' || c == 'e' || c == 'E'

structure Numeral where
  negative : Bool
  whole : List Char
  fraction : List Char
  exponentNegative : Bool
  exponent : List Char

/-- The exponent part, which is empty or holds a digit. -/
def readExponent? : List Char → Option (Bool × List Char)
  | [] => some (false, [])
  | mark :: rest =>
    let (negative, digits) := match rest with
      | '-' :: digits => (true, digits)
      | '+' :: digits => (false, digits)
      | digits => (false, digits)
    if (mark == 'e' || mark == 'E') && !digits.isEmpty && digits.all Char.isDigit then
      some (negative, digits)
    else none

/-- Splits a numeral by the grammar of JSON: no zero before another digit, and a digit on both
sides of the point. -/
def Numeral.read? (text : List Char) : Option Numeral :=
  let (negative, rest) := match text with
    | '-' :: rest => (true, rest)
    | rest => (false, rest)
  let whole := rest.takeWhile Char.isDigit
  let rest := rest.dropWhile Char.isDigit
  let (pointed, fraction, rest) := match rest with
    | '.' :: rest => (true, rest.takeWhile Char.isDigit, rest.dropWhile Char.isDigit)
    | rest => (false, [], rest)
  if whole.isEmpty || (1 < whole.length && whole.head? == some '0') ||
      (pointed && fraction.isEmpty) then none
  else
    (readExponent? rest).map fun (exponentNegative, exponent) =>
      ⟨negative, whole, fraction, exponentNegative, exponent⟩

def digitValue (c : Char) : Nat := c.toNat - '0'.toNat

def digitsValue (digits : List Char) : Nat :=
  digits.foldl (fun n c => n * 10 + digitValue c) 0

def greatestSignificand : Nat := 1 <<< 64 - 1

/-- Appends digits before the point as long as the significand fits; each of the others raises
the exponent. -/
def appendWhole (significand : Nat) : List Char → Nat × Int
  | [] => (significand, 0)
  | c :: rest =>
    if significand * 10 + digitValue c ≤ greatestSignificand then
      appendWhole (significand * 10 + digitValue c) rest
    else (significand, (c :: rest).length)

/-- Appends digits after the point as long as the significand fits; the others do not count. -/
def appendFraction (significand : Nat) (exponent : Int) : List Char → Nat × Int
  | [] => (significand, exponent)
  | c :: rest =>
    if significand * 10 + digitValue c ≤ greatestSignificand then
      appendFraction (significand * 10 + digitValue c) (exponent - 1) rest
    else (significand, exponent)

namespace Numeral

/-- The integer that a numeral without fraction and exponent denotes, if it fits 64 bits; a
negative zero is none. -/
def integer? (n : Numeral) : Option Int :=
  let value := digitsValue n.whole
  if !n.fraction.isEmpty || !n.exponent.isEmpty then none
  else if n.negative then if 0 < value ∧ value ≤ 1 <<< 63 then some (-value) else none
  else if value ≤ greatestSignificand then some value else none

def float? (n : Numeral) : Option Binary64 :=
  let (significand, exponent) := appendWhole 0 n.whole
  let (significand, exponent) := appendFraction significand exponent n.fraction
  let shift : Int := digitsValue n.exponent
  let exponent := if n.exponentNegative then exponent - shift else exponent + shift
  (Binary64.ofDecimal? significand exponent).map fun x => { x with negative := n.negative }

end Numeral

end Json

/-- An integer that fits 64 bits is kept; any other numeral is read as a significand of at most 64
bits times a power of ten. -/
def Number.read? (text : List Char) : Option Number :=
  (Json.Numeral.read? text).bind fun n =>
    match n.integer? with
    | some value => some (.integer value)
    | none => n.float?.map .float

end SyntaxMarkup
