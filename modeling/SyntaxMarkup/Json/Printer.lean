import SyntaxMarkup.Json.Basic
import SyntaxMarkup.Decimal.NumberFormat

namespace SyntaxMarkup.Json

open Decimal

/-- Numbers from `0.00001` to below `10 ^ 16` are positional, an integral one with `.0`; the
exponent of the others has a sign. -/
def numberFormat : NumberFormat where
  leastPositional := -5
  greatestPositional := 15
  integralMark := ".0"
  positiveExponent := "e+"
  negativeExponent := "e-"

def writeNumber : Number → String
  | .integer value => toString value
  | .float value => numberFormat.write value

def hexDigit (n : Nat) : Char :=
  if n < 10 then Char.ofNat ('0'.toNat + n) else Char.ofNat ('a'.toNat + n - 10)

/-- A character inside a string: the quote, the backslash and control characters are escaped. -/
def escapeChar (c : Char) : List Char :=
  match c with
  | '"' => ['\\', '"']
  | '\\' => ['\\', '\\']
  | '\u0008' => ['\\', 'b']
  | '\u000c' => ['\\', 'f']
  | '\n' => ['\\', 'n']
  | '\r' => ['\\', 'r']
  | '\t' => ['\\', 't']
  | c =>
    if c < ' ' then ['\\', 'u', '0', '0', hexDigit (c.toNat / 16), hexDigit (c.toNat % 16)]
    else [c]

def writeString (text : String) : String :=
  "\"" ++ String.ofList (text.toList.flatMap escapeChar) ++ "\""

def writeScalar : Json → String
  | .null => "null"
  | .bool value => if value then "true" else "false"
  | .number value => writeNumber value
  | .string value => writeString value
  | _ => ""

mutual

def compact : Json → String
  | .array items => "[" ++ ",".intercalate (compactItems items) ++ "]"
  | .object members => "\x7b" ++ ",".intercalate (compactMembers members) ++ "\x7d"
  | .null => writeScalar .null
  | .bool value => writeScalar (.bool value)
  | .number value => writeScalar (.number value)
  | .string value => writeScalar (.string value)

def compactItems : List Json → List String
  | [] => []
  | item :: rest => item.compact :: compactItems rest

def compactMembers : List (String × Json) → List String
  | [] => []
  | (key, value) :: rest => (writeString key ++ ":" ++ value.compact) :: compactMembers rest

end

def newLine (level : Nat) : String :=
  "\n" ++ "".pushn ' ' (2 * level)

/-- Parts in brackets, each on a line of its own; nothing stands between the brackets if there
are no parts. -/
def bracketed (left : String) (parts : List String) (right : String) (level : Nat) : String :=
  if parts.isEmpty then left ++ right
  else
    left ++ ",".intercalate (parts.map (newLine (level + 1) ++ ·)) ++ newLine level ++ right

mutual

def pretty (level : Nat) : Json → String
  | .array items => bracketed "[" (prettyItems (level + 1) items) "]" level
  | .object members => bracketed "\x7b" (prettyMembers (level + 1) members) "\x7d" level
  | .null => writeScalar .null
  | .bool value => writeScalar (.bool value)
  | .number value => writeScalar (.number value)
  | .string value => writeScalar (.string value)

def prettyItems (level : Nat) : List Json → List String
  | [] => []
  | item :: rest => item.pretty level :: prettyItems level rest

def prettyMembers (level : Nat) : List (String × Json) → List String
  | [] => []
  | (key, value) :: rest =>
    (writeString key ++ ": " ++ value.pretty level) :: prettyMembers level rest

end

end SyntaxMarkup.Json
