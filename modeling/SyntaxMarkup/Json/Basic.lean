import SyntaxMarkup.Decimal.Binary64

namespace SyntaxMarkup

open Decimal

/-- A number is an integer if it was written as one and fits 64 bits. -/
inductive Number where
  | integer (value : Int)
  | float (value : Binary64)
  deriving DecidableEq, Repr

/-- The members of an object are kept in the order of their keys, each key once. -/
inductive Json where
  | null
  | bool (value : Bool)
  | number (value : Number)
  | string (value : String)
  | array (items : List Json)
  | object (members : List (String × Json))

namespace Json

abbrev Members := List (String × Json)

/-- Adds a member at its place; a later value replaces an earlier one. -/
def Members.insert (key : String) (value : Json) : Members → Members
  | [] => [(key, value)]
  | (k, v) :: rest =>
    if key < k then (key, value) :: (k, v) :: rest
    else if key = k then (key, value) :: rest
    else (k, v) :: Members.insert key value rest

/-- The object with the given members, of which the last of a key counts. -/
def ofMembers (members : List (String × Json)) : Json :=
  .object (members.foldl (fun all (key, value) => Members.insert key value all) [])

def ofNat (n : Nat) : Json := .number (.integer n)

def ofOption {α : Type} (encode : α → Json) : Option α → Json
  | none => .null
  | some a => encode a

def ofList {α : Type} (encode : α → Json) (items : List α) : Json :=
  .array (items.map encode)

def isNull : Json → Bool
  | .null => true
  | _ => false

def asBool? : Json → Option Bool
  | .bool b => some b
  | _ => none

def asString? : Json → Option String
  | .string s => some s
  | _ => none

def asArray? : Json → Option (List Json)
  | .array items => some items
  | _ => none

def asObject? : Json → Option Members
  | .object members => some members
  | _ => none

def asNat? : Json → Option Nat
  | .number (.integer (.ofNat n)) => some n
  | _ => none

def member? (value : Json) (key : String) : Option Json :=
  value.asObject?.bind (·.lookup key)

end Json

end SyntaxMarkup
