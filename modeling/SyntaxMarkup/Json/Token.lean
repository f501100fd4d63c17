import SyntaxMarkup.Json.Numeral

namespace SyntaxMarkup.Json

inductive Token where
  | openArray
  | closeArray
  | openObject
  | closeObject
  | comma
  | colon
  | text (value : String)
  | scalar (value : Json)

def isSpace (c : Char) : Bool :=
  c == ' ' || c == '\t' || c == '\n' || c == '\r'

def hexDigit? (c : Char) : Option Nat :=
  if '0' ≤ c ∧ c ≤ '9' then some (c.toNat - '0'.toNat)
  else if 'a' ≤ c ∧ c ≤ 'f' then some (c.toNat - 'a'.toNat + 10)
  else if 'A' ≤ c ∧ c ≤ 'F' then some (c.toNat - 'A'.toNat + 10)
  else none

def hexUnit? (a b c d : Char) : Option Nat := do
  return ((← hexDigit? a) * 16 + (← hexDigit? b)) * 256 +
    ((← hexDigit? c) * 16 + (← hexDigit? d))

/-- The first unit of a pair that stands for one character. -/
def isHighUnit (unit : Nat) : Bool := 0xD800 ≤ unit && unit < 0xDC00

/-- The second unit of such a pair. -/
def isLowUnit (unit : Nat) : Bool := 0xDC00 ≤ unit && unit < 0xE000

def pairedChar (high low : Nat) : Char :=
  Char.ofNat (0x10000 + (high - 0xD800) * 0x400 + (low - 0xDC00))

def simpleEscape? : Char → Option Char
  | '"' => some '"'
  | '\\' => some '\\'
  | '/' => some '/'
  | 'b' => some '\u0008'
  | 'f' => some '\u000c'
  | 'n' => some '\n'
  | 'r' => some '\r'
  | 't' => some '\t'
  | _ => none

/-- Reads a string after its opening quote and gives the text that remains. `done` holds the
characters read so far, newest first, and `high` the first unit of a pair that is not complete. -/
def scanString (done : List Char) (high : Option Nat) :
    List Char → Option (String × List Char)
  | '\\' :: 'u' :: a :: b :: c :: d :: rest =>
    match hexUnit? a b c d, high with
    | some unit, some first =>
      if isLowUnit unit then scanString (pairedChar first unit :: done) none rest else none
    | some unit, none =>
      if isHighUnit unit then scanString done (some unit) rest
      else if isLowUnit unit then none
      else scanString (Char.ofNat unit :: done) none rest
    | none, _ => none
  | '\\' :: c :: rest =>
    match simpleEscape? c, high with
    | some e, none => scanString (e :: done) none rest
    | _, _ => none
  | c :: rest =>
    if high.isSome then none
    else if c == '"' then some (String.ofList done.reverse, rest)
    else if c < ' ' || c == '\\' then none
    else scanString (c :: done) none rest
  | [] => none

theorem scanString_shorter {done : List Char} {high : Option Nat} {text : List Char}
    {value : String} {rest : List Char} (h : scanString done high text = some (value, rest)) :
    rest.length < text.length := by
  fun_induction scanString done high text
  case case1 ih | case3 ih | case5 ih | case7 ih | case12 ih =>
    have := ih h
    simp only [List.length_cons]
    omega
  case case10 =>
    cases h
    exact Nat.lt_succ_self _
  all_goals exact nomatch h

def scanNumber (text : List Char) : Option (Number × List Char) :=
  (Number.read? (text.takeWhile isNumeralChar)).map (·, text.dropWhile isNumeralChar)

/-- The first token of a text that does not start with white space, and the rest. -/
def Token.first? : List Char → Option (Token × List Char)
  | '[' :: rest => some (.openArray, rest)
  | ']' :: rest => some (.closeArray, rest)
  | '\x7b' :: rest => some (.openObject, rest)
  | '\x7d' :: rest => some (.closeObject, rest)
  | ',' :: rest => some (.comma, rest)
  | ':' :: rest => some (.colon, rest)
  | '"' :: rest => (scanString [] none rest).map fun (value, rest) => (.text value, rest)
  | 'n' :: 'u' :: 'l' :: 'l' :: rest => some (.scalar .null, rest)
  | 't' :: 'r' :: 'u' :: 'e' :: rest => some (.scalar (.bool true), rest)
  | 'f' :: 'a' :: 'l' :: 's' :: 'e' :: rest => some (.scalar (.bool false), rest)
  | c :: rest =>
    if isNumeralChar c then
      (scanNumber (c :: rest)).map fun (value, rest) => (.scalar (.number value), rest)
    else none
  | [] => none

theorem scanNumber_shorter {c : Char} {text rest : List Char} {value : Number}
    (start : isNumeralChar c) (h : scanNumber (c :: text) = some (value, rest)) :
    rest.length < (c :: text).length := by
  obtain ⟨_, _, eq⟩ := Option.map_eq_some_iff.mp h
  rw [← (Prod.mk.inj eq).2, List.dropWhile_cons_of_pos start]
  exact Nat.lt_succ_of_le (List.dropWhile_sublist _).length_le

theorem Token.first?_shorter {text rest : List Char} {token : Token}
    (h : first? text = some (token, rest)) : rest.length < text.length := by
  unfold first? at h
  split at h
  case h_7 =>
    obtain ⟨_, hr, eq⟩ := Option.map_eq_some_iff.mp h
    cases eq
    exact Nat.lt_succ_of_lt (scanString_shorter hr)
  case h_11 =>
    split at h
    next start =>
      obtain ⟨_, hr, eq⟩ := Option.map_eq_some_iff.mp h
      cases eq
      exact scanNumber_shorter start hr
    next => exact nomatch h
  case h_12 => exact nomatch h
  all_goals
    cases h
    simp only [List.length_cons]
    omega

def Token.all? (text : List Char) : Option (List Token) :=
  match text with
  | [] => some []
  | c :: rest =>
    if isSpace c then all? rest
    else
      match _step : first? (c :: rest) with
      | none => none
      | some (token, rest) => (all? rest).map (token :: ·)
termination_by text.length
decreasing_by
  · simp
  · exact first?_shorter _step

end SyntaxMarkup.Json
