import SyntaxMarkup.Json.Token

namespace SyntaxMarkup.Json

/-- A container that is still open. The tokens of a text drive a stack of these. -/
inductive Frame where
  | array (items : List Json)
  | object (members : Members)
  /-- An object whose next value belongs to `key`. -/
  | member (members : Members) (key : String)

inductive Expectation where
  | value
  | valueOrClose
  | key
  | keyOrClose
  | colon (key : String)
  | commaOrClose
  | nothing (value : Json)

structure Reader where
  /-- The open containers, innermost first. -/
  frames : List Frame
  expected : Expectation

namespace Reader

def start : Reader := ⟨[], .value⟩

def deliver? (value : Json) : List Frame → Option Reader
  | [] => some ⟨[], .nothing value⟩
  | .array items :: frames => some ⟨.array (value :: items) :: frames, .commaOrClose⟩
  | .member members key :: frames =>
    some ⟨.object (members.insert key value) :: frames, .commaOrClose⟩
  | .object _ :: _ => none

/-- Opens a container unless `limit` of them are open. -/
def open? (limit : Option Nat) (frames : List Frame) (frame : Frame) (expected : Expectation) :
    Option Reader :=
  match limit with
  | some limit => if frames.length < limit then some ⟨frame :: frames, expected⟩ else none
  | none => some ⟨frame :: frames, expected⟩

def value? (limit : Option Nat) (frames : List Frame) : Token → Option Reader
  | .openArray => open? limit frames (.array []) .valueOrClose
  | .openObject => open? limit frames (.object []) .keyOrClose
  | .text s => deliver? (.string s) frames
  | .scalar v => deliver? v frames
  | _ => none

def step? (limit : Option Nat) (reader : Reader) (token : Token) : Option Reader :=
  match reader.expected, token, reader.frames with
  | .value, token, frames => value? limit frames token
  | .valueOrClose, .closeArray, .array _ :: frames => deliver? (.array []) frames
  | .valueOrClose, token, frames => value? limit frames token
  | .key, .text key, frames => some ⟨frames, .colon key⟩
  | .keyOrClose, .text key, frames => some ⟨frames, .colon key⟩
  | .keyOrClose, .closeObject, .object _ :: frames => deliver? (.object []) frames
  | .colon key, .colon, .object members :: frames => some ⟨.member members key :: frames, .value⟩
  | .commaOrClose, .comma, .array items :: frames => some ⟨.array items :: frames, .value⟩
  | .commaOrClose, .comma, .object members :: frames => some ⟨.object members :: frames, .key⟩
  | .commaOrClose, .closeArray, .array items :: frames =>
    deliver? (.array items.reverse) frames
  | .commaOrClose, .closeObject, .object members :: frames => deliver? (.object members) frames
  | _, _, _ => none

def finish? (reader : Reader) : Option Json :=
  match reader.expected with
  | .nothing value => some value
  | _ => none

end Reader

/-- The value that a text denotes, with at most `limit` containers open at once. -/
def read? (limit : Option Nat) (text : String) : Option Json := do
  let tokens ← Token.all? text.toList
  let reader ← tokens.foldlM (Reader.step? limit) Reader.start
  reader.finish?

def documentLimit : Nat := 127

def readDocument? (text : String) : Option Json :=
  read? (some documentLimit) text

end SyntaxMarkup.Json
