import SyntaxMarkup.Json.Basic
import SyntaxMarkup.Text.Blank
import SyntaxMarkup.Text.Vocabulary

namespace SyntaxMarkup

inductive SourceType where
  | module
  | script
  deriving DecidableEq, Repr

namespace SourceType

def word : SourceType → String
  | .module => "module"
  | .script => "script"

instance : Vocabulary SourceType where
  all := [module, script]
  word
  mem_all a := by cases a <;> decide
  words_nodup := by decide

/-- The source type that a text names; white space around the name does not count. Other text is
given back without that white space. -/
def ofText (text : String) : Except String SourceType :=
  let name := Text.trim text
  match Vocabulary.ofWord? name with
  | some sourceType => .ok sourceType
  | none => .error name

def unknownMessage (name : String) : String :=
  "unknown source type `" ++ name ++ "`, expected `module` or `script`"

end SourceType

structure ParseOptions where
  ecmaVersion : Nat := 2022
  sourceType : SourceType := .module
  deriving DecidableEq, Repr

structure RenderOptions where
  indent : String := "  "
  pathSeparator : String := " > "
  deriving DecidableEq, Repr

namespace SourceType

/-- The name of a source type, also as the only key of an object that holds null. -/
def ofJson? : Json → Option SourceType
  | .string name => Vocabulary.ofWord? name
  | .object [(name, .null)] => Vocabulary.ofWord? name
  | _ => none

end SourceType

namespace ParseOptions

def greatestEdition : Nat := 65535

/-- An edition is a natural number of sixteen bits. -/
def edition? (value : Json) : Option Nat :=
  value.asNat?.filter (· ≤ greatestEdition)

/-- An object with both settings, whose other members do not count, or both in an array. -/
def ofJson? (value : Json) : Option ParseOptions := do
  let (edition, sourceType) ← match value with
    | .object members =>
      (members.lookup "ecmaVersion").bind fun edition =>
        (members.lookup "sourceType").map (edition, ·)
    | .array [edition, sourceType] => some (edition, sourceType)
    | _ => none
  return ⟨← edition? edition, ← SourceType.ofJson? sourceType⟩

end ParseOptions

namespace RenderOptions

def setting? (default : String) : Option Json → Option String
  | none => some default
  | some value => value.asString?

def ofJson? (value : Json) : Option RenderOptions := do
  let (indent, pathSeparator) ← match value with
    | .object members => some (members.lookup "indent", members.lookup "pathSeparator")
    | .array [] => some (none, none)
    | .array [indent] => some (some indent, none)
    | .array [indent, pathSeparator] => some (some indent, some pathSeparator)
    | _ => none
  let usual : RenderOptions := {}
  return ⟨← setting? usual.indent indent, ← setting? usual.pathSeparator pathSeparator⟩

end RenderOptions

end SyntaxMarkup
