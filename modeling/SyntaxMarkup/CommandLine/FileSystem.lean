namespace SyntaxMarkup.CommandLine

inductive Entry where
  | file (content : ByteArray)
  | directory

instance : DecidableEq Entry
  | .file content, .file other =>
    decidable_of_iff (content.data = other.data) (by rw [← ByteArray.ext_iff, Entry.file.injEq])
  | .directory, .directory => .isTrue rfl
  | .file _, .directory | .directory, .file _ => .isFalse nofun

inductive Base where
  /-- The directory some steps above the working directory. -/
  | above (steps : Nat)
  | root
  deriving DecidableEq, Repr

structure Name where
  base : Base
  parts : List String
  deriving DecidableEq, Repr

/-- Entries by name. A directory need not be listed if something is in it. -/
structure FileSystem where
  entries : List (Name × Entry)

inductive FileFault where
  | absent
  | isDirectory
  | notADirectory
  | nameTooLong
  | notText
  | other (message : String)
  deriving DecidableEq, Repr

def FileFault.message : FileFault → String
  | absent => "No such file or directory (os error 2)"
  | isDirectory => "Is a directory (os error 21)"
  | notADirectory => "Not a directory (os error 20)"
  | nameTooLong => "File name too long (os error 36)"
  | notText => "stream did not contain valid UTF-8"
  | other message => message

def splitSlashes : List Char → List (List Char)
  | [] => [[]]
  | '/' :: rest => [] :: splitSlashes rest
  | c :: rest =>
    match splitSlashes rest with
    | [] => [[c]]
    | part :: others => (c :: part) :: others

def components (path : String) : List String :=
  (splitSlashes path.toList).map String.ofList

def longestComponent : Nat := 255

def longestPath : Nat := 4095

namespace Name

def below (parts : List String) : Name := ⟨.above 0, parts⟩

def origin (path : String) : Name :=
  if path.startsWith "/" then ⟨.root, []⟩ else below []

def parent : Name → Name
  | ⟨.above steps, []⟩ => ⟨.above (steps + 1), []⟩
  | ⟨.root, []⟩ => ⟨.root, []⟩
  | ⟨base, parts⟩ => ⟨base, parts.dropLast⟩

/-- Whether an entry is in a directory or in one of the directories in it. -/
def isInside (name directory : Name) : Bool :=
  name.base = directory.base && directory.parts.length < name.parts.length &&
    directory.parts.isPrefixOf name.parts

end Name

namespace FileSystem

/-- The entry of a name. A name without parts is that of a directory, and so is the name of
whatever something is in. -/
def entry? (files : FileSystem) (name : Name) : Option Entry :=
  if name.parts.isEmpty then some .directory
  else
    match files.entries.lookup name with
    | some entry => some entry
    | none => if files.entries.any (·.1.isInside name) then some .directory else none

def expectDirectory (files : FileSystem) (name : Name) : Except FileFault Unit :=
  match files.entry? name with
  | some .directory => .ok ()
  | some (.file _) => .error .notADirectory
  | none => .error .absent

/-- One step along a path from a directory: two points lead up and one point stays. -/
def enter (files : FileSystem) (directory : Name) (component : String) :
    Except FileFault Name := do
  files.expectDirectory directory
  if component = "" ∨ component = "." then return directory
  else if component = ".." then return directory.parent
  else if longestComponent < component.utf8ByteSize then throw .nameTooLong
  else return ⟨directory.base, directory.parts ++ [component]⟩

def walk (files : FileSystem) (start : Name) (components : List String) :
    Except FileFault Name :=
  components.foldlM files.enter start

def resolve (path : String) : Except FileFault (List String) :=
  if longestPath < path.utf8ByteSize then .error .nameTooLong else .ok (components path)

def read (files : FileSystem) (path : String) : Except FileFault ByteArray := do
  let name ← files.walk (.origin path) (← resolve path)
  match files.entry? name with
  | some (.file content) => return content
  | some .directory => throw .isDirectory
  | none => throw .absent

def put (files : FileSystem) (name : Name) (entry : Entry) : FileSystem :=
  ⟨files.entries.filter (·.1 != name) ++ [(name, entry)]⟩

/-- Writes a file, in place of an earlier one of that name. Its directory has to exist, and a path
that ends in a slash is taken for a directory. -/
def write (files : FileSystem) (path : String) (content : ByteArray) :
    Except FileFault FileSystem := do
  let parts ← resolve path
  let bare := (parts.reverse.dropWhile String.isEmpty).reverse
  let directory ← files.walk (.origin path) bare.dropLast
  files.expectDirectory directory
  match bare.getLast? with
  | none => throw .isDirectory
  | some component =>
    if bare.length < parts.length then throw .isDirectory
    let name ← files.enter directory component
    if files.entry? name = some .directory then throw .isDirectory
    return files.put name (.file content)

def changes (before after : FileSystem) : List (List String × ByteArray) :=
  after.entries.filterMap fun (name, entry) =>
    match entry with
    | .file content =>
      if name.base ≠ .above 0 ∨ before.entry? name = some (.file content) then none
      else some (name.parts, content)
    | .directory => none

end FileSystem

end SyntaxMarkup.CommandLine
