import SyntaxMarkup.Text.Vocabulary

namespace SyntaxMarkup.CommandLine

inductive Command where
  | render (path : String) (output stylesheet : Option String)
  | paths (path : String)
  | check (path : String)
  deriving DecidableEq, Repr

def Command.path : Command → String
  | render path _ _ => path
  | paths path => path
  | check path => path

inductive CommandName where
  | render
  | paths
  | check
  deriving DecidableEq, Repr

def CommandName.word : CommandName → String
  | render => "render"
  | paths => "paths"
  | check => "check"

instance : Vocabulary CommandName where
  all := [.render, .paths, .check]
  word := CommandName.word
  mem_all a := by cases a <;> decide
  words_nodup := by decide

inductive Topic where
  | program
  | command (name : CommandName)
  | help
  deriving DecidableEq, Repr

inductive Request where
  | run (command : Command)
  | help (topic : Topic)
  | version
  deriving DecidableEq, Repr

def versionNumber : String := "0.1.0"

def versionText : String := "squirrel-pie " ++ versionNumber ++ "\n"

def CommandName.about : CommandName → String
  | render => "Render an ESTree JSON file to a standalone HTML page"
  | paths => "Print the field path and type path of every node"
  | check => "Check that a file is a well-formed ESTree document"

def helpAbout : String := "Print this message or the help of the given subcommand(s)"

def fileHelp (name : CommandName) : String :=
  name.about ++ "\n\nUsage: squirrel-pie " ++ name.word ++
    " <PATH>\n\nArguments:\n  <PATH>  Input ESTree JSON file\n\n" ++
    "Options:\n  -h, --help  Print help\n"

def Topic.text : Topic → String
  | program =>
    "Render ESTree syntax trees as clickable, labelled markup\n\n" ++
    "Usage: squirrel-pie <COMMAND>\n\nCommands:\n" ++
    "  render  " ++ CommandName.render.about ++ "\n" ++
    "  paths   " ++ CommandName.paths.about ++ "\n" ++
    "  check   " ++ CommandName.check.about ++ "\n" ++
    "  help    " ++ helpAbout ++ "\n\n" ++
    "Options:\n  -h, --help     Print help\n  -V, --version  Print version\n"
  | command .render =>
    CommandName.render.about ++ "\n\nUsage: squirrel-pie render [OPTIONS] <PATH>\n\n" ++
    "Arguments:\n" ++
    "  <PATH>  Input ESTree JSON file (e.g. `acorn --ecma2022 src.js > src.json`)\n\n" ++
    "Options:\n" ++
    "  -o, --output <OUTPUT>          " ++
    "Output file; defaults to the input path with an .html extension\n" ++
    "      --stylesheet <STYLESHEET>  Stylesheet linked from the page\n" ++
    "  -h, --help                     Print help\n"
  | command name => fileHelp name
  | help =>
    helpAbout ++ "\n\nUsage: squirrel-pie help [COMMAND]...\n\nArguments:\n" ++
    "  [COMMAND]...  Print help for the subcommand(s)\n"

inductive Argument where
  /-- Two dashes: whatever follows is no option. -/
  | terminator
  | long (name : String) (value : Option String)
  | short (letters : List Char)
  | plain (text : String)
  deriving DecidableEq, Repr

/-- A single dash is plain. -/
def Argument.ofString (text : String) : Argument :=
  match text.toList with
  | ['-', '-'] => .terminator
  | '-' :: '-' :: rest =>
    let name := rest.takeWhile (· != '=')
    match rest.dropWhile (· != '=') with
    | [] => .long (String.ofList name) none
    | _ :: value => .long (String.ofList name) (some (String.ofList value))
  | '-' :: c :: rest => .short (c :: rest)
  | _ => .plain text

inductive ValueOption where
  | output
  | stylesheet
  deriving DecidableEq, Repr

structure Draft where
  name : CommandName
  path : Option String := none
  output : Option String := none
  stylesheet : Option String := none
  deriving DecidableEq, Repr

namespace Draft

def withPath? (draft : Draft) (path : String) : Option Draft :=
  if draft.path.isSome || path.isEmpty then none else some { draft with path := some path }

/-- Each option is given at most once, and the name of the output is not empty. -/
def withOption? (draft : Draft) (option : ValueOption) (value : String) : Option Draft :=
  match option with
  | .output =>
    if draft.output.isSome || value.isEmpty then none
    else some { draft with output := some value }
  | .stylesheet =>
    if draft.stylesheet.isSome then none else some { draft with stylesheet := some value }

def command? (draft : Draft) : Option Command :=
  draft.path.map fun path =>
    match draft.name with
    | .render => .render path draft.output draft.stylesheet
    | .paths => .paths path
    | .check => .check path

/-- The option of a long name; only the rendering command has options with values. -/
def longOption? (draft : Draft) (name : String) : Option ValueOption :=
  if draft.name ≠ .render then none
  else if name = "output" then some .output
  else if name = "stylesheet" then some .stylesheet
  else none

def shortOption? (draft : Draft) (letter : Char) : Option ValueOption :=
  if draft.name = .render ∧ letter = 'o' then some .output else none

def attached : List Char → String
  | '=' :: value => String.ofList value
  | value => String.ofList value

/-- Reads the arguments after the name of a command. An option without a value of its own takes
the next argument, which must not look like an option. -/
def read? (draft : Draft) : List String → Option Request
  | [] => draft.command?.map .run
  | argument :: rest =>
    match Argument.ofString argument with
    | .terminator => do (← rest.foldlM withPath? draft).command?.map .run
    | .plain path => do (← draft.withPath? path).read? rest
    | .long "help" none => some (.help (.command draft.name))
    | .short ('h' :: _) => some (.help (.command draft.name))
    | .long name value? => do
      let option ← draft.longOption? name
      match value?, rest with
      | some value, rest => (← draft.withOption? option value).read? rest
      | none, value :: rest =>
        match Argument.ofString value with
        | .plain value => (← draft.withOption? option value).read? rest
        | _ => none
      | none, [] => none
    | .short (letter :: value?) => do
      let option ← draft.shortOption? letter
      match value?, rest with
      | c :: value, rest => (← draft.withOption? option (attached (c :: value))).read? rest
      | [], value :: rest =>
        match Argument.ofString value with
        | .plain value => (← draft.withOption? option value).read? rest
        | _ => none
      | [], [] => none
    | .short [] => none

end Draft

/-- What a command line asks for; there is no answer to wrong usage. -/
def Request.ofArguments? : List String → Option Request
  | [] => none
  | ["help"] => some (.help .program)
  | ["help", "help"] => some (.help .help)
  | ["help", name] => (Vocabulary.ofWord? name).map (.help <| .command ·)
  | argument :: rest =>
    match Argument.ofString argument with
    | .plain name => do ({ name := ← Vocabulary.ofWord? name } : Draft).read? rest
    | .long "help" none => some (.help .program)
    | .short ('h' :: _) => some (.help .program)
    | .long "version" none => some .version
    | .short ('V' :: _) => some .version
    | _ => none

end SyntaxMarkup.CommandLine
