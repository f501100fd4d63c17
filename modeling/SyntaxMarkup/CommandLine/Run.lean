import SyntaxMarkup.CommandLine.Arguments
import SyntaxMarkup.CommandLine.FileSystem
import SyntaxMarkup.Component.Parser
import SyntaxMarkup.Json.Reader
import SyntaxMarkup.Layout.Rendering
import SyntaxMarkup.Markup.Html
import SyntaxMarkup.Text.ControlSequence
import SyntaxMarkup.Text.Line
import SyntaxMarkup.Tree.Ancestry
import SyntaxMarkup.Tree.Lowering

namespace SyntaxMarkup.CommandLine

inductive Failure where
  | notFound (path : String)
  | unreadable (path : String) (fault : FileFault)
  | unwritable (path : String) (fault : FileFault)
  /-- The message ends at the colon: what the JSON library says after it is left out. -/
  | invalidJson (path : String)
  | malformed (error : TreeError)
  deriving DecidableEq, Repr

def Failure.message : Failure → String
  | notFound path => "file not found: " ++ path
  | unreadable path fault => "Error reading " ++ path ++ ": " ++ fault.message
  | unwritable path fault => "Error writing " ++ path ++ ": " ++ fault.message
  | invalidJson path => "Invalid JSON in " ++ path ++ ":"
  | malformed error => error.malformedMessage

structure Report where
  stdout : String := ""
  notices : List Notice := []
  failure : Option Failure := none
  deriving DecidableEq, Repr

inductive Plan where
  | report (report : Report)
  /-- Write a file, with one report for success and notices that come in any case. -/
  | write (path content : String) (notices : List Notice)

def readTree (path : String) (content : Except FileFault ByteArray) : Except Failure Tree :=
  match content with
  | .error .isDirectory => .error (.unreadable path .isDirectory)
  | .error (.other message) => .error (.unreadable path (.other message))
  | .error _ => .error (.notFound path)
  | .ok bytes =>
    match String.fromUTF8? bytes with
    | none => .error (.unreadable path .notText)
    | some text =>
      match Json.readDocument? text with
      | none => .error (.invalidJson path)
      | some value => (Tree.ofJson value).mapError .malformed

def splitPath (path : String) : List Char × List Char :=
  let name := (path.toList.reverse.takeWhile (· != '/')).reverse
  (path.toList.take (path.length - name.length), name)

/-- A name without its last extension; a point at the start begins no extension. -/
def stem (name : List Char) : List Char :=
  let before := (name.reverse.dropWhile (· != '.')).drop 1
  if before.isEmpty then name else before.reverse

/-- The title of a page is the name of the file that it shows, without the extension. -/
def title (path : String) : String :=
  String.ofList (stem (splitPath path).2)

/-- The page of a file stands beside it. A name such as `..json` is, up to its extension, that of
the directory above, and there is no extension to give to that. -/
def defaultOutput (path : String) : String :=
  let (directory, name) := splitPath path
  String.ofList directory ++
    if stem name = ['.'] then ".." else String.ofList (stem name) ++ ".html"

def page (tree : Tree) (title : String) (stylesheet : Option String) : String :=
  (tree.render {}).page title stylesheet

def Command.plan (command : Command) (tree : Tree) : Plan :=
  match command with
  | .render path output stylesheet =>
    .write (output.getD (defaultOutput path)) (page tree (title path) stylesheet)
      tree.renderNotices
  | .paths _ =>
    .report { stdout := String.join ((tree.pathLines {}).map (· ++ "\n")) }
  | .check path =>
    let types := tree.unknownTypes
    .report { notices := types.map .noTemplate ++ [.checked path tree.size types.length] }

def Command.planFor (command : Command) (content : Except FileFault ByteArray) : Plan :=
  match readTree command.path content with
  | .ok tree => command.plan tree
  | .error failure => .report { failure := some failure }

def reportWritten (path : String) (notices : List Notice) : Option FileFault → Report
  | none => { notices := notices ++ [.rendered path] }
  | some fault => { notices, failure := some (.unwritable path fault) }

def hanging (message : String) : String :=
  String.ofList (message.toList.flatMap fun c => if c = '\n' then "\n    ".toList else [c])

def logText (notice : Notice) : String :=
  Text.withoutControls (hanging notice.line ++ "\n")

def Report.errorText (report : Report) : String :=
  String.join (report.notices.map logText) ++
    report.failure.elim "" fun failure => "Error: " ++ failure.message ++ "\n"

def Report.stderr (report : Report) : List String :=
  (Text.lines report.errorText.toList).map String.ofList

def Report.exitCode (report : Report) : Nat :=
  if report.failure.isSome then 1 else 0

def Command.run (command : Command) (files : FileSystem) : Report × FileSystem :=
  match command.planFor (files.read command.path) with
  | .report report => (report, files)
  | .write path content notices =>
    match files.write path content.toUTF8 with
    | .ok after => (reportWritten path notices none, after)
    | .error fault => (reportWritten path notices (some fault), files)

def usageExitCode : Nat := 2

inductive Outcome where
  | wrongUsage
  | finished (report : Report)
  deriving DecidableEq, Repr

/-- A command reads a tree, and then prints or writes something about it. -/
def run (arguments : List String) (files : FileSystem) : Outcome × FileSystem :=
  match Request.ofArguments? arguments with
  | none => (.wrongUsage, files)
  | some (.run command) =>
    let (report, after) := command.run files
    (.finished report, after)
  | some (.help topic) => (.finished { stdout := topic.text }, files)
  | some .version => (.finished { stdout := versionText }, files)

end SyntaxMarkup.CommandLine
