import SyntaxMarkup.CommandLine.Run

namespace SyntaxMarkup.CommandLine

def faultOf : IO.Error → FileFault
  | .noFileOrDirectory .. => .absent
  | .inappropriateType _ code _ => if code = 20 then .notADirectory else .isDirectory
  | error => .other (toString error)

def readBytes (path : String) : IO (Except FileFault ByteArray) := do
  try
    return .ok (← IO.FS.readBinFile path)
  catch error =>
    return .error (faultOf error)

def writeText (path content : String) : IO (Option FileFault) := do
  try
    IO.FS.writeFile path content
    return none
  catch error =>
    return some (faultOf error)

def Command.perform (command : Command) : IO Report := do
  match command.planFor (← readBytes command.path) with
  | .report report => return report
  | .write path content notices => return reportWritten path notices (← writeText path content)

def Report.show (report : Report) : IO UInt32 := do
  IO.print report.stdout
  IO.eprint report.errorText
  return report.exitCode.toUInt32

def Request.perform : Request → IO UInt32
  | .run command => do (← command.perform).show
  | .help topic => ({ stdout := topic.text } : Report).show
  | .version => ({ stdout := versionText } : Report).show

def perform (arguments : List String) : IO UInt32 :=
  match Request.ofArguments? arguments with
  | some request => request.perform
  | none => do
    IO.eprint (Topic.text .program)
    return usageExitCode.toUInt32

end SyntaxMarkup.CommandLine

def main (arguments : List String) : IO UInt32 :=
  SyntaxMarkup.CommandLine.perform arguments
