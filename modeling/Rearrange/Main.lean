import Rearrange.CommandLine.Run
import Rearrange.CommandLine.Scanner
import Rearrange.Display.Plain

namespace Rearrange.CommandLine

/-- The variables that hold settings. -/
def settingNames : List String :=
  ["EXPREDIT_LOG_LEVEL", "EXPREDIT_REPARSE_ON_COMMIT", "EXPREDIT_SHOW_INDENTED",
   "EXPREDIT_MAX_PREVIEW"]

/-- The settings in the environment of the process. -/
def fetchEnvironment : IO Environment := do
  let values ← settingNames.mapM fun name => do
    return (name, ((← IO.getEnv name).getD "").toList)
  return fun name => (values.lookup name).getD []

/-- What is found under a name in the file system. -/
def fetchFile (name : String) : IO FileState := do
  try
    return .file (← IO.FS.readBinFile name)
  catch
    | .inappropriateType .. => return .directory
    | _ => return .absent

/-- What is found under the names that a command line may ask for. -/
def fetchFiles (args : List (List Char)) : IO Files := do
  let states ← (FrontEnd.scanner.pathsIn args).mapM fun path => do
    return (path, ← fetchFile (String.ofList path))
  return fun path => (states.lookup path).getD .absent

end Rearrange.CommandLine

open Rearrange in
/-- Runs the command line of the process. -/
def main (args : List String) : IO UInt32 := do
  let args := args.map String.toList
  let report := CommandLine.run .scanner (← CommandLine.fetchEnvironment)
    (← CommandLine.fetchFiles args) args
  for line in report.trace do
    IO.eprintln line
  IO.print (String.ofList report.output)
  for block in report.blocks do
    for line in block.lines do
      IO.println (String.ofList line)
  if let some failure := report.failure then
    IO.eprintln ("Error: " ++ failure.message?.getD "the run broke off")
  return report.exit.toUInt32
