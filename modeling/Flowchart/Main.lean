import Flowchart.Command.Run
import Flowchart.Json.Reader

/-!
The command line: reads the files, runs the command, prints and writes.
-/

open Flowchart

namespace Flowchart.Command

def usageText : String :=
  "Usage: analyze FILE -f FUNCTION [--symbols FILE] [--connectors FILE] [--tree] [--pretty]\n" ++
  "       generate FILE -n NODE [--line LINE --col COLUMN] [--pretty]\n" ++
  "       sync FILE -f FUNCTION -n NODE [--line LINE --col COLUMN] [--symbols FILE]\n" ++
  "            [--connectors FILE] [--write] [--pretty]"

def reason (error : IO.Error) : Text :=
  match error with
  | .noFileOrDirectory .. => "No such file or directory (os error 2)"
  | .permissionDenied .. => "Permission denied (os error 13)"
  | .inappropriateType _ code _ =>
    if code = 21 ∨ code = 0 - 21 then "Is a directory (os error 21)"
    else "Not a directory (os error 20)"
  | .invalidArgument _ code detail =>
    if code = 36 ∨ code = 0 - 36 then "File name too long (os error 36)" else detail.toList
  | .userError _ => "stream did not contain valid UTF-8"
  | other => (toString other).toList

def readAll : List Text → IO (List (Text × Except Text Text))
  | [] => pure []
  | path :: rest => do
    let content ← try
        let text ← IO.FS.readFile (String.ofList path)
        pure (Except.ok text.toList)
      catch error => pure (Except.error (reason error))
    return (path, content) :: (← readAll rest)

def finish (output : Output) : IO UInt32 := do
  match output.written with
  | some (path, text) => IO.FS.writeFile (String.ofList path) (String.ofList text)
  | none => pure ()
  IO.print (String.ofList output.printed)
  return 0

end Flowchart.Command

def main (args : List String) : IO UInt32 := do
  match Command.ofArguments (args.map String.toList) with
  | .error .help =>
    IO.println Command.usageText
    return 0
  | .error .wrong =>
    IO.eprintln Command.usageText
    return 2
  | .ok command =>
    let contents ← Command.readAll command.paths
    let files : Command.Files := fun path =>
      (contents.lookup path).getD (.error "No such file or directory (os error 2)")
    match command.run Json.standard files with
    | .ok output => Command.finish output
    | .error failure =>
      IO.eprintln ("\nError: " ++ String.ofList failure.message)
      return 1
