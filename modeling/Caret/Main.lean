import Caret.Command

namespace Caret.Main

def fileError : IO.Error → FileError
  | .noFileOrDirectory .. => .missing
  | .permissionDenied .. => .permission
  | .inappropriateType .. => .directory
  | e => .other (toString e)

def fileOf? (args : List String) : Option String :=
  match Command.readArguments {} args with
  | .ok (.run q) => some q.file
  | _ => none

def filesOf (content : Except FileError ByteArray) : Files where
  read _ := content
  isThere _ := content.toOption.isSome

def readFile (path : String) : IO (Except FileError ByteArray) := do
  try
    return .ok (← IO.FS.readBinFile path)
  catch e =>
    return .error (fileError e)

def run (w : Text.Widths) (args : List String) : IO UInt32 := do
  let content ← match fileOf? args with
    | some path => readFile path
    | none => pure (.error .missing)
  let outcome := Command.run w (filesOf content) args
  IO.print outcome.output
  IO.eprint outcome.errors
  return outcome.status.toUInt32

end Caret.Main
