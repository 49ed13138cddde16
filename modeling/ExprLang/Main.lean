import ExprLang.Command.Evaluate

namespace ExprLang.Command.Evaluate

-- The system tells with a code whether a directory or something else stands in the way.
def fileErrorOf : IO.Error → FileError
  | .noFileOrDirectory .. => .missing
  | .inappropriateType _ code _ => if code = -20 then .notDirectory else .isDirectory
  | .invalidArgument _ code details => if code = -36 then .nameTooLong else .other details
  | .permissionDenied .. => .other "Permission denied"
  | e => .other (toString e)

def readFile (name : Text) : IO (Except ReadError Bytes) := do
  match (Path.ofText name).toText.toString? with
  | none => return .error (.file .missing)
  | some path =>
    try
      return .ok (← IO.FS.readBinFile (if path.isEmpty then "." else path)).toList
    catch e =>
      return .error (.file (fileErrorOf e))

def put (stream : IO.FS.Stream) (t : Text) : IO Unit := do
  stream.write (.mk t.encode.toArray)
  stream.flush

def Crash.describe : Crash → Text
  | .unencodable f => f.message
  | .undecodable f => f.message
  | .numeral f t => f.message t
  | .rendering e => e.message
  | .unwritable => Text.unwritable
  | .nullByte => "embedded null byte"
  | .noLimit => "no nesting depth given"

end ExprLang.Command.Evaluate

open ExprLang Command in
def main (args : List String) : IO UInt32 := do
  let args := args.map Text.ofString
  let contents ← match Evaluate.file? args with
    | some file => Evaluate.readFile file
    | none => pure (.error (.file .missing))
  let outcome := Evaluate.run (fun _ => contents) args
  Evaluate.put (← IO.getStdout) outcome.stdout
  Evaluate.put (← IO.getStderr) outcome.stderr
  match outcome.status with
  | .ok status => return .ofNat status
  | .error crash =>
    Evaluate.put (← IO.getStderr) (crash.describe ++ "\n")
    return 1
