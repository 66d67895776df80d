import OpNet.Command.Run

/-!
The command itself, on the files of the system.
-/
namespace OpNet

def numbered (number : UInt32) (e : IO.Error) : FileFault :=
  match number.toInt32.toInt.natAbs with
  | 20 => .notDirectory
  | 21 => .isDirectory
  | 36 => .nameTooLong
  | _ => .other (toString e)

def fileFault (e : IO.Error) : FileFault :=
  match e with
  | .noFileOrDirectory .. => .missing
  | .inappropriateType _ number _ | .invalidArgument _ number _ => numbered number e
  | _ => .other (toString e)

def attempt (path : String) (action : FileFault → FileAction) (run : IO α) :
    IO (Except Error α) := do
  try
    return .ok (← run)
  catch e =>
    let fault := fileFault e
    return .error (fileError (action fault) path fault)

/-- A directory can be opened for reading, so what fails on it is the reading. -/
def readAction : FileFault → FileAction
  | .isDirectory => .reading
  | _ => .opening

def systemFiles : Command.Files IO where
  read path := attempt path readAction do
    return (← IO.FS.readBinFile path).data.toList
  write path bytes := attempt path (fun _ => .creating) do
    IO.FS.writeBinFile path ⟨bytes.toArray⟩

end OpNet

def main (args : List String) : IO UInt32 := do
  let report ← OpNet.Command.run OpNet.systemFiles args
  (← IO.getStdout).putStr report.stdout
  (← IO.getStderr).putStr report.stderr
  return UInt32.ofNat report.code
