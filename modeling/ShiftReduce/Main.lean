import ShiftReduce.Command

/-!
# Main — the program

The program gives the command line the files of the disk, and prints its report.
-/

namespace ShiftReduce.Main

/-- The cause of a failed access. -/
def causeOf : IO.Error → Command.FileError
  | .noFileOrDirectory _ _ _ => .notFound
  | .permissionDenied _ _ _ => .permissionDenied
  | .inappropriateType _ 21 _ => .isDirectory
  | .inappropriateType _ _ _ => .notDirectory
  | .invalidArgument _ _ "name too long" => .nameTooLong
  | e => .other (toString e)

/-- An access to the disk. -/
def attempt {α : Type} (action : IO α) : IO (Except Command.FileError α) := do
  try return .ok (← action)
  catch e => return .error (causeOf e)

/-- The files of the disk. -/
def disk : Command.Files IO where
  read path := attempt (IO.FS.readFile path)
  isPresent path := do return (← attempt (IO.FS.Handle.mk path .read)).isOk
  copy source target := do
    match ← attempt (IO.FS.readBinFile source) with
    | .ok bytes => attempt (IO.FS.writeBinFile target bytes)
    | .error .isDirectory => return .error .notRegular
    | .error e => return .error e
  write path text := attempt (IO.FS.writeFile path text)

/-- A bound on the steps of a parse that no input reaches. -/
def fuel : Nat := 1 <<< 62

end ShiftReduce.Main

def main (args : List String) : IO UInt32 := do
  let report ← ShiftReduce.Command.run ShiftReduce.Main.disk ShiftReduce.Main.fuel args
  IO.print report.stdout
  IO.eprint report.stderr
  return report.code.toUInt32
