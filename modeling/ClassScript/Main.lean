import ClassScript.CommandLine

/-! The program: arguments and files in, text and an exit status out. -/
namespace ClassScript

open CommandLine

/-- The system's reason for a failure. -/
def reasonOf : IO.Error → String
  | .noFileOrDirectory _ code details | .inappropriateType _ code details
  | .permissionDenied _ code details =>
    details ++ " (os error " ++ code.toNat.repr ++ ")"
  | error => toString error

def makeLog (path : String) : IO (Option String) := do
  try
    IO.FS.writeFile path ""
    return none
  catch error => return some (reasonOf error)

def fetch (path : String) : IO Fetched := do
  let handle ← try IO.FS.Handle.mk path .read catch error => return .notOpened (reasonOf error)
  try return .bytes (← handle.readBinToEnd).toList
  catch error => return .notRead (reasonOf error)

end ClassScript

def main (arguments : List String) : IO UInt32 := do
  match ClassScript.CommandLine.Invocation.ofArguments? arguments with
  | none =>
    IO.eprintln "usage: (tokenize | parse | evaluate | run) [FILE] [--log] [--log-file PATH]"
    return 2
  | some invocation =>
    let answer ← invocation.perform ClassScript.makeLog ClassScript.fetch
    IO.print answer.stdout
    IO.eprint answer.stderr
    return answer.status.toUInt32
