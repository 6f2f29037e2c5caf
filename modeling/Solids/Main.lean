import Solids.CommandLine
/-!
# Solids.Main

**The program on the real system.** Standard input, files and the environment are those
of the process.
-/

namespace Solids.Main

/-- The number of an error. Some are reported with the sign turned round. -/
def errorNumber (code : UInt32) : Nat := (if code < 0x80000000 then code else -code).toNat

/-- The error of the system as one of the host. What has no number counts as a failed
input or output. -/
def hostError : IO.Error → HostError
  | .alreadyExists _ code reason | .noFileOrDirectory _ code reason
  | .inappropriateType _ code reason | .invalidArgument _ code reason
  | .permissionDenied _ code reason | .resourceExhausted _ code reason
  | .noSuchThing _ code reason | .interrupted _ code reason
  | .otherError code reason | .resourceBusy code reason | .resourceVanished code reason
  | .unsupportedOperation code reason | .hardwareFault code reason
  | .unsatisfiedConstraints code reason | .illegalOperation code reason
  | .protocolError code reason | .timeExpired code reason =>
    .numbered (errorNumber code) reason
  | .unexpectedEof | .userError _ => .numbered 5 ""

/-- Does something that may fail. -/
def attempt {α : Type} (action : IO α) : IO (Except HostError α) := do
  try return .ok (← action) catch e => return .error (hostError e)

/-- The text of what is read, unless that fails. -/
def readText (action : IO ByteArray) : IO (Except HostError String) :=
  return (← attempt action).bind fun bytes => Host.decodeText bytes.toList

/-- The system of the process. -/
def host : Host IO where
  readInput := readText do (← IO.getStdin).readBinToEnd
  readFile path := readText (IO.FS.readBinFile path)
  createFolder path := attempt (IO.FS.createDir path)
  isFolder path := (System.mkFilePath [path]).isDir
  writeFile path bytes := attempt (IO.FS.writeBinFile path ⟨bytes.toArray⟩)

/-- The variables of the environment that the program looks at. -/
def environment : IO CommandLine.Environment :=
  CommandLine.readVariables.filterMapM fun name => return (← IO.getEnv name).map (name, ·)

end Solids.Main

/-- Runs the program with the arguments of the process. -/
def main (args : List String) : IO UInt32 := do
  let outcome ← Solids.CommandLine.run Solids.Main.host (← Solids.Main.environment) args
  (← IO.getStdout).putStr outcome.stdout
  (← IO.getStderr).putStr outcome.stderr
  return outcome.exitCode
