import ChomskyNormal.Command.Run

/-!
# The program

Reads the file and writes the streams. All else is decided by `Command.run`.
-/

namespace ChomskyNormal.Command

def readContents? (file : String) : IO (Option ByteArray) := do
  match ← (IO.FS.readBinFile file).toBaseIO with
  | .ok contents => return some contents
  | .error (.noFileOrDirectory ..) => return none
  | .error error => throw error

/-- The source of a seed; without one, the system gives a seed. -/
def openSource (seed? : Option Nat) : IO Source := do
  match seed? with
  | some seed => return .ofSeed (UInt64.ofNat seed)
  | none =>
      let bytes ← IO.getRandomBytes 8
      return .ofSeed (bytes.foldl (fun seed byte => seed * 256 + byte.toUInt64) 0)

end ChomskyNormal.Command

open ChomskyNormal

def main (arguments : List String) : IO UInt32 := do
  let outcome ← match Command.readArguments arguments with
    | .error stop => pure stop.outcome
    | .ok request =>
        pure (Command.run request (← Command.readContents? request.file)
          (← Command.openSource request.seed?))
  IO.print (Command.streamText outcome.output)
  IO.eprint (Command.streamText outcome.errors)
  return UInt32.ofNat outcome.exitCode
