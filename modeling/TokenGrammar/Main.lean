import TokenGrammar.ByteSource
import TokenGrammar.CommandLine

/-!
The program: the arguments come from the command line, documents from files or the standard input.
-/

namespace TokenGrammar.Program

def systemError (error : IO.Error) : DeviceError :=
  let described (kind : DeviceErrorKind) (code : UInt32) (details : String) : DeviceError :=
    { kind, message := details ++ " (os error " ++ code.toNat.repr ++ ")" }
  match error with
  | .noFileOrDirectory _ code details => described .other code details
  | .permissionDenied _ code details => described .permissionDenied code details
  | .inappropriateType _ code details => described .isDirectory code details
  | .resourceVanished code details => described .brokenPipe code details
  | .otherError code details => described .other code details
  | error => { kind := .other, message := toString error }

def readSource (handle : IO.FS.Handle) : IO Source := do
  try
    let data ← handle.readBinToEnd
    return .ofBytes data.toList
  catch error =>
    return .ofChunks [.failure (systemError error)]

def openInput : CommandLine.Input → IO (Except DeviceError Source)
  | .standard => do
    let mut data := ByteArray.empty
    let stdin ← IO.getStdin
    let mut piece ← stdin.read 65536
    while !piece.isEmpty do
      data := data ++ piece
      piece ← stdin.read 65536
    return .ok (.ofBytes data.toList)
  | .file path => do
    try
      let handle ← IO.FS.Handle.mk path .read
      return .ok (← readSource handle)
    catch error =>
      return .error (systemError error)

def finish (outcome : CommandLine.Outcome) : IO UInt32 := do
  IO.print outcome.stdout
  IO.eprint outcome.stderr
  return outcome.exit.toUInt32

end TokenGrammar.Program

def main (args : List String) : IO UInt32 := do
  match TokenGrammar.CommandLine.plan args with
  | .finish outcome => TokenGrammar.Program.finish outcome
  | .read input resume => TokenGrammar.Program.finish (resume (← TokenGrammar.Program.openInput input))
