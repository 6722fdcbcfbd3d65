import ContextFree.Command.Run

open ContextFree ContextFree.Command

namespace ContextFree.Main

def faultOf : IO.Error → FileFault
  | .noFileOrDirectory _ code details => .system details code.toNat
  | .inappropriateType _ code details => .system details code.toNat
  | .permissionDenied _ code details => .system details code.toNat
  | .invalidArgument _ code details => .system details code.toNat
  | .resourceExhausted _ code details => .system details code.toNat
  | .alreadyExists _ code details => .system details code.toNat
  | .otherError code details => .system details code.toNat
  | error => .system error.toString 5

def attempt {α : Type} (action : IO α) : IO (Except FileFault α) := do
  match ← action.toBaseIO with
  | .ok a => return .ok a
  | .error e => return .error (faultOf e)

/-- Reads until the end is reached, whatever faults come before it. A directory has no end. -/
def drain (handle : IO.FS.Handle) : IO (List UInt8) := do
  repeat
    if let .ok bytes ← attempt handle.readBinToEnd then return bytes.toList
  return []

def readFile (path : String) : IO (Except FileFault (List UInt8)) := do
  match ← attempt (IO.FS.Handle.mk path .read) with
  | .ok handle => return .ok (← drain handle)
  | .error fault => return .error fault

def perform (request : Request) : IO UInt32 := do
  let content ← readFile request.file
  let seed ← IO.rand 0 0xFFFFFFFF
  let ran := convertFile request content (Words.splitMix (UInt64.ofNat seed))
  let refused ← match ran.2, request.out with
    | .ok text, some path => do
      match ← attempt (IO.FS.writeFile path text) with
      | .ok () => pure none
      | .error fault => pure (some fault)
    | _, _ => pure none
  let told := report request ran fun _ => refused
  IO.eprint (shown request.log told.log)
  IO.print told.output
  return UInt32.ofNat told.exit.code

end ContextFree.Main

def main (arguments : List String) : IO UInt32 := do
  match Request.ofArguments arguments with
  | .ok request => ContextFree.Main.perform request
  | .error .help => do
    IO.print usageText
    return UInt32.ofNat Exit.success.code
  | .error .version => do
    IO.print versionText
    return UInt32.ofNat Exit.success.code
  | .error .usage => do
    IO.eprint usageText
    return UInt32.ofNat Exit.invalidArguments.code
