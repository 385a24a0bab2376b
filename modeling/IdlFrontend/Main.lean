import IdlFrontend.CommandLine.Program

/-!
# Entry point

The surroundings of the program on a real system: files and standard input are read as
bytes and decoded as UTF-8.
-/

namespace IdlFrontend

/-- The number that the system gives to a failure, with its description. Some
    failures carry the number negated. -/
def errorNumber : IO.Error → Option (Nat × String)
  | .alreadyExists _ n d | .invalidArgument _ n d | .permissionDenied _ n d
  | .resourceExhausted _ n d | .inappropriateType _ n d | .noSuchThing _ n d
  | .noFileOrDirectory _ n d | .interrupted _ n d
  | .otherError n d | .resourceBusy n d | .resourceVanished n d | .unsupportedOperation n d
  | .hardwareFault n d | .unsatisfiedConstraints n d | .illegalOperation n d
  | .protocolError n d | .timeExpired n d =>
    some ((if n < 0x80000000 then n else 0 - n).toNat, d.capitalize)
  | .unexpectedEof | .userError _ => none

/-- The fault behind a failure to read. -/
def ReadFault.ofIOError (e : IO.Error) : ReadFault :=
  match errorNumber e with
  | some (code, description) => .ofCode code description
  | none => .other e.toString 0

/-- The text in the bytes that an action reads. -/
def readDecoded (read : IO ByteArray) : IO (Except ReadFault Text) := do
  match ← read.toBaseIO with
  | .error e => return .error (.ofIOError e)
  | .ok bytes =>
    match String.fromUTF8? bytes with
    | some s => return .ok s.toList
    | none => return .error .notText

/-- Files below the current directory, and standard input. -/
def systemSurroundings : CommandLine.Surroundings IO where
  read path :=
    if path.contains '\x00' then return .error .nulInName
    else readDecoded (IO.FS.readBinFile (String.ofList path))
  input := do readDecoded (← IO.getStdin).readBinToEnd

end IdlFrontend

/-- Runs the program. -/
def main (args : List String) : IO UInt32 := do
  let outcome ← IdlFrontend.CommandLine.run IdlFrontend.systemSurroundings (args.map String.toList)
  IO.print (String.ofList outcome.output)
  IO.eprint (String.ofList outcome.diagnostics)
  return outcome.code
