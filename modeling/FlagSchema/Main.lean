import FlagSchema.Command.Run

/-!
# The command

Carries out a run on real files and streams.
-/

namespace FlagSchema.Command

/-- The cause with a number of the operating system, which may be given as a negative one. -/
def FileError.ofNumber? (code : UInt32) : Option FileError :=
  match min code (0 - code) with
  | 2  => some .missing
  | 20 => some .notDirectory
  | 21 => some .isDirectory
  | 36 => some .nameTooLong
  | _  => none

/-- The cause of a failed access to a real file. -/
def FileError.ofAccess (e : IO.Error) : FileError :=
  let code? : Option UInt32 := match e with
    | .noFileOrDirectory _ _ _    => some 2
    | .inappropriateType _ code _ => some code
    | .invalidArgument _ code _   => some code
    | _                           => none
  (code?.bind ofNumber?).getD (.other (toString e))

/-- An access to a real file, with its failure as a value. -/
def access {α : Type} (act : IO α) : IO (Except FileError α) := do
  try
    return .ok (← act)
  catch e =>
    return .error (FileError.ofAccess e)

/-- All of standard input. -/
partial def readAll (input : IO.FS.Stream) (before : ByteArray) : IO ByteArray := do
  let chunk ← input.read 65536
  if chunk.isEmpty then return before
  readAll input (before ++ chunk)

/-- The content of the input. -/
def Arguments.content (a : Arguments) : IO (Except FileError ByteArray) :=
  access <|
    match a.input with
    | none      => do readAll (← IO.getStdin) ByteArray.empty
    | some path => IO.FS.readBinFile path

/-- The work of a run on real files. -/
def Arguments.perform (a : Arguments) : IO Outcome := do
  let produced := a.produce (← a.content)
  match produced.result, a.output with
  | .ok text, some path =>
    let written ← access (IO.FS.writeFile path text)
    let done := produced >>= fun _ => Traced.lift (written.mapError (.write path))
    return Outcome.ofTraced a.verbosity (fun _ => "") done
  | _, _ => return Outcome.ofTraced a.verbosity id produced

/-- A run on real files. -/
def Invocation.perform : Invocation → IO Outcome
  | .work a  => a.perform
  | .help    => return Outcome.help
  | .version => return Outcome.version
  | .refused => return Outcome.refused

end FlagSchema.Command

open FlagSchema.Command in
/-- Runs the command. -/
def main (arguments : List String) : IO UInt32 := do
  let outcome ← (Invocation.ofArguments arguments).perform
  (← IO.getStdout).putStr outcome.stdout
  (← IO.getStderr).putStr outcome.stderr
  return outcome.code.toUInt32
