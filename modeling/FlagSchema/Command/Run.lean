import FlagSchema.Code.Generate
import FlagSchema.Command.Arguments
import FlagSchema.Command.Files
import FlagSchema.Command.Log
import FlagSchema.Report.Json

/-!
# Runs of the command

From a command line, the standard input and the files to the exit code, what is written to the two
standard streams, and the files afterwards. Nothing is written unless the whole work succeeds.

* **`Arguments.produce`**: from the content that has been read to the text to be written.
* **`Outcome.ofTraced`**: how work that succeeded or failed shows.
* **`run`**: a whole run.
-/

namespace FlagSchema.Command

/-- Why the work fails. -/
inductive Failure where
  | read (path : String) (reason : FileError)
  | write (path : String) (reason : FileError)
  | generate (reason : GenerateError)
  deriving DecidableEq, Repr

/-- The words for a failure; a name that cannot be an identifier has none. -/
def Failure.message? : Failure → Option String
  | read path reason         => some ("cannot read " ++ path ++ ": " ++ reason.message)
  | write path reason        => some ("cannot write " ++ path ++ ": " ++ reason.message)
  | generate (.schema e)     => some e.message
  | generate (.dottedName _) => none

/-- A content as a text. -/
def textOf (content : ByteArray) : Except FileError String :=
  match String.fromUTF8? content with
  | some text => .ok text
  | none      => .error .notText

-- ── The work ─────────────────────────────────────────────────────────────────────

/-- The text of a product. -/
def Product.make (r : Lowered) : Product → Generating String
  | .schema    => pure r.text
  | .report    => pure (r.report.toJson ++ "\n")
  | .accessors => r.schema.accessors

namespace Arguments

/-- The input as failures name it. -/
def inputName (a : Arguments) : String := a.input.getD "<stdin>"

/-- The text that is made of a source. -/
def transform (a : Arguments) (source : String) : Generating String := do
  Traced.tell (.sourceRead source.utf8ByteSize)
  let r ← (lower source).mapError .schema
  let _ ← Traced.each (fun (s : FlagSet) =>
    Traced.tell (.flagsReported s.fullName s.flags.length s.width)) r.report.flagSets
  a.product.make r

/-- The text to be written, from the content of the input. -/
def produce (a : Arguments) (content : Except FileError ByteArray) : Traced Failure String := do
  let source ← Traced.lift ((content >>= textOf).mapError (.read a.inputName))
  (a.transform source).mapError .generate

end Arguments

-- ── What shows ───────────────────────────────────────────────────────────────────

/-- What a run shows. -/
structure Outcome where
  code   : Nat := 0
  stdout : String := ""
  stderr : String := ""
  deriving DecidableEq, Repr, Inhabited

namespace Outcome

/-- A command line that makes no sense. -/
def refused : Outcome := { code := 1, stderr := "usage error" }

/-- The work stopped at a name that cannot be an identifier; the log is lost. -/
def abandoned : Outcome := { code := 101, stderr := "panic" }

/-- The name and the version of the command. -/
def version : Outcome := { stdout := "protoc-bitmap 0.1\n" }

/-- How the command is used. -/
def help : Outcome where
  stdout :=
    "protoc-bitmap [-v]... [--emit proto|report|rust] [-o FILE] [INPUT]\n" ++
    "Turns option (bitmap) enums of a .proto schema into flag sets\n"

/-- How work shows: the log, and what goes to standard output if it succeeded. -/
def ofTraced {α : Type} (verbosity : Nat) (stdout : α → String) (t : Traced Failure α) : Outcome :=
  let lines := t.events.map LogLine.ofEvent
  match t.result with
  | .ok a    => { stdout := stdout a, stderr := logText verbosity lines }
  | .error e =>
    match e.message? with
    | none      => abandoned
    | some text =>
      { code   := 1
        stderr := logText verbosity (lines ++ [⟨.error, LogLine.commandScope, text⟩]) }

end Outcome

-- ── Whole runs ───────────────────────────────────────────────────────────────────

/-- A text written to a file, unless it could not be made. -/
def writeProduct (files : Files) (path : String) (produced : Traced Failure String) :
    Traced Failure Files := do
  let text ← produced
  Traced.lift ((files.write path text.toUTF8).mapError (.write path))

/-- The work of a run on given files. -/
def Arguments.run (a : Arguments) (stdin : ByteArray) (files : Files) : Outcome × Files :=
  let content := match a.input with
    | none      => .ok stdin
    | some path => files.read path
  let produced := a.produce content
  match a.output with
  | none      => (Outcome.ofTraced a.verbosity id produced, files)
  | some path =>
    let written := writeProduct files path produced
    (Outcome.ofTraced a.verbosity (fun _ => "") written, written.result.toOption.getD files)

/-- A run: what shows, and the files afterwards. -/
def run (arguments : List String) (stdin : ByteArray) (files : Files) : Outcome × Files :=
  match Invocation.ofArguments arguments with
  | .work a  => a.run stdin files
  | .help    => (Outcome.help, files)
  | .version => (Outcome.version, files)
  | .refused => (Outcome.refused, files)

end FlagSchema.Command
