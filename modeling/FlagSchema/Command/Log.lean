import FlagSchema.Event

/-!
# The log

Events as lines of a log. A line has a level, and the verbosity of the command decides which levels are
shown: warnings and errors always, each step of verbosity one level more.

* **`LogLine.ofEvent`**: the line of an event.
* **`logText`**: the text of the lines that are shown.
-/

namespace FlagSchema.Command

/-- The weight of a line. -/
inductive Level where
  | error | warn | info | debug
  deriving DecidableEq, Repr

namespace Level

/-- The name of a level, in a column of five characters. -/
def column : Level → String
  | error => "ERROR"
  | warn  => "WARN "
  | info  => "INFO "
  | debug => "DEBUG"

/-- The verbosity from which on lines of a level are shown. -/
def threshold : Level → Nat
  | error => 0
  | warn  => 0
  | info  => 1
  | debug => 2

end Level

/-- A line of the log. -/
structure LogLine where
  level : Level
  /-- The part of the program that writes the line. -/
  scope : String
  text  : String
  deriving DecidableEq, Repr

namespace LogLine

/-- The scope of the command. -/
def commandScope : String := "protoc_bitmap"

/-- The scope of the lowering. -/
def loweringScope : String := "protobitmap_codegen::transform"

/-- The scope of the generator. -/
def generatorScope : String := "protobitmap_codegen::gen"

/-- A line as written. -/
def render (l : LogLine) : String :=
  l.level.column ++ " [" ++ l.scope ++ "] " ++ l.text ++ "\n"

/-- Whether a line is shown at a verbosity. -/
def isShown (verbosity : Nat) (l : LogLine) : Bool := l.level.threshold ≤ verbosity

end LogLine

/-- A number of flags and their storage, with a word between them. -/
def flagsText (count : Nat) (word : String) (width : Scalar) : String :=
  toString count ++ " flag(s) " ++ word ++ " " ++ width.keyword

namespace LogLine

/-- The line of an event. -/
def ofEvent : Event → LogLine
  | .sourceRead bytes =>
    ⟨.debug, commandScope, "read " ++ toString bytes ++ " bytes"⟩
  | .flagsStored enum count width =>
    ⟨.debug, loweringScope, "bitmap " ++ enum ++ ": " ++ flagsText count "stored as" width⟩
  | .fieldRetyped message field written width =>
    ⟨.debug, loweringScope,
      "field " ++ message ++ "." ++ field ++ ": " ++ written ++ " -> " ++ width.keyword⟩
  | .lowered flagSets fields =>
    ⟨.info, loweringScope,
      toString flagSets ++ " bitmap enum(s), " ++ toString fields ++ " field(s) retyped"⟩
  | .flagsReported enum count width =>
    ⟨.info, commandScope, enum ++ ": " ++ flagsText count "as" width⟩
  | .aliasSkipped enum value =>
    ⟨.debug, generatorScope ++ "::enum_def", "enum " ++ enum ++ ": skipping alias " ++ value⟩
  | .repeatedField field number =>
    ⟨.debug, generatorScope ++ "::message_def",
      "repeated field " ++ field ++ " #" ++ toString number⟩
  | .mapSkipped message field =>
    ⟨.warn, generatorScope, "skipping map field " ++ message ++ "." ++ field⟩

end LogLine

/-- The text of the lines that are shown at a verbosity. -/
def logText (verbosity : Nat) (lines : List LogLine) : String :=
  String.join ((lines.filter (LogLine.isShown verbosity)).map LogLine.render)

end FlagSchema.Command
