import FlagSchema.Code.Tree
import FlagSchema.Text.Split

/-!
# Identifiers of the accessors

Names of a schema become identifiers of the code. Most stay as they are; a word that the code reserves is
marked as raw or gets an underscore.

* **`Ident.ofName?`**: the identifier of a name; a name with a dot has none.
* **`snakeCase`**: `HartConfig` to `hart_config`.
* **`nameSegments`**: the parts of a dotted name.
-/

namespace FlagSchema

/-- An identifier; a raw one is marked where it is written. -/
structure Ident where
  text  : String
  isRaw : Bool := false
  deriving DecidableEq, Repr, Inhabited

namespace Ident

/-- An identifier as written. -/
def render (i : Ident) : String :=
  if i.isRaw then "r#" ++ i.text else i.text

/-- An identifier as code. -/
def code (i : Ident) : Code := [.word i.render]

/-- The names that cannot even be raw identifiers. -/
def unavailable : List String := ["self", "super", "crate", "Self", "_"]

/-- The reserved words that are written as raw identifiers. -/
def reserved : List String := [
  "abstract", "as", "become", "box", "break", "const", "continue", "do", "else", "enum", "extern",
  "false", "final", "fn", "for", "if", "impl", "in", "let", "loop", "macro", "match", "mod", "move",
  "mut", "override", "priv", "pub", "ref", "return", "static", "struct", "trait", "true", "type",
  "typeof", "unsafe", "unsized", "use", "virtual", "where", "while", "yield"]

/-- The identifier of a name without dots. -/
def ofName? (name : String) : Option Ident :=
  if unavailable.contains name then some { text := name ++ "_" }
  else if name.toList.contains '.' then none
  else some { text := name, isRaw := reserved.contains name }

/-- An identifier made of another one's text between two parts. -/
def around (i : Ident) (front back : String) : Ident :=
  { text := front ++ i.text ++ back }

end Ident

/-- Letters in lower case, with an underscore before each capital that a small letter or a digit
    precedes; the first argument says whether one does. -/
def snakeCaseFrom (afterSmall : Bool) : List Char → List Char
  | []      => []
  | c :: cs =>
    if c.isUpper then
      (if afterSmall then ['_'] else []) ++ c.toLower :: snakeCaseFrom false cs
    else c :: snakeCaseFrom (c.isLower || c.isDigit) cs

/-- A name in lower case, with underscores between its words. -/
def snakeCase (name : String) : String :=
  String.ofList (snakeCaseFrom false name.toList)

/-- The parts of a dotted name, empty ones left out. -/
def nameSegments (name : String) : List String :=
  ((Text.splitAt '.' name.toList).filter (!·.isEmpty)).map String.ofList

/-- The part of a dotted name after its last dot. -/
def lastSegment (name : String) : String :=
  String.ofList ((Text.splitAt '.' name.toList).getLastD [])

end FlagSchema
