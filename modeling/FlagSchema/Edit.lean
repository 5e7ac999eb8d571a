import FlagSchema.Source

/-!
# Edits

Changes to a text: spans to be replaced. What no span names stays as it is.

* **`Edit.apply`**: a text with each span replaced, the spans taken in the order of their starts.
* **`Edit.lineBefore`**, **`Edit.indentAt`**, **`Edit.ownIndentAt?`**: the line in front of an offset and
  its indentation, for replacements that take several lines.
-/

namespace FlagSchema

/-- A span of a text and what replaces it. -/
structure Edit where
  span : Span
  text : String
  deriving DecidableEq, Repr, Inhabited

namespace Edit

/-- The rest of a text from an offset on, with the edits replaced that start there or later, in
    order. -/
def splice (offset : Nat) : List Edit → List Char → List Char
  | [],      cs => cs
  | e :: es, cs =>
    let (kept, rest) := Text.splitAtByte (e.span.start - offset) cs
    let (_, rest) := Text.splitAtByte (e.span.stop - e.span.start) rest
    kept ++ e.text.toList ++ splice e.span.stop es rest

/-- Edits in the order of their starts. -/
def sorted (edits : List Edit) : List Edit :=
  edits.mergeSort fun a b => decide (a.span.start ≤ b.span.start)

/-- A text with edits made. -/
def apply (source : List Char) (edits : List Edit) : List Char :=
  splice 0 (sorted edits) source

/-- The characters between the start of a line and an offset in it. -/
def lineBefore (source : List Char) (offset : Nat) : List Char :=
  ((Text.splitAtByte offset source).1.reverse.takeWhile (· ≠ '\n')).reverse

/-- A space or a tab. -/
def isIndent (c : Char) : Bool :=
  c == ' ' || c == '\t'

/-- The indentation of the line that holds an offset. -/
def indentAt (source : List Char) (offset : Nat) : List Char :=
  (lineBefore source offset).takeWhile isIndent

/-- The indentation in front of an offset, if nothing else stands before it on its line. -/
def ownIndentAt? (source : List Char) (offset : Nat) : Option (List Char) :=
  let line := lineBefore source offset
  if line.all isIndent then some line else none

end Edit

end FlagSchema
