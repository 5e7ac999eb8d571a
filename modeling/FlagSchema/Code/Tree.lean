import FlagSchema.Schema.Basic
import FlagSchema.Text.Split

/-!
# Code trees

The code of the accessors as a tree of words and bracketed groups. An operator of several characters is
one word, and so is a lifetime.

* **`CodeTree.render`**: words and groups with one blank between them; parentheses and square brackets
  have none inside, braces have one.
* **`words`**: the words of a text that blanks separate.
-/

namespace FlagSchema

/-- The brackets around a group. -/
inductive Delimiter where
  | parens | brackets | braces
  deriving DecidableEq, Repr

/-- A piece of code. -/
inductive CodeTree where
  | word (text : String)
  | group (delimiter : Delimiter) (inner : List CodeTree)
  deriving Repr, Inhabited

/-- A piece of code of any length. -/
abbrev Code := List CodeTree

namespace CodeTree

/-- Brackets around a text that stands inside them. -/
def enclose (delimiter : Delimiter) (inner : String) : String :=
  match delimiter with
  | .parens   => "(" ++ inner ++ ")"
  | .brackets => "[" ++ inner ++ "]"
  | .braces   => if inner.isEmpty then "\x7b \x7d" else "\x7b " ++ inner ++ " \x7d"

mutual

/-- A piece of code as a text. -/
def render : CodeTree → String
  | word text              => text
  | group delimiter inner => enclose delimiter (" ".intercalate (renderEach inner))

/-- The text of each piece of code. -/
def renderEach : List CodeTree → List String
  | []      => []
  | t :: ts => render t :: renderEach ts

end

/-- Pieces of code as a text, one blank between two of them. -/
def renderAll (code : List CodeTree) : String :=
  " ".intercalate (renderEach code)

end CodeTree

/-- The words of a text that blanks separate. -/
def words (text : String) : Code :=
  (Text.splitAt ' ' text.toList).map fun cs => .word (String.ofList cs)

/-- Code in parentheses. -/
def parens (inner : Code) : Code := [.group .parens inner]

/-- Code in square brackets. -/
def brackets (inner : Code) : Code := [.group .brackets inner]

/-- Code in braces. -/
def braces (inner : Code) : Code := [.group .braces inner]

/-- An attribute: its name and its arguments. -/
def attributeCode (name arguments : String) : Code :=
  words "#" ++ brackets (words name ++ parens (words arguments))

end FlagSchema
