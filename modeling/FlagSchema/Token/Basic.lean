import FlagSchema.Source
import FlagSchema.Text.Quoted

/-!
# Tokens

What a schema text is made of: names, numbers, strings, symbols and comments, each with the span and the
position at which it stands.

* **`Token.Kind`**: the kinds with their payloads.
* **`Token.Kind.render`**: a kind as messages show it.
-/

namespace FlagSchema

/-- A kind of token and its payload. -/
inductive Token.Kind where
  /-- A name, possibly dotted: `foo`, `a.b.C`, `.a.b.C`. -/
  | ident (name : String)
  /-- An integer as written. -/
  | int (digits : String)
  /-- A floating point number as written. -/
  | float (digits : String)
  /-- The value that a string literal denotes. -/
  | str (value : String)
  /-- A punctuation character. -/
  | symbol (c : Char)
  /-- A comment with its markers. -/
  | comment (text : String)
  deriving DecidableEq, Repr, Inhabited

/-- A token at its place in the source. -/
structure Token where
  kind     : Token.Kind
  span     : Span
  position : Position
  deriving DecidableEq, Repr, Inhabited

namespace Token

/-- Backquotes around a text. -/
def backquoted (s : String) : String := "`" ++ s ++ "`"

/-- A kind of token as messages show it: its text in backquotes, the value of a string in double quotes,
    a comment by that word. -/
def Kind.render : Kind → String
  | .ident s   => backquoted s
  | .int s     => backquoted s
  | .float s   => backquoted s
  | .str s     => Text.quoted s
  | .symbol c  => backquoted (String.singleton c)
  | .comment _ => "comment"

/-- Whether a kind is a comment. -/
def Kind.isComment : Kind → Bool
  | .comment _ => true
  | _          => false

end Token

end FlagSchema
