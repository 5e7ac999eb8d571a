import FlagSchema.Token.Lexeme

/-!
# The tokens of a text

A text is a sequence of lexemes with blanks between them. `scan` finds them one after another and gives
each its place, which depends on the characters before it alone.

* **`scan`**: the tokens of a text that starts at a given place, or the first fault with its position.
* **`tokenize`**: the tokens of a whole source.
-/

namespace FlagSchema.Token

/-- The token that a lexeme is at a place. -/
def Lexeme.at (l : Lexeme) (p : Place) : Token :=
  { kind := l.kind, span := ⟨p.offset, (p.after l.spelling).offset⟩, position := p.position }

theorem length_dropWhile_le {α : Type} (p : α → Bool) (l : List α) :
    (l.dropWhile p).length ≤ l.length := by
  have := congrArg List.length (List.takeWhile_append_dropWhile (p := p) (l := l))
  simp only [List.length_append] at this
  omega

/-- The tokens of a text that starts at a place; a fault comes with the position of the lexeme that is
    missing. -/
def scan (p : Place) (cs : List Char) : Except (Position × Fault) (List Token) :=
  let start := p.after (cs.takeWhile Text.isBlank)
  match h : cs.dropWhile Text.isBlank with
  | [] => .ok []
  | c :: rest =>
    match hl : Lexeme.first c rest with
    | .error fault => .error (start.position, fault)
    | .ok l =>
      have : l.rest.length < cs.length := by
        have h1 := Lexeme.length_rest_lt hl
        have h2 := length_dropWhile_le Text.isBlank cs
        rw [h] at h2
        omega
      (scan (start.after l.spelling) l.rest).map (l.at start :: ·)
termination_by cs.length

end FlagSchema.Token

namespace FlagSchema

/-- The tokens of a source. -/
def tokenize (source : String) : Except (Position × Token.Fault) (List Token) :=
  Token.scan {} source.toList

end FlagSchema
