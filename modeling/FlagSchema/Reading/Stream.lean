import FlagSchema.Token.Basic

/-!
# Streams of tokens

The tokens of a source as statements see them: the significant tokens in order, each with the comments
that stand between it and the one before. Looking ahead never meets a comment; taking a token passes its
comments into a store, from which the declarations of an enum collect them.

* **`Stream.ofTokens`**: the stream of a list of tokens.
* **`Stream.kindAt?`**: looking ahead.
* **`Stream.size`**: the number of significant tokens left, which bounds every loop over a stream.
-/

namespace FlagSchema

/-- A comment: its text and the line on which it starts. -/
structure Comment where
  text : String
  line : Nat
  deriving DecidableEq, Repr, Inhabited

/-- A significant token and the comments between it and the one before. -/
structure Item where
  before : List Comment
  token  : Token
  deriving DecidableEq, Repr, Inhabited

/-- What is left to read. -/
structure Stream where
  items : List Item := []
  /-- The comments after the last significant token. -/
  tail  : List Comment := []
  /-- The comments passed that no declaration has collected yet. -/
  held  : List String := []
  deriving DecidableEq, Repr, Inhabited

namespace Stream

/-- A comment in front of everything left. -/
def pushComment (c : Comment) (s : Stream) : Stream :=
  match s.items with
  | []        => { s with tail := c :: s.tail }
  | i :: rest => { s with items := { i with before := c :: i.before } :: rest }

/-- The stream of a list of tokens. -/
def ofTokens : List Token → Stream
  | []      => {}
  | t :: ts =>
    let rest := ofTokens ts
    match t.kind with
    | .comment text => rest.pushComment ⟨text, t.position.line⟩
    | _             => { rest with items := ⟨[], t⟩ :: rest.items }

/-- The number of significant tokens left. -/
def size (s : Stream) : Nat := s.items.length

/-- The kind of the significant token `n` places ahead. -/
def kindAt? (s : Stream) (n : Nat) : Option Token.Kind :=
  s.items[n]?.map (·.token.kind)

/-- Whether the significant token `n` places ahead is a certain symbol. -/
def symbolAt (s : Stream) (n : Nat) (c : Char) : Bool :=
  s.kindAt? n == some (.symbol c)

/-- The stream after its first item, whose comments are held. -/
def skipItem (s : Stream) (i : Item) (rest : List Item) : Stream :=
  { s with items := rest, held := s.held ++ i.before.map Comment.text }

/-- The comment right behind the last token taken, if it starts on a certain line, and the stream
    without it. -/
def trailing? (s : Stream) (line : Nat) : Option (String × Stream) :=
  match s.items with
  | [] =>
    match s.tail with
    | c :: tail => if c.line = line then some (c.text, { s with tail }) else none
    | []        => none
  | i :: rest =>
    match i.before with
    | c :: before =>
      if c.line = line then some (c.text, { s with items := { i with before } :: rest }) else none
    | [] => none

theorem held_pushComment (c : Comment) (s : Stream) : (s.pushComment c).held = s.held := by
  obtain ⟨items, tail, held⟩ := s
  cases items with
  | nil => rfl
  | cons i rest => rfl

theorem size_pushComment (c : Comment) (s : Stream) : (s.pushComment c).size = s.size := by
  obtain ⟨items, tail, held⟩ := s
  cases items with
  | nil => rfl
  | cons i rest => rfl

/-- The comment behind the last token is the one in front of everything left, if it starts on the line. -/
theorem trailing?_eq_some_iff {s s' : Stream} {line : Nat} {text : String} :
    s.trailing? line = some (text, s') ↔ ∃ c : Comment, s = s'.pushComment c ∧ c.line = line ∧ c.text = text := by
  constructor
  · intro h
    obtain ⟨items, tail, held⟩ := s
    unfold trailing? at h
    cases items with
    | nil =>
      cases tail with
      | nil => cases h
      | cons c tail =>
        dsimp only at h
        split at h
        · next hline => cases h; exact ⟨c, rfl, hline, rfl⟩
        · cases h
    | cons i rest =>
      obtain ⟨before, token⟩ := i
      cases before with
      | nil => cases h
      | cons c before =>
        dsimp only at h
        split at h
        · next hline => cases h; exact ⟨c, rfl, hline, rfl⟩
        · cases h
  · rintro ⟨c, rfl, rfl, rfl⟩
    obtain ⟨items, tail, held⟩ := s'
    cases items with
    | nil => exact if_pos rfl
    | cons i rest => exact if_pos rfl

end Stream

end FlagSchema
