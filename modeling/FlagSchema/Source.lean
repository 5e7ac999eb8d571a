/-!
# Places in a source text

Where things stand in a source: positions for people (line and column, counted in characters) and
spans for cutting the text (byte offsets, end exclusive).

* **`Position`**, **`Span`**: what tokens and declarations carry.
* **`Place`**: both at once, moved over the characters read so far by **`Place.after`**. A place depends
  on nothing but those characters.
* **`byteSize`**, **`splitAtByte`**, **`slice`**: measuring and cutting a text by byte offsets.
-/

namespace FlagSchema

/-- A line and a column, both counted from one; a column is a character. -/
structure Position where
  line   : Nat := 0
  column : Nat := 0
  deriving DecidableEq, Repr, Inhabited

/-- A range of byte offsets, the end exclusive. -/
structure Span where
  start : Nat := 0
  stop  : Nat := 0
  deriving DecidableEq, Repr, Inhabited

/-- `line:column`, as messages show a position. -/
def Position.render (p : Position) : String :=
  toString p.line ++ ":" ++ toString p.column

/-- Where a reader of a text stands: the offset and the position of the next character. -/
structure Place where
  offset : Nat := 0
  line   : Nat := 1
  column : Nat := 1
  deriving DecidableEq, Repr, Inhabited

namespace Place

/-- The position of the next character. -/
def position (p : Place) : Position :=
  ⟨p.line, p.column⟩

/-- The place after one more character; a line feed, and nothing else, ends a line. -/
def next (p : Place) (c : Char) : Place :=
  if c = '\n' then ⟨p.offset + c.utf8Size, p.line + 1, 1⟩
  else ⟨p.offset + c.utf8Size, p.line, p.column + 1⟩

/-- The place after more characters. -/
def after (p : Place) (cs : List Char) : Place :=
  cs.foldl next p

@[simp] theorem after_nil (p : Place) : p.after [] = p := rfl

@[simp] theorem after_cons (p : Place) (c : Char) (cs : List Char) :
    p.after (c :: cs) = (p.next c).after cs := rfl

theorem after_append (p : Place) (cs ds : List Char) :
    p.after (cs ++ ds) = (p.after cs).after ds := by
  simp [after, List.foldl_append]

end Place

namespace Text

/-- The number of bytes of a text. -/
def byteSize : List Char → Nat
  | []      => 0
  | c :: cs => c.utf8Size + byteSize cs

@[simp] theorem byteSize_append (cs ds : List Char) :
    byteSize (cs ++ ds) = byteSize cs + byteSize ds := by
  induction cs with
  | nil => simp [byteSize]
  | cons c cs ih => simp [byteSize, ih, Nat.add_assoc]

/-- A text with a character has a byte. -/
theorem byteSize_pos {cs : List Char} (h : cs ≠ []) : 0 < byteSize cs := by
  cases cs with
  | nil => exact absurd rfl h
  | cons c cs =>
      have := c.utf8Size_pos
      rw [byteSize]
      omega

/-- A text cut after a number of bytes; a cut inside a character moves to that character's end. -/
def splitAtByte : Nat → List Char → List Char × List Char
  | 0,     cs      => ([], cs)
  | _ + 1, []      => ([], [])
  | n + 1, c :: cs =>
    let (front, back) := splitAtByte (n + 1 - c.utf8Size) cs
    (c :: front, back)

/-- Cutting loses nothing. -/
theorem splitAtByte_append (n : Nat) (cs : List Char) :
    (splitAtByte n cs).1 ++ (splitAtByte n cs).2 = cs := by
  induction cs generalizing n with
  | nil => cases n <;> rfl
  | cons c cs ih => cases n with
    | zero   => rfl
    | succ n => simp [splitAtByte, ih]

/-- Cutting after the bytes of a front part gives that part back. -/
theorem splitAtByte_byteSize (cs ds : List Char) :
    splitAtByte (byteSize cs) (cs ++ ds) = (cs, ds) := by
  induction cs with
  | nil => cases ds <;> rfl
  | cons c cs ih =>
    obtain ⟨n, hn⟩ : ∃ n, c.utf8Size + byteSize cs = n + 1 :=
      ⟨c.utf8Size + byteSize cs - 1, by have := c.utf8Size_pos; omega⟩
    have hsub : n + 1 - c.utf8Size = byteSize cs := by omega
    simp [byteSize, hn, splitAtByte, hsub, ih]

/-- The part of a text that a span names. -/
def slice (cs : List Char) (s : Span) : List Char :=
  (splitAtByte (s.stop - s.start) (splitAtByte s.start cs).2).1

end Text

/-- A place's offset counts the bytes passed. -/
theorem Place.offset_after (p : Place) (cs : List Char) :
    (p.after cs).offset = p.offset + Text.byteSize cs := by
  induction cs generalizing p with
  | nil => simp [Text.byteSize]
  | cons c cs ih =>
    rw [after_cons, ih, Text.byteSize]
    unfold next
    split <;> simp [Nat.add_assoc]

end FlagSchema
