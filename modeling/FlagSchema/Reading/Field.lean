import FlagSchema.Reading.Setting

/-!
# Reading fields

A field statement: a label or none, a type, a name, a number and options.

* **`Field.read`**: a field of a message or, given its name, of a choice.
* **`maxFieldNumber`**: the largest number of a field.
-/

namespace FlagSchema

open Reader

/-- The largest number of a field. -/
def maxFieldNumber : Nat := 536870911

/-- The label that a word stands for in front of a type. -/
def Label.ofName? (name : String) : Option Label :=
  if name = "repeated" then some .repeated
  else if name = "optional" then some .optional
  else if name = "required" then some .required
  else none

namespace Field

/-- The label and the name of the type, with the token of that name. The word for a label is itself the
    type inside a choice, and when the name of the field and `=` follow it. -/
def readHead (inOneof : Bool) : Reader (Label × String × Token) := do
  let (first, token) ← Reader.name .fieldType
  match Label.ofName? first with
  | none => pure (.singular, first, token)
  | some label =>
    let isType ← symbolAhead 1 '='
    if inOneof || isType then pure (.singular, first, token)
    else
      let (type, token) ← Reader.name .fieldType
      pure (label, type, token)

theorem takes_readHead (inOneof : Bool) : Takes 1 (readHead inOneof) := by
  refine .bind_left (.name _) fun ⟨first, token⟩ => ?_
  dsimp only
  split
  · exact .pure _
  · refine .bind_right (.symbolAhead _ _) fun found => ?_
    split
    · exact .pure _
    · exact .bind_right ((Takes.name _).mono (Nat.zero_le _)) fun _ => .pure _

/-- The key and value types of a map after the word `map`, with the span of the value type. -/
def readMap : Reader (FieldType × Span) := do
  let _ ← symbol '<'
  let (key, keyToken) ← Reader.name .mapKeyType
  match Scalar.ofKeyword? key with
  | none => Reader.fail (.expected keyToken.position .scalarMapKeyType keyToken.kind)
  | some key =>
    let _ ← symbol ','
    let (value, valueToken) ← Reader.name .mapValueType
    let _ ← symbol '>'
    pure (.map key (.ofName value), valueToken.span)

theorem takes_readMap : Takes 1 readMap := by
  refine .bind_left (.symbol _) fun _ =>
    .bind_right ((Takes.name _).mono (Nat.zero_le _)) fun ⟨key, token⟩ => ?_
  dsimp only
  split
  · exact .fail _ _
  · exact .bind_right ((Takes.symbol _).mono (Nat.zero_le _)) fun _ =>
      .bind_right ((Takes.name _).mono (Nat.zero_le _)) fun _ =>
        .bind_right ((Takes.symbol _).mono (Nat.zero_le _)) fun _ => .pure _

/-- The type that a name already read starts. -/
def readType (type : String) (token : Token) : Reader (FieldType × Span) := do
  if type = "group" then Reader.fail (.group token.position)
  else
    let isMap ← symbolAhead 0 '<'
    if type = "map" ∧ isMap then readMap else pure (.single (.ofName type), token.span)

theorem takes_readType (type : String) (token : Token) : Takes 0 (readType type token) := by
  unfold readType
  split
  · exact .fail _ _
  · refine .bind_right (.symbolAhead _ _) fun found => ?_
    split
    · exact takes_readMap.mono (Nat.zero_le _)
    · exact .pure _

/-- The number of a field. -/
def readNumber : Reader Nat := do
  let (n, token) ← readInteger .fieldNumber
  if 1 ≤ n ∧ n ≤ maxFieldNumber then pure n else Reader.fail (.fieldNumber token.position n)

theorem takes_readNumber : Takes 1 Field.readNumber := by
  refine .bind_left (takes_readInteger _) fun ⟨n, token⟩ => ?_
  dsimp only
  split
  · exact .pure _
  · exact .fail _ _

/-- A field of a message or of a choice. -/
def read (source : List Char) (oneof : Option String) : Reader Field := do
  let (label, typeName, typeToken) ← readHead oneof.isSome
  let (type, typeSpan) ← readType typeName typeToken
  let (name, nameToken) ← Reader.name .fieldName
  let _ ← symbol '='
  let number ← Field.readNumber
  let (settings, _) ← Setting.readBracketed source
  let _ ← symbol ';'
  pure { name, position := nameToken.position, label, type, number, settings, oneof, typeSpan,
         flags := none }

theorem takes_read (source : List Char) (oneof : Option String) : Takes 1 (read source oneof) :=
  .bind_left (takes_readHead _) fun _ =>
    .bind_right (takes_readType _ _) fun _ =>
      .bind_right ((Takes.name _).mono (Nat.zero_le _)) fun _ =>
        .bind_right ((Takes.symbol _).mono (Nat.zero_le _)) fun _ =>
          .bind_right (takes_readNumber.mono (Nat.zero_le _)) fun _ =>
            .bind_right (Setting.takes_readBracketed _) fun _ =>
              .bind_right ((Takes.symbol _).mono (Nat.zero_le _)) fun _ => .pure _

end Field

end FlagSchema
