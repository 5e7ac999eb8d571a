import FlagSchema.Reading.Setting

/-!
# Reading enums

An enum with its options, its values and its comments. A comment belongs to the value it precedes, to
the statement whose line it ends, or to the end of the body.

* **`EnumValue.read`**: a value.
* **`EnumDef.read`**: an enum, after its keyword.
-/

namespace FlagSchema

open Reader

/-- A value of an enum, with the comments before its name and the one behind it on its line. -/
def EnumValue.read (source : List Char) : Reader EnumValue := do
  let (name, nameToken) ← Reader.name .enumValue
  let leading ← takeHeld
  let _ ← symbol '='
  let negative ← acceptSymbol '-'
  let (number, _) ← readInteger .enumValueNumber
  let (settings, settingsSpan) ← Setting.readBracketed source
  let semicolon ← symbol ';'
  let trailing ← Reader.trailing semicolon.position.line
  pure { name, position := nameToken.position, span := nameToken.span,
         number := if negative then -(number : Int) else number,
         settings, settingsSpan, leading, trailing }

theorem EnumValue.takes_read (source : List Char) : Takes 1 (EnumValue.read source) :=
  .bind_left (.name _) fun _ =>
    .bind_right .takeHeld fun _ =>
      .bind_right ((Takes.symbol _).mono (Nat.zero_le _)) fun _ =>
        .bind_right (.acceptSymbol _) fun _ =>
          .bind_right ((takes_readInteger _).mono (Nat.zero_le _)) fun _ =>
            .bind_right (Setting.takes_readBracketed _) fun _ =>
              .bind_right ((Takes.symbol _).mono (Nat.zero_le _)) fun _ =>
                .bind_right (.trailing _) fun _ => .pure _

namespace EnumDef

/-- The options and values of an enum read so far. -/
structure Body where
  settings : List Setting := []
  values   : List EnumValue := []

/-- One statement of an enum, or its closing brace. -/
def bodyStep (source : List Char) (body : Body) : Reader (Body ⊕ (Body × Token)) := do
  match ← peek? with
  | none => refuse (.symbol '\x7d')
  | some (.symbol c) =>
    if c = '\x7d' then
      let closing ← next .enumValue
      pure (.inr (body, closing))
    else if c = ';' then
      let _ ← next .enumValue
      pure (.inl body)
    else refuse .enumValue
  | some (.ident word) =>
    let isValue ← symbolAhead 1 '='
    if word = "option" ∧ isValue = false then
      let setting ← Setting.readStatement source
      pure (.inl { body with settings := body.settings ++ [setting] })
    else if word = "reserved" ∧ isValue = false then
      let _ ← next .enumValue
      let _ ← skipPast ';'
      pure (.inl body)
    else
      let value ← EnumValue.read source
      pure (.inl { body with values := body.values ++ [value] })
  | _ => refuse .enumValue

theorem takes_bodyStep (source : List Char) (body : Body) : Takes 1 (bodyStep source body) := by
  refine .bind_right .peek? fun kind => ?_
  split
  · exact .refuse _ _
  · split
    · exact .bind_left (.next _) fun _ => .pure _
    · split
      · exact .bind_left (.next _) fun _ => .pure _
      · exact .refuse _ _
  · refine .bind_right (.symbolAhead _ _) fun isValue => ?_
    split
    · exact .bind_left (Setting.takes_readStatement _) fun _ => .pure _
    · split
      · exact .bind_left (.next _) fun _ =>
          .bind_right ((takes_skipPast _).mono (Nat.zero_le _)) fun _ => .pure _
      · exact .bind_left (EnumValue.takes_read _) fun _ => .pure _
  · exact .refuse _ _

/-- An enum, after its keyword. -/
def read (source : List Char) (keyword : Token) : Reader EnumDef := do
  let (name, nameToken) ← Reader.name .enumName
  let opening ← symbol '\x7b'
  dropHeld
  let (body, closing) ← iterate (bodyStep source) (.of_takes (takes_bodyStep source)) {}
  let dangling ← takeHeld
  pure { name, position := nameToken.position, keyword := keyword.span, opening := opening.span,
         closing := closing.span, settings := body.settings, values := body.values, dangling,
         storage := none }

theorem takes_read (source : List Char) (keyword : Token) : Takes 1 (read source keyword) :=
  .bind_left (.name _) fun _ =>
    .bind_right ((Takes.symbol _).mono (Nat.zero_le _)) fun _ =>
      .bind_right .dropHeld fun _ =>
        .bind_right (.iterate (fun b => (takes_bodyStep source b).mono (Nat.zero_le _)) _) fun _ =>
          .bind_right .takeHeld fun _ => .pure _

end EnumDef

end FlagSchema
