import FlagSchema.Reading.Reader
import FlagSchema.Text.Blank
import FlagSchema.Text.Numeral

/-!
# Reading constants and options

Numbers, strings and the other values of options, and options themselves: a statement of their own or a
list in brackets behind a field or an enum value.

* **`integerValue?`**: the value of an integer's spelling, below `2^127`.
* **`Constant.read`**: a value, with the offset at which it ends.
* **`Setting.readStatement`**, **`Setting.readBracketed`**: options.
* **`skipPast`**, **`skipBraces`**: passing over what is not looked at.
-/

namespace FlagSchema

open Reader

-- ── Passing over tokens ──────────────────────────────────────────────────────────

/-- One token on the way to a symbol. -/
def skipStep (c : Char) (_ : Unit) : Reader (Unit ⊕ Token) := do
  let t ← next (.symbol c)
  pure (if t.kind = .symbol c then .inr t else .inl ())

theorem takes_skipStep (c : Char) (u : Unit) : Takes 1 (skipStep c u) :=
  .bind_left (.next _) fun _ => .pure _

/-- Everything up to and including the next occurrence of a symbol. -/
def skipPast (c : Char) : Reader Token :=
  iterate (skipStep c) (.of_takes (takes_skipStep c)) ()

theorem takes_skipPast (c : Char) : Takes 1 (skipPast c) :=
  .iterate (takes_skipStep c) ()

/-- One token on the way to a closing brace, with `depth` more braces open inside. -/
def braceStep (depth : Nat) : Reader (Nat ⊕ Token) := do
  let t ← next (.symbol '\x7d')
  pure <|
    if t.kind = .symbol '\x7b' then .inl (depth + 1)
    else if t.kind = .symbol '\x7d' then
      match depth with
      | 0         => .inr t
      | depth + 1 => .inl depth
    else .inl depth

theorem takes_braceStep (depth : Nat) : Takes 1 (braceStep depth) :=
  .bind_left (.next _) fun _ => .pure _

/-- Everything up to and including the brace that closes one already passed. -/
def skipBraces : Reader Token :=
  iterate braceStep (.of_takes takes_braceStep) 0

theorem takes_skipBraces : Takes 1 skipBraces :=
  .iterate takes_braceStep 0

/-- A header and its block in braces. -/
def skipBlock : Reader Unit := do
  let _ ← skipPast '\x7b'
  let _ ← skipBraces
  pure ()

theorem takes_skipBlock : Takes 1 skipBlock :=
  .bind_left (takes_skipPast _) fun _ =>
    .bind_right (takes_skipBraces.mono (Nat.zero_le _)) fun _ => .pure _

-- ── Numbers ──────────────────────────────────────────────────────────────────────

/-- The least natural number that is too large for an integer: `2^127`. -/
def integerLimit : Nat := 0x80000000000000000000000000000000

/-- The value of an integer's spelling: base sixteen after `0x`, base eight after another leading zero,
    else base ten; values from `2^127` on have none. -/
def integerValue? (spelling : String) : Option Nat :=
  let value :=
    match spelling.toList with
    | '0' :: x :: digits =>
      if x = 'x' ∨ x = 'X' then Text.ofDigits? 16 digits else Text.ofDigits? 8 (x :: digits)
    | digits => Text.ofDigits? 10 digits
  value.filter (· < integerLimit)

/-- The value of a floating point number's spelling, which any number of `f` may end. -/
def floatValue? (spelling : String) : Option Binary64 :=
  Binary64.ofLiteral? (spelling.toList.reverse.dropWhile fun c => c = 'f' ∨ c = 'F').reverse

/-- The numbers that have a name. -/
def namedNumber? (name : String) : Option Binary64 :=
  if name = "inf" then some .infinity
  else if name = "nan" then some .nan
  else none

/-- An integer, which must come next. -/
def readInteger (what : Expectation) : Reader (Nat × Token) := do
  let t ← next what
  match t.kind with
  | .int spelling =>
    match integerValue? spelling with
    | some n => pure (n, t)
    | none   => fail (.badNumber t.position spelling)
  | found => fail (.expected t.position .integer found)

theorem takes_readInteger (what : Expectation) : Takes 1 (readInteger what) := by
  refine .bind_left (.next _) fun t => ?_
  split
  · split
    · exact .pure _
    · exact .fail _ _
  · exact .fail _ _

/-- A number without a sign, with the offset at which it ends. -/
def readNumber : Reader (Constant × Nat) := do
  let t ← next .number
  let value : Except SchemaError Constant :=
    match t.kind with
    | .int spelling =>
      ((integerValue? spelling).map fun n => Constant.int n).elim
        (.error (.badNumber t.position spelling)) .ok
    | .float spelling =>
      ((floatValue? spelling).map Constant.float).elim
        (.error (.badNumber t.position spelling)) .ok
    | .ident name =>
      ((namedNumber? name).map Constant.float).elim
        (.error (.expected t.position .number t.kind)) .ok
    | found => .error (.expected t.position .number found)
  match value with
  | .ok c    => pure (c, t.span.stop)
  | .error e => fail e

theorem takes_readNumber : Takes 1 readNumber := by
  refine .bind_left (.next _) fun t => ?_
  dsimp only
  split
  · exact .pure _
  · exact .fail _ _

/-- A number with the other sign. -/
def Constant.negated : Constant → Constant
  | .int n   => .int (-n)
  | .float x => .float x.neg
  | c        => c

/-- The constant that a name stands for. -/
def Constant.ofName (name : String) : Constant :=
  if name = "true" then .bool true
  else if name = "false" then .bool false
  else ((namedNumber? name).map Constant.float).getD (.ident name)

-- ── Strings ──────────────────────────────────────────────────────────────────────

/-- One more literal of a string. -/
def stringStep (read : String × Token) : Reader ((String × Token) ⊕ (String × Token)) := do
  let more ← accept stringForm
  pure <|
    match more with
    | some (value, t) => .inl (read.1 ++ value, t)
    | none            => .inr read

theorem proceeds_stringStep : Proceeds stringStep := by
  intro b s b' s' h
  obtain ⟨found, s₁, h1, h2⟩ := exists_of_bind h
  cases found with
  | none => cases h2
  | some x => cases h2; exact Takes.of_accept h1

theorem takes_stringStep (read : String × Token) : Takes 0 (stringStep read) :=
  .bind_right (.accept _) fun _ => .pure _

/-- A string, which must come next: one literal or several in a row. With it its last literal. -/
def readString (what : Expectation) : Reader (String × Token) := do
  let first ← require what stringForm
  iterate stringStep proceeds_stringStep first

theorem takes_readString (what : Expectation) : Takes 1 (readString what) :=
  .bind_left (.require _ _) fun first => .iterate takes_stringStep first

-- ── Values of options ────────────────────────────────────────────────────────────

/-- The text between two braces, without blanks at its ends. -/
def Constant.between (source : List Char) (opening closing : Token) : Constant :=
  .aggregate (String.ofList
    (Text.trim (Text.slice source ⟨opening.span.stop, closing.span.start⟩)))

/-- The value of an option, with the offset at which it ends. -/
def Constant.read (source : List Char) : Reader (Constant × Nat) := do
  match ← peek? with
  | some (.str _) =>
    let (value, last) ← readString .string
    pure (.str value, last.span.stop)
  | some (.symbol c) =>
    if c = '\x7b' then
      let opening ← next .constant
      let closing ← skipBraces
      pure (.between source opening closing, closing.span.stop)
    else if c = '-' then
      let _ ← next .constant
      let (value, stop) ← readNumber
      pure (value.negated, stop)
    else if c = '+' then
      let _ ← next .constant
      readNumber
    else refuse .constant
  | some (.ident name) =>
    let t ← next .constant
    pure (.ofName name, t.span.stop)
  | some (.int _)   => readNumber
  | some (.float _) => readNumber
  | _ => refuse .constant

theorem takes_readConstant (source : List Char) : Takes 1 (Constant.read source) := by
  refine .bind_right .peek? fun kind => ?_
  split
  · exact .bind_left (takes_readString _) fun _ => .pure _
  · split
    · exact .bind_left (.next _) fun _ =>
        .bind_right (takes_skipBraces.mono (Nat.zero_le _)) fun _ => .pure _
    · split
      · exact .bind_left (.next _) fun _ =>
          .bind_right (takes_readNumber.mono (Nat.zero_le _)) fun _ => .pure _
      · split
        · exact .bind_left (.next _) fun _ => takes_readNumber.mono (Nat.zero_le _)
        · exact .refuse _ _
  · exact .bind_left (.next _) fun _ => .pure _
  · exact takes_readNumber
  · exact takes_readNumber
  · exact .refuse _ _

-- ── Names of options ─────────────────────────────────────────────────────────────

/-- The name that a token is, if it starts with a dot. -/
def subfieldForm : Token.Kind → Option String
  | .ident name => if name.toList.head? = some '.' then some name else none
  | _           => none

/-- One more sub-field of an option's name. -/
def subfieldStep (name : String) : Reader (String ⊕ String) := do
  let more ← accept subfieldForm
  pure <|
    match more with
    | some (sub, _) => .inl (name ++ sub)
    | none          => .inr name

theorem proceeds_subfieldStep : Proceeds subfieldStep := by
  intro b s b' s' h
  obtain ⟨found, s₁, h1, h2⟩ := exists_of_bind h
  cases found with
  | none => cases h2
  | some x => cases h2; exact Takes.of_accept h1

theorem takes_subfieldStep (name : String) : Takes 0 (subfieldStep name) :=
  .bind_right (.accept _) fun _ => .pure _

/-- The name of an option or of an extension in parentheses. -/
def readBareName : Reader String := do
  if ← acceptSymbol '(' then
    let (extension, _) ← name .extensionName
    let _ ← symbol ')'
    pure ("(" ++ extension ++ ")")
  else
    let (option, _) ← name .optionName
    pure option

theorem takes_readBareName : Takes 1 readBareName := by
  refine .bind_right (.acceptSymbol _) fun found => ?_
  split
  · exact .bind_left (.name _) fun _ =>
      .bind_right ((Takes.symbol _).mono (Nat.zero_le _)) fun _ => .pure _
  · exact .bind_left (.name _) fun _ => .pure _

/-- The name of an option, with its sub-fields. -/
def readOptionName : Reader String := do
  let bare ← readBareName
  iterate subfieldStep proceeds_subfieldStep bare

theorem takes_readOptionName : Takes 1 readOptionName :=
  .bind_left takes_readBareName fun bare => .iterate takes_subfieldStep bare

-- ── Options ──────────────────────────────────────────────────────────────────────

namespace Setting

/-- A statement `option name = value;` and the comment behind it on its line. -/
def readStatement (source : List Char) : Reader Setting := do
  let keyword ← next .optionName
  let name ← readOptionName
  let _ ← symbol '='
  let (value, _) ← Constant.read source
  let semicolon ← symbol ';'
  let trailing ← Reader.trailing semicolon.position.line
  pure { name, value, span := ⟨keyword.span.start, semicolon.span.stop⟩, trailing }

theorem takes_readStatement (source : List Char) : Takes 1 (readStatement source) :=
  .bind_left (.next _) fun _ =>
    .bind_right (takes_readOptionName.mono (Nat.zero_le _)) fun _ =>
      .bind_right ((Takes.symbol _).mono (Nat.zero_le _)) fun _ =>
        .bind_right ((takes_readConstant _).mono (Nat.zero_le _)) fun _ =>
          .bind_right ((Takes.symbol _).mono (Nat.zero_le _)) fun _ =>
            .bind_right (.trailing _) fun _ => .pure _

/-- The offset at which the next token starts. -/
def nextStart : Reader Nat := fun s =>
  .ok ((s.items.head?.map (·.token.span.start)).getD 0, s)

theorem takes_nextStart : Takes 0 nextStart := by
  intro s a s' h
  cases h
  exact Nat.le_refl _

/-- `name = value` inside brackets. -/
def readEntry (source : List Char) : Reader Setting := do
  let start ← nextStart
  let name ← readOptionName
  let _ ← symbol '='
  let (value, stop) ← Constant.read source
  pure { name, value, span := ⟨start, stop⟩, trailing := none }

theorem takes_readEntry (source : List Char) : Takes 1 (readEntry source) :=
  .bind_right takes_nextStart fun _ =>
    .bind_left takes_readOptionName fun _ =>
      .bind_right ((Takes.symbol _).mono (Nat.zero_le _)) fun _ =>
        .bind_right ((takes_readConstant _).mono (Nat.zero_le _)) fun _ => .pure _

/-- One entry of a bracketed list; a comma asks for another. -/
def entryStep (source : List Char) (read : List Setting) :
    Reader (List Setting ⊕ List Setting) := do
  let entry ← readEntry source
  if ← acceptSymbol ',' then pure (.inl (read ++ [entry])) else pure (.inr (read ++ [entry]))

theorem takes_entryStep (source : List Char) (read : List Setting) :
    Takes 1 (entryStep source read) := by
  refine .bind_left (takes_readEntry _) fun _ => .bind_right (.acceptSymbol _) fun found => ?_
  split <;> exact .pure _

/-- A list of options in brackets, with the span of the brackets, or nothing. -/
def readBracketed (source : List Char) : Reader (List Setting × Option Span) := do
  match ← accept (symbolForm '[') with
  | none => pure ([], none)
  | some (_, opening) =>
    let settings ← iterate (entryStep source) (.of_takes (takes_entryStep source)) []
    let closing ← symbol ']'
    pure (settings, some ⟨opening.span.start, closing.span.stop⟩)

theorem takes_readBracketed (source : List Char) : Takes 0 (readBracketed source) := by
  refine .bind_right (.accept _) fun found => ?_
  split
  · exact .pure _
  · exact .bind_right (.iterate (fun b => (takes_entryStep source b).mono (Nat.zero_le _)) _)
      fun _ => .bind_right ((Takes.symbol _).mono (Nat.zero_le _)) fun _ => .pure _

end Setting

end FlagSchema
