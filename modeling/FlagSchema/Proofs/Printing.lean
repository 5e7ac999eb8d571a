import FlagSchema.Proofs.Boundaries
import FlagSchema.Proofs.Nesting
import FlagSchema.Reading.Field
import FlagSchema.Text.Split

/-!
# Printing schemas

A schema as a text of statements: its tokens with one space between any two, strings in double quotes. The
language has no reserved words, so a type, a field or a value may have any name; the few places where a
word decides what a statement is are what **`Schema.Printable`** leaves out.

* **`Schema.kinds`**: the tokens of a schema, and **`Message.kinds`**, **`EnumDef.kinds`**,
  **`Field.kinds`**, **`Setting.statement`** those of its parts.
* **`Schema.print`**: the text of a schema.
* **`Schema.Printable`**: schemas that the text says all of, places apart.
* **`Schema.unplaced`**: a schema without its places.
-/

namespace FlagSchema

open Token

-- ── Spelling ─────────────────────────────────────────────────────────────────────

/-- Plain names joined by dots, with or without a dot in front. -/
def Token.isName (name : String) : Bool :=
  match Text.splitAt '.' name.toList with
  | []          => false
  | [] :: parts => !parts.isEmpty && parts.all isPlainName
  | parts       => parts.all isPlainName

namespace Token.Kind

/-- A character inside double quotes. -/
def escaped (c : Char) : List Char :=
  if c = '"' then ['\\', '"']
  else if c = '\\' then ['\\', '\\']
  else if c = '\n' then ['\\', 'n']
  else if c = '\r' then ['\\', 'r']
  else if c = '\t' then ['\\', 't']
  else [c]

/-- How a token is written; strings are written in double quotes. -/
def spelling : Kind → List Char
  | .ident s | .int s | .float s | .comment s => s.toList
  | .str value => '"' :: value.toList.flatMap escaped ++ ['"']
  | .symbol c  => [c]

/-- Tokens with a space between any two. -/
def spaced (ks : List Kind) : String :=
  String.ofList ([' '].intercalate (ks.map spelling))

end Token.Kind

-- ── Options ──────────────────────────────────────────────────────────────────────

/-- A number with its sign. -/
def Token.Kind.number (n : Int) : List Kind :=
  if n < 0 then [.symbol '-', .int n.natAbs.repr] else [.int n.natAbs.repr]

/-- The value of an option. Floating point numbers and aggregates are not printed. -/
def Constant.kinds : Constant → List Kind
  | .ident name              => [.ident name]
  | .bool b                  => [.ident (if b then "true" else "false")]
  | .int n                   => Kind.number n
  | .str value               => [.str value]
  | .float _ | .aggregate _  => []

namespace Setting

/-- The name of an option, with the parentheses of an extension on their own. -/
def nameKinds (name : String) : List Kind :=
  match name.toList with
  | '(' :: cs =>
    let (extension, rest) := cut (· ≠ ')') cs
    let subfields := rest.tail
    .symbol '(' :: .ident (String.ofList extension) :: .symbol ')' ::
      if subfields.isEmpty then [] else [.ident (String.ofList subfields)]
  | _ => [.ident name]

/-- `name = value`. -/
def entry (s : Setting) : List Kind :=
  nameKinds s.name ++ .symbol '=' :: s.value.kinds

/-- `option name = value;`. -/
def statement (s : Setting) : List Kind :=
  .ident "option" :: nameKinds s.name ++ .symbol '=' :: (s.value.kinds ++ [.symbol ';'])

/-- Options with commas between them. -/
def entries : List Setting → List Kind
  | []      => []
  | [s]     => s.entry
  | s :: ss => s.entry ++ .symbol ',' :: entries ss

theorem entries_cons_cons (s s' : Setting) (ss : List Setting) :
    entries (s :: s' :: ss) = s.entry ++ .symbol ',' :: entries (s' :: ss) := by
  rw [entries]
  exact List.cons_ne_nil _ _

/-- A list of options in brackets, or nothing. -/
def brackets : List Setting → List Kind
  | [] => []
  | ss => .symbol '[' :: (entries ss ++ [.symbol ']'])

end Setting

-- ── Fields, enums, messages ──────────────────────────────────────────────────────

/-- The word for a type. -/
def TypeRef.word : TypeRef → String
  | .scalar s   => s.keyword
  | .named name => name

/-- The word that the type of a field starts with. -/
def FieldType.word : FieldType → String
  | .single t => t.word
  | .map _ _  => "map"

/-- What follows that word: the types of a map. -/
def FieldType.arguments : FieldType → List Kind
  | .single _      => []
  | .map key value =>
    [.symbol '<', .ident key.keyword, .symbol ',', .ident value.word, .symbol '>']

/-- The label of a field. -/
def Label.kinds : Label → List Kind
  | .singular => []
  | .optional => [.ident "optional"]
  | .required => [.ident "required"]
  | .repeated => [.ident "repeated"]

/-- `label type name = number [options];`. -/
def Field.kinds (f : Field) : List Kind :=
  f.label.kinds ++ .ident f.type.word :: (f.type.arguments ++
    .ident f.name :: .symbol '=' :: .int f.number.repr :: (Setting.brackets f.settings ++ [.symbol ';']))

/-- `name = number [options];`. -/
def EnumValue.kinds (v : EnumValue) : List Kind :=
  .ident v.name :: .symbol '=' :: (Kind.number v.number ++ (Setting.brackets v.settings ++ [.symbol ';']))

/-- An enum: its options, then its values. -/
def EnumDef.kinds (e : EnumDef) : List Kind :=
  .ident "enum" :: .ident e.name :: .symbol '\x7b' ::
    (e.settings.flatMap Setting.statement ++ (e.values.flatMap EnumValue.kinds ++ [.symbol '\x7d']))

namespace Message

mutual

/-- A message: its options, enums and fields, then the messages nested in it. -/
def kinds : Message → List Kind
  | ⟨name, _, fields, messages, enums, settings, _⟩ =>
    .ident "message" :: .ident name :: .symbol '\x7b' ::
      (settings.flatMap Setting.statement ++ (enums.flatMap EnumDef.kinds ++
        (fields.flatMap Field.kinds ++ (allKinds messages ++ [.symbol '\x7d']))))

/-- Several messages. -/
def allKinds : List Message → List Kind
  | []      => []
  | m :: ms => kinds m ++ allKinds ms

end

theorem allKinds_eq (ms : List Message) : allKinds ms = ms.flatMap kinds := by
  induction ms with
  | nil => rfl
  | cons m ms ih => rw [allKinds, ih, List.flatMap_cons]

/-- The body of a message and its closing brace. -/
def bodyKinds (m : Message) : List Kind :=
  m.settings.flatMap Setting.statement ++ (m.enums.flatMap EnumDef.kinds ++
    (m.fields.flatMap Field.kinds ++ (m.messages.flatMap kinds ++ [.symbol '\x7d'])))

theorem kinds_eq (m : Message) :
    m.kinds = .ident "message" :: .ident m.name :: .symbol '\x7b' :: m.bodyKinds := by
  cases m
  rw [kinds, allKinds_eq, bodyKinds]

end Message

namespace Schema

/-- A schema, statement by statement. -/
def kinds (s : Schema) : List Kind :=
  s.edition.toList.flatMap (fun edition => [.ident "syntax", .symbol '=', .str edition, .symbol ';']) ++
    (s.package.toList.flatMap (fun package => [.ident "package", .ident package, .symbol ';']) ++
      (s.imports.flatMap (fun path => [.ident "import", .str path, .symbol ';']) ++
        (s.settings.flatMap Setting.statement ++
          (s.enums.flatMap EnumDef.kinds ++ s.messages.flatMap Message.kinds))))

/-- The text of a schema. -/
def print (s : Schema) : String := Kind.spaced s.kinds

end Schema

-- ── What can be printed ──────────────────────────────────────────────────────────

/-- Names of options: a name, or the name of an extension in parentheses with or without sub-fields. -/
inductive Setting.IsName : String → Prop where
  | bare {name : String} (h : isName name = true) : IsName name
  | extension {name : String} (h : isName name = true) : IsName ("(" ++ name ++ ")")
  | subfield {name subfields : String} (h : isName name = true) (hsub : isName subfields = true)
      (hdot : subfields.toList.head? = some '.') : IsName ("(" ++ name ++ ")" ++ subfields)

/-- Constants that are printed and read as themselves: a name must not be that of another constant, and
    an integer must be smaller than what is read as one. -/
def Constant.Printable : Constant → Prop
  | .ident name             => isName name = true ∧ name ∉ ["true", "false", "inf", "nan"]
  | .bool _ | .str _        => True
  | .int n                  => n.natAbs < integerLimit
  | .float _ | .aggregate _ => False

/-- Options that are printed and read as themselves. -/
structure Setting.Printable (s : Setting) : Prop where
  name     : IsName s.name
  value    : s.value.Printable
  trailing : s.trailing = none

/-- Types that are printed and read as themselves. -/
def TypeRef.Printable : TypeRef → Prop
  | .scalar _   => True
  | .named name => isName name = true ∧ Scalar.ofKeyword? name = none ∧ name ≠ "group"

/-- The words that start a statement of a message. -/
def Message.statementWords : List String :=
  ["message", "enum", "option", "oneof", "reserved", "extensions", "extend"]

/-- Fields that are printed and read as themselves: without a label, the type comes first and must not
    start another statement. -/
structure Field.Printable (f : Field) : Prop where
  name     : isName f.name = true
  type     : f.type.target.Printable
  word     : f.label = .singular → f.type.word ∉ Message.statementWords
  number   : 1 ≤ f.number ∧ f.number ≤ maxFieldNumber
  settings : ∀ x ∈ f.settings, x.Printable
  oneof    : f.oneof = none
  flags    : f.flags = none

/-- Enum values that are printed and read as themselves. -/
structure EnumValue.Printable (v : EnumValue) : Prop where
  name     : isName v.name = true
  number   : v.number.natAbs < integerLimit
  settings : ∀ x ∈ v.settings, x.Printable
  leading  : v.leading = []
  trailing : v.trailing = none

/-- Enums that are printed and read as themselves. -/
structure EnumDef.Printable (e : EnumDef) : Prop where
  name     : isName e.name = true
  settings : ∀ x ∈ e.settings, x.Printable
  values   : ∀ v ∈ e.values, v.Printable
  dangling : e.dangling = []
  storage  : e.storage = none

/-- Messages that are printed and read as themselves, at every depth. -/
inductive Message.Printable : Message → Prop where
  | intro {m : Message} (name : isName m.name = true) (settings : ∀ x ∈ m.settings, x.Printable)
      (enums : ∀ e ∈ m.enums, e.Printable) (fields : ∀ f ∈ m.fields, f.Printable)
      (messages : ∀ i ∈ m.messages, i.Printable) (oneofs : m.oneofs = []) : Printable m

/-- Schemas that are printed and read as themselves. -/
structure Schema.Printable (s : Schema) : Prop where
  package  : ∀ name ∈ s.package, isName name = true
  settings : ∀ x ∈ s.settings, x.Printable
  enums    : ∀ e ∈ s.enums, e.Printable
  messages : ∀ m ∈ s.messages, m.Printable

-- ── Schemas without their places ─────────────────────────────────────────────────

/-- An option without its place. -/
def Setting.unplaced (s : Setting) : Setting := { s with span := {} }

/-- A field without its places. -/
def Field.unplaced (f : Field) : Field :=
  { f with position := {}, settings := f.settings.map Setting.unplaced, typeSpan := {} }

/-- An enum value without its places. -/
def EnumValue.unplaced (v : EnumValue) : EnumValue :=
  { v with position := {}, span := {}, settings := v.settings.map Setting.unplaced, settingsSpan := none }

/-- An enum without its places. -/
def EnumDef.unplaced (e : EnumDef) : EnumDef :=
  { e with position := {}, keyword := {}, opening := {}, closing := {},
           settings := e.settings.map Setting.unplaced, values := e.values.map EnumValue.unplaced }

namespace Message

mutual

/-- A message without its places, at every depth. -/
def unplaced : Message → Message
  | ⟨name, _, fields, messages, enums, settings, oneofs⟩ =>
    ⟨name, {}, fields.map Field.unplaced, allUnplaced messages, enums.map EnumDef.unplaced,
      settings.map Setting.unplaced, oneofs⟩

/-- Several messages without their places. -/
def allUnplaced : List Message → List Message
  | []      => []
  | m :: ms => unplaced m :: allUnplaced ms

end

theorem allUnplaced_eq (ms : List Message) : allUnplaced ms = ms.map unplaced := by
  induction ms with
  | nil => rfl
  | cons m ms ih => rw [allUnplaced, ih, List.map_cons]

theorem unplaced_eq (m : Message) :
    m.unplaced = ⟨m.name, {}, m.fields.map Field.unplaced, m.messages.map unplaced,
      m.enums.map EnumDef.unplaced, m.settings.map Setting.unplaced, m.oneofs⟩ := by
  cases m
  rw [unplaced, allUnplaced_eq]

end Message

/-- A schema without its places. -/
def Schema.unplaced (s : Schema) : Schema :=
  { s with settings := s.settings.map Setting.unplaced, messages := s.messages.map Message.unplaced,
           enums := s.enums.map EnumDef.unplaced }

end FlagSchema
