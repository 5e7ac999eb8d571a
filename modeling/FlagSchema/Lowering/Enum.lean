import FlagSchema.Edit
import FlagSchema.Error
import FlagSchema.Report.Basic

/-!
# Enums as sets of flags

A marked enum becomes a set of flags: its values take one bit each in the order of declaration, and
`None = 0` joins them in front for the empty set. The marker goes, and with it `allow_alias`, which has no
use where no two numbers agree.

* **`EnumDef.flagStorage`**: how a set of flags is stored, or why it cannot be formed.
* **`EnumDef.asFlags`**: the enum as a set of flags.
* **`EnumDef.flagSet`**: what the report says of it.
* **`EnumDef.bodyEdit`**: the text that replaces its body, with every comment of the old one.
-/

namespace FlagSchema

/-- The name of the empty set. -/
def emptySetName : String := "None"

/-- The option that lets values share a number. -/
def aliasOptionName : String := "allow_alias"

/-- Whether an option stays on an enum that becomes a set of flags. -/
def Setting.isKept (s : Setting) : Bool :=
  !s.marksFlags && s.name != aliasOptionName

/-- The value for the empty set. It stands nowhere in the source. -/
def EnumValue.emptySet : EnumValue :=
  { name := emptySetName, position := {}, span := {}, number := 0, settings := [],
    settingsSpan := none, leading := [], trailing := none }

/-- Values numbered by one bit each, from a given index on. -/
def EnumValue.asFlags (index : Nat) : List EnumValue → List EnumValue
  | []      => []
  | v :: vs => { v with number := (flagBit index).toNat } :: asFlags (index + 1) vs

/-- Values as flags, from a given index on. -/
def EnumValue.flags (index : Nat) : List EnumValue → List Flag
  | []      => []
  | v :: vs => ⟨v.name, flagBit index⟩ :: flags (index + 1) vs

namespace EnumDef

/-- How the flags of an enum with a full name are stored. The name of the empty set must be free, and
    there must be a bit for each value. -/
def flagStorage (fullName : String) (e : EnumDef) : Except SchemaError Scalar :=
  if e.values.any fun v => v.name == emptySetName then .error (.reservedNone fullName)
  else
    match Scalar.forFlagCount? e.values.length with
    | some width => .ok width
    | none       => .error (.tooManyFlags fullName e.values.length)

/-- A marked enum as a set of flags; any other stays as it is. -/
def asFlags (e : EnumDef) : EnumDef :=
  if e.marksFlags then
    { e with
      values   := .emptySet :: EnumValue.asFlags 0 e.values
      settings := e.settings.filter Setting.isKept
      storage  := Scalar.forFlagCount? e.values.length }
  else e

/-- A set of flags in the report. -/
def flagSet (fullName : String) (width : Scalar) (e : EnumDef) : FlagSet :=
  { fullName, width, flags := EnumValue.flags 0 e.values }

-- ── The text of a set of flags ───────────────────────────────────────────────────

/-- A comment behind a statement on its line, or nothing. -/
def behind : Option String → String
  | some c => " " ++ c
  | none   => ""

/-- An option that stays, as written. -/
def settingLine (source : List Char) (indent : String) (s : Setting) : String :=
  indent ++ String.ofList (Text.slice source s.span) ++ behind s.trailing ++ "\n"

/-- A value with its comments and its options as written. -/
def valueLines (source : List Char) (indent : String) (v : EnumValue) : String :=
  String.join (v.leading.map fun c => indent ++ c ++ "\n") ++
    indent ++ v.name ++ " = " ++ toString v.number ++
    (match v.settingsSpan with
      | some span => " " ++ String.ofList (Text.slice source span)
      | none      => "") ++
    ";" ++ behind v.trailing ++ "\n"

/-- The indentation of the statements of an enum: that of its first value if the value starts a line,
    else two blanks more than the line of the enum has. -/
def innerIndent (source : List Char) (e : EnumDef) : String :=
  let outer := Edit.indentAt source e.keyword.start
  let own := e.values.head?.bind fun v => Edit.ownIndentAt? source v.span.start
  String.ofList (own.getD (outer ++ [' ', ' ']))

/-- The comment behind the first marker, which the value for the empty set takes over. -/
def markerComment (e : EnumDef) : Option String :=
  (e.settings.find? Setting.marksFlags).bind Setting.trailing

/-- The body of a set of flags, braces included: the value for the empty set, the options that stay, the
    values with their new numbers, the comments before the closing brace. -/
def flagBody (source : List Char) (e : EnumDef) : String :=
  let indent := e.innerIndent source
  "\x7b\n" ++
    indent ++ emptySetName ++ " = 0;" ++ behind e.markerComment ++ "\n" ++
    String.join ((e.settings.filter Setting.isKept).map (settingLine source indent)) ++
    String.join ((EnumValue.asFlags 0 e.values).map (valueLines source indent)) ++
    String.join (e.dangling.map fun c => indent ++ c ++ "\n") ++
    String.ofList (Edit.indentAt source e.keyword.start) ++ "\x7d"

/-- The edit that gives an enum the body of a set of flags. -/
def bodyEdit (source : List Char) (e : EnumDef) : Edit :=
  { span := ⟨e.opening.start, e.closing.stop⟩, text := e.flagBody source }

end EnumDef

end FlagSchema
