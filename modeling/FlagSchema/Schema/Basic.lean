import FlagSchema.Decimal.Layout
import FlagSchema.Scalar
import FlagSchema.Source
import FlagSchema.Text.Quoted

/-!
# Schemas

What a schema declares: messages with their fields, enums with their values, and the options set on
them. Declarations keep where they stand in the source, and enums keep their comments, so that an enum
can be written anew without losing one.

* **`Schema`**, **`Message`**, **`Field`**, **`EnumDef`**, **`EnumValue`**, **`Setting`**: the
  declarations.
* **`Setting.marksFlags`**, **`EnumDef.marksFlags`**: the marker `option (bitmap)` that makes an enum a
  set of flags.
* **`Message.enumsIn`**, **`Message.fieldsIn`**: the enums and the fields of a message and of those
  nested in it, each with the full name of the message that declares it.
* **`Message.mapEnums`**, **`Message.mapFields`**: changing all of them.
-/

namespace FlagSchema

/-- `a.b` and `C` make `a.b.C`; the empty scope adds nothing. -/
def joinName (scope name : String) : String :=
  if scope.isEmpty then name else scope ++ "." ++ name

-- ── Settings ─────────────────────────────────────────────────────────────────────

/-- The value of an option. -/
inductive Constant where
  | ident (name : String)
  | bool (b : Bool)
  | int (n : Int)
  | float (x : Binary64)
  | str (value : String)
  /-- The text between the braces of a `{ … }` value. -/
  | aggregate (text : String)
  deriving DecidableEq, Repr, Inhabited

/-- Floating point constants are shown by their shortest digits, positionally from `1e-4` up to below
    `1e16`, and a whole number keeps one decimal place. -/
def Constant.floatLayout : Decimal.Layout :=
  { lowest := -4, highest := 15, whole := ".0", mark := "e", infinity := "inf", nan := "NaN" }

/-- A constant with the name of its kind, as messages show it. -/
def Constant.describe : Constant → String
  | .ident s     => "Ident(" ++ Text.quoted s ++ ")"
  | .bool b      => "Bool(" ++ (if b then "true" else "false") ++ ")"
  | .int n       => "Int(" ++ toString n ++ ")"
  | .float x     => "Float(" ++ floatLayout.render x ++ ")"
  | .str s       => "Str(" ++ Text.quoted s ++ ")"
  | .aggregate s => "Aggregate(" ++ Text.quoted s ++ ")"

/-- An option set to a value, on a statement of its own or in brackets. -/
structure Setting where
  name     : String
  value    : Constant
  span     : Span
  /-- The comment after an `option …;` statement on its line. -/
  trailing : Option String
  deriving DecidableEq, Repr, Inhabited

namespace Setting

/-- The names of the marker: `(bitmap)`, in a package or not. -/
def isMarkerName (name : String) : Bool :=
  name == "(bitmap)" ||
    (['('].isPrefixOf name.toList && ".bitmap)".toList.isSuffixOf name.toList)

/-- Whether an option marks its enum as a set of flags: any value but `false` does. -/
def marksFlags (s : Setting) : Bool :=
  isMarkerName s.name && s.value ≠ .bool false

end Setting

-- ── Fields ───────────────────────────────────────────────────────────────────────

/-- A type that a field names: a scalar, or a message or an enum as written. -/
inductive TypeRef where
  | scalar (s : Scalar)
  | named (name : String)
  deriving DecidableEq, Repr, Inhabited

/-- The type that a name in a type position refers to. -/
def TypeRef.ofName (name : String) : TypeRef :=
  match Scalar.ofKeyword? name with
  | some s => .scalar s
  | none   => .named name

/-- The type of a field. -/
inductive FieldType where
  | single (type : TypeRef)
  | map (key : Scalar) (value : TypeRef)
  deriving DecidableEq, Repr, Inhabited

namespace FieldType

/-- The type itself, or the type of the values of a map. -/
def target : FieldType → TypeRef
  | .single t => t
  | .map _ t  => t

/-- The same shape around another type. -/
def withTarget (t : TypeRef) : FieldType → FieldType
  | .single _  => .single t
  | .map key _ => .map key t

end FieldType

/-- How often a field occurs. -/
inductive Label where
  | singular | optional | required | repeated
  deriving DecidableEq, Repr, Inhabited

/-- A field of a message. -/
structure Field where
  name     : String
  position : Position
  label    : Label
  type     : FieldType
  number   : Nat
  settings : List Setting
  /-- The choice that the field belongs to. -/
  oneof    : Option String
  /-- Where the type, or the type of the values of a map, is written. -/
  typeSpan : Span
  /-- The full name of the set of flags that was the type before the fields were retyped. -/
  flags    : Option String
  deriving DecidableEq, Repr, Inhabited

-- ── Enums ────────────────────────────────────────────────────────────────────────

/-- A value of an enum. -/
structure EnumValue where
  name         : String
  position     : Position
  span         : Span
  number       : Int
  settings     : List Setting
  /-- Where the bracketed options are written. -/
  settingsSpan : Option Span
  leading      : List String
  trailing     : Option String
  deriving DecidableEq, Repr, Inhabited

/-- An enum. -/
structure EnumDef where
  name     : String
  position : Position
  /-- Where the keyword and the two braces are written. -/
  keyword  : Span
  opening  : Span
  closing  : Span
  settings : List Setting
  values   : List EnumValue
  /-- The comments between the last value and the closing brace. -/
  dangling : List String
  /-- How a set of flags is stored, once the enum has been made one. -/
  storage  : Option Scalar
  deriving DecidableEq, Repr, Inhabited

/-- Whether an enum is marked as a set of flags. -/
def EnumDef.marksFlags (e : EnumDef) : Bool :=
  e.settings.any Setting.marksFlags

-- ── Messages ─────────────────────────────────────────────────────────────────────

/-- A message. -/
structure Message where
  name     : String
  position : Position := {}
  fields   : List Field := []
  messages : List Message := []
  enums    : List EnumDef := []
  settings : List Setting := []
  oneofs   : List String := []
  deriving Repr, Inhabited

namespace Message

mutual

/-- The enums of a message found in a scope, then those of the messages nested in it, each with the full
    name of the message that declares it. -/
def enumsIn (scope : String) : Message → List (String × EnumDef)
  | ⟨name, _, _, messages, enums, _, _⟩ =>
    enums.map (joinName scope name, ·) ++ allEnumsIn (joinName scope name) messages

/-- The enums of several messages of a scope. -/
def allEnumsIn (scope : String) : List Message → List (String × EnumDef)
  | []      => []
  | m :: ms => enumsIn scope m ++ allEnumsIn scope ms

end

mutual

/-- The fields of a message found in a scope, then those of the messages nested in it, each with the full
    name of the message that declares it. -/
def fieldsIn (scope : String) : Message → List (String × Field)
  | ⟨name, _, fields, messages, _, _, _⟩ =>
    fields.map (joinName scope name, ·) ++ allFieldsIn (joinName scope name) messages

/-- The fields of several messages of a scope. -/
def allFieldsIn (scope : String) : List Message → List (String × Field)
  | []      => []
  | m :: ms => fieldsIn scope m ++ allFieldsIn scope ms

end

mutual

/-- Every enum of a message changed, at every depth. -/
def mapEnums (f : EnumDef → EnumDef) : Message → Message
  | ⟨name, position, fields, messages, enums, settings, oneofs⟩ =>
    ⟨name, position, fields, mapAllEnums f messages, enums.map f, settings, oneofs⟩

/-- Every enum of several messages changed. -/
def mapAllEnums (f : EnumDef → EnumDef) : List Message → List Message
  | []      => []
  | m :: ms => mapEnums f m :: mapAllEnums f ms

end

mutual

/-- Every field of a message found in a scope changed, at every depth; the change sees the full name of
    the message that declares the field. -/
def mapFields (f : String → Field → Field) (scope : String) : Message → Message
  | ⟨name, position, fields, messages, enums, settings, oneofs⟩ =>
    ⟨name, position, fields.map (f (joinName scope name)),
      mapAllFields f (joinName scope name) messages, enums, settings, oneofs⟩

/-- Every field of several messages of a scope changed. -/
def mapAllFields (f : String → Field → Field) (scope : String) : List Message → List Message
  | []      => []
  | m :: ms => mapFields f scope m :: mapAllFields f scope ms

end

mutual

/-- A message with the fields of another, at every depth and by place. -/
def withFieldsOf : Message → Message → Message
  | ⟨name, position, _, messages, enums, settings, oneofs⟩, other =>
    ⟨name, position, other.fields, withAllFieldsOf messages other.messages, enums, settings, oneofs⟩

/-- Several messages with the fields of others. -/
def withAllFieldsOf : List Message → List Message → List Message
  | m :: ms, o :: os => withFieldsOf m o :: withAllFieldsOf ms os
  | ms,      _       => ms

end

end Message

-- ── Schemas ──────────────────────────────────────────────────────────────────────

/-- A schema. -/
structure Schema where
  /-- The string of the `syntax` or `edition` statement. -/
  edition  : Option String := none
  package  : Option String := none
  imports  : List String := []
  settings : List Setting := []
  messages : List Message := []
  enums    : List EnumDef := []
  deriving Repr, Inhabited

namespace Schema

/-- The scope of the top-level declarations. -/
def scope (s : Schema) : String := s.package.getD ""

/-- Every enum with the full name of the scope that declares it: the top-level ones, then those of each
    message. -/
def enumsIn (s : Schema) : List (String × EnumDef) :=
  s.enums.map (s.scope, ·) ++ Message.allEnumsIn s.scope s.messages

/-- Every field with the full name of the message that declares it. -/
def fieldsIn (s : Schema) : List (String × Field) :=
  Message.allFieldsIn s.scope s.messages

/-- Every enum changed. -/
def mapEnums (f : EnumDef → EnumDef) (s : Schema) : Schema :=
  { s with enums := s.enums.map f, messages := Message.mapAllEnums f s.messages }

/-- Every field changed, in view of the full name of the message that declares it. -/
def mapFields (f : String → Field → Field) (s : Schema) : Schema :=
  { s with messages := Message.mapAllFields f s.scope s.messages }

/-- A schema with the fields of another, by place. -/
def withFieldsOf (s other : Schema) : Schema :=
  { s with messages := Message.withAllFieldsOf s.messages other.messages }

end Schema

end FlagSchema
