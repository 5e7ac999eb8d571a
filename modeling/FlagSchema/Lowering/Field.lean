import FlagSchema.Edit
import FlagSchema.Error
import FlagSchema.Report.Basic
import FlagSchema.Symbols

/-!
# Fields of sets of flags

A field whose type is a set of flags holds the value as an integer: its type becomes the storage type of
the set, and a default that names a flag becomes the number of that flag.

* **`Field.flagType?`**: the set of flags that is the type of a field.
* **`Field.defaultNumber`**: the number of the flag that a default names, or why there is none.
* **`Field.retyped`**: the field with its new type and default.
* **`Field.retypeEdits`**: the changes to the text.
-/

namespace FlagSchema

/-- The option that gives a field its default. -/
def defaultOptionName : String := "default"

/-- The number that a constant names as a default: zero for the empty set, the value of a flag for its
    name. -/
def Constant.flagNumber? (flags : List Flag) : Constant → Option UInt64
  | .ident name =>
    if name = "None" then some 0
    else (flags.find? fun f => f.name == name).map Flag.value
  | _ => none

/-- Options with a number in place of the value of the first default. -/
def Setting.withDefault (n : UInt64) : List Setting → List Setting
  | []      => []
  | s :: ss =>
    if s.name = defaultOptionName then { s with value := .int n.toNat } :: ss
    else s :: withDefault n ss

/-- A set of flags as the type of a field: the name as written, the full name and the storage type. -/
structure FlagTypeRef where
  written  : String
  fullName : String
  width    : Scalar
  deriving DecidableEq, Repr

namespace Field

/-- The set of flags that is the type of a field, or of the values of a map, of a message with a full
    name. -/
def flagType? (symbols : Symbols) (message : String) (f : Field) : Option FlagTypeRef :=
  match f.type.target with
  | .scalar _      => none
  | .named written =>
    match symbols.resolve? message written with
    | some (fullName, .flags width) => some ⟨written, fullName, width⟩
    | _                             => none

/-- The first default of a field. -/
def default? (f : Field) : Option Setting :=
  f.settings.find? fun s => s.name == defaultOptionName

/-- The number of the default of a field whose type is a set of flags, if it has a default. The flags are
    those of the first reported set with the full name of the type. -/
def defaultNumber (sets : List FlagSet) (message : String) (type : FlagTypeRef) (f : Field) :
    Except SchemaError (Option UInt64) :=
  match f.default? with
  | none   => .ok none
  | some s =>
    let flags := ((FlagSet.find? sets type.fullName).map FlagSet.flags).getD []
    match s.value.flagNumber? flags with
    | some n => .ok (some n)
    | none   => .error (.badDefault (joinName message f.name) type.fullName s.value)

/-- A field with the storage type of its set of flags and the number of its default. -/
def retyped (type : FlagTypeRef) (default : Option UInt64) (f : Field) : Field :=
  { f with
    type     := f.type.withTarget (.scalar type.width)
    flags    := some type.fullName
    settings := (default.map fun n => Setting.withDefault n f.settings).getD f.settings }

/-- A field in the report. -/
def retypedEntry (message : String) (type : FlagTypeRef) (f : Field) : RetypedField :=
  { message, field := f.name, flagSet := type.fullName, width := type.width }

/-- The changes to the text: the type and, with its number, the default. -/
def retypeEdits (type : FlagTypeRef) (default : Option UInt64) (f : Field) : List Edit :=
  let typeEdit : Edit := { span := f.typeSpan, text := type.width.keyword }
  let defaultEdit := f.default?.bind fun s => default.map fun n =>
    ({ span := s.span, text := defaultOptionName ++ " = " ++ toString n.toNat } : Edit)
  typeEdit :: defaultEdit.toList

end Field

end FlagSchema
