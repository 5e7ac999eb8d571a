import FlagSchema.Event
import FlagSchema.Reading.Schema
import FlagSchema.Lowering.Enum
import FlagSchema.Lowering.Field

/-!
# Lowering schemas

Lowering replaces sets of flags by the integers that store them: every enum marked as a set of flags
becomes one, then every field of such a type is retyped. All enums come before all fields, since a field
may name an enum that is declared after it.

* **`Lowered`**: the new schema and text, the report, and the edits that lead from the old text to the
  new one.
* **`Schema.lower`**: lowering a schema with its source.
* **`lower`**: lowering a source.
-/

namespace FlagSchema

/-- The result of lowering a schema. -/
structure Lowered where
  text   : String
  schema : Schema
  report : Report
  edits  : List Edit

/-- A marked enum, looked at: its set of flags and the edit of its body. -/
def EnumDef.makeFlags (source : List Char) (scope : String) (e : EnumDef) :
    Traced SchemaError (FlagSet × Edit) := do
  let fullName := joinName scope e.name
  let width ← Traced.lift (e.flagStorage fullName)
  Traced.tell (.flagsStored fullName e.values.length width)
  pure (e.flagSet fullName width, e.bodyEdit source)

/-- A field whose type is a set of flags, looked at: its entry in the report and its edits. -/
def Field.retype (sets : List FlagSet) (message : String) (type : FlagTypeRef) (f : Field) :
    Traced SchemaError (RetypedField × List Edit) := do
  let default ← Traced.lift (f.defaultNumber sets message type)
  Traced.tell (.fieldRetyped message f.name type.written type.width)
  pure (f.retypedEntry message type, f.retypeEdits type default)

/-- A field with its new type, if its type is a set of flags. -/
def Field.asFlags (symbols : Symbols) (sets : List FlagSet) (message : String) (f : Field) : Field :=
  match f.flagType? symbols message with
  | none      => f
  | some type =>
    match f.defaultNumber sets message type with
    | .ok default => f.retyped type default
    | .error _    => f

namespace Schema

/-- The marked enums, each with the full name of the scope that declares it. -/
def markedEnums (s : Schema) : List (String × EnumDef) :=
  s.enumsIn.filter fun (_, e) => e.marksFlags

/-- The fields whose type is a set of flags, each with the full name of its message and its type. -/
def flagFields (symbols : Symbols) (s : Schema) : List (String × Field × FlagTypeRef) :=
  s.fieldsIn.filterMap fun (message, f) =>
    (f.flagType? symbols message).map fun type => (message, f, type)

/-- A schema read from a source, lowered. -/
def lower (source : List Char) (s : Schema) : Traced SchemaError Lowered := do
  let enums ← Traced.each (fun (scope, e) => e.makeFlags source scope) s.markedEnums
  let sets := enums.map Prod.fst
  let marked := s.mapEnums EnumDef.asFlags
  let symbols := Symbols.ofSchema marked
  let fields ← Traced.each (fun (message, f, type) => f.retype sets message type)
    (marked.flagFields symbols)
  Traced.tell (.lowered enums.length fields.length)
  let edits := enums.map Prod.snd ++ (fields.map Prod.snd).flatten
  pure {
    text   := String.ofList (Edit.apply source edits)
    schema := marked.mapFields (Field.asFlags symbols sets)
    report := { package := s.package, flagSets := sets, retyped := fields.map Prod.fst }
    edits }

end Schema

/-- A source, read and lowered. -/
def lower (source : String) : Traced SchemaError Lowered := do
  let schema ← Traced.lift (Schema.parse source)
  schema.lower source.toList

end FlagSchema
