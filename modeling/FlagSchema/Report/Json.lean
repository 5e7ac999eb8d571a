import FlagSchema.Report.Basic
import FlagSchema.Report.JsonTree

/-!
# Reports as JSON

A report written as a JSON document and read back.

* **`Report.toJson`**: the document of a report.
* **`Report.ofJson?`**: the report of a document. Keys beyond the known ones are ignored, a known key may
  not be repeated, and only the package may be absent.
-/

namespace FlagSchema

open JsonTree

-- ── Writing ──────────────────────────────────────────────────────────────────────

/-- A text as a tree. -/
def JsonTree.ofText (s : String) : JsonTree := .string (some s)

/-- A record as a tree. -/
def JsonTree.record (members : List (String × JsonTree)) : JsonTree :=
  .object (members.map fun (k, v) => (some k, v))

/-- A scalar type by its keyword. -/
def Scalar.toTree (s : Scalar) : JsonTree := ofText s.keyword

/-- A flag. -/
def Flag.toTree (f : Flag) : JsonTree :=
  record [("name", ofText f.name), ("value", .natural f.value.toNat)]

/-- A set of flags. -/
def FlagSet.toTree (s : FlagSet) : JsonTree :=
  record [("full_name", ofText s.fullName), ("width", s.width.toTree),
    ("flags", .array (s.flags.map Flag.toTree))]

/-- A retyped field. -/
def RetypedField.toTree (r : RetypedField) : JsonTree :=
  record [("message", ofText r.message), ("field", ofText r.field), ("bitmap", ofText r.flagSet),
    ("width", r.width.toTree)]

namespace Report

/-- The tree of a report. -/
def toTree (r : Report) : JsonTree :=
  record [("package", (r.package.map ofText).getD .null),
    ("bitmaps", .array (r.flagSets.map FlagSet.toTree)),
    ("retyped", .array (r.retyped.map RetypedField.toTree))]

/-- A report as a JSON document. -/
def toJson (r : Report) : String := r.toTree.pretty

end Report

-- ── Reading ──────────────────────────────────────────────────────────────────────

/-- A scalar type: its keyword, or an object with the keyword as its one key and nothing in it. -/
def Scalar.ofTree? : JsonTree → Option Scalar
  | .string (some s)            => ofKeyword? s
  | .object [(some s, .null)]   => ofKeyword? s
  | _                           => none

/-- A flag. -/
def Flag.ofTree? (t : JsonTree) : Option Flag :=
  match t.fields? ["name", "value"] with
  | some [some name, some (.natural value)] =>
    name.text?.bind fun name =>
      if value < Scalar.uint64.capacity then some ⟨name, UInt64.ofNat value⟩ else none
  | _ => none

/-- A list of values. -/
def JsonTree.listOf? {α : Type} (read : JsonTree → Option α) (t : JsonTree) : Option (List α) :=
  t.items?.bind fun is => is.mapM read

/-- A set of flags. -/
def FlagSet.ofTree? (t : JsonTree) : Option FlagSet :=
  match t.fields? ["full_name", "width", "flags"] with
  | some [some fullName, some width, some flags] => do
    let fullName ← fullName.text?
    let width ← Scalar.ofTree? width
    let flags ← listOf? Flag.ofTree? flags
    pure { fullName, width, flags }
  | _ => none

/-- A retyped field. -/
def RetypedField.ofTree? (t : JsonTree) : Option RetypedField :=
  match t.fields? ["message", "field", "bitmap", "width"] with
  | some [some message, some field, some flagSet, some width] => do
    let message ← message.text?
    let field ← field.text?
    let flagSet ← flagSet.text?
    let width ← Scalar.ofTree? width
    pure { message, field, flagSet, width }
  | _ => none

namespace Report

/-- A package: absent, null or a text. -/
def packageOf? : Option JsonTree → Option (Option String)
  | none       => some none
  | some .null => some none
  | some t     => t.text?.map some

/-- The report of a tree. -/
def ofTree? (t : JsonTree) : Option Report :=
  match t.fields? ["package", "bitmaps", "retyped"] with
  | some [package, some flagSets, some retyped] => do
    let package ← packageOf? package
    let flagSets ← listOf? FlagSet.ofTree? flagSets
    let retyped ← listOf? RetypedField.ofTree? retyped
    pure { package, flagSets, retyped }
  | _ => none

/-- The report of a JSON document. -/
def ofJson? (s : String) : Option Report :=
  (JsonTree.parse? s).bind ofTree?

end Report

end FlagSchema
