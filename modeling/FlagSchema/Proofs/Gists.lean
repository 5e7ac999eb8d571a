import FlagSchema.Lowering.Schema
import FlagSchema.Proofs.Erasure

/-!
# The gist of a schema

A schema without its places, its comments and the texts of its aggregates: what is left is what the
significant tokens of a source say. Unlike a bare schema, the gist keeps what lowering has left behind.

* **`Schema.gist`**: a schema without them, and **`Message.gist`**, **`EnumDef.gist`**, **`Field.gist`**,
  **`Setting.gist`** its parts.
* **`SchemaError.unplaced`**: an error without its position.
* **`Schema.gist_eq_schema`**: gists are what is left of schemas.
* **`Erasure.faithful_gist`**: making enums sets of flags needs no more than the gist.
-/

namespace FlagSchema

-- ── Gists ────────────────────────────────────────────────────────────────────────

/-- A constant without the text between the braces of an aggregate. -/
def Constant.gist : Constant → Constant
  | .aggregate _ => .aggregate ""
  | c            => c

/-- An option without its place, its comment and the text of an aggregate. -/
def Setting.gist (s : Setting) : Setting :=
  { s with value := s.value.gist, span := {}, trailing := none }

/-- A field without its places. -/
def Field.gist (f : Field) : Field :=
  { f with position := {}, settings := f.settings.map Setting.gist, typeSpan := {} }

/-- An enum value without its places and comments. -/
def EnumValue.gist (v : EnumValue) : EnumValue :=
  { v with position := {}, span := {}, settings := v.settings.map Setting.gist,
           settingsSpan := v.settingsSpan.map fun _ => {}, leading := [], trailing := none }

/-- An enum without its places and comments. -/
def EnumDef.gist (e : EnumDef) : EnumDef :=
  { e with position := {}, keyword := {}, opening := {}, closing := {},
           settings := e.settings.map Setting.gist, values := e.values.map EnumValue.gist, dangling := [] }

namespace Message

mutual

/-- A message without places and comments, at every depth. -/
def gist : Message → Message
  | ⟨name, _, fields, messages, enums, settings, oneofs⟩ =>
    ⟨name, {}, fields.map Field.gist, allGists messages, enums.map EnumDef.gist,
      settings.map Setting.gist, oneofs⟩

/-- Several messages without places and comments. -/
def allGists : List Message → List Message
  | []      => []
  | m :: ms => gist m :: allGists ms

end

theorem allGists_eq_map (ms : List Message) : allGists ms = ms.map gist := by
  induction ms with
  | nil => rfl
  | cons m ms ih => rw [allGists, ih, List.map_cons]

theorem gist_eq (m : Message) :
    m.gist = ⟨m.name, {}, m.fields.map Field.gist, m.messages.map gist, m.enums.map EnumDef.gist,
      m.settings.map Setting.gist, m.oneofs⟩ := by
  cases m
  rw [gist, allGists_eq_map]

end Message

/-- A schema without places and comments. -/
def Schema.gist (s : Schema) : Schema :=
  { s with settings := s.settings.map Setting.gist, messages := s.messages.map Message.gist,
           enums := s.enums.map EnumDef.gist }

/-- An error without the position that it names. -/
def SchemaError.unplaced : SchemaError → SchemaError
  | .text _ fault          => .text {} fault
  | .expected _ what found => .expected {} what found
  | .badNumber _ spelling  => .badNumber {} spelling
  | .fieldNumber _ n       => .fieldNumber {} n
  | .group _               => .group {}
  | e                      => e

-- ── Gists as what is left ────────────────────────────────────────────────────────

/-- What gists are made of. -/
def Erasure.gist : Erasure := ⟨Field.gist, EnumDef.gist, Setting.gist⟩

theorem Message.gist_eq_message (m : Message) : m.gist = Erasure.gist.message m := by
  induction m using nested_induction with
  | step m ih => rw [gist_eq, Erasure.message_eq, List.map_congr_left ih]; rfl

theorem Schema.gist_eq_schema (s : Schema) : s.gist = Erasure.gist.schema s := by
  have hmessages : s.messages.map Message.gist = s.messages.map Erasure.gist.message :=
    List.map_congr_left fun m _ => m.gist_eq_message
  rw [gist, hmessages]
  rfl

-- ── Enums as sets of flags ───────────────────────────────────────────────────────

theorem Setting.marksFlags_gist (x : Setting) : x.gist.marksFlags = x.marksFlags := by
  obtain ⟨name, value, span, trailing⟩ := x
  cases value <;> rfl

/-- **Making enums sets of flags needs no more than the gist.** -/
theorem Erasure.faithful_gist : Erasure.gist.Faithful EnumValue.gist where
  enum _ _ _ _    := rfl
  enumName _      := rfl
  valueName _     := rfl
  valueNumber _ _ := rfl
  emptySet        := rfl
  settingName _   := rfl
  marks           := Setting.marksFlags_gist
  fieldName _     := rfl
  fieldType _     := rfl

end FlagSchema
