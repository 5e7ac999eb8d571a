import FlagSchema.Schema.Basic

/-!
# What a schema says

A schema without its places, its comments and the traces of lowering: what is left is what two texts
must have in common to declare the same.

* **`Schema.bare`**: a schema without them, and **`Message.bare`**, **`EnumDef.bare`**, **`Field.bare`**,
  **`Setting.bare`** its parts.
-/

namespace FlagSchema

/-- An option without its place and its comment. -/
def Setting.bare (s : Setting) : Setting :=
  { s with span := {}, trailing := none }

theorem Setting.bare_eq_iff {s t : Setting} : s.bare = t.bare ↔ s.name = t.name ∧ s.value = t.value := by
  obtain ⟨name, value, span, trailing⟩ := s
  obtain ⟨name', value', span', trailing'⟩ := t
  simp [bare]

/-- A field without its places and the set of flags that was its type. -/
def Field.bare (f : Field) : Field :=
  { f with position := {}, settings := f.settings.map Setting.bare, typeSpan := {}, flags := none }

/-- An enum value without its places and comments. -/
def EnumValue.bare (v : EnumValue) : EnumValue :=
  { v with position := {}, span := {}, settings := v.settings.map Setting.bare, settingsSpan := none,
           leading := [], trailing := none }

/-- An enum without its places and comments and without the storage of a set of flags. -/
def EnumDef.bare (e : EnumDef) : EnumDef :=
  { e with position := {}, keyword := {}, opening := {}, closing := {},
           settings := e.settings.map Setting.bare, values := e.values.map EnumValue.bare,
           dangling := [], storage := none }

namespace Message

mutual

/-- A message without places and comments, at every depth. -/
def bare : Message → Message
  | ⟨name, _, fields, messages, enums, settings, oneofs⟩ =>
    ⟨name, {}, fields.map Field.bare, allBare messages, enums.map EnumDef.bare,
      settings.map Setting.bare, oneofs⟩

/-- Several messages without places and comments. -/
def allBare : List Message → List Message
  | []      => []
  | m :: ms => bare m :: allBare ms

end

theorem allBare_eq_map (ms : List Message) : allBare ms = ms.map bare := by
  induction ms with
  | nil => rfl
  | cons m ms ih => rw [allBare, ih, List.map_cons]

end Message

/-- A schema without places and comments. -/
def Schema.bare (s : Schema) : Schema :=
  { s with settings := s.settings.map Setting.bare, messages := s.messages.map Message.bare,
           enums := s.enums.map EnumDef.bare }

end FlagSchema
