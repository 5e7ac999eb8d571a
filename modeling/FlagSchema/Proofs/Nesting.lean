import Mathlib.Data.List.Basic
import FlagSchema.Proofs.Bare

/-!
# Messages in messages

What is defined by recursion on the messages nested in a message, in terms of its parts.

* **`Message.enumsIn_eq`**, **`Message.fieldsIn_eq`**: the enums and the fields of a message.
* **`Message.bare_eq`**: a message without places and comments.
* **`Message.mapEnums_eq`**, **`Message.mapFields_eq`**: a message with its enums or its fields changed.
* **`Message.nested_induction`**: what passes from nested messages to the message around them holds of all.
* **`Schema.enumsIn_mapEnums`**, **`Schema.fieldsIn_mapFields`**, **`Schema.fieldsIn_mapEnums`**,
  **`Schema.enumsIn_mapFields`**: the enums and fields of a schema that has been changed.
-/

namespace FlagSchema

namespace Message

-- ── Several messages ─────────────────────────────────────────────────────────────

theorem allEnumsIn_eq (scope : String) (ms : List Message) :
    allEnumsIn scope ms = ms.flatMap (enumsIn scope) := by
  induction ms with
  | nil => rfl
  | cons m ms ih => rw [allEnumsIn, ih, List.flatMap_cons]

theorem allFieldsIn_eq (scope : String) (ms : List Message) :
    allFieldsIn scope ms = ms.flatMap (fieldsIn scope) := by
  induction ms with
  | nil => rfl
  | cons m ms ih => rw [allFieldsIn, ih, List.flatMap_cons]

theorem mapAllEnums_eq (f : EnumDef → EnumDef) (ms : List Message) :
    mapAllEnums f ms = ms.map (mapEnums f) := by
  induction ms with
  | nil => rfl
  | cons m ms ih => rw [mapAllEnums, ih, List.map_cons]

theorem mapAllFields_eq (f : String → Field → Field) (scope : String) (ms : List Message) :
    mapAllFields f scope ms = ms.map (mapFields f scope) := by
  induction ms with
  | nil => rfl
  | cons m ms ih => rw [mapAllFields, ih, List.map_cons]

-- ── One message ──────────────────────────────────────────────────────────────────

/-- The enums of a message are its own and those of the messages nested in it. -/
theorem enumsIn_eq (scope : String) (m : Message) :
    enumsIn scope m = m.enums.map (joinName scope m.name, ·) ++
      m.messages.flatMap (enumsIn (joinName scope m.name)) := by
  cases m
  rw [enumsIn, allEnumsIn_eq]

/-- The fields of a message are its own and those of the messages nested in it. -/
theorem fieldsIn_eq (scope : String) (m : Message) :
    fieldsIn scope m = m.fields.map (joinName scope m.name, ·) ++
      m.messages.flatMap (fieldsIn (joinName scope m.name)) := by
  cases m
  rw [fieldsIn, allFieldsIn_eq]

theorem bare_eq (m : Message) :
    m.bare = ⟨m.name, {}, m.fields.map Field.bare, m.messages.map bare, m.enums.map EnumDef.bare,
      m.settings.map Setting.bare, m.oneofs⟩ := by
  cases m
  rw [bare, allBare_eq_map]

theorem mapEnums_eq (f : EnumDef → EnumDef) (m : Message) :
    mapEnums f m = { m with messages := m.messages.map (mapEnums f), enums := m.enums.map f } := by
  cases m
  rw [mapEnums, mapAllEnums_eq]

theorem mapFields_eq (f : String → Field → Field) (scope : String) (m : Message) :
    mapFields f scope m = { m with
      fields := m.fields.map (f (joinName scope m.name)),
      messages := m.messages.map (mapFields f (joinName scope m.name)) } := by
  cases m
  rw [mapFields, mapAllFields_eq]

-- ── Induction on nested messages ─────────────────────────────────────────────────

/-- What holds of a message whenever it holds of those nested in it holds of every message. -/
theorem nested_induction {motive : Message → Prop}
    (step : ∀ m : Message, (∀ i ∈ m.messages, motive i) → motive m) (m : Message) : motive m :=
  step m fun i hi =>
    have : sizeOf i < sizeOf m := by
      have := List.sizeOf_lt_of_mem hi
      cases m
      simp only [mk.sizeOf_spec] at this ⊢
      omega
    nested_induction step i
termination_by sizeOf m

/-- A change of enums leaves the fields alone. -/
theorem fieldsIn_mapEnums (f : EnumDef → EnumDef) (scope : String) (m : Message) :
    fieldsIn scope (mapEnums f m) = fieldsIn scope m := by
  induction m using nested_induction generalizing scope with
  | step m ih =>
      rw [mapEnums_eq, fieldsIn_eq, fieldsIn_eq scope m, List.flatMap_map]
      exact congrArg _ (List.flatMap_congr fun i hi => ih i hi _)

/-- A change of fields leaves the enums alone. -/
theorem enumsIn_mapFields (f : String → Field → Field) (scope scope' : String) (m : Message) :
    enumsIn scope' (mapFields f scope m) = enumsIn scope' m := by
  induction m using nested_induction generalizing scope scope' with
  | step m ih =>
      rw [mapFields_eq, enumsIn_eq, enumsIn_eq scope' m, List.flatMap_map]
      exact congrArg _ (List.flatMap_congr fun i hi => ih i hi _ _)

/-- The enums of a message whose enums are changed. -/
theorem enumsIn_mapEnums (f : EnumDef → EnumDef) (scope : String) (m : Message) :
    enumsIn scope (mapEnums f m) = (enumsIn scope m).map fun x => (x.1, f x.2) := by
  induction m using nested_induction generalizing scope with
  | step m ih =>
      rw [mapEnums_eq, enumsIn_eq, enumsIn_eq scope m, List.flatMap_map, List.map_append, List.map_map,
        List.map_map, List.map_flatMap]
      exact congrArg _ (List.flatMap_congr fun i hi => ih i hi _)

/-- The fields of a message whose fields are changed. -/
theorem fieldsIn_mapFields (f : String → Field → Field) (scope : String) (m : Message) :
    fieldsIn scope (mapFields f scope m) = (fieldsIn scope m).map fun x => (x.1, f x.1 x.2) := by
  induction m using nested_induction generalizing scope with
  | step m ih =>
      rw [mapFields_eq, fieldsIn_eq, fieldsIn_eq scope m, List.flatMap_map, List.map_append, List.map_map,
        List.map_map, List.map_flatMap]
      exact congrArg _ (List.flatMap_congr fun i hi => ih i hi _)

/-- A change that no enum notices. -/
theorem mapEnums_eq_self {f : EnumDef → EnumDef} {scope : String} {m : Message}
    (h : ∀ x ∈ enumsIn scope m, f x.2 = x.2) : mapEnums f m = m := by
  induction m using nested_induction generalizing scope with
  | step m ih =>
      rw [enumsIn_eq, List.forall_mem_append] at h
      obtain ⟨hown, hnested⟩ := h
      have henums : m.enums.map f = m.enums := by
        refine (List.map_congr_left fun e he => ?_).trans (List.map_id _)
        exact hown _ (List.mem_map_of_mem he)
      have hmessages : m.messages.map (mapEnums f) = m.messages := by
        refine (List.map_congr_left fun i hi => ?_).trans (List.map_id _)
        exact ih i hi fun x hx => hnested x (List.mem_flatMap.mpr ⟨i, hi, hx⟩)
      rw [mapEnums_eq, henums, hmessages]
      cases m
      rfl

/-- A change that no field notices. -/
theorem mapFields_eq_self {f : String → Field → Field} {scope : String} {m : Message}
    (h : ∀ x ∈ fieldsIn scope m, f x.1 x.2 = x.2) : mapFields f scope m = m := by
  induction m using nested_induction generalizing scope with
  | step m ih =>
      rw [fieldsIn_eq, List.forall_mem_append] at h
      obtain ⟨hown, hnested⟩ := h
      have hfields : m.fields.map (f (joinName scope m.name)) = m.fields := by
        refine (List.map_congr_left fun x hx => ?_).trans (List.map_id _)
        exact hown _ (List.mem_map_of_mem hx)
      have hmessages : m.messages.map (mapFields f (joinName scope m.name)) = m.messages := by
        refine (List.map_congr_left fun i hi => ?_).trans (List.map_id _)
        exact ih i hi fun x hx => hnested x (List.mem_flatMap.mpr ⟨i, hi, hx⟩)
      rw [mapFields_eq, hfields, hmessages]
      cases m
      rfl

end Message

-- ── Schemas ──────────────────────────────────────────────────────────────────────

namespace Schema

variable (f : EnumDef → EnumDef) (g : String → Field → Field) (s : Schema)

theorem fieldsIn_mapEnums : (s.mapEnums f).fieldsIn = s.fieldsIn := by
  rw [fieldsIn, fieldsIn, Message.allFieldsIn_eq, Message.allFieldsIn_eq, mapEnums, Message.mapAllEnums_eq,
    List.flatMap_map]
  exact List.flatMap_congr fun m _ => Message.fieldsIn_mapEnums f _ m

theorem enumsIn_mapFields : (s.mapFields g).enumsIn = s.enumsIn := by
  rw [enumsIn, enumsIn, Message.allEnumsIn_eq, Message.allEnumsIn_eq, mapFields, Message.mapAllFields_eq,
    List.flatMap_map]
  exact congrArg _ (List.flatMap_congr fun m _ => Message.enumsIn_mapFields g _ _ m)

theorem enumsIn_mapEnums : (s.mapEnums f).enumsIn = s.enumsIn.map fun x => (x.1, f x.2) := by
  rw [enumsIn, enumsIn, Message.allEnumsIn_eq, Message.allEnumsIn_eq, mapEnums, Message.mapAllEnums_eq,
    List.flatMap_map, List.map_append, List.map_map, List.map_map, List.map_flatMap]
  exact congrArg _ (List.flatMap_congr fun m _ => Message.enumsIn_mapEnums f _ m)

theorem fieldsIn_mapFields : (s.mapFields g).fieldsIn = s.fieldsIn.map fun x => (x.1, g x.1 x.2) := by
  rw [fieldsIn, fieldsIn, Message.allFieldsIn_eq, Message.allFieldsIn_eq, mapFields,
    Message.mapAllFields_eq, List.flatMap_map, List.map_flatMap]
  exact List.flatMap_congr fun m _ => Message.fieldsIn_mapFields g _ m

variable {f g s}

theorem mapEnums_eq_self (h : ∀ x ∈ s.enumsIn, f x.2 = x.2) : s.mapEnums f = s := by
  rw [enumsIn, Message.allEnumsIn_eq, List.forall_mem_append] at h
  obtain ⟨hown, hnested⟩ := h
  have henums : s.enums.map f = s.enums := by
    refine (List.map_congr_left fun e he => ?_).trans (List.map_id _)
    exact hown _ (List.mem_map_of_mem he)
  have hmessages : s.messages.map (Message.mapEnums f) = s.messages := by
    refine (List.map_congr_left fun m hm => ?_).trans (List.map_id _)
    exact Message.mapEnums_eq_self fun x hx => hnested x (List.mem_flatMap.mpr ⟨m, hm, hx⟩)
  rw [mapEnums, Message.mapAllEnums_eq, henums, hmessages]

theorem mapFields_eq_self (h : ∀ x ∈ s.fieldsIn, g x.1 x.2 = x.2) : s.mapFields g = s := by
  rw [fieldsIn, Message.allFieldsIn_eq] at h
  have hmessages : s.messages.map (Message.mapFields g s.scope) = s.messages := by
    refine (List.map_congr_left fun m hm => ?_).trans (List.map_id _)
    exact Message.mapFields_eq_self fun x hx => h x (List.mem_flatMap.mpr ⟨m, hm, hx⟩)
  rw [mapFields, Message.mapAllFields_eq, hmessages]

end Schema

end FlagSchema
