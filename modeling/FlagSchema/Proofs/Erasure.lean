import FlagSchema.Lowering.Schema
import FlagSchema.Proofs.Types

/-!
# What is left of a schema

A schema with some of what its parts keep forgotten, such as where they stand. Whatever is forgotten of fields,
enums and options, the enums and fields of what is left are what is left of the enums and fields.

* **`Erasure`**: what is left of fields, enums and options; **`Erasure.message`**, **`Erasure.schema`**: of
  messages and schemas.
* **`Erasure.enumsIn_schema`**, **`Erasure.fieldsIn_schema`**, **`Erasure.definitions_schema`**: the enums, the
  fields and the definitions of what is left.
* **`Erasure.schema_mapEnums`**, **`Erasure.schema_mapFields`**: what is left after a change.
* **`Schema.bare_eq_schema`**: bare schemas are what is left of schemas.
-/

namespace FlagSchema

/-- What is left of fields, of enums and of options. -/
structure Erasure where
  field   : Field → Field
  enum    : EnumDef → EnumDef
  setting : Setting → Setting

/-- The definitions that a message brings, in terms of its parts. -/
theorem Message.definitions_parts (scope : String) (m : Message) :
    definitions scope m = m.enums.map (EnumDef.named (joinName scope m.name)) ++
      m.messages.flatMap (definitions (joinName scope m.name)) ++ [(joinName scope m.name, .message)] := by
  cases m
  rw [definitions, allDefinitions_eq]

namespace Erasure

mutual

/-- What is left of a message, at every depth; its place is forgotten. -/
def message (r : Erasure) : Message → Message
  | ⟨name, _, fields, messages, enums, settings, oneofs⟩ =>
    ⟨name, {}, fields.map r.field, allMessages r messages, enums.map r.enum, settings.map r.setting, oneofs⟩

/-- What is left of several messages. -/
def allMessages (r : Erasure) : List Message → List Message
  | []      => []
  | m :: ms => message r m :: allMessages r ms

end

/-- What is left of a schema. -/
def schema (r : Erasure) (s : Schema) : Schema :=
  { s with settings := s.settings.map r.setting, messages := s.messages.map r.message,
           enums := s.enums.map r.enum }

-- ── Messages ─────────────────────────────────────────────────────────────────────

section

open Message

variable (r : Erasure) (scope : String) (m : Message)

theorem allMessages_eq (ms : List Message) : r.allMessages ms = ms.map r.message := by
  induction ms with
  | nil => rfl
  | cons m ms ih => rw [allMessages, ih, List.map_cons]

theorem message_eq :
    r.message m = ⟨m.name, {}, m.fields.map r.field, m.messages.map r.message, m.enums.map r.enum,
      m.settings.map r.setting, m.oneofs⟩ := by
  cases m
  rw [message, allMessages_eq]

theorem enumsIn_message : enumsIn scope (r.message m) = (enumsIn scope m).map fun x => (x.1, r.enum x.2) := by
  induction m using nested_induction generalizing scope with
  | step m ih =>
      rw [message_eq, enumsIn_eq, enumsIn_eq scope m, List.flatMap_map, List.map_append, List.map_map,
        List.map_map, List.map_flatMap]
      exact congrArg _ (List.flatMap_congr fun i hi => ih i hi _)

theorem fieldsIn_message : fieldsIn scope (r.message m) = (fieldsIn scope m).map fun x => (x.1, r.field x.2) := by
  induction m using nested_induction generalizing scope with
  | step m ih =>
      rw [message_eq, fieldsIn_eq, fieldsIn_eq scope m, List.flatMap_map, List.map_append, List.map_map,
        List.map_map, List.map_flatMap]
      exact congrArg _ (List.flatMap_congr fun i hi => ih i hi _)

variable {r}

theorem definitions_message (hr : ∀ scope e, (r.enum e).named scope = e.named scope) :
    definitions scope (r.message m) = definitions scope m := by
  induction m using nested_induction generalizing scope with
  | step m ih =>
      have henums : m.enums.map (EnumDef.named (joinName scope m.name) ∘ r.enum) =
          m.enums.map (EnumDef.named (joinName scope m.name)) :=
        List.map_congr_left fun e _ => hr _ e
      rw [message_eq, definitions_parts, definitions_parts scope m, List.map_map, List.flatMap_map,
        List.flatMap_congr fun i hi => ih i hi _, henums]

theorem message_mapEnums {f : EnumDef → EnumDef} (hf : ∀ e, r.enum (f e) = f (r.enum e)) :
    r.message (m.mapEnums f) = (r.message m).mapEnums f := by
  induction m using nested_induction with
  | step m ih =>
      have hmessages : m.messages.map (r.message ∘ mapEnums f) = m.messages.map (mapEnums f ∘ r.message) :=
        List.map_congr_left fun i hi => ih i hi
      have henums : m.enums.map (r.enum ∘ f) = m.enums.map (f ∘ r.enum) :=
        List.map_congr_left fun e _ => hf e
      rw [mapEnums_eq, message_eq, message_eq r m, mapEnums_eq]
      dsimp only
      rw [List.map_map, List.map_map, List.map_map, List.map_map, hmessages, henums]

theorem message_mapFields {f : String → Field → Field} (hf : ∀ n x, r.field (f n x) = f n (r.field x)) :
    r.message (m.mapFields f scope) = (r.message m).mapFields f scope := by
  induction m using nested_induction generalizing scope with
  | step m ih =>
      have hmessages : m.messages.map (r.message ∘ mapFields f (joinName scope m.name)) =
          m.messages.map (mapFields f (joinName scope m.name) ∘ r.message) :=
        List.map_congr_left fun i hi => ih i hi _
      have hfields : m.fields.map (r.field ∘ f (joinName scope m.name)) =
          m.fields.map (f (joinName scope m.name) ∘ r.field) :=
        List.map_congr_left fun x _ => hf _ x
      rw [mapFields_eq, message_eq, message_eq r m, mapFields_eq]
      dsimp only
      rw [List.map_map, List.map_map, List.map_map, List.map_map, hmessages, hfields]

variable {scope m}

/-- What is left depends on what is left of the enums and the fields. -/
theorem message_congr {r' : Erasure} (henums : ∀ x ∈ enumsIn scope m, r.enum x.2 = r'.enum x.2)
    (hfields : ∀ x ∈ fieldsIn scope m, r.field x.2 = r'.field x.2) (hsettings : r.setting = r'.setting) :
    r.message m = r'.message m := by
  induction m using nested_induction generalizing scope with
  | step m ih =>
      rw [enumsIn_eq, List.forall_mem_append] at henums
      rw [fieldsIn_eq, List.forall_mem_append] at hfields
      have hmessages : m.messages.map r.message = m.messages.map r'.message :=
        List.map_congr_left fun i hi => ih i hi
          (fun x hx => henums.2 x (List.mem_flatMap.mpr ⟨i, hi, hx⟩))
          (fun x hx => hfields.2 x (List.mem_flatMap.mpr ⟨i, hi, hx⟩))
      have hownEnums : m.enums.map r.enum = m.enums.map r'.enum :=
        List.map_congr_left fun e he => henums.1 _ (List.mem_map_of_mem he)
      have hownFields : m.fields.map r.field = m.fields.map r'.field :=
        List.map_congr_left fun x hx => hfields.1 _ (List.mem_map_of_mem hx)
      rw [message_eq, message_eq r', hmessages, hownEnums, hownFields, hsettings]

end

-- ── Schemas ──────────────────────────────────────────────────────────────────────

section

variable (r : Erasure) (s : Schema)

theorem enumsIn_schema : (r.schema s).enumsIn = s.enumsIn.map fun x => (x.1, r.enum x.2) := by
  rw [Schema.enumsIn, Schema.enumsIn, Message.allEnumsIn_eq, Message.allEnumsIn_eq, schema, List.flatMap_map,
    List.map_append, List.map_map, List.map_map, List.map_flatMap]
  exact congrArg _ (List.flatMap_congr fun m _ => r.enumsIn_message _ m)

theorem fieldsIn_schema : (r.schema s).fieldsIn = s.fieldsIn.map fun x => (x.1, r.field x.2) := by
  rw [Schema.fieldsIn, Schema.fieldsIn, Message.allFieldsIn_eq, Message.allFieldsIn_eq, schema, List.flatMap_map,
    List.map_flatMap]
  exact List.flatMap_congr fun m _ => r.fieldsIn_message _ m

variable {r}

theorem definitions_schema (hr : ∀ scope e, (r.enum e).named scope = e.named scope) :
    (r.schema s).definitions = s.definitions := by
  have henums : s.enums.map (EnumDef.named s.scope ∘ r.enum) = s.enums.map (EnumDef.named s.scope) :=
    List.map_congr_left fun e _ => hr _ e
  have hscope : (r.schema s).scope = s.scope := rfl
  rw [Schema.definitions, Schema.definitions, Message.allDefinitions_eq, Message.allDefinitions_eq, hscope, schema,
    List.flatMap_map, List.map_map, List.flatMap_congr fun m _ => definitions_message _ m hr, henums]

/-- The symbols of a schema are those of what is left of it. -/
theorem ofSchema_schema (hr : ∀ scope e, (r.enum e).named scope = e.named scope) :
    Symbols.ofSchema (r.schema s) = Symbols.ofSchema s := by
  rw [Symbols.ofSchema, definitions_schema s hr, Symbols.ofSchema]

theorem schema_mapEnums {f : EnumDef → EnumDef} (hf : ∀ e, r.enum (f e) = f (r.enum e)) :
    r.schema (s.mapEnums f) = (r.schema s).mapEnums f := by
  have hmessages : s.messages.map (r.message ∘ Message.mapEnums f)
      = s.messages.map (Message.mapEnums f ∘ r.message) :=
    List.map_congr_left fun m _ => message_mapEnums m hf
  have henums : s.enums.map (r.enum ∘ f) = s.enums.map (f ∘ r.enum) :=
    List.map_congr_left fun e _ => hf e
  rw [Schema.mapEnums, Message.mapAllEnums_eq, schema, schema, Schema.mapEnums, Message.mapAllEnums_eq]
  dsimp only
  rw [List.map_map, List.map_map, List.map_map, List.map_map, hmessages, henums]

theorem schema_mapFields {f : String → Field → Field} (hf : ∀ n x, r.field (f n x) = f n (r.field x)) :
    r.schema (s.mapFields f) = (r.schema s).mapFields f := by
  have hmessages : s.messages.map (r.message ∘ Message.mapFields f s.scope)
      = s.messages.map (Message.mapFields f s.scope ∘ r.message) :=
    List.map_congr_left fun m _ => message_mapFields _ m hf
  have hscope : (r.schema s).scope = s.scope := rfl
  rw [Schema.mapFields, Message.mapAllFields_eq, Schema.mapFields, Message.mapAllFields_eq, hscope, schema, schema]
  dsimp only
  rw [List.map_map, List.map_map, hmessages]

variable {s}

theorem schema_congr {r' : Erasure} (henums : ∀ x ∈ s.enumsIn, r.enum x.2 = r'.enum x.2)
    (hfields : ∀ x ∈ s.fieldsIn, r.field x.2 = r'.field x.2) (hsettings : r.setting = r'.setting) :
    r.schema s = r'.schema s := by
  rw [Schema.enumsIn, Message.allEnumsIn_eq, List.forall_mem_append] at henums
  rw [Schema.fieldsIn, Message.allFieldsIn_eq] at hfields
  have hmessages : s.messages.map r.message = s.messages.map r'.message :=
    List.map_congr_left fun m hm => message_congr
      (fun x hx => henums.2 x (List.mem_flatMap.mpr ⟨m, hm, hx⟩))
      (fun x hx => hfields x (List.mem_flatMap.mpr ⟨m, hm, hx⟩)) hsettings
  have hown : s.enums.map r.enum = s.enums.map r'.enum :=
    List.map_congr_left fun e he => henums.1 _ (List.mem_map_of_mem he)
  rw [schema, schema, hmessages, hown, hsettings]

end

end Erasure

-- ── Sets of flags ────────────────────────────────────────────────────────────────

namespace EnumValue

variable {g : EnumValue → EnumValue}

theorem flags_map (hg : ∀ v, (g v).name = v.name) (index : Nat) (vs : List EnumValue) :
    flags index (vs.map g) = flags index vs := by
  induction vs generalizing index with
  | nil => rfl
  | cons v vs ih => rw [List.map_cons, flags, flags, ih, hg]

theorem asFlags_map (hg : ∀ v number, g { v with number } = { g v with number }) (index : Nat)
    (vs : List EnumValue) : asFlags index (vs.map g) = (asFlags index vs).map g := by
  induction vs generalizing index with
  | nil => rfl
  | cons v vs ih =>
      rw [List.map_cons, asFlags, asFlags, List.map_cons, ih]
      exact congrArg (· :: (asFlags (index + 1) vs).map g) (hg v _).symm

end EnumValue

namespace Erasure

/-- What is left of a schema still has all that tells which enums become sets of flags, what these are, and
    which fields have their types. -/
structure Faithful (r : Erasure) (value : EnumValue → EnumValue) : Prop where
  enum        : ∀ (e : EnumDef) values settings storage, r.enum { e with values, settings, storage } =
    { r.enum e with values := values.map value, settings := settings.map r.setting, storage }
  enumName    : ∀ e, (r.enum e).name = e.name
  valueName   : ∀ v, (value v).name = v.name
  valueNumber : ∀ v number, value { v with number } = { value v with number }
  emptySet    : value .emptySet = .emptySet
  settingName : ∀ x, (r.setting x).name = x.name
  marks       : ∀ x, (r.setting x).marksFlags = x.marksFlags
  fieldName   : ∀ f, (r.field f).name = f.name
  fieldType   : ∀ f, (r.field f).type = f.type

namespace Faithful

variable {r : Erasure} {value : EnumValue → EnumValue} (h : r.Faithful value)
include h

theorem values_enum (e : EnumDef) : (r.enum e).values = e.values.map value :=
  (congrArg EnumDef.values (h.enum e e.values e.settings e.storage) :)

theorem settings_enum (e : EnumDef) : (r.enum e).settings = e.settings.map r.setting :=
  (congrArg EnumDef.settings (h.enum e e.values e.settings e.storage) :)

theorem named_enum (scope : String) (e : EnumDef) : (r.enum e).named scope = e.named scope := by
  have hstorage : (r.enum e).storage = e.storage :=
    (congrArg EnumDef.storage (h.enum e e.values e.settings e.storage) :)
  rw [EnumDef.named, EnumDef.named, EnumDef.definition, EnumDef.definition, h.enumName, hstorage]

theorem marksFlags_enum (e : EnumDef) : (r.enum e).marksFlags = e.marksFlags := by
  have hmarks : Setting.marksFlags ∘ r.setting = Setting.marksFlags := funext h.marks
  rw [EnumDef.marksFlags, EnumDef.marksFlags, h.settings_enum, List.any_map, hmarks]

theorem flagSet_enum (e : EnumDef) (fullName : String) (width : Scalar) :
    (r.enum e).flagSet fullName width = e.flagSet fullName width := by
  rw [EnumDef.flagSet, EnumDef.flagSet, h.values_enum, EnumValue.flags_map h.valueName]

theorem flagStorage_enum (e : EnumDef) (fullName : String) :
    (r.enum e).flagStorage fullName = e.flagStorage fullName := by
  have hnames : (fun v : EnumValue => v.name == emptySetName) ∘ value = fun v => v.name == emptySetName :=
    funext fun v => by rw [Function.comp_apply, h.valueName]
  rw [EnumDef.flagStorage, EnumDef.flagStorage, h.values_enum, List.any_map, List.length_map, hnames]

/-- **What is left of an enum becomes what is left of its set of flags.** -/
theorem asFlags_enum (e : EnumDef) : r.enum e.asFlags = (r.enum e).asFlags := by
  have hkept : Setting.isKept ∘ r.setting = Setting.isKept :=
    funext fun x => by rw [Function.comp_apply, Setting.isKept, Setting.isKept, h.marks, h.settingName]
  rw [EnumDef.asFlags, EnumDef.asFlags, h.marksFlags_enum]
  split
  · rw [h.enum, List.map_cons, h.emptySet, h.values_enum, h.settings_enum, EnumValue.asFlags_map h.valueNumber,
      List.length_map, List.filter_map, hkept]
  · rfl

theorem flagType?_field (symbols : Symbols) (message : String) (f : Field) :
    (r.field f).flagType? symbols message = f.flagType? symbols message := by
  rw [Field.flagType?, Field.flagType?, h.fieldType]

theorem ofSchema_schema (s : Schema) : Symbols.ofSchema (r.schema s) = Symbols.ofSchema s :=
  Erasure.ofSchema_schema s h.named_enum

theorem schema_asFlags (s : Schema) :
    r.schema (s.mapEnums EnumDef.asFlags) = (r.schema s).mapEnums EnumDef.asFlags :=
  schema_mapEnums s h.asFlags_enum

theorem markedEnums_schema (s : Schema) :
    (r.schema s).markedEnums = s.markedEnums.map fun x => (x.1, r.enum x.2) := by
  rw [Schema.markedEnums, Schema.markedEnums, enumsIn_schema, List.filter_map]
  exact congrArg _ (List.filter_congr fun x _ => h.marksFlags_enum x.2)

end Faithful

end Erasure

-- ── Bare schemas ─────────────────────────────────────────────────────────────────

/-- What bare schemas are made of. -/
def Erasure.bare : Erasure := ⟨Field.bare, EnumDef.bare, Setting.bare⟩

theorem Message.bare_eq_message (m : Message) : m.bare = Erasure.bare.message m := by
  induction m using nested_induction with
  | step m ih => rw [bare_eq, Erasure.message_eq, List.map_congr_left ih]; rfl

theorem Schema.bare_eq_schema (s : Schema) : s.bare = Erasure.bare.schema s := by
  have hmessages : s.messages.map Message.bare = s.messages.map Erasure.bare.message :=
    List.map_congr_left fun m _ => m.bare_eq_message
  rw [bare, hmessages]
  rfl

theorem Schema.enumsIn_bare (s : Schema) : s.bare.enumsIn = s.enumsIn.map fun x => (x.1, x.2.bare) := by
  rw [bare_eq_schema]
  exact Erasure.enumsIn_schema _ s

theorem Schema.fieldsIn_bare (s : Schema) : s.bare.fieldsIn = s.fieldsIn.map fun x => (x.1, x.2.bare) := by
  rw [bare_eq_schema]
  exact Erasure.fieldsIn_schema _ s

end FlagSchema
