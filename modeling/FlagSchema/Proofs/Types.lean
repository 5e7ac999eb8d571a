import FlagSchema.Code.Generate
import FlagSchema.Proofs.Nesting

/-!
# The types of a schema

The symbols that names are resolved in, the modules that paths lead to and the declarations that are
generated are made by recursions of their own. All of them go through the same types in the same order:
the messages and enums of a schema, each with the scope and the modules that it stands in.

* **`PlacedType`**, **`Schema.typesIn`**: the types of a schema.
* **`Schema.typeNamed?`**: the type that a full name stands for; of two with one name the later counts.
* **`Schema.get?_ofSchema`**, **`Schema.lookup_moduleTable`**: symbols and modules are those of the type.
* **`Schema.typesIn_mapFields`**, **`Schema.typesIn_mapEnums`**: a change of fields leaves names, definitions
  and modules alone, a change of enums leaves modules alone.
-/

namespace FlagSchema

-- ── Types ────────────────────────────────────────────────────────────────────────

/-- A type that a schema declares. -/
inductive TypeDef where
  | message (m : Message)
  | enum (e : EnumDef)

namespace TypeDef

def name : TypeDef → String
  | message m => m.name
  | enum e    => e.name

/-- What the name of a type stands for. -/
def definition : TypeDef → Definition
  | message _ => .message
  | enum e    => e.definition

/-- A type of a scope whose fields are changed. -/
def mapFields (f : String → Field → Field) (scope : String) : TypeDef → TypeDef
  | message m => message (m.mapFields f scope)
  | enum e    => enum e

/-- A type whose enums are changed. -/
def mapEnums (f : EnumDef → EnumDef) : TypeDef → TypeDef
  | message m => message (m.mapEnums f)
  | enum e    => enum (f e)

end TypeDef

/-- A type with the full name of the scope that declares it and the names of the modules from the root to
    its declaration. -/
structure PlacedType where
  scope  : String
  module : List String
  type   : TypeDef

namespace PlacedType

def fullName (t : PlacedType) : String := joinName t.scope t.type.name

def definition (t : PlacedType) : Definition := t.type.definition

def mapFields (f : String → Field → Field) (t : PlacedType) : PlacedType :=
  { t with type := t.type.mapFields f t.scope }

def mapEnums (f : EnumDef → EnumDef) (t : PlacedType) : PlacedType :=
  { t with type := t.type.mapEnums f }

variable (f : String → Field → Field) (t : PlacedType)

@[simp] theorem module_mapFields : (t.mapFields f).module = t.module := rfl

@[simp] theorem fullName_mapFields : (t.mapFields f).fullName = t.fullName := by
  obtain ⟨scope, module, type⟩ := t
  cases type with
  | message m => cases m; rfl
  | enum e => rfl

theorem fullName_mapEnums {f : EnumDef → EnumDef} (hf : ∀ e, (f e).name = e.name) (t : PlacedType) :
    (t.mapEnums f).fullName = t.fullName := by
  obtain ⟨scope, module, type⟩ := t
  cases type with
  | message m => cases m; rfl
  | enum e => exact congrArg (joinName scope) (hf e)

@[simp] theorem definition_mapFields : (t.mapFields f).definition = t.definition := by
  obtain ⟨scope, module, type⟩ := t
  cases type <;> rfl

end PlacedType

-- ── Types of messages ────────────────────────────────────────────────────────────

namespace Message

mutual

/-- The types that a message found in a scope and a module brings: its enums, the messages nested in it
    with theirs, itself. -/
def typesIn (scope : String) (module : List String) : Message → List PlacedType
  | ⟨name, position, fields, messages, enums, settings, oneofs⟩ =>
    enums.map (fun e => ⟨joinName scope name, module ++ [snakeCase name], .enum e⟩) ++
      allTypesIn (joinName scope name) (module ++ [snakeCase name]) messages ++
      [⟨scope, module, .message ⟨name, position, fields, messages, enums, settings, oneofs⟩⟩]

/-- The types that several messages bring. -/
def allTypesIn (scope : String) (module : List String) : List Message → List PlacedType
  | []      => []
  | m :: ms => typesIn scope module m ++ allTypesIn scope module ms

end

theorem allTypesIn_eq (scope : String) (module : List String) (ms : List Message) :
    allTypesIn scope module ms = ms.flatMap (typesIn scope module) := by
  induction ms with
  | nil => rfl
  | cons m ms ih => rw [allTypesIn, ih, List.flatMap_cons]

theorem typesIn_eq (scope : String) (module : List String) (m : Message) :
    typesIn scope module m =
      m.enums.map (fun e => ⟨joinName scope m.name, module ++ [snakeCase m.name], .enum e⟩) ++
        m.messages.flatMap (typesIn (joinName scope m.name) (module ++ [snakeCase m.name])) ++
        [⟨scope, module, .message m⟩] := by
  cases m
  rw [typesIn, allTypesIn_eq]

theorem allDefinitions_eq (scope : String) (ms : List Message) :
    allDefinitions scope ms = ms.flatMap (definitions scope) := by
  induction ms with
  | nil => rfl
  | cons m ms ih => rw [allDefinitions, ih, List.flatMap_cons]

theorem allModuleEntries_eq (scope : String) (module : List String) (ms : List Message) :
    allModuleEntries scope module ms = ms.flatMap (moduleEntries scope module) := by
  induction ms with
  | nil => rfl
  | cons m ms ih => rw [allModuleEntries, ih, List.flatMap_cons]

/-- The definitions that a message brings are those of its types. -/
theorem definitions_eq (scope : String) (module : List String) (m : Message) :
    definitions scope m = (typesIn scope module m).map fun t => (t.fullName, t.definition) := by
  induction m using nested_induction generalizing scope module with
  | step m ih =>
      have hunfold : definitions scope m = m.enums.map (EnumDef.named (joinName scope m.name)) ++
          m.messages.flatMap (definitions (joinName scope m.name)) ++ [(joinName scope m.name, .message)] := by
        cases m
        rw [definitions, allDefinitions_eq]
      rw [hunfold, typesIn_eq, List.map_append, List.map_append, List.map_map, List.map_flatMap,
        List.flatMap_congr fun i hi => ih i hi _ (module ++ [snakeCase m.name])]
      rfl

/-- The modules of the types that a message brings. -/
theorem moduleEntries_eq (scope : String) (module : List String) (m : Message) :
    moduleEntries scope module m = (typesIn scope module m).map fun t => (t.fullName, t.module) := by
  induction m using nested_induction generalizing scope module with
  | step m ih =>
      have hunfold : moduleEntries scope module m =
          m.enums.map (fun e => (joinName (joinName scope m.name) e.name, module ++ [snakeCase m.name])) ++
            m.messages.flatMap (moduleEntries (joinName scope m.name) (module ++ [snakeCase m.name])) ++
            [(joinName scope m.name, module)] := by
        cases m
        rw [moduleEntries, allModuleEntries_eq]
      rw [hunfold, typesIn_eq, List.map_append, List.map_append, List.map_map, List.map_flatMap,
        List.flatMap_congr fun i hi => ih i hi _ _]
      rfl

/-- The types of a message whose fields are changed. -/
theorem typesIn_mapFields (f : String → Field → Field) (scope : String) (module : List String)
    (m : Message) :
    typesIn scope module (mapFields f scope m) = (typesIn scope module m).map (PlacedType.mapFields f) := by
  induction m using nested_induction generalizing scope module with
  | step m ih =>
      rw [typesIn_eq scope module m, List.map_append, List.map_append, List.map_map, List.map_flatMap,
        ← List.flatMap_congr fun i hi => ih i hi _ _, typesIn_eq, List.map_singleton]
      simp only [mapFields_eq, List.flatMap_map, PlacedType.mapFields, TypeDef.mapFields, Function.comp_def]

/-- The types of a message whose enums are changed. -/
theorem typesIn_mapEnums (f : EnumDef → EnumDef) (scope : String) (module : List String) (m : Message) :
    typesIn scope module (mapEnums f m) = (typesIn scope module m).map (PlacedType.mapEnums f) := by
  induction m using nested_induction generalizing scope module with
  | step m ih =>
      rw [typesIn_eq scope module m, List.map_append, List.map_append, List.map_map, List.map_flatMap,
        ← List.flatMap_congr fun i hi => ih i hi _ _, typesIn_eq, List.map_singleton]
      simp only [mapEnums_eq, List.flatMap_map, List.map_map, PlacedType.mapEnums, TypeDef.mapEnums,
        Function.comp_def]

/-- The enums among the types of a message. -/
theorem mem_enumsIn_of_typesIn {t : PlacedType} {e : EnumDef} {scope : String} {module : List String}
    {m : Message} (ht : t ∈ typesIn scope module m) (he : t.type = .enum e) :
    (t.scope, e) ∈ enumsIn scope m := by
  induction m using nested_induction generalizing scope module with
  | step m ih =>
      rw [typesIn_eq] at ht
      rw [enumsIn_eq]
      rcases List.mem_append.mp ht with ht | ht
      · rcases List.mem_append.mp ht with ht | ht
        · obtain ⟨d, hd, rfl⟩ := List.mem_map.mp ht
          cases he
          exact List.mem_append_left _ (List.mem_map_of_mem hd)
        · obtain ⟨i, hi, ht⟩ := List.mem_flatMap.mp ht
          exact List.mem_append_right _ (List.mem_flatMap.mpr ⟨i, hi, ih i hi ht⟩)
      · cases List.mem_singleton.mp ht
        cases he

/-- The fields of the messages among the types of a message. -/
theorem mem_fieldsIn_of_typesIn {t : PlacedType} {n : Message} {f : Field} {scope : String}
    {module : List String} {m : Message} (ht : t ∈ typesIn scope module m) (hn : t.type = .message n)
    (hf : f ∈ n.fields) : (t.fullName, f) ∈ fieldsIn scope m := by
  induction m using nested_induction generalizing scope module with
  | step m ih =>
      rw [typesIn_eq] at ht
      rw [fieldsIn_eq]
      rcases List.mem_append.mp ht with ht | ht
      · rcases List.mem_append.mp ht with ht | ht
        · obtain ⟨d, hd, rfl⟩ := List.mem_map.mp ht
          cases hn
        · obtain ⟨i, hi, ht⟩ := List.mem_flatMap.mp ht
          exact List.mem_append_right _ (List.mem_flatMap.mpr ⟨i, hi, ih i hi ht⟩)
      · cases List.mem_singleton.mp ht
        cases hn
        exact List.mem_append_left _ (List.mem_map_of_mem hf)

end Message

-- ── Types of schemas ─────────────────────────────────────────────────────────────

namespace Schema

/-- The types of a schema. -/
def typesIn (s : Schema) : List PlacedType :=
  s.enums.map (fun e => ⟨s.scope, s.rootModule, .enum e⟩) ++
    Message.allTypesIn s.scope s.rootModule s.messages

/-- The type that a full name stands for: of several the last. -/
def typeNamed? (s : Schema) (fullName : String) : Option PlacedType :=
  s.typesIn.reverse.find? fun t => fullName == t.fullName

variable {s : Schema}

theorem typeNamed?_inv {fullName : String} {t : PlacedType} (h : s.typeNamed? fullName = some t) :
    t ∈ s.typesIn ∧ t.fullName = fullName := by
  rw [typeNamed?] at h
  have hname := List.find?_some h
  exact ⟨List.mem_reverse.mp (List.mem_of_find?_eq_some h), (beq_iff_eq.mp hname).symm⟩

theorem definitions_eq (s : Schema) :
    s.definitions = s.typesIn.map fun t => (t.fullName, t.definition) := by
  rw [definitions, typesIn, Message.allDefinitions_eq, Message.allTypesIn_eq, List.map_append, List.map_map,
    List.map_flatMap, List.flatMap_congr fun m _ => Message.definitions_eq _ s.rootModule m]
  rfl

theorem moduleTable_eq (s : Schema) :
    s.moduleTable = (s.typesIn.map fun t => (t.fullName, t.module)).reverse := by
  rw [moduleTable, typesIn, Message.allModuleEntries_eq, Message.allTypesIn_eq, List.map_append,
    List.map_map, List.map_flatMap, List.flatMap_congr fun m _ => Message.moduleEntries_eq _ _ m]
  rfl

/-- The types of a schema whose fields are changed. -/
theorem typesIn_mapFields (f : String → Field → Field) (s : Schema) :
    (s.mapFields f).typesIn = s.typesIn.map (PlacedType.mapFields f) := by
  rw [typesIn, typesIn, Message.allTypesIn_eq, Message.allTypesIn_eq, mapFields, Message.mapAllFields_eq,
    List.flatMap_map, List.map_append, List.map_map, List.map_flatMap]
  exact congrArg _ (List.flatMap_congr fun m _ => Message.typesIn_mapFields f _ _ m)

/-- The types of a schema whose enums are changed. -/
theorem typesIn_mapEnums (f : EnumDef → EnumDef) (s : Schema) :
    (s.mapEnums f).typesIn = s.typesIn.map (PlacedType.mapEnums f) := by
  rw [typesIn, typesIn, Message.allTypesIn_eq, Message.allTypesIn_eq, mapEnums, Message.mapAllEnums_eq,
    List.flatMap_map, List.map_append, List.map_map, List.map_map, List.map_flatMap]
  exact congrArg _ (List.flatMap_congr fun m _ => Message.typesIn_mapEnums f _ _ m)

theorem mem_enumsIn_of_typesIn {t : PlacedType} {e : EnumDef} (ht : t ∈ s.typesIn) (he : t.type = .enum e) :
    (t.scope, e) ∈ s.enumsIn := by
  rw [typesIn, Message.allTypesIn_eq] at ht
  rw [enumsIn, Message.allEnumsIn_eq]
  rcases List.mem_append.mp ht with ht | ht
  · obtain ⟨d, hd, rfl⟩ := List.mem_map.mp ht
    cases he
    exact List.mem_append_left _ (List.mem_map_of_mem hd)
  · obtain ⟨m, hm, ht⟩ := List.mem_flatMap.mp ht
    exact List.mem_append_right _
      (List.mem_flatMap.mpr ⟨m, hm, Message.mem_enumsIn_of_typesIn ht he⟩)

theorem mem_fieldsIn_of_typesIn {t : PlacedType} {m : Message} {f : Field} (ht : t ∈ s.typesIn)
    (hm : t.type = .message m) (hf : f ∈ m.fields) : (t.fullName, f) ∈ s.fieldsIn := by
  rw [typesIn, Message.allTypesIn_eq] at ht
  rw [fieldsIn, Message.allFieldsIn_eq]
  rcases List.mem_append.mp ht with ht | ht
  · obtain ⟨d, hd, rfl⟩ := List.mem_map.mp ht
    cases hm
  · obtain ⟨i, hi, ht⟩ := List.mem_flatMap.mp ht
    exact List.mem_flatMap.mpr ⟨i, hi, Message.mem_fieldsIn_of_typesIn ht hm hf⟩

-- ── Tables ───────────────────────────────────────────────────────────────────────

/-- Looking up in a table of values is looking for the first key. -/
theorem lookup_map {α β : Type} (key : α → String) (value : α → β) (k : String) (xs : List α) :
    (xs.map fun x => (key x, value x)).lookup k = (xs.find? fun x => k == key x).map value := by
  induction xs with
  | nil => rfl
  | cons x xs ih =>
      rw [List.map_cons, List.lookup_cons, List.find?_cons]
      cases k == key x with
      | true => rfl
      | false => exact ih

/-- **A full name stands for what the type of that name is.** -/
theorem get?_ofSchema (s : Schema) (fullName : String) :
    (Symbols.ofSchema s).get? fullName = (s.typeNamed? fullName).map PlacedType.definition := by
  rw [Symbols.get?, Symbols.ofSchema, definitions_eq, ← List.map_reverse]
  exact lookup_map ..

/-- **The module of a full name is that of the type of that name.** -/
theorem lookup_moduleTable (s : Schema) (fullName : String) :
    s.moduleTable.lookup fullName = (s.typeNamed? fullName).map PlacedType.module := by
  rw [moduleTable_eq, ← List.map_reverse]
  exact lookup_map ..

/-- Changing fields leaves the symbols alone. -/
theorem ofSchema_mapFields (f : String → Field → Field) (s : Schema) :
    Symbols.ofSchema (s.mapFields f) = Symbols.ofSchema s := by
  rw [Symbols.ofSchema, Symbols.ofSchema, definitions_eq, definitions_eq, typesIn_mapFields, List.map_map]
  simp [Function.comp_def]

/-- Changing fields leaves the modules alone. -/
theorem moduleTable_mapFields (f : String → Field → Field) (s : Schema) :
    (s.mapFields f).moduleTable = s.moduleTable := by
  rw [moduleTable_eq, moduleTable_eq, typesIn_mapFields, List.map_map]
  simp [Function.comp_def]

end Schema

-- ── Resolution ───────────────────────────────────────────────────────────────────

/-- What a name refers to is what its full name stands for. -/
theorem Symbols.get?_of_resolve? {symbols : Symbols} {scope name fullName : String} {d : Definition}
    (h : symbols.resolve? scope name = some (fullName, d)) : symbols.get? fullName = some d := by
  have hget : ∀ {written scope : String}, symbols.getIn? written scope = some (fullName, d) →
      symbols.get? fullName = some d := by
    intro written scope hin
    obtain ⟨d', hd', heq⟩ := Option.map_eq_some_iff.mp hin
    cases heq
    exact hd'
  unfold resolve? at h
  split at h
  · exact hget h
  · obtain ⟨s, hs, hin⟩ := List.exists_of_findSome?_eq_some h
    exact hget hin

/-- **What a name refers to is a type of the schema**, the one of its full name. -/
theorem Schema.exists_typeNamed {s : Schema} {scope name fullName : String} {d : Definition}
    (h : (Symbols.ofSchema s).resolve? scope name = some (fullName, d)) :
    ∃ t, s.typeNamed? fullName = some t ∧ t.definition = d := by
  have hget := Symbols.get?_of_resolve? h
  rw [get?_ofSchema] at hget
  exact Option.map_eq_some_iff.mp hget

end FlagSchema
