import FlagSchema.Proofs.Erasure
import FlagSchema.Proofs.Offences

/-!
# The contents of a schema

A schema without its places and comments. Unlike a bare schema, the contents keep what lowering has left behind,
and unlike the gist the texts of aggregates. Lowering depends on them alone: whether it succeeds, what it reports
and the contents of the schema that it gives.

* **`Erasure.Faithful.report_lower`**: the report in terms of what is left of a schema.
* **`Schema.content`**: a schema without places and comments, and **`EnumDef.content`** and **`Field.content`**
  its parts.
* **`Schema.content_eq_bare`**: for a schema that is read these are what it says.
* **`Schema.exists_lower_content`**, **`Schema.content_lower`**: lowering depends on the contents.
-/

namespace FlagSchema

-- ── Reports ──────────────────────────────────────────────────────────────────────

/-- The entries of a report for fields, of a schema whose enums have been made sets of flags. -/
def Schema.retypedEntries (s : Schema) : List RetypedField :=
  (s.flagFields (Symbols.ofSchema s)).map fun x => x.2.1.retypedEntry x.1 x.2.2

namespace Erasure.Faithful

variable {r : Erasure} {value : EnumValue → EnumValue} (h : r.Faithful value) {s : Schema}
include h

theorem retypedEntries_schema (s : Schema) : (r.schema s).retypedEntries = s.retypedEntries := by
  have hentry : ∀ (message : String) (type : FlagTypeRef) (f : Field),
      (r.field f).retypedEntry message type = f.retypedEntry message type := by
    intro message type f
    rw [Field.retypedEntry, Field.retypedEntry, h.fieldName]
  rw [Schema.retypedEntries, Schema.retypedEntries, h.ofSchema_schema, Schema.flagFields, Schema.flagFields,
    fieldsIn_schema, List.filterMap_map, List.map_filterMap, List.map_filterMap]
  refine congrArg (List.filterMap · s.fieldsIn) (funext fun x => ?_)
  simp only [Function.comp_apply, Option.map_map, h.flagType?_field]
  exact congrArg (Option.map · _) (funext fun type => hentry x.1 type x.2)

/-- The report of a schema in terms of what is left of it. -/
theorem report_lower {source : List Char} {low : Lowered} (hlow : (s.lower source).result = .ok low) :
    List.Forall₂ (fun x set => ∃ width, x.2.flagStorage (joinName x.1 x.2.name) = .ok width ∧
        set = x.2.flagSet (joinName x.1 x.2.name) width) (r.schema s).markedEnums low.report.flagSets ∧
      low.report.retyped = ((r.schema s).mapEnums EnumDef.asFlags).retypedEntries ∧
      low.report.package = (r.schema s).package := by
  obtain ⟨hsets, hretyped⟩ := Schema.report_lower hlow
  refine ⟨?_, ?_, ?_⟩
  · rw [h.markedEnums_schema, List.forall₂_map_left_iff]
    refine hsets.imp fun x set hset => ?_
    rw [h.enumName, h.flagStorage_enum]
    simp only [h.flagSet_enum]
    exact hset
  · rw [hretyped, ← h.schema_asFlags, h.retypedEntries_schema]
    rfl
  · obtain ⟨-, -, hpackage, -⟩ := Schema.lower_inv hlow
    exact hpackage

end Erasure.Faithful

-- ── Contents ─────────────────────────────────────────────────────────────────────

/-- A field without its places. -/
def Field.content (f : Field) : Field :=
  { f.bare with flags := f.flags }

/-- An enum without its places and comments. -/
def EnumDef.content (e : EnumDef) : EnumDef :=
  { e.bare with storage := e.storage }

/-- What contents are made of. -/
def Erasure.content : Erasure := ⟨Field.content, EnumDef.content, Setting.bare⟩

/-- A schema without places and comments. -/
def Schema.content (s : Schema) : Schema := Erasure.content.schema s

theorem Erasure.faithful_content : Erasure.content.Faithful EnumValue.bare where
  enum _ _ _ _    := rfl
  enumName _      := rfl
  valueName _     := rfl
  valueNumber _ _ := rfl
  emptySet        := rfl
  settingName _   := rfl
  marks _         := rfl
  fieldName _     := rfl
  fieldType _     := rfl

/-- The contents of a schema that is read are what it says. -/
theorem Schema.content_eq_bare {source : String} {s : Schema} (h : parse source = .ok s) :
    s.content = s.bare := by
  have hwritten := written_parse h
  rw [content, bare_eq_schema]
  refine Erasure.schema_congr (fun x hx => ?_) (fun x hx => ?_) rfl
  · show { x.2.bare with storage := x.2.storage } = x.2.bare
    rw [(hwritten.of_enumsIn x hx).storage]
    rfl
  · show { x.2.bare with flags := x.2.flags } = x.2.bare
    rw [(hwritten.of_fieldsIn x hx).flags]
    rfl

-- ── Fields ───────────────────────────────────────────────────────────────────────

theorem Setting.withDefault_bare (n : UInt64) (ss : List Setting) :
    withDefault n (ss.map bare) = (withDefault n ss).map bare := by
  induction ss with
  | nil => rfl
  | cons x xs ih =>
      rw [List.map_cons, withDefault, withDefault, ih]
      show (if x.name = defaultOptionName then _ else _) = _
      split <;> rfl

namespace Field

variable (f : Field)

theorem default?_content : f.content.default? = f.default?.map Setting.bare := by
  show (f.settings.map Setting.bare).find? _ = _
  rw [List.find?_map]
  rfl

theorem defaultNumber_content (sets : List FlagSet) (message : String) (type : FlagTypeRef) :
    f.content.defaultNumber sets message type = f.defaultNumber sets message type := by
  rw [defaultNumber, defaultNumber, default?_content]
  cases f.default? <;> rfl

theorem retyped_content (type : FlagTypeRef) (default : Option UInt64) :
    f.content.retyped type default = (f.retyped type default).content := by
  cases default with
  | none => rfl
  | some n =>
      have hsettings := Setting.withDefault_bare n f.settings
      rw [retyped, retyped, content, bare, content, bare]
      dsimp only [Option.map_some, Option.getD_some]
      rw [hsettings]

/-- **Retyping a field needs no more than its contents.** -/
theorem asFlags_content (symbols : Symbols) (sets : List FlagSet) (message : String) :
    (f.asFlags symbols sets message).content = f.content.asFlags symbols sets message := by
  have htype : f.content.flagType? symbols message = f.flagType? symbols message :=
    Erasure.faithful_content.flagType?_field symbols message f
  unfold asFlags
  rw [htype]
  cases f.flagType? symbols message with
  | none => rfl
  | some type =>
      dsimp only
      rw [defaultNumber_content]
      cases f.defaultNumber sets message type with
      | error e => rfl
      | ok default => exact (retyped_content f type default).symm

end Field

-- ── Offences ─────────────────────────────────────────────────────────────────────

theorem EnumDef.forall_not_offends_content (e : EnumDef) (fullName : String) :
    (∀ err, ¬ e.content.Offends fullName err) ↔ ∀ err, ¬ e.Offends fullName err := by
  have hmarks : e.content.marksFlags = e.marksFlags := Erasure.faithful_content.marksFlags_enum e
  have hvalues : e.content.values = e.values.map EnumValue.bare := rfl
  rw [forall_not_offends_iff, forall_not_offends_iff, hmarks, hvalues, List.forall_mem_map, List.length_map]
  rfl

namespace Schema

theorem flagSymbols_content (s : Schema) : s.content.flagSymbols = s.flagSymbols := by
  have hmarked : s.content.mapEnums EnumDef.asFlags = (s.mapEnums EnumDef.asFlags).content :=
    (Erasure.faithful_content.schema_asFlags s).symm
  rw [flagSymbols, hmarked]
  exact Erasure.faithful_content.ofSchema_schema _

theorem markedEnum?_content (s : Schema) (fullName : String) :
    s.content.markedEnum? fullName = (s.markedEnum? fullName).map fun x => (x.1, x.2.content) := by
  have hmarked : s.content.markedEnums = s.markedEnums.map fun x => (x.1, x.2.content) :=
    Erasure.faithful_content.markedEnums_schema s
  rw [markedEnum?, hmarked, List.find?_map]
  rfl

theorem namesFlag_content (s : Schema) (fullName : String) (c : Constant) :
    s.content.NamesFlag fullName c ↔ s.NamesFlag fullName c := by
  refine exists_congr fun name => and_congr_right fun _ => or_congr_right ?_
  have hnames : ∀ e : EnumDef, (∃ v ∈ e.content.values, v.name = name) ↔ ∃ v ∈ e.values, v.name = name := by
    intro e
    show (∃ v ∈ e.values.map EnumValue.bare, v.name = name) ↔ _
    simp only [List.mem_map, exists_exists_and_eq_and]
    rfl
  rw [markedEnum?_content]
  cases s.markedEnum? fullName with
  | none => simp
  | some x => simpa using hnames x.2

end Schema

theorem Field.forall_not_offends_content (s : Schema) (message : String) (f : Field) :
    (∀ err, ¬ f.content.Offends s.content message err) ↔ ∀ err, ¬ f.Offends s message err := by
  rw [forall_not_offends_iff, forall_not_offends_iff, s.flagSymbols_content, default?_content]
  refine forall₃_congr fun fullName width _ => ?_
  cases f.default? with
  | none => exact ⟨fun _ => nofun, fun _ => nofun⟩
  | some d =>
      have hflag : s.content.NamesFlag fullName d.bare.value ↔ s.NamesFlag fullName d.value :=
        s.namesFlag_content fullName d.value
      simpa using hflag

-- ── Lowering ─────────────────────────────────────────────────────────────────────

namespace Schema

variable {s : Schema} {source : List Char} {low : Lowered}

/-- **Whether a schema can be lowered depends on the contents alone.** -/
theorem exists_lower_content (s : Schema) (source source' : List Char) :
    (∃ low, (s.content.lower source').result = .ok low) ↔ ∃ low, (s.lower source).result = .ok low := by
  have henums : s.content.enumsIn = s.enumsIn.map fun x => (x.1, x.2.content) :=
    Erasure.enumsIn_schema _ s
  have hfields : s.content.fieldsIn = s.fieldsIn.map fun x => (x.1, x.2.content) :=
    Erasure.fieldsIn_schema _ s
  rw [exists_lower_iff, exists_lower_iff, henums, hfields, List.forall_mem_map, List.forall_mem_map]
  refine and_congr (forall₂_congr fun x _ => ?_) (forall₂_congr fun x _ => ?_)
  · exact x.2.forall_not_offends_content (joinName x.1 x.2.name)
  · exact x.2.forall_not_offends_content s x.1

/-- **What lowering gives depends on the contents alone.** -/
theorem content_lower (h : (s.lower source).result = .ok low) :
    low.schema.content = (s.content.mapEnums EnumDef.asFlags).mapFields
      (Field.asFlags s.content.flagSymbols low.report.flagSets) := by
  obtain ⟨-, hschema, -⟩ := lower_inv h
  have hmarked : s.content.mapEnums EnumDef.asFlags = (s.mapEnums EnumDef.asFlags).content :=
    (Erasure.faithful_content.schema_asFlags s).symm
  have hsymbols : s.content.flagSymbols = s.flagSymbols := s.flagSymbols_content
  rw [hschema, hsymbols, hmarked]
  exact Erasure.schema_mapFields _ fun n f => Field.asFlags_content f _ _ n

end Schema

end FlagSchema
