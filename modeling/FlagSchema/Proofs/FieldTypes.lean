import Mathlib.Data.List.Forall2
import FlagSchema.Proofs.Origins
import FlagSchema.Proofs.Types

/-!
# The types of lowered fields

Enums are made sets of flags before any field is looked at, so a field is retyped by what its type refers to
in the finished schema. Afterwards no name in the place of a type refers to a set of flags.

* **`Field.NamesFlags`**: the type of a field is the name of a set of flags.
* **`Field.RefersTo`**: the type that a field refers to, retyped or not.
* **`lower_fields`**: exactly the fields of such a type are retyped.
* **`accessors_withFieldsOf`**: the accessors do not depend on whether the fields are retyped.
-/

namespace FlagSchema

variable {source : String} {low : Lowered}

-- ── Fields that name a set of flags ──────────────────────────────────────────────

namespace Field

variable {symbols : Symbols} {sets : List FlagSet} {message : String} {f : Field}

/-- The type of a field of a message, or of the values of a map, is a name that refers to a set of flags
    with a full name. -/
def NamesFlags (symbols : Symbols) (message : String) (f : Field) (fullName : String) (width : Scalar) :
    Prop :=
  ∃ written, f.type.target = .named written ∧
    symbols.resolve? message written = some (fullName, .flags width)

/-- The type that is found is the one that the field names. -/
theorem flagType?_inv {type : FlagTypeRef} (h : f.flagType? symbols message = some type) :
    f.type.target = .named type.written ∧
      symbols.resolve? message type.written = some (type.fullName, .flags type.width) := by
  unfold flagType? at h
  split at h
  · cases h
  · next written htarget =>
      split at h
      · next fullName width hresolve =>
          cases h
          exact ⟨htarget, hresolve⟩
      · cases h

theorem flagType?_eq_some {type : FlagTypeRef} (h : f.flagType? symbols message = some type) :
    f.NamesFlags symbols message type.fullName type.width :=
  ⟨type.written, flagType?_inv h⟩

theorem NamesFlags.flagType? {fullName : String} {width : Scalar}
    (h : f.NamesFlags symbols message fullName width) :
    ∃ written, f.flagType? symbols message = some ⟨written, fullName, width⟩ := by
  obtain ⟨written, htarget, hresolve⟩ := h
  exact ⟨written, by simp only [Field.flagType?, htarget, hresolve]⟩

theorem flagType?_eq_none_iff :
    f.flagType? symbols message = none ↔
      ∀ fullName width, ¬ f.NamesFlags symbols message fullName width := by
  constructor
  · intro hnone fullName width hnames
    obtain ⟨written, hsome⟩ := hnames.flagType?
    rw [hnone] at hsome
    cases hsome
  · intro hnames
    cases htype : f.flagType? symbols message with
    | none => rfl
    | some type => exact absurd (flagType?_eq_some htype) (hnames _ _)

@[simp] theorem target_withTarget (t : TypeRef) (type : FieldType) : (type.withTarget t).target = t := by
  cases type <;> rfl

/-- A retyped field names no set of flags. -/
theorem not_namesFlags_retyped (type : FlagTypeRef) (default : Option UInt64) (fullName : String)
    (width : Scalar) : ¬ (f.retyped type default).NamesFlags symbols message fullName width := by
  rintro ⟨written, htarget, -⟩
  rw [retyped, target_withTarget] at htarget
  cases htarget

/-- A field that names no set of flags stays. -/
theorem asFlags_of_none (h : f.flagType? symbols message = none) : f.asFlags symbols sets message = f := by
  rw [asFlags, h]

theorem asFlags_of_some {type : FlagTypeRef} {default : Option UInt64}
    (h : f.flagType? symbols message = some type) (hd : f.defaultNumber sets message type = .ok default) :
    f.asFlags symbols sets message = f.retyped type default := by
  rw [asFlags, h]
  dsimp only
  rw [hd]

end Field

-- ── What a field refers to ───────────────────────────────────────────────────────

/-- A field of a message, which is no map, refers to a type: it remembers the full name of the set of flags
    that it was retyped for, or it still has a name for a type. -/
inductive Field.RefersTo (symbols : Symbols) (message : String) (f : Field) : String → Definition → Prop where
  | retyped {fullName : String} {width : Scalar} (hflags : f.flags = some fullName)
      (htype : f.type = .single (.scalar width)) : RefersTo symbols message f fullName (.flags width)
  | named {written fullName : String} {definition : Definition} (hflags : f.flags = none)
      (htype : f.type = .single (.named written))
      (hresolve : symbols.resolve? message written = some (fullName, definition)) :
      RefersTo symbols message f fullName definition

/-- What a field of a type that is defined so holds. -/
def Definition.holding (path : TypePath) : Definition → Holding
  | .message     => .message path
  | .enum        => .enum path
  | .flags width => .flags path width

/-- The path to what a field holds; a scalar has none. -/
def Holding.path? : Holding → Option TypePath
  | .scalar _     => none
  | .message path => some path
  | .enum path    => some path
  | .flags path _ => some path

namespace Generator

variable {g : Generator} {message fullName : String} {module : List String} {f : Field} {path : TypePath}
  {definition : Definition}

/-- A field that refers to a type holds it by the path to it. -/
theorem holding_of_refersTo (h : f.RefersTo g.symbols message fullName definition) :
    g.holding message module f =
      (do let path ← g.typePath module fullName; pure (some (definition.holding path))) := by
  cases h with
  | retyped hflags htype => simp only [holding, hflags, htype]; rfl
  | named hflags htype hresolve => cases definition <;> simp only [holding, hflags, htype, hresolve] <;> rfl

/-- A field that holds something by a path refers to a type. -/
theorem refersTo_of_holding {h : Holding} (hok : (g.holding message module f).result = .ok (some h))
    (hpath : h.path? = some path) :
    ∃ fullName definition, f.RefersTo g.symbols message fullName definition ∧
      (g.typePath module fullName).result = .ok path ∧ h = definition.holding path := by
  suffices hrefers : ∃ fullName definition, f.RefersTo g.symbols message fullName definition by
    obtain ⟨fullName, definition, hrefers⟩ := hrefers
    rw [holding_of_refersTo hrefers] at hok
    obtain ⟨p, hp, hok⟩ := Traced.bind_eq_ok.mp hok
    cases hok
    cases definition <;> cases hpath <;> exact ⟨fullName, _, hrefers, hp, rfl⟩
  unfold holding at hok
  split at hok
  · next hflags htype => exact ⟨_, _, .retyped hflags htype⟩
  · cases hok
  · cases hok; cases hpath
  · cases hok
  · next hflags htype =>
      split at hok
      · cases hok
      · next hresolve => exact ⟨_, _, .named hflags htype hresolve⟩

/-- A field is held as a set of flags only if it has been retyped, or still names one. -/
theorem holding_flags {width : Scalar}
    (h : (g.holding message module f).result = .ok (some (.flags path width))) :
    f.flags.isSome ∨ ∃ fullName, f.NamesFlags g.symbols message fullName width := by
  obtain ⟨fullName, definition, hrefers, -, heq⟩ := refersTo_of_holding h rfl
  cases hrefers with
  | retyped hflags _ => exact .inl (by rw [hflags]; rfl)
  | named _ htype hresolve =>
      cases definition with
      | message => cases heq
      | enum => cases heq
      | flags w =>
          cases heq
          exact .inr ⟨fullName, _, by rw [htype]; rfl, hresolve⟩

end Generator

-- ── Lowered fields ───────────────────────────────────────────────────────────────

/-- The default of every field that names a set of flags has a number, once a schema is lowered. -/
theorem Schema.defaults_lower {s : Schema} {cs : List Char} (h : (s.lower cs).result = .ok low) :
    ∀ x ∈ s.fieldsIn, ∀ type, x.2.flagType? (Symbols.ofSchema low.schema) x.1 = some type →
      ∃ default, x.2.defaultNumber low.report.flagSets x.1 type = .ok default := by
  obtain ⟨-, hschema, -, numbers, hnumbers, -⟩ := lower_inv h
  rw [hschema, ofSchema_mapFields]
  rw [flagFields, fieldsIn_mapEnums] at hnumbers
  intro x hx type htype
  have hmem : (x.1, x.2, type) ∈ s.fieldsIn.filterMap fun x =>
      (x.2.flagType? (Symbols.ofSchema (s.mapEnums EnumDef.asFlags)) x.1).map (x.1, x.2, ·) := by
    refine List.mem_filterMap.mpr ⟨x, hx, ?_⟩
    show (x.2.flagType? _ x.1).map _ = _
    rw [htype]
    rfl
  obtain ⟨default, -, hdefault⟩ := exists_right_of_forall₂ hnumbers hmem
  exact ⟨default, hdefault⟩

/-- The fields of a lowered schema. -/
theorem Schema.fieldsIn_lower {s : Schema} {cs : List Char} (h : (s.lower cs).result = .ok low) :
    low.schema.fieldsIn = s.fieldsIn.map fun x =>
      (x.1, x.2.asFlags (Symbols.ofSchema low.schema) low.report.flagSets x.1) := by
  obtain ⟨-, hschema, -⟩ := lower_inv h
  have hsymbols := congrArg Symbols.ofSchema hschema
  rw [ofSchema_mapFields] at hsymbols
  rw [hsymbols, hschema, fieldsIn_mapFields, fieldsIn_mapEnums]

/-- **Exactly the fields whose type refers to a set of flags are retyped**, by what names refer to in the
    finished schema: the type becomes the storage type of the set, and the field remembers its name. No
    field names a set of flags afterwards, so it is held as one only if it remembers one. -/
theorem lower_fields (h : (lower source).result = .ok low) :
    ∃ s, Schema.parse source = .ok s ∧
      List.Forall₂ (fun x y => y.1 = x.1 ∧
          (∀ fullName width,
            x.2.NamesFlags (Symbols.ofSchema low.schema) x.1 fullName width →
              y.2.type = x.2.type.withTarget (.scalar width) ∧ y.2.flags = some fullName) ∧
          ((∀ fullName width, ¬ x.2.NamesFlags (Symbols.ofSchema low.schema) x.1 fullName width) →
            y.2 = x.2))
        s.fieldsIn low.schema.fieldsIn ∧
      ∀ y ∈ low.schema.fieldsIn,
        (∀ fullName width, ¬ y.2.NamesFlags (Symbols.ofSchema low.schema) y.1 fullName width) ∧
        ∀ module path width,
          ((Generator.ofSchema low.schema).holding y.1 module y.2).result = .ok (some (.flags path width)) →
            y.2.flags.isSome := by
  obtain ⟨s, hparse, hlow⟩ := lower_inv h
  have hdefaults := Schema.defaults_lower hlow
  have hfields := Schema.fieldsIn_lower hlow
  have hnames : ∀ y ∈ low.schema.fieldsIn, ∀ fullName width,
      ¬ y.2.NamesFlags (Symbols.ofSchema low.schema) y.1 fullName width := by
    intro y hy
    rw [hfields] at hy
    obtain ⟨x, hx, rfl⟩ := List.mem_map.mp hy
    cases htype : x.2.flagType? (Symbols.ofSchema low.schema) x.1 with
    | none =>
        rw [Field.asFlags_of_none htype]
        exact Field.flagType?_eq_none_iff.mp htype
    | some type =>
        obtain ⟨default, hdefault⟩ := hdefaults x hx type htype
        rw [Field.asFlags_of_some htype hdefault]
        exact Field.not_namesFlags_retyped type default
  refine ⟨s, hparse, ?_, fun y hy => ⟨hnames y hy, fun module path width hholding => ?_⟩⟩
  · rw [hfields, List.forall₂_map_right_iff, List.forall₂_same]
    intro x hx
    refine ⟨rfl, fun fullName width hx' => ?_, fun hx' => ?_⟩
    · obtain ⟨written, htype⟩ := hx'.flagType?
      obtain ⟨default, hdefault⟩ := hdefaults x hx _ htype
      rw [Field.asFlags_of_some htype hdefault]
      exact ⟨rfl, rfl⟩
    · exact Field.asFlags_of_none (Field.flagType?_eq_none_iff.mpr hx')
  · rcases Generator.holding_flags hholding with hflags | ⟨fullName, hname⟩
    · exact hflags
    · exact absurd hname (hnames y hy fullName width)

/-- A schema with a set of flags, which a field with a default and the values of a map have as their type. -/
def hart : String :=
  "package riscv;\n" ++
  "message Hart \x7b\n" ++
  "  enum Mode \x7b option (bitmap) = true; M = 0; \x7d\n" ++
  "  Mode mode = 1 [default = M];\n" ++
  "  map<string, Mode> modes = 2;\n" ++
  "  repeated Hart next = 3;\n" ++
  "\x7d\n"

/-- That schema is lowered by four edits, its report has one set and two fields, and its types have
    declarations. -/
theorem lower_hart_computed :
    ∃ low, (lower hart).result = .ok low ∧ low.edits.length = 4 ∧
      low.report.flagSets = [⟨"riscv.Hart.Mode", .uint32, [⟨"M", 1⟩]⟩] ∧
      low.report.retyped = [⟨"riscv.Hart", "mode", "riscv.Hart.Mode", .uint32⟩,
        ⟨"riscv.Hart", "modes", "riscv.Hart.Mode", .uint32⟩] ∧
      low.schema.declarations.result.isOk = true := by
  have hcomputed : ((lower hart).result.toOption.map fun low => (low.edits.length, low.report.flagSets,
        low.report.retyped, low.schema.declarations.result.isOk)) =
      some (4, [⟨"riscv.Hart.Mode", .uint32, [⟨"M", 1⟩]⟩],
        [⟨"riscv.Hart", "mode", "riscv.Hart.Mode", .uint32⟩,
          ⟨"riscv.Hart", "modes", "riscv.Hart.Mode", .uint32⟩], true) := by
    rw [lower_eq]
    delta hart
    simp only [String.toList_append, String.reduceToList]
    decide +kernel
  cases h : (lower hart).result with
  | error e => rw [h] at hcomputed; cases hcomputed
  | ok low =>
      rw [h] at hcomputed
      obtain ⟨hlength, hrest⟩ := Prod.mk.inj (Option.some.inj hcomputed)
      obtain ⟨hsets, hrest⟩ := Prod.mk.inj hrest
      obtain ⟨hretyped, hok⟩ := Prod.mk.inj hrest
      exact ⟨low, rfl, hlength, hsets, hretyped, hok⟩

theorem lower_hart : ∃ low, (lower hart).result = .ok low ∧ low.edits.length = 4 := by
  obtain ⟨low, h, hlength, -⟩ := lower_hart_computed
  exact ⟨low, h, hlength⟩

/-- Two fields of that schema are retyped, one stays. -/
theorem lower_fields_hart :
    ∃ low, (lower hart).result = .ok low ∧ ∃ s, Schema.parse hart = .ok s ∧
      List.Forall₂ (fun x y => y.1 = x.1 ∧
          (∀ fullName width,
            x.2.NamesFlags (Symbols.ofSchema low.schema) x.1 fullName width →
              y.2.type = x.2.type.withTarget (.scalar width) ∧ y.2.flags = some fullName) ∧
          ((∀ fullName width, ¬ x.2.NamesFlags (Symbols.ofSchema low.schema) x.1 fullName width) →
            y.2 = x.2))
        s.fieldsIn low.schema.fieldsIn := by
  obtain ⟨low, h, -⟩ := lower_hart
  obtain ⟨s, hparse, hfields, -⟩ := lower_fields h
  exact ⟨low, h, s, hparse, hfields⟩

-- ── Fields as they were ──────────────────────────────────────────────────────────

namespace Message

theorem withFieldsOf_eq (m other : Message) :
    m.withFieldsOf other = { m with
      fields := other.fields, messages := withAllFieldsOf m.messages other.messages } := by
  cases m
  rfl

theorem withAllFieldsOf_map {f g : Message → Message} {ms : List Message}
    (h : ∀ m ∈ ms, (f m).withFieldsOf m = g m) : withAllFieldsOf (ms.map f) ms = ms.map g := by
  induction ms with
  | nil => rfl
  | cons m ms ih =>
      rw [List.map_cons, List.map_cons, withAllFieldsOf, h m (List.mem_cons_self ..),
        ih fun i hi => h i (List.mem_cons_of_mem _ hi)]

/-- A message whose enums and fields are changed, with its own fields again. -/
theorem withFieldsOf_mapFields (f : String → Field → Field) (g : EnumDef → EnumDef) (scope : String)
    (m : Message) : (mapFields f scope (mapEnums g m)).withFieldsOf m = mapEnums g m := by
  induction m using nested_induction generalizing scope with
  | step m ih =>
      have hmessages : withAllFieldsOf
          (m.messages.map (mapFields f (joinName scope m.name) ∘ mapEnums g)) m.messages
            = m.messages.map (mapEnums g) := withAllFieldsOf_map fun i hi => ih i hi _
      rw [mapEnums_eq, mapFields_eq, withFieldsOf_eq]
      dsimp only
      rw [List.map_map, hmessages]

end Message

theorem Schema.withFieldsOf_mapFields (f : String → Field → Field) (g : EnumDef → EnumDef) (s : Schema) :
    ((s.mapEnums g).mapFields f).withFieldsOf s = s.mapEnums g := by
  have hmessages : Message.withAllFieldsOf
      (s.messages.map (Message.mapFields f s.scope ∘ Message.mapEnums g)) s.messages
        = s.messages.map (Message.mapEnums g) :=
    Message.withAllFieldsOf_map fun m _ => Message.withFieldsOf_mapFields f g _ m
  rw [mapEnums, mapFields, withFieldsOf, Message.mapAllEnums_eq, Message.mapAllFields_eq]
  dsimp only
  rw [List.map_map]
  exact congrArg (fun ms => ({ s with enums := s.enums.map g, messages := ms } : Schema)) hmessages

-- ── Accessors of retyped fields ──────────────────────────────────────────────────

namespace Generator

variable {g : Generator} {message : String} {module : List String}

/-- A field that has been read is held alike, retyped or not. -/
theorem holding_asFlags {f : Field} (hf : f.flags = none) (sets : List FlagSet) :
    g.holding message module (f.asFlags g.symbols sets message) = g.holding message module f := by
  cases htype : f.flagType? g.symbols message with
  | none => rw [Field.asFlags_of_none htype]
  | some type =>
      cases hdefault : f.defaultNumber sets message type with
      | error e => simp only [Field.asFlags, htype, hdefault]
      | ok default =>
          rw [Field.asFlags_of_some htype hdefault]
          obtain ⟨htarget, hresolve⟩ := Field.flagType?_inv htype
          obtain ⟨name, position, label, fieldType, number, settings, oneof, typeSpan, flags⟩ := f
          cases hf
          cases fieldType with
          | single target =>
              cases htarget
              simp only [holding, Field.retyped, FieldType.withTarget, hresolve]
          | map key value => rfl

theorem member_asFlags {f : Field} (hf : f.flags = none) (sets : List FlagSet) :
    g.member message module (f.asFlags g.symbols sets message) = g.member message module f := by
  have hfield : (f.asFlags g.symbols sets message).name = f.name ∧
      (f.asFlags g.symbols sets message).label = f.label ∧
      (f.asFlags g.symbols sets message).number = f.number := by
    unfold Field.asFlags
    split
    · exact ⟨rfl, rfl, rfl⟩
    · split <;> exact ⟨rfl, rfl, rfl⟩
  obtain ⟨hname, hlabel, hnumber⟩ := hfield
  rw [member, member, holding_asFlags hf, hname, hlabel, hnumber]

theorem each_map {ε α β : Type} {f : α → Traced ε β} {h : α → α} {as : List α}
    (hf : ∀ a ∈ as, f (h a) = f a) : Traced.each f (as.map h) = Traced.each f as := by
  induction as with
  | nil => rfl
  | cons a as ih =>
      rw [List.map_cons, Traced.each, Traced.each, hf a (List.mem_cons_self ..),
        ih fun b hb => hf b (List.mem_cons_of_mem _ hb)]

theorem ofMessages_map {scope : String} {h : Message → Message} {ms : List Message}
    (hf : ∀ m ∈ ms, g.ofMessage scope module (h m) = g.ofMessage scope module m) :
    g.ofMessages scope module (ms.map h) = g.ofMessages scope module ms := by
  induction ms with
  | nil => rfl
  | cons m ms ih =>
      rw [List.map_cons, ofMessages, ofMessages, hf m (List.mem_cons_self ..),
        ih fun i hi => hf i (List.mem_cons_of_mem _ hi)]

/-- The declarations of a message do not depend on a change of fields that no member shows. -/
theorem ofMessage_mapFields {f : String → Field → Field} {scope : String} {m : Message}
    (hf : ∀ x ∈ Message.fieldsIn scope m, ∀ module,
      g.member x.1 module (f x.1 x.2) = g.member x.1 module x.2) :
    g.ofMessage scope module (m.mapFields f scope) = g.ofMessage scope module m := by
  induction m using Message.nested_induction generalizing scope module with
  | step m ih =>
      rw [Message.fieldsIn_eq, List.forall_mem_append] at hf
      obtain ⟨hown, hnested⟩ := hf
      have hfields : Traced.each (g.member (joinName scope m.name) module)
          (m.fields.map (f (joinName scope m.name)))
            = Traced.each (g.member (joinName scope m.name) module) m.fields :=
        each_map fun x hx => hown _ (List.mem_map_of_mem hx) module
      have hmessages : g.ofMessages (joinName scope m.name) (module ++ [snakeCase m.name])
          (m.messages.map (Message.mapFields f (joinName scope m.name)))
            = g.ofMessages (joinName scope m.name) (module ++ [snakeCase m.name]) m.messages :=
        ofMessages_map fun i hi =>
          ih i hi fun x hx => hnested x (List.mem_flatMap.mpr ⟨i, hi, hx⟩)
      rw [Message.mapFields_eq]
      cases m
      simp only [ofMessage, structOf, hfields, hmessages, List.isEmpty_map]

end Generator

/-- The declarations of a schema do not depend on a change of fields that no member shows. -/
theorem Schema.declarations_mapFields {f : String → Field → Field} {s : Schema}
    (hf : ∀ x ∈ s.fieldsIn, ∀ module, (Generator.ofSchema s).member x.1 module (f x.1 x.2)
      = (Generator.ofSchema s).member x.1 module x.2) :
    (s.mapFields f).declarations = s.declarations := by
  have hgenerator : Generator.ofSchema (s.mapFields f) = Generator.ofSchema s := by
    rw [Generator.ofSchema, ofSchema_mapFields, moduleTable_mapFields, Generator.ofSchema]
  have hmessages : Generator.ofMessages (Generator.ofSchema s) s.scope s.rootModule
      (s.messages.map (Message.mapFields f s.scope))
        = Generator.ofMessages (Generator.ofSchema s) s.scope s.rootModule s.messages := by
    rw [fieldsIn, Message.allFieldsIn_eq] at hf
    exact Generator.ofMessages_map fun m hm => Generator.ofMessage_mapFields fun x hx =>
      hf x (List.mem_flatMap.mpr ⟨m, hm, hx⟩)
  rw [declarations, hgenerator, declarations, ← hmessages, mapFields, Message.mapAllFields_eq]
  rfl

/-- **Both ways to recognise a field that holds a set of flags agree.** The accessors for the finished
    schema are those for the same schema with its fields as they were read, errors included. -/
theorem accessors_withFieldsOf (h : (lower source).result = .ok low) :
    ∃ s, Schema.parse source = .ok s ∧
      (low.schema.withFieldsOf s).accessors = low.schema.accessors := by
  obtain ⟨s, hparse, hlow⟩ := lower_inv h
  obtain ⟨-, hschema, -⟩ := Schema.lower_inv hlow
  refine ⟨s, hparse, ?_⟩
  have hread := (Schema.written_parse hparse).of_fieldsIn
  have hdeclarations : low.schema.declarations = (s.mapEnums EnumDef.asFlags).declarations := by
    rw [hschema]
    refine Schema.declarations_mapFields fun x hx module => ?_
    rw [Schema.fieldsIn_mapEnums] at hx
    exact Generator.member_asFlags (hread x hx).flags _
  have hfields : low.schema.withFieldsOf s = s.mapEnums EnumDef.asFlags := by
    rw [hschema]
    exact Schema.withFieldsOf_mapFields ..
  rw [hfields, Schema.accessors, Schema.accessors, hdeclarations]

theorem accessors_withFieldsOf_hart :
    ∃ low, (lower hart).result = .ok low ∧ ∃ s, Schema.parse hart = .ok s ∧
      (low.schema.withFieldsOf s).accessors = low.schema.accessors := by
  obtain ⟨low, h, -⟩ := lower_hart
  exact ⟨low, h, accessors_withFieldsOf h⟩

end FlagSchema
