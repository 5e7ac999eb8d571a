import FlagSchema.Proofs.FlagCode

/-!
# What the report says

The report, the lowered schema and the accessors describe the same sets of flags. They are filled in by
recursions of their own: the report by a pass over the enums and one over the fields, the accessors module by
module.

* **`FlagSet.Describes`**, **`RetypedField.Describes`**: an entry says what an enum or a field has become.
* **`Schema.report_lower`**: what the report of a schema consists of.
* **`FlagSet.DeclaredBy`**: a declaration has the name, the width, the constants and the table of a set of
  flags, **`FlagSet.WrittenBy`**: so does the code of a flag type.
* **`Declaration.allFlagTypes`**: the flag types among declarations, **`Generator.Fills.flagTypes`** those of a
  scope.
* **`lower_report`**: report, schema and accessors agree.
-/

namespace FlagSchema

open Declaration

-- ── Flags and numbers ────────────────────────────────────────────────────────────

namespace EnumValue

/-- Values as flags are named as they were declared. -/
theorem map_name_flags (index : Nat) (vs : List EnumValue) :
    (flags index vs).map Flag.name = vs.map EnumValue.name := by
  induction vs generalizing index with
  | nil => rfl
  | cons v vs ih => rw [flags, List.map_cons, List.map_cons, ih]

/-- Values are numbered by the values of their flags. -/
theorem map_asFlags_eq (index : Nat) (vs : List EnumValue) :
    (asFlags index vs).map (fun v => (v.name, v.number))
      = (flags index vs).map fun f => (f.name, (f.value.toNat : Int)) := by
  induction vs generalizing index with
  | nil => rfl
  | cons v vs ih => rw [asFlags, flags, List.map_cons, List.map_cons, ih]

/-- Every flag has the value of one index. -/
theorem exists_of_mem_flags {index : Nat} {vs : List EnumValue} {f : Flag} (h : f ∈ flags index vs) :
    ∃ i < index + vs.length, f.value = flagBit i := by
  induction vs generalizing index with
  | nil => cases h
  | cons v vs ih =>
      rcases List.mem_cons.mp h with rfl | h
      · exact ⟨index, by rw [List.length_cons]; omega, rfl⟩
      · obtain ⟨i, hi, hvalue⟩ := ih h
        exact ⟨i, by rw [List.length_cons]; omega, hvalue⟩

end EnumValue

/-- The value of a flag is a power of two where there is a bit for it. -/
theorem toNat_flagBit {i : Nat} (h : i < 64) : (flagBit i).toNat = 2 ^ i :=
  UInt64.toNat_ofNat_of_lt' (Nat.pow_lt_pow_right (by decide) h)

/-- A storage type for a number of flags has room for the value of each. -/
theorem flagBit_lt_capacity {count i : Nat} {width : Scalar} (h : Scalar.forFlagCount? count = some width)
    (hi : i < count) : 0 < (flagBit i).toNat ∧ (flagBit i).toNat < width.capacity := by
  unfold Scalar.forFlagCount? at h
  split at h
  · next hcount =>
      cases h
      rw [toNat_flagBit (by omega)]
      exact ⟨Nat.two_pow_pos i, (Nat.pow_lt_pow_right (by decide) (Nat.lt_trans hi hcount) : 2 ^ i < 2 ^ 32)⟩
  · split at h
    · next hcount =>
        cases h
        have hbit : i < 64 := Nat.lt_of_lt_of_le hi hcount
        rw [toNat_flagBit hbit]
        exact ⟨Nat.two_pow_pos i, (Nat.pow_lt_pow_right (by decide) hbit : 2 ^ i < 2 ^ 64)⟩
    · cases h

/-- A storage type for a number of flags is one of two. -/
theorem Scalar.stored_of_forFlagCount? {count : Nat} {width : Scalar} (h : forFlagCount? count = some width) :
    width = .uint32 ∨ width = .uint64 := by
  unfold forFlagCount? at h
  split at h
  · cases h; exact .inl rfl
  · split at h
    · cases h; exact .inr rfl
    · cases h

/-- Values as flags have plain names if they are spelled in the source and have identifiers. -/
theorem EnumValue.isPlainName_flags {source : List Char} {vs : List EnumValue}
    (hspelled : ∀ v ∈ vs, v.Spelled source) :
    ∀ f ∈ flags 0 vs, ∀ i, Ident.ofName? f.name = some i → Token.isPlainName f.name.toList = true := by
  intro f hf i hident
  have hname : f.name ∈ vs.map EnumValue.name := map_name_flags 0 vs ▸ List.mem_map_of_mem hf
  obtain ⟨v, hv, heq⟩ := List.mem_map.mp hname
  rw [← heq] at hident ⊢
  exact (hspelled v hv).isPlainName hident

/-- The storage type of values as flags has room for each of them, and none is zero. -/
theorem EnumValue.room_flags {vs : List EnumValue} {width : Scalar}
    (h : Scalar.forFlagCount? vs.length = some width) :
    ∀ f ∈ flags 0 vs, 0 < f.value.toNat ∧ f.value.toNat < width.capacity := by
  intro f hf
  obtain ⟨i, hi, hvalue⟩ := exists_of_mem_flags hf
  rw [Nat.zero_add] at hi
  rw [hvalue]
  exact flagBit_lt_capacity h hi

-- ── Entries of the report ────────────────────────────────────────────────────────

/-- An entry of the report describes an enum of a scope, as it was declared and as it is now: it has the full
    name, the storage type, and the declared values in their order with the numbers that they have now, for
    which the storage type has room. -/
structure FlagSet.Describes (set : FlagSet) (scope : String) (declared now : EnumDef) : Prop where
  fullName : set.fullName = joinName scope declared.name
  name     : now.name = declared.name
  width    : now.storage = some set.width
  flags    : set.flags.map Flag.name = declared.values.map EnumValue.name
  numbers  : now.values.map (fun v => (v.name, v.number))
    = (emptySetName, 0) :: set.flags.map fun f => (f.name, (f.value.toNat : Int))
  room     : ∀ f ∈ set.flags, f.value.toNat < set.width.capacity

/-- An entry of the report describes a field of a message as it is now: the field remembers the set of flags
    and has its storage type. -/
structure RetypedField.Describes (r : RetypedField) (message : String) (f : Field) : Prop where
  message : r.message = message
  field   : r.field = f.name
  flags   : f.flags = some r.flagSet
  type    : f.type.target = .scalar r.width

namespace EnumDef

variable {e : EnumDef} {fullName : String} {width : Scalar}

theorem flagStorage_inv (h : e.flagStorage fullName = .ok width) :
    Scalar.forFlagCount? e.values.length = some width := by
  unfold flagStorage at h
  split at h
  · cases h
  · split at h
    · next hwidth => cases h; exact hwidth
    · cases h

/-- The entry for a marked enum describes it. -/
theorem describes_flagSet {scope : String} (hmark : e.marksFlags = true)
    (h : e.flagStorage (joinName scope e.name) = .ok width) :
    (e.flagSet (joinName scope e.name) width).Describes scope e e.asFlags := by
  have hwidth := flagStorage_inv h
  rw [asFlags, if_pos hmark]
  refine ⟨rfl, rfl, hwidth, EnumValue.map_name_flags 0 _, ?_, fun f hf => (EnumValue.room_flags hwidth f hf).2⟩
  rw [List.map_cons, EnumValue.map_asFlags_eq]
  rfl

/-- An enum that becomes a set of flags keeps its name. -/
theorem name_asFlags (e : EnumDef) : e.asFlags.name = e.name := by
  unfold asFlags
  split <;> rfl

/-- Exactly the marked enums are stored as sets of flags. -/
theorem storage_asFlags (hread : e.storage = none)
    (h : e.marksFlags = true → (e.flagStorage fullName).isOk = true) :
    e.asFlags.storage.isSome = e.marksFlags := by
  unfold asFlags
  split
  · next hmark =>
      rw [hmark]
      cases hstorage : e.flagStorage fullName with
      | error err => rw [hstorage] at h; cases h hmark
      | ok width =>
          show (Scalar.forFlagCount? e.values.length).isSome = true
          rw [flagStorage_inv hstorage]
          rfl
  · next hmark => rw [hread, Bool.eq_false_of_not_eq_true hmark]; rfl

end EnumDef

namespace Schema

variable {s : Schema} {source : List Char} {low : Lowered}

/-- **What the report of a schema consists of**: an entry for each marked enum, and one for each field whose
    type is a set of flags. -/
theorem report_lower (h : (s.lower source).result = .ok low) :
    List.Forall₂ (fun x set => ∃ width, x.2.flagStorage (joinName x.1 x.2.name) = .ok width ∧
        set = x.2.flagSet (joinName x.1 x.2.name) width) s.markedEnums low.report.flagSets ∧
      low.report.retyped =
        ((s.mapEnums EnumDef.asFlags).flagFields (Symbols.ofSchema (s.mapEnums EnumDef.asFlags))).map
          fun x => x.2.1.retypedEntry x.1 x.2.2 := by
  obtain ⟨enums, henums, h⟩ := Traced.bind_eq_ok.mp h
  obtain ⟨fields, hfields, h⟩ := Traced.bind_eq_ok.mp h
  cases h
  refine ⟨?_, ?_⟩
  · rw [List.forall₂_map_right_iff]
    refine (Traced.forall₂_of_each henums).imp fun x y hy => ?_
    obtain ⟨width, hwidth, hy⟩ := Traced.bind_eq_ok.mp hy
    cases hy
    exact ⟨width, hwidth, rfl⟩
  · rw [← List.forall₂_eq_eq_eq, List.forall₂_map_left_iff, List.forall₂_map_right_iff]
    refine (Traced.forall₂_of_each hfields).flip.imp fun y x hy => ?_
    obtain ⟨number, -, hy⟩ := Traced.bind_eq_ok.mp hy
    cases hy
    rfl

/-- The enums of a lowered schema are those of the schema, the marked ones as sets of flags. -/
theorem enumsIn_lower (h : (s.lower source).result = .ok low) :
    low.schema.enumsIn = s.enumsIn.map fun x => (x.1, x.2.asFlags) := by
  obtain ⟨-, hschema, -⟩ := lower_inv h
  rw [hschema, enumsIn_mapFields, enumsIn_mapEnums]

/-- Of the enums of a schema that is lowered exactly the marked ones are stored as sets of flags. -/
theorem storage_lower (hread : ∀ x ∈ s.enumsIn, x.2.storage = none) (h : (s.lower source).result = .ok low) :
    ∀ x ∈ s.enumsIn, x.2.asFlags.storage.isSome = x.2.marksFlags := by
  obtain ⟨hsets, -⟩ := report_lower h
  intro x hx
  have hok : x.2.marksFlags = true → (x.2.flagStorage (joinName x.1 x.2.name)).isOk = true := by
    intro hmark
    obtain ⟨set, -, width, hwidth, -⟩ :=
      exists_right_of_forall₂ hsets (List.mem_filter.mpr ⟨hx, hmark⟩)
    rw [hwidth]
    rfl
  exact EnumDef.storage_asFlags (hread x hx) hok

/-- The enums of a lowered schema that are stored as sets of flags are the marked ones. -/
theorem storedEnums_lower (hread : ∀ x ∈ s.enumsIn, x.2.storage = none)
    (h : (s.lower source).result = .ok low) :
    (low.schema.enumsIn.filter fun x => x.2.storage.isSome) =
      s.markedEnums.map fun x => (x.1, x.2.asFlags) := by
  rw [enumsIn_lower h, List.filter_map, markedEnums]
  exact congrArg _ (List.filter_congr fun x hx => storage_lower hread h x hx)

/-- The entries for fields describe those of a lowered schema that remember a set of flags. -/
theorem describes_retyped (hread : ∀ x ∈ s.fieldsIn, x.2.flags = none)
    (h : (s.lower source).result = .ok low) :
    List.Forall₂ (fun x r => r.Describes x.1 x.2)
      (low.schema.fieldsIn.filter fun x => x.2.flags.isSome) low.report.retyped := by
  have hdefaults := defaults_lower h
  have hfields := fieldsIn_lower h
  obtain ⟨-, hretyped⟩ := report_lower h
  obtain ⟨-, hschema, -⟩ := lower_inv h
  have hsymbols : Symbols.ofSchema (s.mapEnums EnumDef.asFlags) = Symbols.ofSchema low.schema := by
    rw [hschema, ofSchema_mapFields]
  rw [hretyped, hfields, flagFields, hsymbols, fieldsIn_mapEnums]
  clear hretyped hfields
  generalize s.fieldsIn = xs at hread hdefaults
  induction xs with
  | nil => exact .nil
  | cons x xs ih =>
      obtain ⟨hflags, hread⟩ := List.forall_mem_cons.mp hread
      obtain ⟨hdefault, hdefaults⟩ := List.forall_mem_cons.mp hdefaults
      have hrest := ih hread hdefaults
      obtain ⟨message, f⟩ := x
      rw [List.map_cons, List.filterMap_cons]
      cases htype : f.flagType? (Symbols.ofSchema low.schema) message with
      | none =>
          simp only [htype, Option.map_none]
          rw [Field.asFlags_of_none htype, List.filter_cons_of_neg (by rw [hflags]; exact Bool.false_ne_true)]
          exact hrest
      | some type =>
          obtain ⟨default, hdefault⟩ := hdefault type htype
          simp only [htype, Option.map_some]
          rw [Field.asFlags_of_some htype hdefault, List.filter_cons_of_pos (by rfl), List.map_cons]
          exact .cons ⟨rfl, rfl, rfl, Field.target_withTarget _ _⟩ hrest

/-- A set of flags that a name refers to, once the marked enums are sets of flags, is one of these. -/
theorem exists_markedEnum (hread : ∀ x ∈ s.enumsIn, x.2.storage = none) {scope written fullName : String}
    {width : Scalar} (hresolve : (Symbols.ofSchema (s.mapEnums EnumDef.asFlags)).resolve? scope written =
      some (fullName, .flags width)) :
    ∃ x ∈ s.markedEnums, joinName x.1 x.2.name = fullName ∧ x.2.asFlags.storage = some width := by
  obtain ⟨t, ht, hdefinition⟩ := exists_typeNamed hresolve
  obtain ⟨hmem, hname⟩ := typeNamed?_inv ht
  obtain ⟨scope, module, definition⟩ := t
  cases definition with
  | message m => cases hdefinition
  | enum e =>
      have henum := mem_enumsIn_of_typesIn hmem rfl
      rw [enumsIn_mapEnums] at henum
      obtain ⟨y, hy, heq⟩ := List.mem_map.mp henum
      cases heq
      have hstorage : y.2.asFlags.storage = some width := by
        simp only [PlacedType.definition, TypeDef.definition, EnumDef.definition] at hdefinition
        split at hdefinition
        · next hsome => cases hdefinition; exact hsome
        · cases hdefinition
      have hmark : y.2.marksFlags = true := by
        by_contra hmark
        rw [EnumDef.asFlags, if_neg hmark, hread y hy] at hstorage
        cases hstorage
      refine ⟨y, List.mem_filter.mpr ⟨hy, hmark⟩, ?_, hstorage⟩
      rw [← EnumDef.name_asFlags]
      exact hname

/-- The set of flags of every entry for a field has an entry of its own. -/
theorem exists_flagSet_of_retyped (hread : ∀ x ∈ s.enumsIn, x.2.storage = none)
    (h : (s.lower source).result = .ok low) :
    ∀ r ∈ low.report.retyped, ∃ set ∈ low.report.flagSets, set.fullName = r.flagSet ∧ set.width = r.width := by
  obtain ⟨hsets, hretyped⟩ := report_lower h
  intro r hr
  rw [hretyped] at hr
  obtain ⟨⟨message, f, type⟩, hx, rfl⟩ := List.mem_map.mp hr
  obtain ⟨x, -, hx⟩ := List.mem_filterMap.mp hx
  obtain ⟨type', htype, heq⟩ := Option.map_eq_some_iff.mp hx
  cases heq
  obtain ⟨y, hy, hname, hstorage⟩ := exists_markedEnum hread (Field.flagType?_inv htype).2
  obtain ⟨set, hset, width, hwidth, rfl⟩ := exists_right_of_forall₂ hsets hy
  have hdescribes := EnumDef.describes_flagSet (List.mem_filter.mp hy).2 hwidth
  exact ⟨_, hset, hname, Option.some.inj (hdescribes.width.symm.trans hstorage)⟩

end Schema

-- ── Flag types among declarations ────────────────────────────────────────────────

namespace Declaration

mutual

/-- The flag types that a definition is or holds, in the order of the text. -/
def flagTypes : Declaration → List Declaration
  | struct _ _                        => []
  | enum _ _ _                        => []
  | flags ident width constants table => [flags ident width constants table]
  | module _ declarations             => allFlagTypes declarations

/-- The flag types among definitions, in the order of the text. -/
def allFlagTypes : List Declaration → List Declaration
  | []      => []
  | d :: ds => flagTypes d ++ allFlagTypes ds

end

theorem allFlagTypes_eq (ds : List Declaration) : allFlagTypes ds = ds.flatMap flagTypes := by
  induction ds with
  | nil => rfl
  | cons d ds ih => rw [allFlagTypes, ih, List.flatMap_cons]

theorem allFlagTypes_append (ds es : List Declaration) :
    allFlagTypes (ds ++ es) = allFlagTypes ds ++ allFlagTypes es := by
  rw [allFlagTypes_eq, allFlagTypes_eq, allFlagTypes_eq, List.flatMap_append]

mutual

theorem exists_at_of_flagTypes {d : Declaration} :
    ∀ e : Declaration, d ∈ flagTypes e → ∀ {ds : List Declaration}, e ∈ ds → ∃ path, At ds path d
  | flags .., hd, _, he             => ⟨[], .here (List.mem_singleton.mp hd ▸ he)⟩
  | module _ declarations, hd, _, he =>
    let ⟨path, hat⟩ := exists_at_of_allFlagTypes declarations hd
    ⟨_ :: path, hat.module he⟩

/-- The flag types among definitions are in their modules. -/
theorem exists_at_of_allFlagTypes {d : Declaration} :
    ∀ ds : List Declaration, d ∈ allFlagTypes ds → ∃ path, At ds path d
  | e :: ds, hd =>
    (List.mem_append.mp hd).elim (fun hd => exists_at_of_flagTypes e hd (List.mem_cons_self ..)) fun hd =>
      let ⟨path, hat⟩ := exists_at_of_allFlagTypes ds hd
      ⟨path, hat.mono (List.subset_cons_self ..)⟩

end

/-- Modules around definitions hold no other flag types. -/
theorem allFlagTypes_inModules (items : List Declaration) (ids : List Ident) :
    allFlagTypes (inModules items ids) = allFlagTypes items := by
  induction ids with
  | nil => rfl
  | cons i ids ih => rw [inModules, allFlagTypes, flagTypes, ih, allFlagTypes, List.append_nil]

end Declaration

namespace Generator

variable {g : Generator} {sc : PlacedScope} {items : List Declaration}

/-- A declaration is generated for an enum of a scope. -/
def Declares (x : String × EnumDef) (d : Declaration) : Prop :=
  (enumOrFlagsOf x.1 x.2).result = .ok d

/-- The enums that are stored as sets of flags. -/
def stored (xs : List (String × EnumDef)) : List (String × EnumDef) :=
  xs.filter fun x => x.2.storage.isSome

theorem stored_append (xs ys : List (String × EnumDef)) : stored (xs ++ ys) = stored xs ++ stored ys :=
  List.filter_append ..

/-- The declarations of the enums of a scope hold the flag types of those that are sets of flags. -/
theorem flagTypes_of_enums {scope : String} {es : List EnumDef} {ds : List Declaration}
    (h : List.Forall₂ (fun e d => (enumOrFlagsOf scope e).result = .ok d) es ds) :
    List.Forall₂ Declares (stored (es.map (scope, ·))) (allFlagTypes ds) := by
  induction h with
  | nil => exact .nil
  | @cons e d es ds hd _ ih =>
      have hdefinition := (enumOrFlagsOf_inv hd).2
      rw [List.map_cons, allFlagTypes]
      cases hstorage : e.storage with
      | none =>
          rw [EnumDef.definition, hstorage] at hdefinition
          rw [stored, List.filter_cons_of_neg (by rw [hstorage]; exact Bool.false_ne_true)]
          cases d <;> cases hdefinition
          exact ih
      | some width =>
          rw [EnumDef.definition, hstorage] at hdefinition
          rw [stored, List.filter_cons_of_pos (by rw [hstorage]; rfl)]
          cases d <;> cases hdefinition
          exact .cons hd ih

/-- If it is so for each message of a scope, the declarations that fill the scope hold the flag types of its
    enums and of those in its messages, in that order. -/
theorem Fills.flagTypes_of (h : g.Fills sc items)
    (hmessages : ∀ m ∈ sc.messages, ∀ ds, (g.ofMessage sc.scope sc.module m).result = .ok ds →
      List.Forall₂ Declares (stored (m.enumsIn sc.scope)) (allFlagTypes ds)) :
    List.Forall₂ Declares
      (stored (sc.enums.map (sc.scope, ·) ++ sc.messages.flatMap (Message.enumsIn sc.scope)))
      (allFlagTypes items) := by
  obtain ⟨eds, dss, heds, hdss, rfl⟩ := h
  have hinner : List.Forall₂ Declares (stored (sc.messages.flatMap (Message.enumsIn sc.scope)))
      (allFlagTypes dss.flatten) := by
    generalize sc.messages = ms at hdss hmessages
    induction hdss with
    | nil => exact .nil
    | cons hds _ ih =>
        obtain ⟨hfirst, hmessages⟩ := List.forall_mem_cons.mp hmessages
        rw [List.flatMap_cons, stored_append, List.flatten_cons, allFlagTypes_append]
        exact List.rel_append (hfirst _ hds) (ih hmessages)
  rw [stored_append, allFlagTypes_append]
  exact List.rel_append (flagTypes_of_enums heds) hinner

/-- The declarations of a message hold the flag types of the enums in it. -/
theorem ofMessage_flagTypes {m : Message} {ds : List Declaration}
    (h : (g.ofMessage sc.scope sc.module m).result = .ok ds) :
    List.Forall₂ Declares (stored (m.enumsIn sc.scope)) (allFlagTypes ds) := by
  induction m using Message.nested_induction generalizing sc ds with
  | step m ih =>
      obtain ⟨d, hd, hinner⟩ := ofMessage_inv h
      obtain ⟨ident, members, -, -, rfl⟩ := structOf_inv hd
      rw [Message.enumsIn_eq]
      rcases hinner with ⟨henums, hmessages, rfl⟩ | ⟨-, ident, body, -, hfills, rfl⟩
      · rw [henums, hmessages]
        exact .nil
      · have hbody := hfills.flagTypes_of fun i hi ds hds => ih i hi hds
        rw [allFlagTypes, allFlagTypes, Declaration.flagTypes, Declaration.flagTypes, allFlagTypes,
          List.nil_append, List.append_nil]
        exact hbody

/-- **The declarations that fill a scope hold the flag types of the enums in the scope**, in the order in
    which its enums are gone through. -/
theorem Fills.flagTypes (h : g.Fills sc items) :
    List.Forall₂ Declares
      (stored (sc.enums.map (sc.scope, ·) ++ sc.messages.flatMap (Message.enumsIn sc.scope)))
      (allFlagTypes items) :=
  h.flagTypes_of fun _ _ _ hds => ofMessage_flagTypes hds

end Generator

/-- **The declarations for a schema hold the flag types of its enums** that are sets of flags, in their
    order. -/
theorem Schema.flagTypes_declarations {s : Schema} {ds : List Declaration}
    (h : s.declarations.result = .ok ds) :
    List.Forall₂ Generator.Declares (Generator.stored s.enumsIn) (allFlagTypes ds) := by
  obtain ⟨items, ids, hfills, -, rfl⟩ := declarations_inv h
  rw [allFlagTypes_inModules, enumsIn, Message.allEnumsIn_eq]
  exact hfills.flagTypes

-- ── Declarations of sets of flags ────────────────────────────────────────────────

/-- A declaration is that of a set of flags: its identifier is that of the last part of the full name, its
    storage type is the same, its constants are those of the flags, and its table lists them. -/
def FlagSet.DeclaredBy (set : FlagSet) (d : Declaration) : Prop :=
  ∃ ident constants, Ident.ofName? (lastSegment set.fullName) = some ident ∧
    List.Forall₂ (fun f c => Ident.ofName? f.name = some c.1 ∧ c.2 = f.value.toNat) set.flags constants ∧
    d = .flags ident set.width constants (set.flags.map fun f => (f.name, f.value.toNat))

/-- The code of a flag type is that of a set of flags. Its name is the identifier of the last part of the full name.
    Both the type of its words and its width are those of the storage type. Its constants are read as the identifiers
    and the values of the flags, and its table as their names and values, in their order. -/
structure FlagSet.WrittenBy (set : FlagSet) (c : FlagCode) : Prop where
  name      : ∃ i, Ident.ofName? (lastSegment set.fullName) = some i ∧ c.name = i.render
  width     : set.width.WrittenAs c.repr c.tag
  constants : ∃ read, Code.readConstants? c.constants = some read ∧
    List.Forall₂ (fun f x => (∃ i, Ident.ofName? f.name = some i ∧ x.1 = i.render) ∧ x.2 = f.value.toNat)
      set.flags read
  table     : Code.readRows? c.rows = some (set.flags.map fun f => (f.name, f.value.toNat))

/-- The flag type that is declared for a set of flags is in the code, if it has a width for flags and plain names. -/
theorem FlagSet.DeclaredBy.exists_flagCode {set : FlagSet} {ds : List Declaration} {here : List Ident} {ident : Ident}
    {width : Scalar} {constants : List (Ident × Nat)} {table : List (String × Nat)}
    (h : set.DeclaredBy (.flags ident width constants table)) (hat : At ds here (.flags ident width constants table))
    (hwidth : set.width = .uint32 ∨ set.width = .uint64)
    (hnames : ∀ f ∈ set.flags, ∀ i, Ident.ofName? f.name = some i → Token.isPlainName f.name.toList = true) :
    ∃ c : FlagCode, c.StandsIn (allCode ds) here ∧ c.Shows ident width constants table := by
  obtain ⟨_, _, -, hconstants, heq⟩ := h
  cases heq
  refine hat.exists_flagCode hwidth fun row hrow => ?_
  obtain ⟨f, hf, rfl⟩ := List.mem_map.mp hrow
  obtain ⟨c, -, hc, -⟩ := exists_right_of_forall₂ hconstants hf
  exact hnames f hf c.1 hc

/-- **The flag type that is declared for a set of flags is written for it.** -/
theorem FlagSet.DeclaredBy.exists_writtenBy {set : FlagSet} {ds : List Declaration} {d : Declaration}
    {here : List Ident} (h : set.DeclaredBy d) (hat : At ds here d)
    (hwidth : set.width = .uint32 ∨ set.width = .uint64)
    (hnames : ∀ f ∈ set.flags, ∀ i, Ident.ofName? f.name = some i → Token.isPlainName f.name.toList = true) :
    ∃ c : FlagCode, c.StandsIn (allCode ds) here ∧ set.WrittenBy c := by
  have hdeclared := h
  obtain ⟨ident, constants, hident, hconstants, rfl⟩ := h
  obtain ⟨c, hstands, hshows⟩ := hdeclared.exists_flagCode hat hwidth hnames
  refine ⟨c, hstands, ⟨ident, hident, hshows.name⟩, hshows.width, ⟨_, hshows.constants, ?_⟩, hshows.table⟩
  rw [List.forall₂_map_right_iff]
  exact hconstants.imp fun f x hx => ⟨⟨x.1, hx.1, rfl⟩, hx.2⟩

/-- A value is that of a flag: it has its name and its number. -/
def EnumValue.IsFlag (v : EnumValue) (f : Flag) : Prop :=
  v.name = f.name ∧ v.number = f.value.toNat

/-- The values of a set of flags but the empty one are its flags: none of these is numbered by zero. -/
theorem EnumDef.flags_asFlags {e : EnumDef} {width : Scalar} (hmark : e.marksFlags = true)
    (hwidth : Scalar.forFlagCount? e.values.length = some width) :
    List.Forall₂ EnumValue.IsFlag (e.asFlags.values.filter fun v => v.number ≠ 0)
      (EnumValue.flags 0 e.values) := by
  have hflags : List.Forall₂ EnumValue.IsFlag (EnumValue.asFlags 0 e.values) (EnumValue.flags 0 e.values) := by
    have hpairs := EnumValue.map_asFlags_eq 0 e.values
    rw [← List.forall₂_eq_eq_eq, List.forall₂_map_left_iff, List.forall₂_map_right_iff] at hpairs
    exact hpairs.imp fun v f heq => Prod.mk.inj heq
  have hvalues : (e.asFlags.values.filter fun v => v.number ≠ 0) = EnumValue.asFlags 0 e.values := by
    rw [asFlags, if_pos hmark, List.filter_cons_of_neg (by simp [EnumValue.emptySet]), List.filter_eq_self]
    intro v hv
    obtain ⟨f, hf, -, hnumber⟩ := exists_right_of_forall₂ hflags hv
    obtain ⟨hpos, -⟩ := EnumValue.room_flags hwidth f hf
    rw [hnumber, decide_eq_true_eq]
    omega
  rw [hvalues]
  exact hflags

namespace Generator

/-- A number that a storage type has room for is not cut. -/
theorem cutTo_of_lt {width : Scalar} {n : Nat} (h : n < width.capacity) : cutTo width n = n := by
  rw [cutTo, ← Int.natCast_emod, Int.toNat_natCast, Nat.mod_eq_of_lt h]

/-- What the flag type for an enum consists of. -/
theorem flagsOf_inv {width : Scalar} {e : EnumDef} {d : Declaration} {vs : List EnumValue}
    (hvs : (e.values.filter fun v => v.number ≠ 0) = vs) (h : (flagsOf width e).result = .ok d) :
    ∃ ident idents, Ident.ofName? e.name = some ident ∧ Ident.AreOf (vs.map EnumValue.name) idents ∧
      d = .flags ident width (idents.zip (vs.map fun v => cutTo width v.number))
        (vs.map fun v => (v.name, cutTo .uint64 v.number)) := by
  obtain ⟨ident, hident, h⟩ := Traced.bind_eq_ok.mp h
  obtain ⟨idents, hidents, h⟩ := Traced.bind_eq_ok.mp h
  rw [hvs] at hidents h
  cases h
  refine ⟨ident, idents, identOf_inv hident, ?_, rfl⟩
  rw [Ident.AreOf, List.forall₂_map_left_iff]
  exact (Traced.forall₂_of_each hidents).imp fun _ _ => identOf_inv

variable {vs : List EnumValue} {fs : List Flag}

/-- The constants for values that are flags are those of the flags. -/
theorem constants_of_flags {width : Scalar} (h : List.Forall₂ EnumValue.IsFlag vs fs)
    (hroom : ∀ f ∈ fs, f.value.toNat < width.capacity) {idents : List Ident}
    (hidents : Ident.AreOf (vs.map EnumValue.name) idents) :
    List.Forall₂ (fun f c => Ident.ofName? f.name = some c.1 ∧ c.2 = f.value.toNat) fs
      (idents.zip (vs.map fun v => cutTo width v.number)) := by
  induction h generalizing idents with
  | nil => cases hidents; exact .nil
  | cons hflag _ ih =>
      obtain ⟨hname, hnumber⟩ := hflag
      obtain ⟨hfirst, hroom⟩ := List.forall_mem_cons.mp hroom
      cases hidents with
      | cons hident hidents =>
          rw [List.map_cons, List.zip_cons_cons, hnumber, cutTo_of_lt hfirst]
          exact .cons ⟨hname ▸ hident, rfl⟩ (ih hroom hidents)

/-- The table for values that are flags lists the flags: each of their values has 64 bits. -/
theorem table_of_flags (h : List.Forall₂ EnumValue.IsFlag vs fs) :
    (vs.map fun v => (v.name, cutTo .uint64 v.number)) = fs.map fun f => (f.name, f.value.toNat) := by
  induction h with
  | nil => rfl
  | @cons v f vs fs hflag _ ih =>
      have hroom : f.value.toNat < Scalar.uint64.capacity := f.value.toNat_lt
      rw [List.map_cons, List.map_cons, ih, hflag.1, hflag.2, cutTo_of_lt hroom]

end Generator

/-- **The flag type for a marked enum is that of its entry in the report**: leaving out the empty set leaves
    the flags, and no number is cut. -/
theorem FlagSet.declaredBy_flagSet {e : EnumDef} {scope : String} {width : Scalar} {d : Declaration}
    (hmark : e.marksFlags = true) (hwidth : e.flagStorage (joinName scope e.name) = .ok width)
    (h : Generator.Declares (scope, e.asFlags) d) :
    (e.flagSet (joinName scope e.name) width).DeclaredBy d := by
  have hflags := EnumDef.flags_asFlags hmark (EnumDef.flagStorage_inv hwidth)
  have hdescribes := EnumDef.describes_flagSet hmark hwidth
  have hstorage : e.asFlags.storage = some width := hdescribes.width
  rw [Generator.Declares, Generator.enumOrFlagsOf, hstorage] at h
  obtain ⟨ident, idents, hident, hidents, rfl⟩ := Generator.flagsOf_inv rfl h
  have hname : Ident.ofName? e.name = some ident := hdescribes.name ▸ hident
  refine ⟨ident, _, ?_, Generator.constants_of_flags hflags hdescribes.room hidents, ?_⟩
  · show Ident.ofName? (lastSegment (joinName scope e.name)) = some ident
    rw [lastSegment_joinName _ (Ident.dot_notMem_of_ofName? hname)]
    exact hname
  · rw [Generator.table_of_flags hflags]
    rfl

-- ── Report, schema and accessors ─────────────────────────────────────────────────

/-- Lists that are related to one list are related to each other. -/
theorem forall₂_of_common {α β γ : Type} {R : α → β → Prop} {S : α → γ → Prop} {T : β → γ → Prop}
    {as : List α} {bs : List β} {cs : List γ} (hR : List.Forall₂ R as bs) (hS : List.Forall₂ S as cs)
    (hT : ∀ a ∈ as, ∀ b c, R a b → S a c → T b c) : List.Forall₂ T bs cs := by
  induction hR generalizing cs with
  | nil => cases hS; exact .nil
  | cons hab _ ih =>
      obtain ⟨ha, hT⟩ := List.forall_mem_cons.mp hT
      cases hS with
      | cons hac hS => exact .cons (ha _ _ hab hac) (ih hS hT)

/-- What is so of the members of the second list is so beside what relates them. -/
theorem forall₂_and_right {α β : Type} {R : α → β → Prop} {p : β → Prop} {as : List α} {bs : List β}
    (h : List.Forall₂ R as bs) (hp : ∀ b ∈ bs, p b) : List.Forall₂ (fun a b => R a b ∧ p b) as bs := by
  induction h with
  | nil => exact .nil
  | cons hab _ ih =>
      obtain ⟨hb, hp⟩ := List.forall_mem_cons.mp hp
      exact .cons ⟨hab, hb⟩ (ih hp)

/-- **The report, the lowered schema and the accessors describe the same sets of flags.** The report has an
    entry for each marked enum, in their order, which says what the enum has become, and one for each field
    that remembers a set of flags, in their order, whose set has an entry of its own. The flag types in the
    accessors are those of the entries, in their order, and the code of each is that of its entry. -/
theorem lower_report {source : String} {low : Lowered} (h : (lower source).result = .ok low) :
    ∃ s, Schema.parse source = .ok s ∧
      low.schema.enumsIn = s.enumsIn.map (fun x => (x.1, x.2.asFlags)) ∧
      List.Forall₂ (fun x set => set.Describes x.1 x.2 x.2.asFlags) s.markedEnums low.report.flagSets ∧
      List.Forall₂ (fun x r => r.Describes x.1 x.2)
        (low.schema.fieldsIn.filter fun x => x.2.flags.isSome) low.report.retyped ∧
      (∀ r ∈ low.report.retyped, ∃ set ∈ low.report.flagSets, set.fullName = r.flagSet ∧ set.width = r.width) ∧
      ∀ text, (accessorsOf source).result = .ok text →
        ∃ ds, low.schema.declarations.result = .ok ds ∧
          text = Schema.accessorsHeader ++ CodeTree.renderAll (allCode ds) ++ "\n" ∧
          List.Forall₂ (fun set d => set.DeclaredBy d ∧ ∃ here, At ds here d ∧
              ∃ c : FlagCode, c.StandsIn (allCode ds) here ∧ set.WrittenBy c)
            low.report.flagSets (allFlagTypes ds) := by
  obtain ⟨s, hparse, hlow⟩ := lower_inv h
  have hread := Schema.written_parse hparse
  have henums : ∀ x ∈ s.enumsIn, x.2.storage = none := fun x hx => (hread.of_enumsIn x hx).storage
  have hfields : ∀ x ∈ s.fieldsIn, x.2.flags = none := fun x hx => (hread.of_fieldsIn x hx).flags
  obtain ⟨hsets, -⟩ := Schema.report_lower hlow
  have hmarks : ∀ x ∈ s.markedEnums, x.2.marksFlags = true := fun x hx => (List.mem_filter.mp hx).2
  refine ⟨s, hparse, Schema.enumsIn_lower hlow, ?_, Schema.describes_retyped hfields hlow,
    Schema.exists_flagSet_of_retyped henums hlow, fun text htext => ?_⟩
  · have hsame : List.Forall₂ Eq s.markedEnums s.markedEnums := List.forall₂_same.mpr fun _ _ => rfl
    refine forall₂_of_common hsame hsets fun x hx y set heq hset => ?_
    obtain ⟨width, hwidth, rfl⟩ := hset
    exact heq ▸ EnumDef.describes_flagSet (hmarks x hx) hwidth
  · obtain ⟨low', ds, hlow', hds, htext⟩ := accessorsOf_inv htext
    rw [h] at hlow'
    cases hlow'
    have htypes := Schema.flagTypes_declarations hds
    rw [Generator.stored, Schema.storedEnums_lower henums hlow, List.forall₂_map_left_iff] at htypes
    have hplaced : List.Forall₂ (fun x d => Generator.Declares (x.1, x.2.asFlags) d ∧ ∃ here, At ds here d)
        s.markedEnums (allFlagTypes ds) :=
      forall₂_and_right htypes fun d hd => exists_at_of_allFlagTypes ds hd
    refine ⟨ds, hds, htext, forall₂_of_common hsets hplaced fun x hx set d hset hd => ?_⟩
    obtain ⟨width, hwidth, rfl⟩ := hset
    obtain ⟨hdeclares, here, hat⟩ := hd
    have hdeclared := FlagSet.declaredBy_flagSet (hmarks x hx) hwidth hdeclares
    have hspelled := Schema.spelled_parse hparse x (List.mem_filter.mp hx).1
    exact ⟨hdeclared, here, hat, hdeclared.exists_writtenBy hat
      (Scalar.stored_of_forFlagCount? (EnumDef.flagStorage_inv hwidth)) (EnumValue.isPlainName_flags hspelled)⟩

/-- The report of a schema with a set of flags, a field that holds one and a map of such fields. -/
theorem lower_report_hart :
    ∃ low ds, (lower hart).result = .ok low ∧ low.schema.declarations.result = .ok ds ∧
      low.report.flagSets = [⟨"riscv.Hart.Mode", .uint32, [⟨"M", 1⟩]⟩] ∧
      low.report.retyped = [⟨"riscv.Hart", "mode", "riscv.Hart.Mode", .uint32⟩,
        ⟨"riscv.Hart", "modes", "riscv.Hart.Mode", .uint32⟩] ∧
      List.Forall₂ (fun x r => r.Describes x.1 x.2)
        (low.schema.fieldsIn.filter fun x => x.2.flags.isSome) low.report.retyped ∧
      List.Forall₂ (fun set d => set.DeclaredBy d ∧ ∃ here, At ds here d ∧
          ∃ c : FlagCode, c.StandsIn (allCode ds) here ∧ set.WrittenBy c)
        low.report.flagSets (allFlagTypes ds) := by
  obtain ⟨text, htext⟩ := accessorsOf_hart
  obtain ⟨low, h, -, hsets, hfields, -⟩ := lower_hart_computed
  obtain ⟨s, -, -, -, hretyped, -, haccessors⟩ := lower_report h
  obtain ⟨ds, hds, -, htypes⟩ := haccessors text htext
  exact ⟨low, ds, h, hds, hsets, hfields, hretyped, htypes⟩

end FlagSchema
