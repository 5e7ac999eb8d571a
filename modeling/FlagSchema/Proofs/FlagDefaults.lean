import FlagSchema.Proofs.Reordering

/-!
# Defaults that name a flag

A field that is retyped holds a number, and so does its default. The number is looked up by the full name of the
set of flags in the report, while the lowered enum is what the name of the type refers to; where no two
definitions have one name, these are the same set of flags.

* **`Setting.Numbered`**: the first default of a list of options has become the number of the value that it names.
* **`Schema.exists_numbered`**: so it has for a field whose type is a set of flags.
* **`lower_defaults`**: in a lowered schema and in its text, defaults have the numbers of their flags, and all
  other options stay.
-/

namespace FlagSchema

-- ── Numbers of flags ─────────────────────────────────────────────────────────────

/-- Among values as flags, the first with a name has the value of the first flag with that name. -/
theorem EnumValue.find?_asFlags (name : String) (index : Nat) (vs : List EnumValue) :
    ((asFlags index vs).find? fun v => v.name == name).map EnumValue.number =
      ((flags index vs).find? fun f => f.name == name).map fun f => (f.value.toNat : Int) := by
  induction vs generalizing index with
  | nil => rfl
  | cons v vs ih =>
      rw [asFlags, flags, List.find?_cons, List.find?_cons]
      cases v.name == name with
      | true => rfl
      | false => exact ih (index + 1)

/-- A number that a constant has as a default is that of the first value that it names in the set of flags. -/
theorem EnumDef.find?_of_flagNumber? {e : EnumDef} (hmark : e.marksFlags = true) {c : Constant} {n : UInt64}
    (h : c.flagNumber? (EnumValue.flags 0 e.values) = some n) :
    ∃ name v, c = .ident name ∧ (e.asFlags.values.find? fun v => v.name == name) = some v ∧
      v.number = n.toNat ∧ (name = emptySetName → n = 0) := by
  have hvalues : e.asFlags.values = .emptySet :: EnumValue.asFlags 0 e.values := by
    rw [asFlags, if_pos hmark]
  unfold Constant.flagNumber? at h
  split at h
  · next name =>
      split at h
      · next hname =>
          cases h
          subst hname
          exact ⟨_, .emptySet, rfl, by rw [hvalues]; rfl, rfl, fun _ => rfl⟩
      · next hname =>
          have hempty : (EnumValue.emptySet.name == name) = false := beq_false_of_ne (Ne.symm hname)
          obtain ⟨flag, hflag, rfl⟩ := Option.map_eq_some_iff.mp h
          have hfind := EnumValue.find?_asFlags name 0 e.values
          rw [hflag] at hfind
          obtain ⟨v, hv, hnumber⟩ := Option.map_eq_some_iff.mp hfind
          refine ⟨name, v, rfl, ?_, hnumber, fun hnone => absurd hnone hname⟩
          rw [hvalues, List.find?_cons, hempty]
          exact hv
  · cases h

-- ── Options with numbers ─────────────────────────────────────────────────────────

/-- The first default among options, if there is one, names a value of an enum, and has become the number of that
    value, in the options as by an edit of the text. The other options are the same. -/
inductive Setting.Numbered (values : List EnumValue) (edits : List Edit) : List Setting → List Setting → Prop where
  | stays {xs : List Setting} (none : NoDefault xs) : Numbered values edits xs xs
  | number {front back : List Setting} {d : Setting} {name : String} {v : EnumValue} (first : NoDefault front)
      (default : d.name = "default") (ident : d.value = .ident name)
      (value : (values.find? fun v => v.name == name) = some v) (zero : name = "None" → v.number = 0)
      (edit : ⟨d.span, "default = " ++ toString v.number⟩ ∈ edits) :
      Numbered values edits (front ++ d :: back) (front ++ { d with value := .int v.number } :: back)

/-- Without a default in front, the first default is replaced. -/
theorem Setting.withDefault_first {n : UInt64} {front back : List Setting} {d : Setting} (h : NoDefault front)
    (hd : d.name = defaultOptionName) :
    withDefault n (front ++ d :: back) = front ++ { d with value := .int n.toNat } :: back := by
  rw [withDefault_append h, withDefault, if_pos hd]

namespace Field

variable {f : Field}

theorem noDefault_of_default? (h : f.default? = none) : Setting.NoDefault f.settings := by
  intro x hx hname
  have hne := List.find?_eq_none.mp h x hx
  exact hne (beq_iff_eq.mpr hname)

/-- The first default of a field splits its options. -/
theorem default?_inv {d : Setting} (h : f.default? = some d) :
    d.name = defaultOptionName ∧ ∃ front back, f.settings = front ++ d :: back ∧ Setting.NoDefault front := by
  obtain ⟨hname, front, back, hsettings, hfront⟩ := List.find?_eq_some_iff_append.mp h
  refine ⟨beq_iff_eq.mp hname, front, back, hsettings, fun x hx hdefault => ?_⟩
  have hx' := hfront x hx
  rw [hdefault, beq_self_eq_true] at hx'
  cases hx'

/-- A field that is retyped for a marked enum has the number of the value that its default names, if the flags of
    the enum are those that are looked up. -/
theorem numbered_retyped {sets : List FlagSet} {message : String} {type : FlagTypeRef} {number : Option UInt64}
    {edits : List Edit} {e : EnumDef} (hmark : e.marksFlags = true)
    (hflags : (FlagSet.find? sets type.fullName).map FlagSet.flags = some (EnumValue.flags 0 e.values))
    (hnumber : f.defaultNumber sets message type = .ok number)
    (hedits : ∀ edit ∈ f.retypeEdits type number, edit ∈ edits) :
    Setting.Numbered e.asFlags.values edits f.settings (f.retyped type number).settings := by
  cases hdefault : f.default? with
  | none =>
      have hnone := noDefault_of_default? hdefault
      have hsettings : (f.retyped type number).settings = f.settings := by
        cases number with
        | none => rfl
        | some n => exact Setting.withDefault_eq_self hnone
      rw [hsettings]
      exact .stays hnone
  | some d =>
      obtain ⟨hd, front, back, hsettings, hfront⟩ := default?_inv hdefault
      rw [defaultNumber, hdefault, hflags] at hnumber
      dsimp only at hnumber
      split at hnumber
      · next n hn =>
          cases hnumber
          obtain ⟨name, v, hident, hv, hvalue, hzero⟩ := EnumDef.find?_of_flagNumber? hmark hn
          have hnow : (f.retyped type (some n)).settings = front ++ { d with value := .int v.number } :: back := by
            rw [hvalue, ← Setting.withDefault_first hfront hd, ← hsettings]
            rfl
          rw [hnow, hsettings]
          refine .number hfront hd hident hv (fun hname => ?_) (hedits _ (List.mem_cons_of_mem _ ?_))
          · rw [hvalue, hzero hname]
            rfl
          · rw [hdefault, hvalue]
            exact List.mem_singleton.mpr rfl
      · cases hnumber

end Field

namespace Schema

variable {s : Schema} {source : List Char} {low : Lowered}

/-- Where names are distinct, a marked enum is found by its full name. -/
theorem DistinctNames.markedEnum?_eq (h : s.DistinctNames) {x : String × EnumDef} (hx : x ∈ s.markedEnums) :
    s.markedEnum? (joinName x.1 x.2.name) = some x := by
  rw [markedEnum?]
  cases hfind : s.markedEnums.find? fun y => joinName y.1 y.2.name == joinName x.1 x.2.name with
  | none => exact absurd (beq_self_eq_true _) (List.find?_eq_none.mp hfind x hx)
  | some y =>
      have hname := List.find?_some hfind
      rw [List.inj_on_of_nodup_map h.markedEnums (List.mem_of_find?_eq_some hfind) hx (beq_iff_eq.mp hname)]

/-- The edits of a field are among those of all fields. -/
theorem mem_retypings {R : String × Field × FlagTypeRef → Option UInt64 → Prop}
    {fields : List (String × Field × FlagTypeRef)} {numbers : List (Option UInt64)}
    (h : List.Forall₂ R fields numbers) {x : String × Field × FlagTypeRef} (hx : x ∈ fields) :
    ∃ number, R x number ∧ ∀ e ∈ x.2.1.retypeEdits x.2.2 number, e ∈ retypings fields numbers := by
  induction h with
  | nil => cases hx
  | @cons y number fields numbers hy _ ih =>
      have hcons : retypings (y :: fields) (number :: numbers) =
          y.2.1.retypeEdits y.2.2 number ++ retypings fields numbers := rfl
      rw [hcons]
      rcases List.mem_cons.mp hx with rfl | hx
      · exact ⟨number, hy, fun e he => List.mem_append_left _ he⟩
      · obtain ⟨number', hx', hedits⟩ := ih hx
        exact ⟨number', hx', fun e he => List.mem_append_right _ (hedits e he)⟩

/-- **The default of a field whose type is a set of flags has the number of the value that it names** in the enum
    that the type refers to. -/
theorem exists_numbered (hread : ∀ x ∈ s.enumsIn, x.2.storage = none) (hs : s.DistinctNames)
    (h : (s.lower source).result = .ok low) {x : String × Field} (hx : x ∈ s.fieldsIn) {fullName : String}
    {width : Scalar} (hnames : x.2.NamesFlags (Symbols.ofSchema low.schema) x.1 fullName width) :
    ∃ e ∈ low.schema.enumsIn, joinName e.1 e.2.name = fullName ∧ e.2.storage = some width ∧
      Setting.Numbered e.2.values low.edits x.2.settings
        (x.2.asFlags (Symbols.ofSchema low.schema) low.report.flagSets x.1).settings := by
  obtain ⟨-, hschema, -, numbers, hnumbers, hedits⟩ := lower_inv h
  have hsymbols : Symbols.ofSchema (s.mapEnums EnumDef.asFlags) = Symbols.ofSchema low.schema := by
    rw [hschema, ofSchema_mapFields]
  rw [hsymbols, flagFields, fieldsIn_mapEnums] at hnumbers hedits
  obtain ⟨written, htype⟩ := hnames.flagType?
  have hmem : (x.1, x.2, (⟨written, fullName, width⟩ : FlagTypeRef)) ∈ s.fieldsIn.filterMap fun x =>
      (x.2.flagType? (Symbols.ofSchema low.schema) x.1).map (x.1, x.2, ·) :=
    List.mem_filterMap.mpr ⟨x, hx, by rw [htype]; rfl⟩
  obtain ⟨number, hnumber, hretype⟩ := mem_retypings hnumbers hmem
  -- The enum that the type refers to is the only one with the name by which the flags are looked up.
  obtain ⟨y, hy, hyname, hystorage⟩ := exists_markedEnum hread (hsymbols ▸ (Field.flagType?_inv htype).2)
  obtain ⟨hyenum, hmark⟩ := List.mem_filter.mp hy
  have hmarked : s.markedEnum? fullName = some y :=
    (congrArg s.markedEnum? hyname).symm.trans (hs.markedEnum?_eq hy)
  have hreports : s.Reports low.report.flagSets := by
    refine (report_lower h).1.imp ?_
    rintro _ _ ⟨width, -, hset⟩
    exact ⟨width, hset⟩
  have hflags := hreports.flags_find? fullName
  rw [hmarked] at hflags
  refine ⟨(y.1, y.2.asFlags), ?_, ?_, hystorage, ?_⟩
  · rw [enumsIn_lower h]
    exact List.mem_map_of_mem hyenum
  · rw [EnumDef.name_asFlags, hyname]
  · rw [Field.asFlags_of_some htype hnumber]
    refine Field.numbered_retyped hmark hflags hnumber fun edit hedit => ?_
    rw [hedits]
    exact List.mem_append_right _ (hretype edit hedit)

end Schema

/-- **Defaults keep their meaning.** If a source is lowered in which no two messages or enums have one full name,
    the first default of every field whose type refers to a set of flags has become the number of the value that
    it names in the lowered enum; the other options of the field, and every field of another type, are as they
    were. The new text is the old one but for the edits, and it is read as the fields with these options. -/
theorem lower_defaults {source : String} {low : Lowered} (h : (lower source).result = .ok low) :
    ∃ s g, Schema.parse source = .ok s ∧ Schema.parse low.text = .ok g ∧
      (s.DistinctNames →
        List.Forall₂ (fun x y => y.1 = x.1 ∧
            (∀ fullName width, x.2.NamesFlags (Symbols.ofSchema low.schema) x.1 fullName width →
              y.2.flags = some fullName ∧
              ∃ e ∈ low.schema.enumsIn, joinName e.1 e.2.name = fullName ∧ e.2.storage = some width ∧
                Setting.Numbered e.2.values low.edits x.2.settings y.2.settings) ∧
            ((∀ fullName width, ¬ x.2.NamesFlags (Symbols.ofSchema low.schema) x.1 fullName width) →
              y.2 = x.2))
          s.fieldsIn low.schema.fieldsIn) ∧
      List.Forall₂ (fun y z => z.1 = y.1 ∧ z.2.bare = y.2.bare) low.schema.fieldsIn g.fieldsIn ∧
      ∃ es, low.edits.Perm es ∧ Edit.Windows 0 es source.toList low.text.toList := by
  obtain ⟨s, ps, tail, hparse, hlow, -, -, -, -, -, -, hperm, hwindows, -⟩ := exists_pieces h
  obtain ⟨g, hg, hbare⟩ := exists_parse h
  have hwritten := Schema.written_parse hparse
  have hread : ∀ x ∈ s.enumsIn, x.2.storage = none := fun x hx => (hwritten.of_enumsIn x hx).storage
  refine ⟨s, g, hparse, hg, fun hs => ?_, ?_, _, hperm, hwindows⟩
  · rw [Schema.fieldsIn_lower hlow, List.forall₂_map_right_iff, List.forall₂_same]
    intro x hx
    refine ⟨rfl, fun fullName width hnames => ⟨?_, ?_⟩, fun hnames => ?_⟩
    · obtain ⟨written, htype⟩ := hnames.flagType?
      obtain ⟨default, hdefault⟩ := Schema.defaults_lower hlow x hx _ htype
      rw [Field.asFlags_of_some htype hdefault]
      rfl
    · exact Schema.exists_numbered hread hs hlow hx hnames
    · exact Field.asFlags_of_none (Field.flagType?_eq_none_iff.mpr hnames)
  · have hfields := congrArg Schema.fieldsIn hbare
    rw [Schema.fieldsIn_bare, Schema.fieldsIn_bare, ← List.forall₂_eq_eq_eq, List.forall₂_map_left_iff,
      List.forall₂_map_right_iff] at hfields
    refine hfields.flip.imp fun y z hyz => ?_
    exact Prod.mk.inj hyz

/-- Two defaults that name flags, one behind another option and in front of a second default, and a default that
    is a number. -/
def flagDefaults : String :=
  "package riscv;\n" ++
  "enum Mode \x7b option (bitmap) = true; M = 4; S = 3; \x7d\n" ++
  "message Hart \x7b\n" ++
  "  required Mode mode = 1 [deprecated = true, default = S, default = M];\n" ++
  "  optional .riscv.Mode last = 2 [default = None];\n" ++
  "  optional int32 cause = 3 [default = 7];\n" ++
  "\x7d\n"

/-- The first defaults have become the numbers of the flags, and everything else stays. -/
theorem lower_defaults_flagDefaults :
    ∃ low s, (lower flagDefaults).result = .ok low ∧ Schema.parse flagDefaults = .ok s ∧ s.DistinctNames ∧
      (low.schema.fieldsIn.map fun y => y.2.settings.map fun d => (d.name, d.value)) =
        [[("deprecated", .bool true), ("default", .int 2), ("default", .ident "M")], [("default", .int 0)],
          [("default", .int 7)]] ∧
      List.Forall₂ (fun x y => ∀ fullName width,
          x.2.NamesFlags (Symbols.ofSchema low.schema) x.1 fullName width →
            ∃ e ∈ low.schema.enumsIn, joinName e.1 e.2.name = fullName ∧
              Setting.Numbered e.2.values low.edits x.2.settings y.2.settings)
        s.fieldsIn low.schema.fieldsIn := by
  have hread : (Schema.parse flagDefaults).toOption.map (fun s => s.definitions.map Prod.fst) =
      some ["riscv.Mode", "riscv.Hart"] := by
    rw [Schema.parse_eq]
    delta flagDefaults
    simp only [String.toList_append, String.reduceToList]
    decide +kernel
  have hlowered : (lower flagDefaults).result.toOption.map (fun low => low.schema.fieldsIn.map fun y =>
      y.2.settings.map fun d => (d.name, d.value)) =
        some [[("deprecated", .bool true), ("default", .int 2), ("default", .ident "M")], [("default", .int 0)],
          [("default", .int 7)]] := by
    rw [lower_eq]
    delta flagDefaults
    simp only [String.toList_append, String.reduceToList]
    decide +kernel
  cases h : (lower flagDefaults).result with
  | error e => rw [h] at hlowered; cases hlowered
  | ok low =>
      obtain ⟨s, g, hparse, -, hfields, -⟩ := lower_defaults h
      rw [hparse] at hread
      rw [h] at hlowered
      have hnames : s.definitions.map Prod.fst = ["riscv.Mode", "riscv.Hart"] := Option.some.inj hread
      have hs : s.DistinctNames := by
        rw [Schema.DistinctNames, hnames]
        decide
      refine ⟨low, s, rfl, hparse, hs, Option.some.inj hlowered, (hfields hs).imp ?_⟩
      rintro x y ⟨-, hnumbered, -⟩ fullName width hnames
      obtain ⟨-, e, he, hname, -, hsettings⟩ := hnumbered fullName width hnames
      exact ⟨e, he, hname, hsettings⟩

end FlagSchema
