import FlagSchema.Proofs.Erasure
import FlagSchema.Proofs.FieldTypes

/-!
# Lowered texts

What can be said of the new text of a source that is lowered.

* **`parse_lower`**: it declares what the new schema says.
* **`edits_lower`**: it differs from the source in the places of its edits only.
* **`comments_lower`**: it has the comments of the source, but for those that go with what is dropped and
  those that are quoted.
* **`lower_lower`**: lowering it again changes nothing.
-/

namespace FlagSchema

open Token Reader Piece

variable {source : String} {low : Lowered}

-- ── Reading the new text ─────────────────────────────────────────────────────────

/-- **The new text declares what the new schema says**, places, comments and the traces of lowering
    apart. -/
theorem parse_lower (h : (lower source).result = .ok low) :
    ∃ g, Schema.parse low.text = .ok g ∧ g.bare = low.schema.bare :=
  exists_parse h

theorem parse_lower_hart :
    ∃ low, (lower hart).result = .ok low ∧ ∃ g, Schema.parse low.text = .ok g ∧ g.bare = low.schema.bare := by
  obtain ⟨low, h, -⟩ := lower_hart
  exact ⟨low, h, parse_lower h⟩

-- ── Schemas without marked enums ─────────────────────────────────────────────────

theorem EnumDef.marksFlags_bare (e : EnumDef) : e.bare.marksFlags = e.marksFlags := by
  show (e.settings.map Setting.bare).any Setting.marksFlags = _
  rw [List.any_map]
  rfl

/-- No marker is left on an enum that has become a set of flags. -/
theorem EnumDef.marksFlags_asFlags (e : EnumDef) : e.asFlags.marksFlags = false := by
  unfold asFlags
  split
  · refine List.any_eq_false.mpr fun x hx => ?_
    have hkept := (List.mem_filter.mp hx).2
    intro hmarks
    rw [Setting.isKept_eq_false hmarks] at hkept
    cases hkept
  · next h => exact Bool.eq_false_of_not_eq_true h

namespace Schema

variable {s g : Schema}

theorem markedEnums_eq_nil_iff : s.markedEnums = [] ↔ ∀ x ∈ s.enumsIn, x.2.marksFlags = false := by
  rw [markedEnums, List.filter_eq_nil_iff]
  exact forall₂_congr fun x _ => iff_of_eq (Bool.not_eq_true x.2.marksFlags)

/-- Whether enums are marked is a matter of what a schema says. -/
theorem markedEnums_of_bare (h : g.bare = s.bare) (hs : s.markedEnums = []) : g.markedEnums = [] := by
  have henums : g.enumsIn.map (fun x => x.2.bare) = s.enumsIn.map fun x => x.2.bare := by
    have hbare := congrArg (fun t => t.enumsIn.map Prod.snd) h
    simpa only [enumsIn_bare, List.map_map, Function.comp_def] using hbare
  rw [markedEnums_eq_nil_iff] at hs ⊢
  intro x hx
  have hmem : x.2.bare ∈ s.enumsIn.map fun x => x.2.bare := henums ▸ List.mem_map_of_mem hx
  obtain ⟨y, hy, hxy⟩ := List.mem_map.mp hmem
  rw [← EnumDef.marksFlags_bare, ← hxy, EnumDef.marksFlags_bare]
  exact hs y hy

/-- A schema that is lowered has no marked enum left. -/
theorem markedEnums_mapFields_asFlags (f : String → Field → Field) (s : Schema) :
    ((s.mapEnums EnumDef.asFlags).mapFields f).markedEnums = [] := by
  rw [markedEnums_eq_nil_iff, enumsIn_mapFields, enumsIn_mapEnums]
  intro x hx
  obtain ⟨y, -, rfl⟩ := List.mem_map.mp hx
  exact EnumDef.marksFlags_asFlags y.2

/-- Without an enum that is stored as a set of flags, no field names one. -/
theorem flagType?_of_storage (hs : ∀ x ∈ s.enumsIn, x.2.storage = none) (message : String) (f : Field) :
    f.flagType? (Symbols.ofSchema s) message = none := by
  refine Field.flagType?_eq_none_iff.mpr ?_
  rintro fullName width ⟨written, -, hresolve⟩
  obtain ⟨t, ht, hdefinition⟩ := exists_typeNamed hresolve
  cases htype : t.type with
  | message m =>
      rw [PlacedType.definition, htype] at hdefinition
      cases hdefinition
  | enum e =>
      have hstorage := hs _ (mem_enumsIn_of_typesIn (typeNamed?_inv ht).1 htype)
      rw [PlacedType.definition, htype, TypeDef.definition, EnumDef.definition, hstorage] at hdefinition
      cases hdefinition

/-- **A source without marked enums is lowered to itself.** -/
theorem lower_of_unmarked (hparse : parse source = .ok s) (hs : s.markedEnums = []) :
    (FlagSchema.lower source).result
      = .ok { text := source, schema := s, report := { package := s.package }, edits := [] } := by
  have hmarks := markedEnums_eq_nil_iff.mp hs
  have hread := (written_parse hparse).of_enumsIn
  have henums : s.mapEnums EnumDef.asFlags = s := mapEnums_eq_self fun x hx => by
    rw [EnumDef.asFlags, hmarks x hx]
    rfl
  have htypes := flagType?_of_storage fun x hx => (hread x hx).storage
  have hfields : s.flagFields (Symbols.ofSchema s) = [] := by
    refine List.filterMap_eq_nil_iff.mpr fun x _ => ?_
    show (x.2.flagType? _ x.1).map _ = none
    rw [htypes]
    rfl
  have hschema : s.mapFields (Field.asFlags (Symbols.ofSchema s) []) = s :=
    mapFields_eq_self fun x _ => Field.asFlags_of_none (htypes x.1 x.2)
  have hedits : Edit.apply source.toList [] = source.toList := by
    rw [Edit.apply, Edit.sorted, List.mergeSort_nil]
    rfl
  rw [result_lower hparse, Schema.lower, hs, henums]
  dsimp only
  rw [hfields]
  show Except.ok ({ text   := String.ofList (Edit.apply source.toList [])
                    schema := s.mapFields (Field.asFlags (Symbols.ofSchema s) [])
                    report := { package := s.package }
                    edits  := [] } : Lowered) = _
  rw [hedits, hschema, String.ofList_toList]

end Schema

-- ── Lowering again ───────────────────────────────────────────────────────────────

/-- **Lowering a lowered text changes nothing**: the text stays, and there is nothing to report. -/
theorem lower_lower (h : (lower source).result = .ok low) :
    ∃ again, (lower low.text).result = .ok again ∧ again.text = low.text ∧
      again.report = { package := low.report.package, flagSets := [], retyped := [] } := by
  obtain ⟨g, hg, hbare⟩ := exists_parse h
  obtain ⟨s, -, hlow⟩ := lower_inv h
  obtain ⟨-, hschema, hpackage, -⟩ := Schema.lower_inv hlow
  have hmarked : low.schema.markedEnums = [] := by
    rw [hschema]
    exact Schema.markedEnums_mapFields_asFlags ..
  have hagain := Schema.lower_of_unmarked hg (Schema.markedEnums_of_bare hbare hmarked)
  refine ⟨_, hagain, rfl, ?_⟩
  have hsame : g.package = s.package := by
    show g.bare.package = s.package
    rw [hbare, hschema]
    rfl
  rw [hsame, hpackage]

theorem lower_lower_hart :
    ∃ low, (lower hart).result = .ok low ∧ ∃ again, (lower low.text).result = .ok again ∧
      again.text = low.text ∧
      again.report = { package := low.report.package, flagSets := [], retyped := [] } := by
  obtain ⟨low, h, -⟩ := lower_hart
  exact ⟨low, h, lower_lower h⟩

-- ── Edits ────────────────────────────────────────────────────────────────────────

/-- Where a field says that they are, there are the name of its set of flags and, from its name to that of
    a flag, its default. -/
structure Field.NamesFlagsAt (source : List Char) (type : FlagTypeRef) (f : Field) : Prop where
  type : Text.slice source f.typeSpan = type.written.toList
  default : ∀ d, f.default? = some d → ∃ name rest, d.value = .ident name ∧
    Text.slice source d.span = defaultOptionName.toList ++ rest ∧ name.toList <:+ Text.slice source d.span

/-- What the edits of a lowered source are, and how they lead to the new text. -/
structure Lowered.Edited (source : List Char) (s : Schema) (low : Lowered) : Prop where
  /-- One edit gives each marked enum its new body, one gives each field that names a set of flags its
      new type, and one gives the default of such a field its number. -/
  edits : ∃ numbers,
    List.Forall₂ (fun x number => x.2.1.defaultNumber low.report.flagSets x.1 x.2.2 = .ok number)
      (s.flagFields (Symbols.ofSchema low.schema)) numbers ∧
    low.edits = s.markedEnums.map (fun x => x.2.bodyEdit source) ++
      Schema.retypings (s.flagFields (Symbols.ofSchema low.schema)) numbers
  /-- The span of a body goes from an opening brace to a closing one. -/
  bodies : ∀ x ∈ s.markedEnums,
    Text.slice source x.2.opening = ['\x7b'] ∧ Text.slice source x.2.closing = ['\x7d']
  /-- The other spans are those of the names of sets of flags and of defaults. -/
  fields : ∀ x ∈ s.flagFields (Symbols.ofSchema low.schema), x.2.1.NamesFlagsAt source x.2.2
  /-- No span is empty, and all are made of characters of the source. -/
  inside : ∀ e ∈ low.edits, ∃ before old after, source = before ++ old ++ after ∧ old ≠ [] ∧
    e.span = ⟨Text.byteSize before, Text.byteSize before + Text.byteSize old⟩
  /-- No two spans overlap. -/
  disjoint : low.edits.Pairwise fun a b => a.span.stop ≤ b.span.start ∨ b.span.stop ≤ a.span.start
  /-- In order, the spans are all in which the new text differs from the source. -/
  windows : ∃ es, low.edits.Perm es ∧ Edit.Windows 0 es source low.text.toList

/-- The type and the default of a field that names a set of flags are where it says. -/
theorem Field.Written.namesFlagsAt {cs : List Char} {symbols : Symbols} {sets : List FlagSet}
    {message : String} {f : Field} {type : FlagTypeRef} {number : Option UInt64} (hf : f.Written cs)
    (htype : f.flagType? symbols message = some type)
    (hnumber : f.defaultNumber sets message type = .ok number) : f.NamesFlagsAt cs type where
  type := by
    obtain ⟨name, htarget, hslice⟩ := hf.type
    rw [(flagType?_inv htype).1] at htarget
    unfold TypeRef.ofName at htarget
    split at htarget
    · cases htarget
    · cases htarget
      exact hslice
  default := by
    intro d hd
    obtain ⟨rest, hslice, hsuffix⟩ := hf.default d hd
    cases number with
    | none =>
        rw [defaultNumber, hd] at hnumber
        dsimp only at hnumber
        split at hnumber <;> cases hnumber
    | some n =>
        obtain ⟨name, hvalue⟩ := ident_of_defaultNumber hnumber n d rfl hd
        exact ⟨name, rest, hvalue, hslice, hsuffix name hvalue⟩

/-- **A lowered text differs from its source in the places of its edits only**, and these are one for each
    marked enum, one for each field that names a set of flags and one for the default of such a field.
    Without a marked enum it does not differ at all. -/
theorem edits_lower (h : (lower source).result = .ok low) :
    ∃ s, Schema.parse source = .ok s ∧ low.Edited source.toList s ∧
      (s.markedEnums = [] → low.text = source) := by
  obtain ⟨s, ps, tail, hparse, hlow, -, -, -, -, -, -, hperm, hwindows, -⟩ := exists_pieces h
  obtain ⟨-, hschema, -, numbers, hnumbers, hedits⟩ := Schema.lower_inv hlow
  have hsymbols : Symbols.ofSchema (s.mapEnums EnumDef.asFlags) = Symbols.ofSchema low.schema := by
    rw [hschema, Schema.ofSchema_mapFields]
  have hfields : (s.mapEnums EnumDef.asFlags).flagFields (Symbols.ofSchema low.schema)
      = s.flagFields (Symbols.ofSchema low.schema) := by
    rw [Schema.flagFields, Schema.fieldsIn_mapEnums, Schema.flagFields]
  rw [hsymbols, hfields] at hnumbers hedits
  have hread := Schema.written_parse hparse
  refine ⟨s, hparse, ⟨⟨numbers, hnumbers, hedits⟩, fun x hx => ?_, fun x hx => ?_, fun e he => ?_, ?_,
    ⟨_, hperm, hwindows⟩⟩, fun hnone => ?_⟩
  · have he := hread.of_enumsIn x (List.mem_of_mem_filter hx)
    exact ⟨he.opening, he.closing⟩
  · obtain ⟨number, -, hnumber⟩ := exists_right_of_forall₂ hnumbers hx
    obtain ⟨y, hy, hxy⟩ := List.mem_filterMap.mp hx
    obtain ⟨type, htype, rfl⟩ := Option.map_eq_some_iff.mp hxy
    exact (hread.of_fieldsIn y hy).namesFlagsAt htype hnumber
  · have he' := hperm.subset he
    obtain ⟨before, old, after, hsource, hstart, hstop⟩ := hwindows.inside e he'
    have hlt := (hwindows.start_le e he').2
    refine ⟨before, old, after, hsource, ?_, ?_⟩
    · rintro rfl
      exact absurd hlt (by rw [hstop]; exact Nat.lt_irrefl _)
    · rw [Nat.zero_add] at hstart
      rw [← hstart, ← hstop]
  · refine (hperm.pairwise_iff fun hab => hab.symm).mpr ?_
    exact hwindows.disjoint.imp Or.inl
  · have hsame := Schema.lower_of_unmarked hparse hnone
    rw [h] at hsame
    cases hsame
    rfl

theorem edits_lower_hart :
    ∃ low, (lower hart).result = .ok low ∧ low.edits.length = 4 ∧
      ∃ s, Schema.parse hart = .ok s ∧ low.Edited hart.toList s := by
  obtain ⟨low, h, hlength⟩ := lower_hart
  obtain ⟨s, hparse, hedited, -⟩ := edits_lower h
  exact ⟨low, h, hlength, s, hparse, hedited⟩

-- ── Comments ─────────────────────────────────────────────────────────────────────

/-- The comments inside the default of a field. -/
def Field.defaultComments (source : List Char) (f : Field) : Multiset String :=
  (f.default?.map fun d => Text.comments (Text.slice source d.span)).getD 0

/-- A default that becomes a number takes its comments along. -/
theorem Field.gone_retypeChange (cs : List Char) {sets : List FlagSet} {message : String}
    {type : FlagTypeRef} {f : Field} {number : Option UInt64}
    (h : f.defaultNumber sets message type = .ok number) :
    (f.retypeChange cs type number).gone = f.defaultComments cs ∧
      (f.retypeChange cs type number).twice = 0 := by
  rw [retypeChange, Change.gone_add, Change.twice_add, zero_add, zero_add, defaultComments]
  cases hd : f.default? with
  | none =>
      rw [defaultChange_of_none hd]
      exact ⟨rfl, rfl⟩
  | some d =>
      cases number with
      | some n =>
          rw [defaultChange_some hd]
          exact ⟨rfl, rfl⟩
      | none =>
          rw [defaultNumber, hd] at h
          dsimp only at h
          split at h <;> cases h

/-- What becomes of the comments in enums: those in marked ones. -/
theorem sum_flagsChange_enums (cs : List Char) (xs : List (String × EnumDef)) :
    Change.gone (xs.map fun x => x.2.flagsChange cs).sum
        = ((xs.filter fun x => x.2.marksFlags).map fun x => x.2.dropped).sum ∧
      Change.twice (xs.map fun x => x.2.flagsChange cs).sum
        = ((xs.filter fun x => x.2.marksFlags).map fun x => x.2.quoted cs).sum := by
  induction xs with
  | nil => exact ⟨rfl, rfl⟩
  | cons x xs ih =>
      rw [List.map_cons, List.sum_cons, Change.gone_add, Change.twice_add, ih.1, ih.2,
        EnumDef.flagsChange, List.filter_cons]
      split
      · exact ⟨by rw [List.map_cons, List.sum_cons], by rw [List.map_cons, List.sum_cons]⟩
      · exact ⟨zero_add _, zero_add _⟩

/-- What becomes of the comments in fields: those in the defaults of fields that name a set of flags. -/
theorem sum_flagsChange_fields (cs : List Char) {symbols : Symbols} {sets : List FlagSet}
    {xs : List (String × Field)}
    (h : ∀ x ∈ xs, ∀ type, x.2.flagType? symbols x.1 = some type →
      ∃ number, x.2.defaultNumber sets x.1 type = .ok number) :
    Change.gone (xs.map fun x => x.2.flagsChange cs symbols sets x.1).sum
        = ((xs.filter fun x => (x.2.flagType? symbols x.1).isSome).map
            fun x => x.2.defaultComments cs).sum ∧
      Change.twice (xs.map fun x => x.2.flagsChange cs symbols sets x.1).sum = 0 := by
  induction xs with
  | nil => exact ⟨rfl, rfl⟩
  | cons x xs ih =>
      obtain ⟨hfirst, hrest⟩ := List.forall_mem_cons.mp h
      obtain ⟨hgone, htwice⟩ := ih hrest
      rw [List.map_cons, List.sum_cons, Change.gone_add, Change.twice_add, hgone, htwice, Field.flagsChange,
        List.filter_cons]
      cases htype : x.2.flagType? symbols x.1 with
      | none => exact ⟨zero_add _, zero_add _⟩
      | some type =>
          obtain ⟨number, hnumber⟩ := hfirst type htype
          obtain ⟨hx, hx'⟩ := Field.gone_retypeChange cs hnumber
          constructor
          · simp only [hnumber, hx, Option.isSome_some, if_true, List.map_cons, List.sum_cons]
          · simp only [hnumber, hx', zero_add]

/-- **The comments of a lowered text are those of its source**, but for two slips and what is dropped: the
    comments inside options and values that a set of flags quotes are there once more, and those inside a
    default that becomes a number are gone. -/
theorem comments_lower (h : (lower source).result = .ok low) :
    ∃ s, Schema.parse source = .ok s ∧
      Text.comments low.text.toList + (s.markedEnums.map fun x => x.2.dropped).sum +
          ((s.fieldsIn.filter fun x => (x.2.flagType? (Symbols.ofSchema low.schema) x.1).isSome).map
            fun x => x.2.defaultComments source.toList).sum
        = Text.comments source.toList + (s.markedEnums.map fun x => x.2.quoted source.toList).sum := by
  obtain ⟨s, ps, tail, hparse, hlow, hsource, hnew, htail, holds, hnews, hps, -⟩ := exists_pieces h
  obtain ⟨-, hschema, -⟩ := Schema.lower_inv hlow
  have hsymbols : Symbols.ofSchema (s.mapEnums EnumDef.asFlags) = Symbols.ofSchema low.schema := by
    rw [hschema, Schema.ofSchema_mapFields]
  rw [hsymbols] at hps
  obtain ⟨hgone, htwice⟩ := sum_flagsChange_enums source.toList s.enumsIn
  obtain ⟨hgone', htwice'⟩ := sum_flagsChange_fields source.toList (Schema.defaults_lower hlow)
  have hkept := hps.kept
  rw [Schema.flagsChange_eq, Change.gone_add, Change.twice_add, hgone, hgone', htwice, htwice', add_zero]
    at hkept
  refine ⟨s, hparse, ?_⟩
  rw [hsource, hnew, comments_textOf holds htail, comments_textOf hnews htail, ← hsource, add_assoc]
  exact hkept

/-- A comment inside the options of a value that becomes a flag. -/
def quotingValue : String :=
  "enum E \x7b\n  option (bitmap) = true;\n  A = 0 [/* c */ deprecated = true];\n\x7d\n"

/-- A comment inside a default that becomes a number. -/
def commentedDefault : String :=
  "message M \x7b\n  enum E \x7b\n    option (bitmap) = true;\n    A = 0;\n  \x7d\n" ++
    "  optional E e = 1 [default = /* c */ A];\n\x7d\n"

/-- How often a comment is in a source and in what its edits make of it, and whether they are in order. -/
def commentCounts (source comment : String) : Option (Bool × Nat × Nat) :=
  (lower source).result.toOption.map fun low =>
    (decide (low.edits.Pairwise fun a b => a.span.start ≤ b.span.start),
      (Text.comments source.toList).count comment,
      (Text.comments (Edit.splice 0 low.edits source.toList)).count comment)

theorem lower_of_commentCounts {comment : String} {m n : Nat}
    (h : commentCounts source comment = some (true, m, n)) :
    ∃ low, (lower source).result = .ok low ∧ (Text.comments source.toList).count comment = m ∧
      (Text.comments low.text.toList).count comment = n := by
  unfold commentCounts at h
  cases hlow : (lower source).result with
  | error e => rw [hlow] at h; cases h
  | ok low =>
      rw [hlow] at h
      simp only [Except.toOption, Option.map_some, Option.some.injEq, Prod.mk.injEq, decide_eq_true_eq] at h
      obtain ⟨hsorted, hold, hnew⟩ := h
      obtain ⟨s, -, hschema⟩ := lower_inv hlow
      obtain ⟨htext, -⟩ := Schema.lower_inv hschema
      have happly : Edit.apply source.toList low.edits = Edit.splice 0 low.edits source.toList := by
        rw [Edit.apply, Edit.sorted, List.mergeSort_of_pairwise (hsorted.imp fun hab => decide_eq_true hab)]
      refine ⟨low, rfl, hold, ?_⟩
      rw [htext, String.toList_ofList, happly]
      exact hnew

/-- The counts of the comment in the two sources, which nothing drops in the second. -/
theorem commentCounts_computed :
    commentCounts quotingValue "/* c */" = some (true, 1, 2) ∧
      commentCounts commentedDefault "/* c */" = some (true, 1, 0) ∧
      ((Schema.parse commentedDefault).toOption.map fun s =>
        Multiset.count "/* c */" (s.markedEnums.map fun x => x.2.dropped).sum) = some 0 := by
  rw [commentCounts, commentCounts, lower_eq, lower_eq, Schema.parse_eq]
  delta quotingValue commentedDefault
  simp only [String.toList_append, String.reduceToList]
  decide +kernel

theorem comments_lower_quotingValue :
    ∃ low, (lower quotingValue).result = .ok low ∧ ∃ s, Schema.parse quotingValue = .ok s ∧
      Text.comments low.text.toList + (s.markedEnums.map fun x => x.2.dropped).sum +
          ((s.fieldsIn.filter fun x => (x.2.flagType? (Symbols.ofSchema low.schema) x.1).isSome).map
            fun x => x.2.defaultComments quotingValue.toList).sum
        = Text.comments quotingValue.toList +
          (s.markedEnums.map fun x => x.2.quoted quotingValue.toList).sum := by
  obtain ⟨low, h, -⟩ := lower_of_commentCounts commentCounts_computed.1
  exact ⟨low, h, comments_lower h⟩

/-- A lowered text may have a comment that its source has not, and may lack one for which nothing has been
    dropped. -/
theorem comments_lower_slips :
    (∃ low, (lower quotingValue).result = .ok low ∧
      ¬ Text.comments low.text.toList ≤ Text.comments quotingValue.toList) ∧
    ∃ low s, (lower commentedDefault).result = .ok low ∧ Schema.parse commentedDefault = .ok s ∧
      ¬ Text.comments commentedDefault.toList ≤
        Text.comments low.text.toList + (s.markedEnums.map fun x => x.2.dropped).sum := by
  obtain ⟨hquoting, hcommented, hdropped⟩ := commentCounts_computed
  constructor
  · obtain ⟨low, h, hold, hnew⟩ := lower_of_commentCounts hquoting
    refine ⟨low, h, fun hle => ?_⟩
    have hcount := Multiset.count_le_of_le "/* c */" hle
    rw [hold, hnew] at hcount
    exact absurd hcount (by decide)
  · obtain ⟨low, h, hold, hnew⟩ := lower_of_commentCounts hcommented
    obtain ⟨s, hparse, -⟩ := lower_inv h
    rw [hparse] at hdropped
    refine ⟨low, s, h, hparse, fun hle => ?_⟩
    have hcount := Multiset.count_le_of_le "/* c */" hle
    have hzero : Multiset.count "/* c */" (s.markedEnums.map fun x => x.2.dropped).sum = 0 :=
      Option.some.inj hdropped
    rw [Multiset.count_add, hold, hnew, hzero] at hcount
    exact absurd hcount (by decide)

end FlagSchema
