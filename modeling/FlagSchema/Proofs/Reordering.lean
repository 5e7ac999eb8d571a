import Mathlib.Data.List.Find
import Mathlib.Data.List.Flatten
import Mathlib.Data.List.Perm.Basic
import FlagSchema.Proofs.Contents
import FlagSchema.Proofs.Layouts

/-!
# The order of declarations

The statements of a schema may stand in any order. A name refers to the same definition wherever it is declared,
since all definitions are gathered before the first name is looked up, and where no two definitions have one
name it does not matter which of them is found first.

* **`Schema.Permutes`**: two schemas have the same messages and enums, in any order.
* **`Schema.DistinctNames`**: no two messages or enums have the same full name.
* **`Schema.Permutes.resolve?_eq`**, **`Schema.Permutes.find?_eq`**: names refer to the same definitions and the
  same sets of flags.
* **`Schema.Permutes.exists_lower_iff`**, **`Schema.Permutes.lower`**: schemas in another order are lowered alike.
* **`lower_reordered`**: so are texts whose parts are in another order.
-/

namespace FlagSchema

-- ── Lists in another order ───────────────────────────────────────────────────────

/-- Of elements with different keys, which one has a key does not depend on their order. -/
theorem find?_of_perm {α : Type} {xs ys : List α} (h : xs.Perm ys) {key : α → String}
    (hkeys : (xs.map key).Nodup) {k : String} {p : α → Bool} (hp : ∀ x, p x = true → key x = k) :
    xs.find? p = ys.find? p := by
  refine List.find?_eq_find?_of_perm h ?_
  rintro x ⟨hx, hpx⟩ y ⟨hy, hpy⟩
  exact List.inj_on_of_nodup_map hkeys hx hy ((hp x hpx).trans (hp y hpy).symm)

/-- What elements are related to is in another order if they are. -/
theorem perm_of_forall₂ {α β : Type} {R : α → β → Prop} (hR : Relator.RightUnique R) {xs ys : List α}
    {us vs : List β} (h : xs.Perm ys) (hxs : List.Forall₂ R xs us) (hys : List.Forall₂ R ys vs) : us.Perm vs := by
  obtain ⟨ws, hws, hperm⟩ := List.perm_comp_forall₂ h hys
  rw [List.right_unique_forall₂' hR hxs hws]
  exact hperm

-- ── Names ────────────────────────────────────────────────────────────────────────

namespace Message

/-- The names of the enums of a message are among those of its definitions. -/
theorem names_enumsIn (scope : String) (m : Message) :
    ((enumsIn scope m).map fun x => joinName x.1 x.2.name).Sublist ((definitions scope m).map Prod.fst) := by
  induction m using nested_induction generalizing scope with
  | step m ih =>
      rw [enumsIn_eq, definitions_parts, List.map_append, List.map_append, List.map_append, List.map_map,
        List.map_map, List.map_flatMap, List.map_flatMap]
      refine (List.Sublist.append (.refl _) ?_).trans (List.sublist_append_left ..)
      exact List.Sublist.flatMap_right _ fun i hi => ih i hi _

end Message

namespace Schema

/-- No two messages or enums have the same full name. -/
def DistinctNames (s : Schema) : Prop := (s.definitions.map Prod.fst).Nodup

variable {s t : Schema}

theorem names_enumsIn (s : Schema) :
    (s.enumsIn.map fun x => joinName x.1 x.2.name).Sublist (s.definitions.map Prod.fst) := by
  rw [enumsIn, definitions, Message.allEnumsIn_eq, Message.allDefinitions_eq, List.map_append, List.map_append,
    List.map_map, List.map_map, List.map_flatMap, List.map_flatMap]
  exact List.Sublist.append (.refl _) (List.Sublist.flatMap_right _ fun m _ => m.names_enumsIn _)

theorem DistinctNames.markedEnums (h : s.DistinctNames) :
    (s.markedEnums.map fun x => joinName x.1 x.2.name).Nodup :=
  List.Nodup.sublist ((List.filter_sublist.map _).trans s.names_enumsIn) h

/-- Making enums sets of flags leaves the names alone. -/
theorem DistinctNames.asFlags (h : s.DistinctNames) : (s.mapEnums EnumDef.asFlags).DistinctNames := by
  have hnames : (s.mapEnums EnumDef.asFlags).definitions.map Prod.fst = s.definitions.map Prod.fst := by
    rw [definitions_eq, definitions_eq, typesIn_mapEnums, List.map_map, List.map_map, List.map_map]
    exact List.map_congr_left fun t _ => PlacedType.fullName_mapEnums EnumDef.name_asFlags t
  rw [DistinctNames, hnames]
  exact h

theorem distinctNames_content : s.content.DistinctNames ↔ s.DistinctNames := by
  have hdefinitions : s.content.definitions = s.definitions :=
    Erasure.definitions_schema s Erasure.faithful_content.named_enum
  rw [DistinctNames, hdefinitions, DistinctNames]

end Schema

/-- What names refer to depends on what full names stand for. -/
theorem Symbols.resolve?_congr {a b : Symbols} (h : ∀ n, a.get? n = b.get? n) (scope name : String) :
    a.resolve? scope name = b.resolve? scope name := by
  have hin : ∀ name scope, a.getIn? name scope = b.getIn? name scope := by
    intro name scope
    rw [getIn?, getIn?, h]
  unfold resolve?
  simp only [hin]

-- ── Schemas in another order ─────────────────────────────────────────────────────

namespace Schema

/-- Two schemas have the same package, messages and enums, in any order. -/
structure Permutes (s t : Schema) : Prop where
  package  : s.package = t.package
  messages : s.messages.Perm t.messages
  enums    : s.enums.Perm t.enums

namespace Permutes

variable {s t : Schema}

theorem symm (h : s.Permutes t) : t.Permutes s :=
  ⟨h.package.symm, h.messages.symm, h.enums.symm⟩

theorem scope_eq (h : s.Permutes t) : s.scope = t.scope := by
  rw [scope, h.package, scope]

theorem enumsIn (h : s.Permutes t) : s.enumsIn.Perm t.enumsIn := by
  rw [Schema.enumsIn, Schema.enumsIn, Message.allEnumsIn_eq, Message.allEnumsIn_eq, h.scope_eq]
  exact (h.enums.map _).append (h.messages.flatMap_right _)

theorem fieldsIn (h : s.Permutes t) : s.fieldsIn.Perm t.fieldsIn := by
  rw [Schema.fieldsIn, Schema.fieldsIn, Message.allFieldsIn_eq, Message.allFieldsIn_eq, h.scope_eq]
  exact h.messages.flatMap_right _

theorem definitions (h : s.Permutes t) : s.definitions.Perm t.definitions := by
  rw [Schema.definitions, Schema.definitions, Message.allDefinitions_eq, Message.allDefinitions_eq, h.scope_eq]
  exact (h.enums.map _).append (h.messages.flatMap_right _)

theorem markedEnums (h : s.Permutes t) : s.markedEnums.Perm t.markedEnums :=
  h.enumsIn.filter _

theorem mapEnums (h : s.Permutes t) (f : EnumDef → EnumDef) : (s.mapEnums f).Permutes (t.mapEnums f) := by
  refine ⟨h.package, ?_, h.enums.map f⟩
  show (Message.mapAllEnums f s.messages).Perm (Message.mapAllEnums f t.messages)
  rw [Message.mapAllEnums_eq, Message.mapAllEnums_eq]
  exact h.messages.map _

theorem mapFields (h : s.Permutes t) (f : String → Field → Field) : (s.mapFields f).Permutes (t.mapFields f) := by
  refine ⟨h.package, ?_, h.enums⟩
  show (Message.mapAllFields f s.scope s.messages).Perm (Message.mapAllFields f t.scope t.messages)
  rw [Message.mapAllFields_eq, Message.mapAllFields_eq, h.scope_eq]
  exact h.messages.map _

theorem distinctNames (h : s.Permutes t) (hs : s.DistinctNames) : t.DistinctNames :=
  (h.definitions.map _).nodup hs

-- ── Names in schemas in another order ────────────────────────────────────────────

/-- Full names stand for the same definitions. -/
theorem get?_eq (h : s.Permutes t) (hs : s.DistinctNames) (fullName : String) :
    (Symbols.ofSchema s).get? fullName = (Symbols.ofSchema t).get? fullName := by
  have hlookup : ∀ u : Schema, (Symbols.ofSchema u).get? fullName =
      (u.definitions.reverse.find? fun x => fullName == x.1).map Prod.snd := by
    intro u
    rw [← lookup_map, List.map_id']
    rfl
  have hreverse : s.definitions.reverse.Perm t.definitions.reverse :=
    (List.reverse_perm _).trans (h.definitions.trans (List.reverse_perm _).symm)
  have hkeys : (s.definitions.reverse.map Prod.fst).Nodup :=
    ((List.reverse_perm _).map _).nodup_iff.mpr hs
  rw [hlookup, hlookup, find?_of_perm hreverse hkeys fun x hx => (beq_iff_eq.mp hx).symm]

/-- **Names refer to the same definitions**, the marked enums as sets of flags. -/
theorem resolve?_eq (h : s.Permutes t) (hs : s.DistinctNames) (scope name : String) :
    s.flagSymbols.resolve? scope name = t.flagSymbols.resolve? scope name :=
  Symbols.resolve?_congr ((h.mapEnums _).get?_eq hs.asFlags) scope name

theorem flagType?_eq (h : s.Permutes t) (hs : s.DistinctNames) (message : String) (f : Field) :
    f.flagType? s.flagSymbols message = f.flagType? t.flagSymbols message := by
  unfold Field.flagType?
  simp only [h.resolve?_eq hs]

/-- Full names are those of the same marked enums. -/
theorem markedEnum?_eq (h : s.Permutes t) (hs : s.DistinctNames) (fullName : String) :
    s.markedEnum? fullName = t.markedEnum? fullName :=
  find?_of_perm h.markedEnums hs.markedEnums fun _ hx => beq_iff_eq.mp hx

/-- **If one can be lowered, so can the other.** -/
theorem exists_lower (h : s.Permutes t) (hs : s.DistinctNames) {source : List Char} (source' : List Char)
    (hlow : ∃ low, (s.lower source).result = .ok low) : ∃ low, (t.lower source').result = .ok low := by
  obtain ⟨henums, hfields⟩ := exists_lower_iff.mp hlow
  refine exists_lower_iff.mpr ⟨fun x hx => henums x (h.enumsIn.mem_iff.mpr hx), fun x hx => ?_⟩
  have hx' := Field.forall_not_offends_iff.mp (hfields x (h.fieldsIn.mem_iff.mpr hx))
  refine Field.forall_not_offends_iff.mpr ?_
  rintro fullName width ⟨written, htarget, hresolve⟩ d hd
  rw [← h.resolve?_eq hs] at hresolve
  obtain ⟨name, hname, hflag⟩ := hx' fullName width ⟨written, htarget, hresolve⟩ d hd
  rw [h.markedEnum?_eq hs] at hflag
  exact ⟨name, hname, hflag⟩

theorem exists_lower_iff (h : s.Permutes t) (hs : s.DistinctNames) (source source' : List Char) :
    (∃ low, (s.lower source).result = .ok low) ↔ ∃ low, (t.lower source').result = .ok low :=
  ⟨h.exists_lower hs source', h.symm.exists_lower (h.distinctNames hs) source⟩

-- ── Reports of schemas in another order ──────────────────────────────────────────

/-- The sets of flags of the marked enums, one for each. -/
def FlagSets (s : Schema) (sets : List FlagSet) : Prop :=
  List.Forall₂ (fun x set => ∃ width, x.2.flagStorage (joinName x.1 x.2.name) = .ok width ∧
    set = x.2.flagSet (joinName x.1 x.2.name) width) s.markedEnums sets

variable {sets sets' : List FlagSet}

/-- The sets of flags are the same, in any order. -/
theorem flagSets (h : s.Permutes t) (hsets : FlagSets s sets) (hsets' : FlagSets t sets') : sets.Perm sets' := by
  refine perm_of_forall₂ ?_ h.markedEnums hsets hsets'
  rintro x _ _ ⟨width, hwidth, rfl⟩ ⟨width', hwidth', rfl⟩
  rw [hwidth] at hwidth'
  cases hwidth'
  rfl

/-- **Full names are those of the same sets of flags.** -/
theorem find?_eq (h : s.Permutes t) (hs : s.DistinctNames) (hsets : FlagSets s sets)
    (hsets' : FlagSets t sets') (fullName : String) :
    FlagSet.find? sets fullName = FlagSet.find? sets' fullName := by
  have hnames : s.markedEnums.map (fun x => joinName x.1 x.2.name) = sets.map FlagSet.fullName := by
    rw [← List.forall₂_eq_eq_eq, List.forall₂_map_left_iff, List.forall₂_map_right_iff]
    refine hsets.imp ?_
    rintro x _ ⟨width, -, rfl⟩
    rfl
  exact find?_of_perm (h.flagSets hsets hsets') (hnames ▸ hs.markedEnums) fun _ hx => beq_iff_eq.mp hx

/-- Fields are retyped alike. -/
theorem asFlags_eq (h : s.Permutes t) (hs : s.DistinctNames) (hsets : FlagSets s sets)
    (hsets' : FlagSets t sets') : Field.asFlags s.flagSymbols sets = Field.asFlags t.flagSymbols sets' := by
  funext message f
  unfold Field.asFlags Field.defaultNumber
  simp only [h.flagType?_eq hs, h.find?_eq hs hsets hsets']

/-- The same fields are retyped, in any order. -/
theorem retypedEntries (h : s.Permutes t) (hs : s.DistinctNames) :
    (s.mapEnums EnumDef.asFlags).retypedEntries.Perm (t.mapEnums EnumDef.asFlags).retypedEntries := by
  have hsymbols : ∀ u : Schema, Symbols.ofSchema (u.mapEnums EnumDef.asFlags) = u.flagSymbols := fun _ => rfl
  rw [Schema.retypedEntries, Schema.retypedEntries, hsymbols, hsymbols, flagFields, flagFields]
  simp only [h.flagType?_eq hs]
  exact ((h.mapEnums _).fieldsIn.filterMap _).map _

end Permutes

variable {s t : Schema} {source source' : List Char} {low low' : Lowered}

/-- **Schemas whose contents are the same in another order are lowered alike.** -/
theorem lower_permutes (h : s.content.Permutes t.content) (hs : s.DistinctNames)
    (hlow : (s.lower source).result = .ok low) (hlow' : (t.lower source').result = .ok low') :
    low.schema.content.Permutes low'.schema.content ∧ low.report.flagSets.Perm low'.report.flagSets ∧
      low.report.retyped.Perm low'.report.retyped ∧ low.report.package = low'.report.package := by
  rw [← distinctNames_content] at hs
  obtain ⟨hsets, hretyped, hpackage⟩ := Erasure.faithful_content.report_lower hlow
  obtain ⟨hsets', hretyped', hpackage'⟩ := Erasure.faithful_content.report_lower hlow'
  refine ⟨?_, h.flagSets hsets hsets', ?_, ?_⟩
  · rw [content_lower hlow, content_lower hlow', h.asFlags_eq hs hsets hsets']
    exact (h.mapEnums _).mapFields _
  · rw [hretyped, hretyped']
    exact h.retypedEntries hs
  · rw [hpackage, hpackage']
    exact h.package

-- ── Statements in another order ──────────────────────────────────────────────────

theorem messages_all (ss : List Schema) : (all ss).messages = ss.flatMap messages := by
  induction ss with
  | nil => rfl
  | cons s ss ih => rw [all_cons, append, List.flatMap_cons, ih]

theorem enums_all (ss : List Schema) : (all ss).enums = ss.flatMap enums := by
  induction ss with
  | nil => rfl
  | cons s ss ih => rw [all_cons, append, List.flatMap_cons, ih]

/-- The last of the packages that are stated counts. -/
theorem package_all (ss : List Schema) : (all ss).package = (ss.filterMap package).getLast? := by
  induction ss with
  | nil => rfl
  | cons s ss ih =>
      rw [all_cons, append, ih, List.filterMap_cons]
      cases s.package with
      | none => exact Option.or_none
      | some p => rw [List.getLast?_cons]; cases (ss.filterMap package).getLast? <;> rfl

/-- Schemas one behind another, in another order. -/
theorem all_permutes {ss ts : List Schema} (h : ss.Perm ts) (hpackage : (ss.filterMap package).length ≤ 1) :
    (all ss).Permutes (all ts) := by
  have hpackages : ss.filterMap package = ts.filterMap package := by
    have hperm := h.filterMap package
    cases hp : ss.filterMap package with
    | nil =>
        rw [hp] at hperm
        exact hperm.nil_eq
    | cons p ps =>
        rw [hp, List.length_cons] at hpackage
        have hps : ps = [] := List.length_eq_zero_iff.mp (by omega)
        rw [hp, hps] at hperm
        rw [hps]
        exact (List.perm_singleton.mp hperm.symm).symm
  constructor
  · rw [package_all, package_all, hpackages]
  · rw [messages_all, messages_all]
    exact h.flatMap_right _
  · rw [enums_all, enums_all]
    exact h.flatMap_right _

theorem Permutes.bare (h : s.Permutes t) : s.bare.Permutes t.bare :=
  ⟨h.package, h.messages.map _, h.enums.map _⟩

end Schema

-- ── Texts in another order ───────────────────────────────────────────────────────

/-- **The order of declarations does not matter.** Where a source is laid out in parts that can be read by
    themselves, at most one of which states a package, and no two messages or enums have the same full name, a text
    of the same parts in another order, one behind another on lines of their own, is lowered exactly if the source
    is. The reports have the same entries, and the messages and enums are the same up to places and comments. -/
theorem lower_reordered {source : String} {parts parts' : List String} (hlaid : LaidOut parts source.toList)
    (hparts : ∀ part ∈ parts, ∃ s, Schema.parse part = .ok s)
    (hpackage : (parts.filterMap fun part => (Schema.parsed part).package).length ≤ 1)
    (hnames : ∀ s, Schema.parse source = .ok s → s.DistinctNames) (hperm : parts.Perm parts') :
    ((∃ low, (lower source).result = .ok low) ↔ ∃ low', (lower ("\n".intercalate parts')).result = .ok low') ∧
      ∀ low low', (lower source).result = .ok low → (lower ("\n".intercalate parts')).result = .ok low' →
        low.schema.content.Permutes low'.schema.content ∧ low.report.flagSets.Perm low'.report.flagSets ∧
          low.report.retyped.Perm low'.report.retyped ∧ low.report.package = low'.report.package := by
  obtain ⟨s, hs, hbare⟩ := Schema.parse_laidOut hlaid hparts
  obtain ⟨s', hs', hbare'⟩ := Schema.parse_laidOut (LaidOut.intercalate parts')
    fun part hpart => hparts part (hperm.mem_iff.mpr hpart)
  have hall : (Schema.all (parts.map Schema.parsed)).Permutes (Schema.all (parts'.map Schema.parsed)) := by
    refine Schema.all_permutes (hperm.map _) ?_
    rw [List.filterMap_map]
    exact hpackage
  have hpermutes : s.content.Permutes s'.content := by
    rw [Schema.content_eq_bare hs, Schema.content_eq_bare hs', hbare, hbare']
    exact hall.bare
  have hdistinct : s.content.DistinctNames := Schema.distinctNames_content.mpr (hnames s hs)
  rw [result_lower hs, result_lower hs']
  refine ⟨?_, fun low low' hlow hlow' => Schema.lower_permutes hpermutes (hnames s hs) hlow hlow'⟩
  rw [← s.exists_lower_content source.toList source.toList, ← s'.exists_lower_content _ source.toList]
  exact hpermutes.exists_lower_iff hdistinct _ _

/-- A field in front of the enum that is its type, and a package that is stated last. -/
def lateParts : List String :=
  ["message Hart \x7b optional Mode mode = 1 [default = S]; \x7d",
   "enum Mode \x7b option (bitmap) = true; M = 0; S = 1; \x7d",
   "package riscv;"]

/-- The field is retyped as if the enum and the package stood in front of it. -/
theorem lower_reordered_lateParts :
    ∃ low low', (lower ("\n".intercalate lateParts)).result = .ok low ∧
      (lower ("\n".intercalate lateParts.reverse)).result = .ok low' ∧
      low.report.retyped = [⟨"riscv.Hart", "mode", "riscv.Mode", .uint32⟩] ∧
      low.report.retyped.Perm low'.report.retyped ∧ low.schema.content.Permutes low'.schema.content := by
  have hlow : (lower ("\n".intercalate lateParts)).result.toOption.map (fun low => low.report.retyped) =
      some [⟨"riscv.Hart", "mode", "riscv.Mode", .uint32⟩] := by
    rw [lower_eq]
    delta lateParts
    simp only [String.toList_intercalate, List.map_cons, List.map_nil, String.reduceToList]
    decide +kernel
  have hread : (Schema.parse ("\n".intercalate lateParts)).toOption.map (fun s => s.definitions.map Prod.fst) =
      some ["riscv.Mode", "riscv.Hart"] := by
    rw [Schema.parse_eq]
    delta lateParts
    simp only [String.toList_intercalate, List.map_cons, List.map_nil, String.reduceToList]
    decide +kernel
  have hparts : (∀ part ∈ lateParts, (Schema.parse part).isOk = true) ∧
      (lateParts.filterMap fun part => (Schema.parsed part).package).length ≤ 1 := by
    delta lateParts
    simp only [Schema.parsed, Schema.parse_eq, List.forall_mem_cons, List.filterMap_cons, List.filterMap_nil,
      String.reduceToList]
    decide +kernel
  have hnames : ∀ s, Schema.parse ("\n".intercalate lateParts) = .ok s → s.DistinctNames := by
    intro s hs
    rw [hs] at hread
    have hdefinitions : s.definitions.map Prod.fst = ["riscv.Mode", "riscv.Hart"] := Option.some.inj hread
    rw [Schema.DistinctNames, hdefinitions]
    decide
  obtain ⟨hiff, hsame⟩ := lower_reordered (.intercalate lateParts)
    (fun part hpart => exists_of_isOk (hparts.1 part hpart)) hparts.2 hnames (List.reverse_perm lateParts).symm
  cases h : (lower ("\n".intercalate lateParts)).result with
  | error e => rw [h] at hlow; cases hlow
  | ok low =>
      rw [h] at hlow
      obtain ⟨low', h'⟩ := hiff.mp ⟨low, h⟩
      obtain ⟨hschema, -, hretyped, -⟩ := hsame low low' h h'
      exact ⟨low, low', rfl, h', Option.some.inj hlow, hretyped, hschema⟩

end FlagSchema
