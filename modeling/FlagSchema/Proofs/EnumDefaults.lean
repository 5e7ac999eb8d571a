import FlagSchema.Proofs.Discriminants
import FlagSchema.Proofs.Paths

/-!
# The default of a plain enum

The default of a plain enum is its first variant. A field of the enum stores a number, which is zero in a new
structure and after the field is cleared; a number that no variant has is read as the default. The zero has a
variant of its own as soon as a value is stored as zero, and this value may stand behind the first one.

* **`EnumDef.unsetValue?`**: the value that a field is read as which is not set.
* **`EnumDef.ZeroFirst`**: no value but the first one may be stored as zero.
* **`EnumDef.readsUnset_of_isOf`**: a field that is not set is read as the default exactly under this condition.
* **`accessorsOf_unset`**: all of this, for every plain enum and every single field that holds one.
* **`accessorsOf_unset_misread`**: an enum whose fields are not read as its default.
-/

namespace FlagSchema

open Declaration

-- ── Stored zeros ─────────────────────────────────────────────────────────────────

/-- A value is stored as zero. -/
def EnumValue.IsStoredZero (v : EnumValue) : Prop := cutToInt32 v.number = 0

instance (v : EnumValue) : Decidable v.IsStoredZero := inferInstanceAs (Decidable (cutToInt32 v.number = 0))

/-- The value that a field is read as which is not set: the first one that is stored as zero, or else the first
    one. -/
def EnumDef.unsetValue? (e : EnumDef) : Option EnumValue :=
  (e.values.find? fun v => v.IsStoredZero).or e.values.head?

/-- If any value of an enum is stored as zero, the first one is. -/
def EnumDef.ZeroFirst (e : EnumDef) : Prop :=
  ∀ v ∈ e.values, v.IsStoredZero → ∃ w, e.values.head? = some w ∧ w.IsStoredZero

/-- How a field of an enum is read that is not set. The default is made of the first value; the stored zero is
    read as a variant made of the first value that is stored as zero, or else as the default. The two agree, and
    zero has either no variant of its own or the default, exactly if no value behind the first one takes the zero
    away from it. -/
structure EnumDef.ReadsUnset (e : EnumDef) (first : Variant) (others : List Variant) : Prop where
  default : ∃ v, e.values.head? = some v ∧ Variant.IsOf v first
  reads   : ∃ v, e.unsetValue? = some v ∧ Variant.IsOf v (Variant.readFrom first others 0)
  agrees  : Variant.readFrom first others 0 = first ↔ e.ZeroFirst
  arms    : (Variant.ofNumber? (first :: others) 0 = none ∨ Variant.ofNumber? (first :: others) 0 = some first) ↔
    e.ZeroFirst

namespace EnumDef

variable {e : EnumDef} {first : Variant} {others xs : List Variant}

/-- The first of the first values is the first value. -/
theorem head?_firstValues (e : EnumDef) : e.firstValues.head? = e.values.head? := by
  unfold firstValues
  cases e.values with
  | nil => rfl
  | cons v vs => rfl

/-- A value is looked up by its number among the first values as among all of them. -/
theorem find?_isStoredZero_firstValues (e : EnumDef) :
    e.firstValues.find? (fun v => v.IsStoredZero) = e.values.find? fun v => v.IsStoredZero :=
  EnumValue.find?_firstsFrom (p := fun n => cutToInt32 n = 0) fun _ hn => nomatch hn

/-- The variant with the number zero is made of the first value that is stored as zero, if there is one. -/
theorem ofNumber?_zero_of_isOf {vs : List EnumValue} (h : List.Forall₂ Variant.IsOf vs xs) :
    Option.Rel Variant.IsOf (vs.find? fun v => v.IsStoredZero) (Variant.ofNumber? xs 0) := by
  induction h with
  | nil => exact .none
  | @cons v x vs xs hx _ ih =>
      rw [Variant.ofNumber?, List.find?_cons, List.find?_cons, hx.2]
      by_cases hv : v.IsStoredZero
      · have hzero : cutToInt32 v.number = 0 := hv
        rw [decide_eq_true hv, hzero]
        exact .some hx
      · rw [decide_eq_false hv, beq_eq_false_iff_ne.mpr hv]
        exact ih

/-- The default is made of the first value. -/
theorem exists_head_of_isOf (h : List.Forall₂ Variant.IsOf e.firstValues (first :: others)) :
    ∃ v, e.values.head? = some v ∧ Variant.IsOf v first := by
  rw [← head?_firstValues]
  generalize e.firstValues = vs at h
  cases h with
  | cons hx _ => exact ⟨_, rfl, hx⟩

/-- The stored zero is read as a variant that is made of the first value stored as zero, if there is one. -/
theorem rel_ofNumber?_zero (h : List.Forall₂ Variant.IsOf e.firstValues xs) :
    Option.Rel Variant.IsOf (e.values.find? fun v => v.IsStoredZero) (Variant.ofNumber? xs 0) := by
  rw [← find?_isStoredZero_firstValues]
  exact ofNumber?_zero_of_isOf h

/-- The stored zero is read as the default exactly if no value behind the first one takes it away. -/
theorem readFrom_zero_iff (h : List.Forall₂ Variant.IsOf e.firstValues (first :: others)) :
    Variant.readFrom first others 0 = first ↔ e.ZeroFirst := by
  have hzero := rel_ofNumber?_zero h
  obtain ⟨head, hhead, hfirst⟩ := exists_head_of_isOf h
  unfold Variant.readFrom
  cases hread : Variant.ofNumber? (first :: others) 0 with
  | none =>
      -- No value is stored as zero.
      rw [hread] at hzero
      cases hnone : e.values.find? (fun v => v.IsStoredZero) with
      | some v => rw [hnone] at hzero; cases hzero
      | none =>
          refine iff_of_true rfl fun v hv hstored => ?_
          have hother := List.find?_eq_none.mp hnone v hv
          exact absurd (decide_eq_true hstored) hother
  | some x =>
      have hfound := List.find?_some hread
      have hx : x.number = 0 := beq_iff_eq.mp hfound
      show x = first ↔ _
      constructor
      · rintro rfl v - -
        exact ⟨head, hhead, hfirst.2.symm.trans hx⟩
      · intro hfront
        rw [hread] at hzero
        cases hfound : e.values.find? (fun v => v.IsStoredZero) with
        | none => rw [hfound] at hzero; cases hzero
        | some v =>
            have hv := List.find?_some hfound
            obtain ⟨w, hw, hstored⟩ := hfront v (List.mem_of_find?_eq_some hfound) (of_decide_eq_true hv)
            rw [hhead] at hw
            cases hw
            have hnumber : first.number = 0 := hfirst.2.trans hstored
            rw [Variant.ofNumber?, List.find?_cons, beq_iff_eq.mpr hnumber] at hread
            exact (Option.some.inj hread).symm

/-- **A field that is not set is read as the default of its enum if and only if no value behind the first one
    takes the zero away from it.** -/
theorem readsUnset_of_isOf (h : List.Forall₂ Variant.IsOf e.firstValues (first :: others)) :
    e.ReadsUnset first others := by
  have hzero := rel_ofNumber?_zero h
  have hagrees := readFrom_zero_iff h
  obtain ⟨head, hhead, hfirst⟩ := exists_head_of_isOf h
  refine ⟨⟨head, hhead, hfirst⟩, ?_, hagrees, hagrees.symm.trans ?_ |>.symm⟩
  · unfold unsetValue? Variant.readFrom
    generalize e.values.find? (fun v => v.IsStoredZero) = v at hzero
    generalize Variant.ofNumber? (first :: others) 0 = x at hzero
    cases hzero with
    | none => exact ⟨head, hhead, hfirst⟩
    | some hx => exact ⟨_, rfl, hx⟩
  · unfold Variant.readFrom
    cases Variant.ofNumber? (first :: others) 0 with
    | none => exact iff_of_true rfl (.inl rfl)
    | some x =>
        have hsome := Option.some_ne_none x
        exact ⟨fun hx => .inr (congrArg some hx), fun hx => Option.some.inj (hx.resolve_left hsome)⟩

end EnumDef

-- ── Fields ───────────────────────────────────────────────────────────────────────

/-- A member stores the number of an enum. It is read as the variant of the number, or else as the default of the
    enum, and it is cleared by the number zero, which it has in a new structure. -/
structure Member.StoresNumber (m : Member) (path : TypePath) : Prop where
  storage  : m.storage = words "i32"
  reading  : looking m.ident path.code
    (path.code ++ words ":: from_i32" ++ parens m.place ++ words ". unwrap_or_default" ++ parens []) ∈ m.methods
  clearing : changing m.clearer (m.place ++ words "= 0 ;") ∈ m.methods

/-- A member for one value of an enum stores its number. -/
theorem Member.storesNumber_of_holding {m : Member} {path : TypePath} (hsingle : m.isRepeated = false)
    (h : m.holding = .enum path) : m.StoresNumber path := by
  obtain ⟨ident, isRepeated, holding⟩ := m
  cases hsingle
  cases h
  exact ⟨rfl, List.mem_cons_self .., .tail _ (.tail _ (.head _))⟩

theorem Declaration.eq_enum_of_definition? {d : Declaration} (h : d.definition? = some .enum) :
    ∃ ident first others, d = .enum ident first others := by
  cases d <;> cases h
  exact ⟨_, _, _, rfl⟩

/-- **A field that is not set is read as the default of its enum if and only if no value behind the first one takes
    the zero away from it.** This is so for every enum that is not marked, and every single field which holds a
    plain enum stores its number and leads to the declaration of such an enum. The code of the enum shows the reading
    of every number and the default, and that of the structure has the methods of the field. -/
theorem accessorsOf_unset {source text : String} (h : (accessorsOf source).result = .ok text) :
    ∃ s low ds, Schema.parse source = .ok s ∧ (lower source).result = .ok low ∧
      low.schema.declarations.result = .ok ds ∧
      text = Schema.accessorsHeader ++ CodeTree.renderAll (allCode ds) ++ "\n" ∧
      (∀ t ∈ s.typesIn, ∀ e, t.type = .enum e → e.marksFlags = false →
        ∃ path ident first others, Ident.AreOf t.module path ∧ At ds path (.enum ident first others) ∧
          Ident.ofName? e.name = some ident ∧ e.ReadsUnset first others ∧
          ∃ c : EnumCode, c.StandsIn (allCode ds) path ∧ c.Shows ident first others) ∧
      ∀ here struct members, At ds here (.struct struct members) →
        (allCode ds).HasStruct here struct members ∧
        ∀ member ∈ members, member.isRepeated = false → ∀ path, member.holding = .enum path →
          member.StoresNumber path ∧
          ∃ t ∈ s.typesIn, ∃ e ident first others, t.type = .enum e ∧ e.marksFlags = false ∧
            path.LeadsTo ds here (.enum ident first others) ∧
            path.WordsLeadTo ds here (.enum ident first others) .enum ∧ Ident.ofName? e.name = some ident ∧
            e.ReadsUnset first others := by
  obtain ⟨low, ds, hlow, hds, htext⟩ := accessorsOf_inv h
  obtain ⟨s, hparse, hlower⟩ := lower_inv hlow
  refine ⟨s, low, ds, hparse, hlow, hds, htext, fun t ht e he hmark => ?_,
    fun here struct members hat => ⟨hat.hasStruct, fun member hmember hsingle path hpath => ⟨?_, ?_⟩⟩⟩
  · obtain ⟨path, d, hpath, hat, ident, first, others, rfl, hident, hvariants⟩ :=
      Schema.exists_at_of_plain hparse hlower hds ht he hmark
    exact ⟨path, ident, first, others, hpath, hat, hident, EnumDef.readsUnset_of_isOf hvariants, hat.exists_enumCode⟩
  · exact Member.storesNumber_of_holding hsingle hpath
  · obtain ⟨u, hu, hhere, hd⟩ := Schema.exists_type_of_at hds hat rfl
    obtain ⟨fullName, definition, hholding, -, d, -, -, -, -, hdefinition, hleads, hwords⟩ :=
      reaches_holding_of_member hlow hds hu hhere hd hmember (congrArg Holding.path? hpath)
    -- What the member holds decides what its path leads to.
    have henum : definition = .enum := by
      rw [hpath] at hholding
      cases definition <;> cases hholding
      rfl
    subst henum
    obtain ⟨ident, first, others, rfl⟩ := Declaration.eq_enum_of_definition? hdefinition
    have hat := hleads
    obtain ⟨target, -, htargets, -⟩ := hat
    obtain ⟨t, ht, e, he, hmark, -, ident', first', others', heq, hident, hvariants⟩ :=
      Schema.exists_plain_of_at hparse hlower hds htargets
    cases heq
    exact ⟨t, ht, e, ident, first, others, he, hmark, hleads, hwords, hident, EnumDef.readsUnset_of_isOf hvariants⟩

/-- An enum with a zero behind its first value, one without a zero, and a message with a field of each. -/
def lateZero : String :=
  "enum Low \x7b A = 1; B = 0; \x7d\n" ++
  "enum High \x7b C = 1; D = 2; \x7d\n" ++
  "message M \x7b Low low = 1; High high = 2; \x7d\n"

/-- The declarations for it. -/
def lateZeroDeclarations : List Declaration := [
  .enum ⟨"Low", false⟩ ⟨⟨"A", false⟩, 1⟩ [⟨⟨"B", false⟩, 0⟩],
  .enum ⟨"High", false⟩ ⟨⟨"C", false⟩, 1⟩ [⟨⟨"D", false⟩, 2⟩],
  .struct ⟨"M", false⟩ [
    ⟨⟨"low", false⟩, false, .enum ⟨0, [], ⟨"Low", false⟩⟩⟩,
    ⟨⟨"high", false⟩, false, .enum ⟨0, [], ⟨"High", false⟩⟩⟩]]

theorem lower_lateZero : ∃ low, (lower lateZero).result = .ok low ∧
    low.schema.declarations.result = .ok lateZeroDeclarations := by
  refine lower_of_sameAll ?_
  rw [lower_eq]
  delta lateZero
  simp only [String.toList_append, String.reduceToList]
  decide +kernel

/-- A field of the second enum is read as its default when it is not set, since no value of it is stored as
    zero. -/
theorem accessorsOf_unset_lateZero :
    ∃ text s, (accessorsOf lateZero).result = .ok text ∧ Schema.parse lateZero = .ok s ∧
      ∃ t ∈ s.typesIn, ∃ e, t.type = .enum e ∧ e.marksFlags = false ∧
        e.ReadsUnset ⟨⟨"C", false⟩, 1⟩ [⟨⟨"D", false⟩, 2⟩] ∧ e.ZeroFirst := by
  obtain ⟨low, hlow, hds⟩ := lower_lateZero
  obtain ⟨text, htext⟩ := accessorsOf_ok hlow hds
  obtain ⟨s, low', ds, hparse, hlow', hds', -, -, hfields⟩ := accessorsOf_unset htext
  rw [hlow] at hlow'
  cases hlow'
  rw [hds] at hds'
  cases hds'
  have hstruct := hfields [] _ _ (.here (.tail _ (.tail _ (.head _))))
  obtain ⟨-, t, ht, e, ident, first, others, he, hmark, hleads, -, -, hreads⟩ :=
    hstruct.2 _ (.tail _ (.head _)) rfl _ rfl
  obtain ⟨target, htarget, ⟨items, hinside, hmem⟩, hident⟩ := hleads
  cases htarget
  cases hinside
  have hhigh : Declaration.enum ident first others =
      .enum ⟨"High", false⟩ ⟨⟨"C", false⟩, 1⟩ [⟨⟨"D", false⟩, 2⟩] := by
    rcases hmem with _ | ⟨_, _ | ⟨_, hmem⟩⟩
    · exact absurd hident (by decide)
    · rfl
    · cases List.mem_singleton.mp hmem
  cases hhigh
  exact ⟨text, s, htext, hparse, t, ht, e, he, hmark, hreads, hreads.agrees.mp (by decide)⟩

/-- **A field that is not set may be read as another variant than the default.** The default of the first enum is
    its first value, but the number of a field that holds it is zero at the start, and the second value has it. -/
theorem accessorsOf_unset_misread :
    ∃ text low ds ident struct members, ∃ first second : Variant, ∃ member : Member, ∃ path,
      (accessorsOf lateZero).result = .ok text ∧ (lower lateZero).result = .ok low ∧
      low.schema.declarations.result = .ok ds ∧
      At ds [] (.struct struct members) ∧ member ∈ members ∧ member.StoresNumber path ∧
      path.LeadsTo ds [] (.enum ident first [second]) ∧ first.ident.text = "A" ∧ second.ident.text = "B" ∧
      Variant.ofNumber? [first, second] 0 = some second ∧ Variant.readFrom first [second] 0 = second ∧
      second ≠ first := by
  obtain ⟨low, hlow, hds⟩ := lower_lateZero
  obtain ⟨text, htext⟩ := accessorsOf_ok hlow hds
  have hfield : Member.StoresNumber ⟨⟨"low", false⟩, false, .enum ⟨0, [], ⟨"Low", false⟩⟩⟩
      ⟨0, [], ⟨"Low", false⟩⟩ := Member.storesNumber_of_holding rfl rfl
  exact ⟨text, low, _, _, _, _, ⟨⟨"A", false⟩, 1⟩, ⟨⟨"B", false⟩, 0⟩, _, _, htext, hlow, hds,
    .here (.tail _ (.tail _ (.head _))), .head _, hfield, ⟨[], rfl, .here (.head _), rfl⟩, rfl, rfl, rfl, rfl,
    by decide⟩

end FlagSchema
