import FlagSchema.Proofs.Numbering

/-!
# Flag types of marked enums

The flag types in the accessors are those of the marked enums of the source, as it was read: they have the
storage type for so many flags, and a constant and an entry of the table for each value.

* **`EnumValue.map_value_flags`**: the values of flags are bits in a row.
* **`FlagSet.declaredBy_markedEnums`**: each flag type is that of one marked enum, in their order.
* **`accessorsOf_flagTypes`**: so it is for the accessors of a source.
-/

namespace FlagSchema

open Declaration

-- ── Values of flags ──────────────────────────────────────────────────────────────

/-- The values of flags are bits in a row. -/
theorem EnumValue.map_value_flags (index : Nat) (vs : List EnumValue) :
    (flags index vs).map Flag.value = (List.range' index vs.length).map flagBit := by
  induction vs generalizing index with
  | nil => rfl
  | cons v vs ih => rw [flags, List.map_cons, ih, List.length_cons, List.range'_succ, List.map_cons]

/-- Indices below 64 have bits of their own. -/
theorem nodup_flagBits {n : Nat} (h : n ≤ 64) : ((List.range n).map flagBit).Nodup := by
  refine List.nodup_range.map_on fun i hi j hj heq => ?_
  have hpowers := congrArg UInt64.toNat heq
  rw [toNat_flagBit (Nat.lt_of_lt_of_le (List.mem_range.mp hi) h),
    toNat_flagBit (Nat.lt_of_lt_of_le (List.mem_range.mp hj) h)] at hpowers
  exact Nat.pow_right_injective (le_refl 2) hpowers

-- ── Flag types ───────────────────────────────────────────────────────────────────

/-- A declaration is the flag type of a marked enum of a scope. -/
def FlagSet.DeclaredFor (x : String × EnumDef) (d : Declaration) : Prop :=
  ∃ width, x.2.flagStorage (joinName x.1 x.2.name) = .ok width ∧
    (x.2.flagSet (joinName x.1 x.2.name) width).DeclaredBy d

/-- What the flag type of a marked enum consists of. -/
theorem FlagSet.declaredFor_inv {x : String × EnumDef} {ident : Ident} {width : Scalar}
    {constants : List (Ident × Nat)} {table : List (String × Nat)}
    (h : DeclaredFor x (.flags ident width constants table)) :
    x.2.flagStorage (joinName x.1 x.2.name) = .ok width ∧
      List.Forall₂ (fun f c => Ident.ofName? f.name = some c.1 ∧ c.2 = f.value.toNat)
        (EnumValue.flags 0 x.2.values) constants ∧
      table = (EnumValue.flags 0 x.2.values).map fun f => (f.name, f.value.toNat) := by
  obtain ⟨width', hwidth, ident', constants', -, hconstants, heq⟩ := h
  cases heq
  exact ⟨hwidth, hconstants, rfl⟩

/-- The flag type of a marked enum is in the code. -/
theorem FlagSet.DeclaredFor.exists_flagCode {source : List Char} {x : String × EnumDef} {ds : List Declaration}
    {here : List Ident} {ident : Ident} {width : Scalar} {constants : List (Ident × Nat)}
    {table : List (String × Nat)} (h : DeclaredFor x (.flags ident width constants table))
    (hspelled : ∀ v ∈ x.2.values, v.Spelled source) (hat : At ds here (.flags ident width constants table)) :
    ∃ c : FlagCode, c.StandsIn (allCode ds) here ∧ c.Shows ident width constants table := by
  obtain ⟨width', hwidth, hdeclared⟩ := h
  exact hdeclared.exists_flagCode hat (Scalar.stored_of_forFlagCount? (EnumDef.flagStorage_inv hwidth))
    (EnumValue.isPlainName_flags hspelled)

/-- **The flag types in the accessors are those of the marked enums**, in their order. -/
theorem FlagSet.declaredBy_markedEnums {source : String} {s : Schema} {low : Lowered} {ds : List Declaration}
    (hparse : Schema.parse source = .ok s) (hlow : (s.lower source.toList).result = .ok low)
    (hds : low.schema.declarations.result = .ok ds) :
    List.Forall₂ DeclaredFor s.markedEnums (allFlagTypes ds) := by
  have henums : ∀ x ∈ s.enumsIn, x.2.storage = none := fun x hx =>
    ((Schema.written_parse hparse).of_enumsIn x hx).storage
  obtain ⟨hsets, -⟩ := Schema.report_lower hlow
  have htypes := Schema.flagTypes_declarations hds
  rw [Generator.stored, Schema.storedEnums_lower henums hlow, List.forall₂_map_left_iff] at htypes
  have hsame : List.Forall₂ Eq s.markedEnums s.markedEnums := List.forall₂_same.mpr fun _ _ => rfl
  refine forall₂_of_common hsame htypes fun x hx y d heq hd => ?_
  obtain ⟨set, -, width, hwidth, -⟩ := exists_right_of_forall₂ hsets hx
  exact heq ▸ ⟨width, hwidth, declaredBy_flagSet (List.mem_filter.mp hx).2 hwidth hd⟩

/-- **The flag types in the accessors of a source are those of its marked enums.** -/
theorem accessorsOf_flagTypes {source text : String} (h : (accessorsOf source).result = .ok text) :
    ∃ s low ds, Schema.parse source = .ok s ∧ (lower source).result = .ok low ∧
      low.schema.declarations.result = .ok ds ∧
      text = Schema.accessorsHeader ++ CodeTree.renderAll (allCode ds) ++ "\n" ∧
      List.Forall₂ FlagSet.DeclaredFor s.markedEnums (allFlagTypes ds) := by
  obtain ⟨low, ds, hlow, hds, htext⟩ := accessorsOf_inv h
  obtain ⟨s, hparse, hlower⟩ := lower_inv hlow
  exact ⟨s, low, ds, hparse, hlow, hds, htext, FlagSet.declaredBy_markedEnums hparse hlower hds⟩

-- ── A flag type ──────────────────────────────────────────────────────────────────

/-- An enum marked as a set of three flags. -/
def privilegeModes : String :=
  "enum Mode \x7b\n" ++
  "  option (bitmap) = true;\n" ++
  "  M = 0;\n" ++
  "  S = 1;\n" ++
  "  U = 2;\n" ++
  "\x7d\n"

/-- The flag type that is declared for that enum. -/
theorem flagTypes_privilegeModes :
    ∃ text low ds ident, (accessorsOf privilegeModes).result = .ok text ∧
      (lower privilegeModes).result = .ok low ∧ low.schema.declarations.result = .ok ds ∧
      allFlagTypes ds = [.flags ident .uint32 [(⟨"M", false⟩, 1), (⟨"S", false⟩, 2), (⟨"U", false⟩, 4)]
        [("M", 1), ("S", 2), ("U", 4)]] := by
  obtain ⟨low, hlow, hds⟩ : ∃ low, (lower privilegeModes).result = .ok low ∧ low.schema.declarations.result =
      .ok [.flags ⟨"Mode", false⟩ .uint32 [(⟨"M", false⟩, 1), (⟨"S", false⟩, 2), (⟨"U", false⟩, 4)]
        [("M", 1), ("S", 2), ("U", 4)]] := by
    refine lower_of_sameAll ?_
    rw [lower_eq]
    delta privilegeModes
    simp only [String.toList_append, String.reduceToList]
    decide +kernel
  obtain ⟨text, htext⟩ := accessorsOf_ok hlow hds
  exact ⟨text, low, _, _, htext, hlow, hds, rfl⟩

end FlagSchema
