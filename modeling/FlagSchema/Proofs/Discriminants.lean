import FlagSchema.Proofs.Accessors
import FlagSchema.Proofs.EnumCode
import FlagSchema.Proofs.Reports

/-!
# The numbers of plain enums

A plain enum has a variant for each number that its values declare, named by the first value that has it. The
variants hold their numbers in 32 bits. Numbers that have more are cut, and then two variants may share one,
though the values were compared before.

* **`EnumDef.firstValues`**: of the values with one number the first.
* **`EnumDef.Numbers`**: variants have the numbers of an enum, and numbers are read as they should be.
* **`EnumDef.numbers_iff`**: they have if and only if every declared number has 32 bits.
* **`accessorsOf_discriminants`**: both, for every plain enum in the accessors.
* **`accessorsOf_discriminants_clash`**: an enum with two variants of one number.
-/

namespace FlagSchema

open Declaration

/-- A number has 32 bits, one of them for the sign. -/
def IsInt32 (n : Int) : Prop := -2 ^ 31 ≤ n ∧ n < 2 ^ 31

/-- The value that is stored of a number in 32 bits. -/
def cutToInt32 (n : Int) : Int := n.bmod (2 ^ 32)

theorem isInt32_cutToInt32 (n : Int) : IsInt32 (cutToInt32 n) := by
  have hlow := Int.le_bmod (x := n) (m := 2 ^ 32) (by decide)
  have hhigh := Int.bmod_lt (x := n) (m := 2 ^ 32) (by decide)
  rw [IsInt32, cutToInt32]
  omega

/-- Exactly the numbers of 32 bits are stored as they are. -/
theorem cutToInt32_eq_self_iff {n : Int} : cutToInt32 n = n ↔ IsInt32 n := by
  constructor
  · intro h
    rw [← h]
    exact isInt32_cutToInt32 n
  · rintro ⟨hlow, hhigh⟩
    exact Int.bmod_eq_of_le (by omega) (by omega)

/-- Numbers are stored alike if their last 32 bits are the same. -/
theorem cutToInt32_eq_iff {m n : Int} : cutToInt32 m = cutToInt32 n ↔ m % 2 ^ 32 = n % 2 ^ 32 := by
  unfold cutToInt32 Int.bmod
  have := Int.emod_nonneg m (b := 2 ^ 32) (by decide)
  have := Int.emod_nonneg n (b := 2 ^ 32) (by decide)
  have := Int.emod_lt_of_pos m (b := 2 ^ 32) (by decide)
  have := Int.emod_lt_of_pos n (b := 2 ^ 32) (by decide)
  simp only [Nat.cast_pow, Nat.cast_ofNat]
  split <;> split <;> omega

-- ── First values ─────────────────────────────────────────────────────────────────

namespace EnumValue

/-- Of the values with one number the first, but for numbers seen before. -/
def firstsFrom (seen : List Int) : List EnumValue → List EnumValue
  | []      => []
  | v :: vs =>
    if seen.contains v.number then firstsFrom seen vs else v :: firstsFrom (v.number :: seen) vs

variable {seen : List Int} {vs : List EnumValue}

theorem mem_of_mem_firstsFrom {v : EnumValue} (h : v ∈ firstsFrom seen vs) : v ∈ vs ∧ v.number ∉ seen := by
  induction vs generalizing seen with
  | nil => cases h
  | cons w vs ih =>
      rw [firstsFrom] at h
      split at h
      · exact ⟨List.mem_cons_of_mem _ (ih h).1, (ih h).2⟩
      · next hw =>
          rcases List.mem_cons.mp h with rfl | h
          · exact ⟨List.mem_cons_self .., fun hmem => hw (List.contains_iff_mem.mpr hmem)⟩
          · exact ⟨List.mem_cons_of_mem _ (ih h).1, fun hmem => (ih h).2 (List.mem_cons_of_mem _ hmem)⟩

/-- First values have different numbers. -/
theorem nodup_firstsFrom (seen : List Int) (vs : List EnumValue) :
    ((firstsFrom seen vs).map EnumValue.number).Nodup := by
  induction vs generalizing seen with
  | nil => exact List.nodup_nil
  | cons v vs ih =>
      rw [firstsFrom]
      split
      · exact ih seen
      · rw [List.map_cons, List.nodup_cons]
        refine ⟨fun h => ?_, ih _⟩
        obtain ⟨w, hw, hnumber⟩ := List.mem_map.mp h
        exact (mem_of_mem_firstsFrom hw).2 (hnumber ▸ List.mem_cons_self ..)

/-- The first of some values with a number. -/
def firstWith? (n : Int) (vs : List EnumValue) : Option EnumValue := vs.find? fun v => v.number == n

/-- A value is looked up by its number among the first values as among all of them. -/
theorem find?_firstsFrom {p : Int → Bool} (h : ∀ n ∈ seen, p n = false) :
    (firstsFrom seen vs).find? (fun v => p v.number) = vs.find? fun v => p v.number := by
  induction vs generalizing seen with
  | nil => rfl
  | cons v vs ih =>
      rw [firstsFrom, List.find?_cons]
      cases hv : p v.number with
      | true =>
          have hnew : ¬ seen.contains v.number = true := fun hc => by
            rw [h _ (List.contains_iff_mem.mp hc)] at hv
            cases hv
          rw [if_neg hnew, List.find?_cons, hv]
      | false =>
          split
          · exact ih h
          · rw [List.find?_cons, hv]
            exact ih fun n hn => (List.mem_cons.mp hn).elim (fun heq => heq ▸ hv) (h n)

/-- The first value with a number is one of the first values. -/
theorem firstWith?_firstsFrom {n : Int} (h : n ∉ seen) : firstWith? n (firstsFrom seen vs) = firstWith? n vs :=
  find?_firstsFrom (p := (· == n)) fun _ hm => beq_eq_false_iff_ne.mpr fun heq => h (heq ▸ hm)

/-- A declared number is that of one of the first values. -/
theorem exists_firstWith? {v : EnumValue} (h : v ∈ vs) :
    ∃ w, firstWith? v.number vs = some w ∧ w.number = v.number := by
  have hsome : (firstWith? v.number vs).isSome = true := List.find?_isSome.mpr ⟨v, h, beq_self_eq_true _⟩
  obtain ⟨w, hw⟩ := Option.isSome_iff_exists.mp hsome
  have hnumber := List.find?_some hw
  exact ⟨w, hw, beq_iff_eq.mp hnumber⟩

end EnumValue

/-- Of the values of an enum with one number the first. -/
def EnumDef.firstValues (e : EnumDef) : List EnumValue := EnumValue.firstsFrom [] e.values

-- ── Variants ─────────────────────────────────────────────────────────────────────

/-- A variant is made of a value: it has the identifier of its name, and its number cut to 32 bits. -/
def Variant.IsOf (v : EnumValue) (x : Variant) : Prop :=
  Ident.ofName? v.name = some x.ident ∧ x.number = cutToInt32 v.number

/-- **The variants of an enum are made of its first values.** -/
theorem Generator.variants_inv {fullName : String} {seen : List Int} {vs : List EnumValue} {xs : List Variant}
    (h : (variants fullName seen vs).result = .ok xs) :
    List.Forall₂ Variant.IsOf (EnumValue.firstsFrom seen vs) xs := by
  induction vs generalizing seen xs with
  | nil => cases h; exact .nil
  | cons v vs ih =>
      rw [variants] at h
      rw [EnumValue.firstsFrom]
      split at h
      · next hseen =>
          obtain ⟨-, -, h⟩ := Traced.bind_eq_ok.mp h
          rw [if_pos hseen]
          exact ih h
      · next hseen =>
          obtain ⟨ident, hident, h⟩ := Traced.bind_eq_ok.mp h
          obtain ⟨others, hothers, h⟩ := Traced.bind_eq_ok.mp h
          cases h
          rw [if_neg hseen]
          exact .cons ⟨identOf_inv hident, rfl⟩ (ih hothers)

/-- Variants have the numbers of an enum: different numbers of 32 bits, each that of the value which the variant
    is named after. Every declared number is read as the variant of the first value with it, and so every variant
    is read back from its own number. -/
structure EnumDef.Numbers (e : EnumDef) (variants : List Variant) : Prop where
  distinct : (variants.map Variant.number).Nodup
  small    : ∀ x ∈ variants, IsInt32 x.number
  declared : List.Forall₂ (fun v x => Ident.ofName? v.name = some x.ident ∧ x.number = v.number)
    e.firstValues variants
  reads    : ∀ v ∈ e.values, ∃ w x, EnumValue.firstWith? v.number e.values = some w ∧
    Ident.ofName? w.name = some x.ident ∧ Variant.ofNumber? variants v.number = some x
  back     : ∀ x ∈ variants, Variant.ofNumber? variants x.number = some x

namespace EnumDef

variable {e : EnumDef} {xs : List Variant}

/-- The first value with a declared number is one of the first values. -/
theorem exists_firstValue {v : EnumValue} (h : v ∈ e.values) :
    ∃ w ∈ e.firstValues, w.number = v.number ∧ EnumValue.firstWith? v.number e.values = some w := by
  obtain ⟨w, hw, hnumber⟩ := EnumValue.exists_firstWith? h
  have hfirst : EnumValue.firstWith? v.number e.firstValues = some w := by
    rw [firstValues, EnumValue.firstWith?_firstsFrom List.not_mem_nil]
    exact hw
  exact ⟨w, List.mem_of_find?_eq_some hfirst, hnumber, hw⟩

/-- The numbers of variants are those of the first values, cut to 32 bits. -/
theorem map_number_of_isOf {vs : List EnumValue} (h : List.Forall₂ Variant.IsOf vs xs) :
    xs.map Variant.number = vs.map fun v => cutToInt32 v.number := by
  induction h with
  | nil => rfl
  | cons hx _ ih => rw [List.map_cons, List.map_cons, ih, hx.2]

/-- The variants of an enum have different numbers if and only if no two numbers that it declares have the same
    last 32 bits. -/
theorem nodup_numbers_iff (h : List.Forall₂ Variant.IsOf e.firstValues xs) :
    (xs.map Variant.number).Nodup ↔
      ∀ v ∈ e.values, ∀ w ∈ e.values, v.number % 2 ^ 32 = w.number % 2 ^ 32 → v.number = w.number := by
  have hdistinct : (e.firstValues.map EnumValue.number).Nodup := EnumValue.nodup_firstsFrom [] e.values
  have hnumbers : xs.map Variant.number = (e.firstValues.map EnumValue.number).map cutToInt32 := by
    rw [map_number_of_isOf h, List.map_map]
    rfl
  rw [hnumbers, List.nodup_map_iff_inj_on hdistinct]
  have hmem : ∀ v ∈ e.values, v.number ∈ e.firstValues.map EnumValue.number := by
    intro v hv
    obtain ⟨w, hw, hnumber, -⟩ := exists_firstValue hv
    exact hnumber ▸ List.mem_map_of_mem hw
  constructor
  · intro hinj v hv w hw heq
    exact hinj _ (hmem v hv) _ (hmem w hw) (cutToInt32_eq_iff.mpr heq)
  · intro hinj m hm n hn heq
    obtain ⟨v, hv, rfl⟩ := List.mem_map.mp hm
    obtain ⟨w, hw, rfl⟩ := List.mem_map.mp hn
    exact hinj v (EnumValue.mem_of_mem_firstsFrom hv).1 w (EnumValue.mem_of_mem_firstsFrom hw).1
      (cutToInt32_eq_iff.mp heq)

/-- Among variants with different numbers each is read back from its own. -/
theorem ofNumber?_of_mem (h : (xs.map Variant.number).Nodup) {x : Variant} (hx : x ∈ xs) :
    Variant.ofNumber? xs x.number = some x := by
  induction xs with
  | nil => cases hx
  | cons y ys ih =>
      rw [List.map_cons, List.nodup_cons] at h
      rw [Variant.ofNumber?, List.find?_cons]
      rcases List.mem_cons.mp hx with rfl | hx
      · rw [beq_self_eq_true]
      · have hne : y.number ≠ x.number := fun heq => h.1 (heq ▸ List.mem_map_of_mem hx)
        rw [beq_eq_false_iff_ne.mpr hne]
        exact ih h.2 hx

/-- **Variants made of the first values of an enum have its numbers if and only if each of these has 32 bits.** -/
theorem numbers_iff (h : List.Forall₂ Variant.IsOf e.firstValues xs) :
    e.Numbers xs ↔ ∀ v ∈ e.values, IsInt32 v.number := by
  constructor
  · intro hnumbers v hv
    obtain ⟨w, hw, hnumber, -⟩ := exists_firstValue hv
    obtain ⟨x, hx, -, heq⟩ := exists_right_of_forall₂ hnumbers.declared hw
    rw [← hnumber, ← heq]
    exact hnumbers.small x hx
  · intro hsmall
    have huncut : ∀ v ∈ e.values, cutToInt32 v.number = v.number := fun v hv =>
      cutToInt32_eq_self_iff.mpr (hsmall v hv)
    have hdistinct : (xs.map Variant.number).Nodup := by
      rw [nodup_numbers_iff h]
      intro v hv w hw heq
      rw [← huncut v hv, ← huncut w hw]
      exact cutToInt32_eq_iff.mpr heq
    have hdeclared : List.Forall₂ (fun v x => Ident.ofName? v.name = some x.ident ∧ x.number = v.number)
        e.firstValues xs := by
      have hsame : List.Forall₂ Eq e.firstValues e.firstValues := List.forall₂_same.mpr fun _ _ => rfl
      refine forall₂_of_common hsame h fun v hv w x heq hx => ?_
      rw [← heq]
      exact ⟨hx.1, hx.2.trans (huncut v (EnumValue.mem_of_mem_firstsFrom hv).1)⟩
    constructor
    case distinct => exact hdistinct
    case declared => exact hdeclared
    case back => exact fun x hx => ofNumber?_of_mem hdistinct hx
    case small =>
        intro x hx
        obtain ⟨v, -, -, hnumber⟩ := exists_left_of_forall₂ h hx
        rw [hnumber]
        exact isInt32_cutToInt32 _
    case reads =>
        intro v hv
        obtain ⟨w, hw, hnumber, hfirst⟩ := exists_firstValue hv
        obtain ⟨x, hx, hident, heq⟩ := exists_right_of_forall₂ hdeclared hw
        refine ⟨w, x, hfirst, hident, ?_⟩
        rw [← hnumber, ← heq]
        exact ofNumber?_of_mem hdistinct hx

end EnumDef

-- ── Plain enums in the accessors ─────────────────────────────────────────────────

/-- A declaration is that of a plain enum: it has the identifier of its name, and variants made of its first
    values. -/
def EnumDef.DeclaredBy (e : EnumDef) (d : Declaration) : Prop :=
  ∃ ident first others, d = .enum ident first others ∧ Ident.ofName? e.name = some ident ∧
    List.Forall₂ Variant.IsOf e.firstValues (first :: others)

theorem Generator.enumOf_inv {fullName : String} {e : EnumDef} {d : Declaration}
    (h : (enumOf fullName e).result = .ok d) : e.DeclaredBy d := by
  obtain ⟨ident, hident, h⟩ := Traced.bind_eq_ok.mp h
  obtain ⟨xs, hxs, h⟩ := Traced.bind_eq_ok.mp h
  cases xs with
  | nil => cases h
  | cons first others =>
      cases h
      exact ⟨ident, first, others, rfl, identOf_inv hident, variants_inv hxs⟩

namespace Schema

variable {source : String} {s : Schema} {low : Lowered} {ds : List Declaration}

/-- Every enum that is not marked is declared in its module. -/
theorem exists_at_of_plain (hparse : Schema.parse source = .ok s) (h : (s.lower source.toList).result = .ok low)
    (hds : low.schema.declarations.result = .ok ds) {t : PlacedType} {e : EnumDef} (ht : t ∈ s.typesIn)
    (he : t.type = .enum e) (hmark : e.marksFlags = false) :
    ∃ path d, Ident.AreOf t.module path ∧ At ds path d ∧ e.DeclaredBy d := by
  rw [(declarations_lower hparse h).2] at hds
  have hplain : e.asFlags = e := by rw [EnumDef.asFlags, hmark, if_neg Bool.false_ne_true]
  have hstorage : e.storage = none :=
    ((written_parse hparse).of_enumsIn _ (mem_enumsIn_of_typesIn ht he)).storage
  have hmem : t.mapEnums EnumDef.asFlags ∈ (s.mapEnums EnumDef.asFlags).typesIn := by
    rw [typesIn_mapEnums]
    exact List.mem_map_of_mem ht
  obtain ⟨names, path, d, hmodule, hpath, hd, hat, -⟩ := declarations_stand hds _ hmem
  refine ⟨path, d, ?_, hat, ?_⟩
  · rw [List.nil_append] at hmodule
    exact hmodule ▸ hpath
  · obtain ⟨scope, module, type⟩ := t
    cases he
    have hd : (Generator.enumOrFlagsOf scope e.asFlags).result = .ok d := hd
    rw [hplain, Generator.enumOrFlagsOf, hstorage] at hd
    exact Generator.enumOf_inv hd

/-- Every plain enum that is declared is that of an enum which is not marked. -/
theorem exists_plain_of_at (hparse : Schema.parse source = .ok s) (h : (s.lower source.toList).result = .ok low)
    (hds : low.schema.declarations.result = .ok ds) {path : List Ident} {ident : Ident} {first : Variant}
    {others : List Variant} (hat : At ds path (.enum ident first others)) :
    ∃ t ∈ s.typesIn, ∃ e, t.type = .enum e ∧ e.marksFlags = false ∧ Ident.AreOf t.module path ∧
      e.DeclaredBy (.enum ident first others) := by
  rw [(declarations_lower hparse h).2] at hds
  obtain ⟨u, hu, hpath, hd⟩ := exists_type_of_at hds hat rfl
  rw [typesIn_mapEnums] at hu
  obtain ⟨⟨scope, module, type⟩, ht, rfl⟩ := List.mem_map.mp hu
  cases type with
  | message m =>
      have hdefinition := (Generator.definitionOf_inv hd).2
      cases hdefinition
  | enum e =>
      have henum := mem_enumsIn_of_typesIn ht rfl
      have hread : ∀ x ∈ s.enumsIn, x.2.storage = none := fun x hx =>
        ((written_parse hparse).of_enumsIn x hx).storage
      have hd : (Generator.enumOrFlagsOf scope e.asFlags).result = .ok (.enum ident first others) := hd
      have hstored : e.asFlags.storage.isSome = e.marksFlags := storage_lower hread h _ henum
      cases hstorage : e.asFlags.storage with
      | some width =>
          rw [Generator.enumOrFlagsOf, hstorage] at hd
          obtain ⟨i, idents, -, -, heq⟩ := Generator.flagsOf_inv rfl hd
          cases heq
      | none =>
          have hmark : e.marksFlags = false := by rw [← hstored, hstorage]; rfl
          have hplain : e.asFlags = e := by rw [EnumDef.asFlags, hmark, if_neg Bool.false_ne_true]
          rw [Generator.enumOrFlagsOf, hstorage, hplain] at hd
          exact ⟨_, ht, e, rfl, hmark, hpath, Generator.enumOf_inv hd⟩

end Schema

/-- Variants are those of a plain enum: each is made of the first value with its number. They have the numbers of
    the enum if and only if these have 32 bits, and different numbers if and only if different numbers of the
    enum differ in their last 32 bits. -/
def EnumDef.HasVariants (e : EnumDef) (xs : List Variant) : Prop :=
  List.Forall₂ Variant.IsOf e.firstValues xs ∧ (∀ x ∈ xs, IsInt32 x.number) ∧
    (e.Numbers xs ↔ ∀ v ∈ e.values, IsInt32 v.number) ∧
    ((xs.map Variant.number).Nodup ↔
      ∀ v ∈ e.values, ∀ w ∈ e.values, v.number % 2 ^ 32 = w.number % 2 ^ 32 → v.number = w.number)

theorem EnumDef.hasVariants_of_isOf {e : EnumDef} {xs : List Variant}
    (h : List.Forall₂ Variant.IsOf e.firstValues xs) : e.HasVariants xs := by
  refine ⟨h, fun x hx => ?_, numbers_iff h, nodup_numbers_iff h⟩
  obtain ⟨v, -, -, hnumber⟩ := exists_left_of_forall₂ h hx
  rw [hnumber]
  exact isInt32_cutToInt32 _

/-- **The variants of every plain enum have the numbers that it declares if and only if these have 32 bits.**
    Every enum that is not marked is declared in its module, and no other enum is declared as a plain one. The code
    shows the variants with their numbers as discriminants, and a `match` that reads every number so. -/
theorem accessorsOf_discriminants {source text : String} (h : (accessorsOf source).result = .ok text) :
    ∃ s low ds, Schema.parse source = .ok s ∧ (lower source).result = .ok low ∧
      low.schema.declarations.result = .ok ds ∧
      text = Schema.accessorsHeader ++ CodeTree.renderAll (allCode ds) ++ "\n" ∧
      (∀ t ∈ s.typesIn, ∀ e, t.type = .enum e → e.marksFlags = false →
        ∃ path ident first others, Ident.AreOf t.module path ∧ At ds path (.enum ident first others) ∧
          Ident.ofName? e.name = some ident ∧ e.HasVariants (first :: others)) ∧
      ∀ path ident first others, At ds path (.enum ident first others) →
        (∃ c : EnumCode, c.StandsIn (allCode ds) path ∧ c.Shows ident first others) ∧
        ∃ t ∈ s.typesIn, ∃ e, t.type = .enum e ∧ e.marksFlags = false ∧ Ident.AreOf t.module path ∧
          Ident.ofName? e.name = some ident ∧ e.HasVariants (first :: others) := by
  obtain ⟨low, ds, hlow, hds, htext⟩ := accessorsOf_inv h
  obtain ⟨s, hparse, hlower⟩ := lower_inv hlow
  refine ⟨s, low, ds, hparse, hlow, hds, htext, fun t ht e he hmark => ?_,
    fun path ident first others hat => ?_⟩
  · obtain ⟨path, d, hpath, hat, ident, first, others, rfl, hident, hvariants⟩ :=
      Schema.exists_at_of_plain hparse hlower hds ht he hmark
    exact ⟨path, ident, first, others, hpath, hat, hident, EnumDef.hasVariants_of_isOf hvariants⟩
  · obtain ⟨t, ht, e, he, hmark, hpath, ident', first', others', heq, hident, hvariants⟩ :=
      Schema.exists_plain_of_at hparse hlower hds hat
    cases heq
    exact ⟨hat.exists_enumCode, t, ht, e, he, hmark, hpath, hident, EnumDef.hasVariants_of_isOf hvariants⟩

/-- An enum with an alias and a negative number. -/
def aliasedEnum : String :=
  "enum Xlen \x7b\n" ++
  "  option allow_alias = true;\n" ++
  "  X32 = 0; X64 = 1; RV64 = 1; NEG = -1;\n" ++
  "\x7d\n"

/-- An enum with two numbers that have the same last 32 bits. -/
def wideEnum : String :=
  "enum Xlen \x7b\n" ++
  "  X32 = 0; X64 = 4294967296;\n" ++
  "\x7d\n"

theorem lower_aliasedEnum : ∃ low, (lower aliasedEnum).result = .ok low ∧ low.schema.declarations.result =
    .ok [.enum ⟨"Xlen", false⟩ ⟨⟨"X32", false⟩, 0⟩ [⟨⟨"X64", false⟩, 1⟩, ⟨⟨"NEG", false⟩, -1⟩]] := by
  refine lower_of_sameAll ?_
  rw [lower_eq]
  delta aliasedEnum
  simp only [String.toList_append, String.reduceToList]
  decide +kernel

theorem lower_wideEnum : ∃ low, (lower wideEnum).result = .ok low ∧ low.schema.declarations.result =
    .ok [.enum ⟨"Xlen", false⟩ ⟨⟨"X32", false⟩, 0⟩ [⟨⟨"X64", false⟩, 0⟩]] := by
  refine lower_of_sameAll ?_
  rw [lower_eq]
  delta wideEnum
  simp only [String.toList_append, String.reduceToList]
  decide +kernel

theorem numbers_computed :
    (Schema.parse aliasedEnum).toOption.map (fun s => s.enumsIn.map fun x => x.2.values.map EnumValue.number) =
      some [[0, 1, 1, -1]] ∧
    (Schema.parse wideEnum).toOption.map (fun s => s.enumsIn.map fun x => x.2.values.map EnumValue.number) =
      some [[0, 4294967296]] := by
  rw [Schema.parse_eq, Schema.parse_eq]
  delta aliasedEnum wideEnum
  simp only [String.toList_append, String.reduceToList]
  decide +kernel

/-- The variants of the first enum have its numbers, and the alias is read as the value that it is an alias of. -/
theorem accessorsOf_discriminants_aliasedEnum :
    ∃ text, ∃ first : Variant, ∃ others, (accessorsOf aliasedEnum).result = .ok text ∧
      ((first :: others).map fun x => (x.ident.text, x.number)) = [("X32", 0), ("X64", 1), ("NEG", -1)] ∧
      ∃ s, Schema.parse aliasedEnum = .ok s ∧ ∃ t ∈ s.typesIn, ∃ e, t.type = .enum e ∧
        e.values.map EnumValue.number = [0, 1, 1, -1] ∧ e.Numbers (first :: others) := by
  obtain ⟨hread, -⟩ := numbers_computed
  obtain ⟨low, hlow, hds⟩ := lower_aliasedEnum
  obtain ⟨text, h⟩ := accessorsOf_ok hlow hds
  obtain ⟨s, low', ds, hparse, hlow', hds', -, -, hplain⟩ := accessorsOf_discriminants h
  rw [hlow] at hlow'
  cases hlow'
  rw [hds] at hds'
  cases hds'
  obtain ⟨-, t, ht, e, he, -, -, -, -, -, hnumbers, -⟩ := hplain [] _ _ _ (.here (List.mem_singleton_self _))
  rw [hparse] at hread
  obtain ⟨x, hx, hvalues⟩ := List.map_eq_singleton_iff.mp (Option.some.inj hread)
  have henum : (t.scope, e) = x := by
    have hmem := Schema.mem_enumsIn_of_typesIn ht he
    rw [hx] at hmem
    exact List.mem_singleton.mp hmem
  rw [← henum] at hvalues
  refine ⟨text, _, _, h, rfl, s, hparse, t, ht, e, he, hvalues, hnumbers.mpr fun v hv => ?_⟩
  have hmem : v.number ∈ [0, 1, 1, -1] := hvalues ▸ List.mem_map_of_mem hv
  have hsmall : ∀ n ∈ ([0, 1, 1, -1] : List Int), -2 ^ 31 ≤ n ∧ n < 2 ^ 31 := by decide
  exact hsmall _ hmem

/-- **An enum with different numbers may have variants that share one**, and then the second is never read. -/
theorem accessorsOf_discriminants_clash :
    ∃ text s low ident first second, (accessorsOf wideEnum).result = .ok text ∧
      Schema.parse wideEnum = .ok s ∧ (lower wideEnum).result = .ok low ∧
      low.schema.declarations.result = .ok [.enum ident first [second]] ∧
      s.enumsIn.map (fun x => x.2.values.map EnumValue.number) = [[0, 4294967296]] ∧
      first.ident.text = "X32" ∧ second.ident.text = "X64" ∧ first.number = second.number ∧
      Variant.ofNumber? [first, second] second.number = some first := by
  obtain ⟨-, hread⟩ := numbers_computed
  obtain ⟨low, hlow, hds⟩ := lower_wideEnum
  obtain ⟨text, h⟩ := accessorsOf_ok hlow hds
  obtain ⟨s, hparse, -⟩ := lower_inv hlow
  rw [hparse] at hread
  exact ⟨text, s, low, _, _, _, h, hparse, hlow, hds, Option.some.inj hread, rfl, rfl, rfl, by decide⟩

end FlagSchema
