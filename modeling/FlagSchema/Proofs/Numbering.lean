import FlagSchema.Proofs.Offences

/-!
# How flags are numbered

A set of flags numbers its values anew: the empty set is zero, and the values take the powers of two in the
order of their declaration, whatever numbers they had. The storage type is the narrower one for as long as
the next power of two has room in it.

* **`EnumValue.asFlags_eq_mapIdx`**: the values of a set of flags.
* **`Scalar.forFlagCount?_eq`**: the storage type by the next free value.
* **`EnumDef.Renumbered`**: what a marked enum has become, **`lower_renumbered`**.
-/

namespace FlagSchema

/-- Values as flags are the same values with powers of two for numbers. -/
theorem EnumValue.asFlags_eq_mapIdx {index : Nat} {vs : List EnumValue} (h : index + vs.length ≤ 64) :
    asFlags index vs = vs.mapIdx fun i v => { v with number := 2 ^ (index + i) } := by
  induction vs generalizing index with
  | nil => rfl
  | cons v vs ih =>
      rw [List.length_cons] at h
      have hbit : ((flagBit index).toNat : Int) = 2 ^ index := by
        rw [toNat_flagBit (by omega)]
        exact Nat.cast_pow 2 index
      have hrest : asFlags (index + 1) vs = vs.mapIdx fun i v => { v with number := 2 ^ (index + 1 + i) } :=
        ih (by omega)
      rw [asFlags, hbit, hrest, List.mapIdx_cons]
      simp only [Nat.add_zero, Nat.add_assoc, Nat.add_comm 1]

namespace Scalar

variable {count : Nat} {width : Scalar}

/-- Few enough flags have a storage type, which the value of the next flag tells. -/
theorem forFlagCount?_eq (h : count ≤ 64) :
    forFlagCount? count = some (if 2 ^ count < 2 ^ 32 then uint32 else uint64) := by
  have hnarrow : 2 ^ count < 2 ^ 32 ↔ count < 32 := Nat.pow_lt_pow_iff_right (by decide)
  unfold forFlagCount?
  split
  · next hcount => rw [if_pos (hnarrow.mpr hcount)]
  · next hcount => rw [if_pos (show count ≤ maxFlags from h), if_neg fun hlt => hcount (hnarrow.mp hlt)]

theorem le_of_forFlagCount? (h : forFlagCount? count = some width) : count ≤ 64 := by
  by_contra hmany
  rw [EnumDef.forFlagCount?_eq_none_iff.mpr (Nat.lt_of_not_le hmany)] at h
  cases h

end Scalar

namespace EnumDef

/-- A marked enum has become a set of flags: the empty set and the declared values in their order, renumbered by
    the powers of two and otherwise as they were, in a storage type with room for them; the options are those
    that are neither markers nor `allow_alias`. -/
structure Renumbered (declared now : EnumDef) (width : Scalar) : Prop where
  name     : now.name = declared.name
  few      : declared.values.length ≤ 64
  empty    : ∃ v, now.values.head? = some v ∧ v.name = "None" ∧ v.number = 0 ∧ v.settings = []
  values   : now.values.tail = declared.values.mapIdx fun i v => { v with number := 2 ^ i }
  nonzero  : ∀ v ∈ now.values.tail, v.number ≠ 0
  distinct : (now.values.map EnumValue.number).Nodup
  storage  : now.storage = some width
  narrow   : width = if 2 ^ declared.values.length < 2 ^ 32 then .uint32 else .uint64
  room     : ∀ v ∈ now.values, 0 ≤ v.number ∧ v.number < width.capacity
  settings : now.settings = declared.settings.filter fun s => !s.marksFlags && s.name != "allow_alias"

/-- The numbers of renumbered values are powers of two. -/
theorem numbers_mapIdx (vs : List EnumValue) :
    (vs.mapIdx fun i v => { v with number := 2 ^ i }).map EnumValue.number =
      (List.range vs.length).map fun i => (2 : Int) ^ i := by
  apply List.ext_getElem
  · simp
  · intro i h h'
    simp

/-- Zero and the powers of two are different numbers. -/
theorem nodup_numbers (n : Nat) : ((0 : Int) :: (List.range n).map fun i => (2 : Int) ^ i).Nodup := by
  have hinj : Function.Injective fun i : Nat => (2 : Int) ^ i := Int.pow_right_injective (by decide)
  refine List.nodup_cons.mpr ⟨fun h => ?_, List.nodup_range.map hinj⟩
  obtain ⟨i, -, hi⟩ := List.mem_map.mp h
  exact pow_ne_zero i (by decide) hi

/-- **A marked enum that can be stored is renumbered.** -/
theorem renumbered_asFlags {e : EnumDef} {fullName : String} {width : Scalar} (hmark : e.marksFlags = true)
    (h : e.flagStorage fullName = .ok width) : e.Renumbered e.asFlags width := by
  have hstorage := flagStorage_inv h
  have hfew := Scalar.le_of_forFlagCount? hstorage
  have hvalues : EnumValue.asFlags 0 e.values = e.values.mapIdx fun i v => { v with number := 2 ^ i } := by
    rw [EnumValue.asFlags_eq_mapIdx (by omega)]
    simp only [Nat.zero_add]
  have hnumbers : (EnumValue.asFlags 0 e.values).map EnumValue.number =
      (List.range e.values.length).map fun i => (2 : Int) ^ i := by
    rw [hvalues, numbers_mapIdx]
  have hroom : ∀ v ∈ EnumValue.asFlags 0 e.values, 0 < v.number ∧ v.number < width.capacity := by
    intro v hv
    obtain ⟨i, hi, hnumber⟩ := List.mem_map.mp (hnumbers ▸ List.mem_map_of_mem hv)
    have hbit := flagBit_lt_capacity hstorage (List.mem_range.mp hi)
    rw [toNat_flagBit (Nat.lt_of_lt_of_le (List.mem_range.mp hi) hfew)] at hbit
    rw [← hnumber]
    exact_mod_cast hbit
  have hnow : e.asFlags = { e with
      values := .emptySet :: EnumValue.asFlags 0 e.values, settings := e.settings.filter Setting.isKept,
      storage := Scalar.forFlagCount? e.values.length } := by
    rw [asFlags, if_pos hmark]
  rw [hnow]
  constructor
  case name => rfl
  case few => exact hfew
  case empty => exact ⟨_, rfl, rfl, rfl, rfl⟩
  case values => exact hvalues
  case nonzero => exact fun v hv => (hroom v hv).1.ne'
  case distinct =>
      rw [List.map_cons, hnumbers]
      exact nodup_numbers _
  case storage => exact hstorage
  case narrow =>
      rw [Scalar.forFlagCount?_eq hfew] at hstorage
      exact (Option.some.inj hstorage).symm
  case room =>
      intro v hv
      rcases List.mem_cons.mp hv with rfl | hv
      · refine ⟨le_refl _, ?_⟩
        unfold Scalar.capacity
        split <;> decide
      · exact ⟨(hroom v hv).1.le, (hroom v hv).2⟩
  case settings => rfl

end EnumDef

/-- **Every marked enum of a source that is lowered is renumbered**, whatever the numbers, signs or aliases of its
    values, and every other enum stays as it is. -/
theorem lower_renumbered {source : String} {low : Lowered} (h : (lower source).result = .ok low) :
    ∃ s, Schema.parse source = .ok s ∧
      List.Forall₂ (fun x y => y.1 = x.1 ∧ (x.2.marksFlags = true → ∃ width, x.2.Renumbered y.2 width) ∧
          (x.2.marksFlags = false → y.2 = x.2))
        s.enumsIn low.schema.enumsIn := by
  obtain ⟨s, hparse, hlow⟩ := lower_inv h
  obtain ⟨hsets, -⟩ := Schema.report_lower hlow
  refine ⟨s, hparse, ?_⟩
  rw [Schema.enumsIn_lower hlow, List.forall₂_map_right_iff, List.forall₂_same]
  intro x hx
  refine ⟨rfl, fun hmark => ?_, fun hmark => ?_⟩
  · obtain ⟨set, -, width, hwidth, -⟩ := exists_right_of_forall₂ hsets (List.mem_filter.mpr ⟨hx, hmark⟩)
    exact ⟨width, EnumDef.renumbered_asFlags hmark hwidth⟩
  · rw [EnumDef.asFlags, hmark, if_neg Bool.false_ne_true]

/-- A set of flags with aliases and a negative number, two markers and an option that stays. -/
def aliasedTraps : String :=
  "enum Trap \x7b\n" ++
  "  option (bitmap) = true;\n" ++
  "  option allow_alias = true;\n" ++
  "  option (riscv.bitmap) = 1;\n" ++
  "  option deprecated = true;\n" ++
  "  BREAK = 3 [deprecated = true];\n" ++
  "  DEBUG = -1;\n" ++
  "  STEP = 3;\n" ++
  "\x7d\n"

/-- Its values are numbered 1, 2 and 4 behind the empty set. -/
theorem lower_renumbered_aliasedTraps :
    ∃ low s x y width, (lower aliasedTraps).result = .ok low ∧ Schema.parse aliasedTraps = .ok s ∧
      s.enumsIn = [x] ∧ low.schema.enumsIn = [y] ∧
      x.2.values.map EnumValue.number = [3, -1, 3] ∧
      y.2.values.map (fun v => (v.name, v.number)) = [("None", 0), ("BREAK", 1), ("DEBUG", 2), ("STEP", 4)] ∧
      y.2.settings.map Setting.name = ["deprecated"] ∧ x.2.Renumbered y.2 width := by
  have hread : (Schema.parse aliasedTraps).toOption.map (fun s => s.enumsIn.map fun x =>
      (x.2.marksFlags, x.2.values.map EnumValue.number)) = some [(true, [3, -1, 3])] := by
    rw [Schema.parse_eq]
    delta aliasedTraps
    simp only [String.toList_append, String.reduceToList]
    decide +kernel
  have hlowered : (lower aliasedTraps).result.toOption.map (fun low => low.schema.enumsIn.map fun y =>
      (y.2.values.map (fun v => (v.name, v.number)), y.2.settings.map Setting.name)) =
        some [([("None", 0), ("BREAK", 1), ("DEBUG", 2), ("STEP", 4)], ["deprecated"])] := by
    rw [lower_eq]
    delta aliasedTraps
    simp only [String.toList_append, String.reduceToList]
    decide +kernel
  cases h : (lower aliasedTraps).result with
  | error e => rw [h] at hlowered; cases hlowered
  | ok low =>
      obtain ⟨s, hparse, henums⟩ := lower_renumbered h
      rw [hparse] at hread
      rw [h] at hlowered
      obtain ⟨x, hx, hnumbers⟩ := List.map_eq_singleton_iff.mp (Option.some.inj hread)
      obtain ⟨y, hy, hvalues⟩ := List.map_eq_singleton_iff.mp (Option.some.inj hlowered)
      obtain ⟨hmark, hnumbers⟩ := Prod.mk.inj hnumbers
      obtain ⟨hvalues, hsettings⟩ := Prod.mk.inj hvalues
      rw [hx, hy] at henums
      obtain ⟨⟨-, hflags, -⟩, -⟩ := List.forall₂_cons.mp henums
      obtain ⟨width, hwidth⟩ := hflags hmark
      exact ⟨low, s, x, y, width, rfl, hparse, hx, hy, hnumbers, hvalues, hsettings, hwidth⟩

end FlagSchema
