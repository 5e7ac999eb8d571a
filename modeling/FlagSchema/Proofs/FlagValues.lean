import FlagSchema.Proofs.FlagTexts

/-!
# Values of flag types

A flag type in the accessors is a type of sets of bits, made by a library of the constants that are written
down for it, with words of 32 or 64 bits. It writes a value as a word of 64 bits, and reads one back by
narrowing it to the width and leaving the rest to the library, which refuses bits outside the constants. The
table beside it is written down a second time, with words of 64 bits.

* **`BitSets`**: what is relied on of the library.
* **`BitSets.toBits64`**, **`BitSets.ofBits64?`**: writing and reading a value.
* **`BitSets.evaluate`**: what an expression in the code stands for, **`FlagCode.Converts`**: the bodies of the
  conversions write and read a value so.
* **`Declaration.ReadsBits`**: a flag type with so many flags reads the bits of these flags and no others, as
  its table says.
* **`accessorsOf_readsBits`**: so do all flag types in the accessors of a source.
-/

namespace FlagSchema

open Declaration

-- ── Words ────────────────────────────────────────────────────────────────────────

/-- A number has so many bits if it has no bit from there on. -/
theorem lt_two_pow_iff {n m : Nat} : n < 2 ^ m ↔ ∀ i, n.testBit i = true → i < m := by
  constructor
  · intro h i hi
    by_contra hge
    rw [Nat.testBit_lt_two_pow (Nat.lt_of_lt_of_le h (Nat.pow_le_pow_right (by decide) (Nat.le_of_not_lt hge)))] at hi
    cases hi
  · intro h
    refine Nat.lt_pow_two_of_testBit n fun i hi => ?_
    rw [Bool.eq_false_iff]
    exact fun hbit => absurd (h i hbit) (Nat.not_lt.mpr hi)

/-- The bits of several words. -/
def unionOf {w : Nat} : List (BitVec w) → BitVec w
  | []      => 0
  | c :: cs => c ||| unionOf cs

/-- A bit of several words is one of them. -/
theorem getLsbD_unionOf {w : Nat} {cs : List (BitVec w)} {i : Nat} :
    (unionOf cs).getLsbD i = true ↔ ∃ c ∈ cs, c.getLsbD i = true := by
  induction cs with
  | nil => simp [unionOf]
  | cons c cs ih => simp [unionOf, ih]

/-- A word is inside another if all its bits are. -/
theorem and_not_eq_zero_iff {w : Nat} {a b : BitVec w} :
    a &&& ~~~b = 0 ↔ ∀ i, a.getLsbD i = true → b.getLsbD i = true := by
  constructor
  · intro h i hi
    have hbit := congrArg (BitVec.getLsbD · i) h
    simpa [hi, BitVec.lt_of_getLsbD hi] using hbit
  · intro h
    refine BitVec.eq_of_getLsbD_eq fun i hi => ?_
    cases hbit : a.getLsbD i with
    | false => simp [hbit]
    | true => simp [h i hbit]

/-- A word narrowed to a width, if nothing of it is cut. -/
def narrow? (w : Nat) (bits : UInt64) : Option (BitVec w) :=
  if bits.toNat < 2 ^ w then some (BitVec.ofNat w bits.toNat) else none

-- ── Sets of bits ─────────────────────────────────────────────────────────────────

/-- A type of sets of bits as a library makes it of constants: the empty set, the set of each constant, and
    unions. Its values are told apart by their bits; bits are those of a value unless one of them is outside
    the constants. -/
structure BitSets {w : Nat} (constants : List (BitVec w)) where
  Value    : Type
  bits     : Value → BitVec w
  ofBits?  : BitVec w → Option Value
  empty    : Value
  constant : Fin constants.length → Value
  union    : Value → Value → Value
  bits_injective  : Function.Injective bits
  ofBits?_isSome  : ∀ b, (ofBits? b).isSome = true ↔ b &&& ~~~unionOf constants = 0
  bits_of_ofBits? : ∀ b x, ofBits? b = some x → bits x = b
  bits_empty      : bits empty = 0
  bits_constant   : ∀ i, bits (constant i) = constants[i]
  bits_union      : ∀ x y, bits (union x y) = bits x ||| bits y

namespace BitSets

variable {w : Nat} {constants : List (BitVec w)} (sets : BitSets constants)

/-- The values that are made of constants. -/
inductive Built : sets.Value → Prop where
  | empty : Built sets.empty
  | constant (i : Fin constants.length) : Built (sets.constant i)
  | union {x y : sets.Value} (hx : Built x) (hy : Built y) : Built (sets.union x y)

/-- A value written as a word of 64 bits. -/
def toBits64 (x : sets.Value) : UInt64 := UInt64.ofNat (sets.bits x).toNat

/-- A word of 64 bits read as a value. -/
def ofBits64? (bits : UInt64) : Option sets.Value := (narrow? w bits).bind sets.ofBits?

variable {sets}

/-- A value made of constants has no bits but theirs. -/
theorem Built.inside {x : sets.Value} (h : sets.Built x) :
    ∀ i, (sets.bits x).getLsbD i = true → (unionOf constants).getLsbD i = true := by
  induction h with
  | empty =>
      intro i hi
      rw [sets.bits_empty] at hi
      simp at hi
  | constant c =>
      intro i hi
      rw [sets.bits_constant] at hi
      exact getLsbD_unionOf.mpr ⟨_, List.getElem_mem _, hi⟩
  | union _ _ ihx ihy =>
      intro i hi
      rw [sets.bits_union, BitVec.getLsbD_or, Bool.or_eq_true] at hi
      exact hi.elim (ihx i) (ihy i)

/-- The library reads the bits of a value made of constants as that value. -/
theorem Built.ofBits? {x : sets.Value} (h : sets.Built x) : sets.ofBits? (sets.bits x) = some x := by
  have hsome := (sets.ofBits?_isSome (sets.bits x)).mpr (and_not_eq_zero_iff.mpr h.inside)
  obtain ⟨y, hy⟩ := Option.isSome_iff_exists.mp hsome
  rw [hy, sets.bits_injective (sets.bits_of_ofBits? _ _ hy)]

variable (hw : w ≤ 64)
include hw

theorem toNat_toBits64 (x : sets.Value) : (sets.toBits64 x).toNat = (sets.bits x).toNat :=
  UInt64.toNat_ofNat_of_lt' (Nat.lt_of_lt_of_le (sets.bits x).isLt (Nat.pow_le_pow_right (by decide) hw))

/-- **A value made of constants is read back.** -/
theorem Built.ofBits64? {x : sets.Value} (h : sets.Built x) : sets.ofBits64? (sets.toBits64 x) = some x := by
  have hnarrow : narrow? w (sets.toBits64 x) = some (sets.bits x) := by
    rw [narrow?, toNat_toBits64 hw, if_pos (sets.bits x).isLt, BitVec.ofNat_toNat, BitVec.setWidth_eq]
  rw [BitSets.ofBits64?, hnarrow, Option.bind_some, h.ofBits?]

/-- A word that is read is the one that is written for the value. -/
theorem toBits64_of_ofBits64? {bits : UInt64} {x : sets.Value} (h : sets.ofBits64? bits = some x) :
    sets.toBits64 x = bits := by
  unfold BitSets.ofBits64? narrow? at h
  split at h
  · next hlt =>
      have hbits := sets.bits_of_ofBits? _ _ h
      refine UInt64.toNat_inj.mp ?_
      rw [toNat_toBits64 hw, hbits, BitVec.toNat_ofNat, Nat.mod_eq_of_lt hlt]
  · cases h

omit hw in
/-- The words that are read: they fit the width and have no bits outside the constants. -/
theorem isSome_ofBits64?_iff {bits : UInt64} : (sets.ofBits64? bits).isSome = true ↔
    bits.toNat < 2 ^ w ∧ ∀ i, bits.toNat.testBit i = true → (unionOf constants).getLsbD i = true := by
  unfold BitSets.ofBits64? narrow?
  split
  · next hlt =>
      have hbit : ∀ i, (BitVec.ofNat w bits.toNat).getLsbD i = bits.toNat.testBit i := by
        intro i
        rw [BitVec.getLsbD, BitVec.toNat_ofNat, Nat.mod_eq_of_lt hlt]
      rw [Option.bind_some, sets.ofBits?_isSome, and_not_eq_zero_iff, and_iff_right hlt]
      simp only [hbit]
  · next hlt => exact iff_of_false Bool.false_ne_true fun h => hlt h.1

omit hw in
/-- Sets of bits that are just words. -/
def plain (constants : List (BitVec w)) : BitSets constants where
  Value    := BitVec w
  bits     := id
  ofBits? b := if b &&& ~~~unionOf constants = 0 then some b else none
  empty    := 0
  constant i := constants[i]
  union x y := x ||| y
  bits_injective  := Function.injective_id
  ofBits?_isSome b := by
    split
    · next h => exact iff_of_true rfl h
    · next h => exact iff_of_false Bool.false_ne_true h
  bits_of_ofBits? b x h := by
    split at h
    · exact (Option.some.inj h).symm
    · cases h
  bits_empty      := rfl
  bits_constant _ := rfl
  bits_union _ _  := rfl

end BitSets

-- ── Bodies of conversions ────────────────────────────────────────────────────────

namespace BitSets

variable {w : Nat} {constants : List (BitVec w)}

/-- What an expression in a conversion stands for: a value of the type, the word that holds its bits, or a word of
    64 bits; what comes of narrowing such a word, as a result or as an option; or a value that may not be there. -/
inductive Operand (sets : BitSets constants) where
  | value (x : sets.Value)
  | word (b : BitVec w)
  | wide (b : UInt64)
  | result (b : Option (BitVec w))
  | word? (b : Option (BitVec w))
  | value? (x : Option sets.Value)

variable {sets : BitSets constants}

/-- Goes on with an expression from left to right, one method or cast after the other. -/
def Operand.goOn : Operand sets → Code → Option (Operand sets)
  | o, []                                                                => some o
  | value x, .word "." :: .word "bits" :: .group .parens [] :: rest      => (word (sets.bits x)).goOn rest
  | word b, .word "as" :: .word "u64" :: rest                            => (wide (UInt64.ofNat b.toNat)).goOn rest
  | result b, .word "." :: .word "ok" :: .group .parens [] :: rest       => (word? b).goOn rest
  | word? b, .word "." :: .word "and_then" ::
      .group .parens [.word "Self", .word "::", .word "from_bits"] :: rest => (value? (b.bind sets.ofBits?)).goOn rest
  | _, _                                                                 => none

/-- What the body of a method stands for that has one parameter: it begins with the parameter, or by narrowing it to
    the width that the library asks for. -/
def evaluate (parameter : String) (argument : Operand sets) : Code → Option (Operand sets)
  | .word "::" :: .word "core" :: .word "::" :: .word "convert" :: .word "::" :: .word "TryFrom" :: .word "::" ::
      .word "try_from" :: .group .parens [.word name] :: rest =>
    match argument with
    | .wide b => if name = parameter then (Operand.result (narrow? w b)).goOn rest else none
    | _       => none
  | .word name :: rest => if name = parameter then argument.goOn rest else none
  | _ => none

end BitSets

/-- The bodies of the conversions in the code of a flag type write and read a value, whichever library makes the
    sets. -/
structure FlagCode.Converts (c : FlagCode) {w : Nat} {constants : List (BitVec w)} (sets : BitSets constants) :
    Prop where
  toBits : ∀ x, BitSets.evaluate "self" (.value x) c.toBits = some (.wide (sets.toBits64 x))
  ofBits : ∀ bits, BitSets.evaluate "bits" (.wide bits : BitSets.Operand sets) c.ofBits =
    some (.value? (sets.ofBits64? bits))

/-- **The code of a flag type writes and reads its values.** -/
theorem FlagCode.Shows.converts {c : FlagCode} {ident : Ident} {width : Scalar} {constants : List (Ident × Nat)}
    {table : List (String × Nat)} (h : c.Shows ident width constants table) {w : Nat} {cs : List (BitVec w)}
    (sets : BitSets cs) : c.Converts sets where
  toBits x := by
    rw [h.toBits]
    simp [words, Text.splitAt, parens, BitSets.evaluate, BitSets.Operand.goOn, BitSets.toBits64]
  ofBits bits := by
    rw [h.ofBits]
    simp [words, Text.splitAt, parens, BitSets.evaluate, BitSets.Operand.goOn, BitSets.ofBits64?]

-- ── Flag types ───────────────────────────────────────────────────────────────────

/-- How many bits a storage type of flags has. -/
def Scalar.bitCount (width : Scalar) : Nat :=
  if width = uint32 then 32 else 64

theorem Scalar.two_pow_bitCount (width : Scalar) : 2 ^ width.bitCount = width.capacity := by
  unfold bitCount capacity
  split <;> rfl

theorem Scalar.bitCount_le (width : Scalar) : width.bitCount ≤ 64 := by
  unfold bitCount
  split <;> decide

/-- There is a bit for each flag in the storage type for so many. -/
theorem Scalar.le_bitCount {count : Nat} {width : Scalar} (h : forFlagCount? count = some width) :
    count ≤ width.bitCount := by
  unfold forFlagCount? at h
  split at h
  · next hcount => cases h; exact Nat.le_of_lt hcount
  · split at h
    · next hcount => cases h; exact hcount
    · cases h

namespace EnumValue

variable {vs : List EnumValue}

/-- What some flag is, some bit in a row is. -/
theorem exists_flag_iff {P : UInt64 → Prop} : (∃ f ∈ flags 0 vs, P f.value) ↔ ∃ i < vs.length, P (flagBit i) := by
  have hvalues := map_value_flags 0 vs
  rw [← List.range_eq_range'] at hvalues
  constructor
  · rintro ⟨f, hf, h⟩
    obtain ⟨i, hi, heq⟩ := List.mem_map.mp (hvalues ▸ List.mem_map_of_mem hf)
    exact ⟨i, List.mem_range.mp hi, heq ▸ h⟩
  · rintro ⟨i, hi, h⟩
    obtain ⟨f, hf, heq⟩ := List.mem_map.mp (hvalues.symm ▸ List.mem_map_of_mem (List.mem_range.mpr hi))
    exact ⟨f, hf, heq ▸ h⟩

/-- The bits of flags are those below their number. -/
theorem testBit_union_flags (h : vs.length ≤ 64) (i : Nat) :
    (Flag.union (flags 0 vs)).toNat.testBit i = true ↔ i < vs.length := by
  rw [Flag.testBit_union, @exists_flag_iff vs fun value => value.toNat.testBit i = true]
  constructor
  · rintro ⟨j, hj, hbit⟩
    rw [Flag.testBit_flagBit (by omega)] at hbit
    exact hbit ▸ hj
  · exact fun hi => ⟨i, hi, (Flag.testBit_flagBit (by omega) i).mpr rfl⟩

/-- Of a word, nothing is outside the flags if it is less than the value of the next one. -/
theorem unknownBits_flags_iff (h : vs.length ≤ 64) (bits : UInt64) :
    Flag.unknownBits (flags 0 vs) bits = 0 ↔ bits.toNat < 2 ^ vs.length := by
  rw [Flag.unknownBits_eq_zero_iff, lt_two_pow_iff]
  exact forall_congr' fun i => imp_congr_right fun _ => testBit_union_flags h i

end EnumValue

namespace Declaration

/-- The constants of a flag type as words of its width. -/
def constantWords (width : Scalar) (constants : List (Ident × Nat)) : List (BitVec width.bitCount) :=
  constants.map fun c => BitVec.ofNat width.bitCount c.2

/-- The constants for flags have their values. -/
theorem constantWords_eq (width : Scalar) {fs : List Flag} {constants : List (Ident × Nat)}
    (h : List.Forall₂ (fun f c => Ident.ofName? f.name = some c.1 ∧ c.2 = f.value.toNat) fs constants) :
    constantWords width constants = fs.map fun f => BitVec.ofNat width.bitCount f.value.toNat := by
  unfold constantWords
  induction h with
  | nil => rfl
  | cons hc _ ih => rw [List.map_cons, List.map_cons, ih, hc.2]

/-- The bits of the constants for flags are those below their number. -/
theorem getLsbD_constantWords {width : Scalar} {vs : List EnumValue} {constants : List (Ident × Nat)}
    (h : List.Forall₂ (fun f c => Ident.ofName? f.name = some c.1 ∧ c.2 = f.value.toNat)
      (EnumValue.flags 0 vs) constants) (hfew : vs.length ≤ width.bitCount) (i : Nat) :
    (unionOf (constantWords width constants)).getLsbD i = true ↔ i < vs.length := by
  have hbit : (unionOf (constantWords width constants)).getLsbD i = true ↔
      ∃ f ∈ EnumValue.flags 0 vs, (BitVec.ofNat width.bitCount f.value.toNat).getLsbD i = true := by
    rw [getLsbD_unionOf, constantWords_eq width h]
    simp only [List.mem_map, exists_exists_and_eq_and]
  rw [hbit, @EnumValue.exists_flag_iff vs fun value => (BitVec.ofNat width.bitCount value.toNat).getLsbD i = true]
  have hwidth := width.bitCount_le
  simp only [BitVec.getLsbD_ofNat, Bool.and_eq_true, decide_eq_true_iff]
  constructor
  · rintro ⟨j, hj, -, hi⟩
    rw [Flag.testBit_flagBit (by omega)] at hi
    exact hi ▸ hj
  · exact fun hi => ⟨i, hi, by omega, (Flag.testBit_flagBit (by omega) i).mpr rfl⟩

/-- A flag type of `n` flags reads and writes their bits, whichever library makes the sets: it reads the words
    that fit its width and have no bits outside its table, which are those below `2 ^ n`, each as a value that
    is written as the same word; and it reads back every value that is made of its flags. -/
structure ReadsBits (width : Scalar) (constants : List (Ident × Nat)) (table : List (String × Nat))
    (n : Nat) : Prop where
  stored  : width = .uint32 ∨ width = .uint64
  counted : constants.length = n ∧ table.length = n
  known   : ∀ (sets : BitSets (constantWords width constants)) bits, (sets.ofBits64? bits).isSome = true ↔
    FlagType.fits width bits = true ∧ Flag.unknownBits (Flag.ofTable table) bits = 0
  below   : ∀ (sets : BitSets (constantWords width constants)) bits, (sets.ofBits64? bits).isSome = true ↔
    bits.toNat < 2 ^ n
  written : ∀ (sets : BitSets (constantWords width constants)) bits x, sets.ofBits64? bits = some x →
    sets.toBits64 x = bits
  read    : ∀ (sets : BitSets (constantWords width constants)) x, sets.Built x →
    sets.ofBits64? (sets.toBits64 x) = some x

/-- **The flag type of a marked enum reads and writes the bits of its flags.** -/
theorem ReadsBits.of_declaredFor {x : String × EnumDef} {ident : Ident} {width : Scalar}
    {constants : List (Ident × Nat)} {table : List (String × Nat)}
    (h : FlagSet.DeclaredFor x (.flags ident width constants table)) :
    ReadsBits width constants table x.2.values.length := by
  obtain ⟨hstorage, hconstants, rfl⟩ := FlagSet.declaredFor_inv h
  have hcounted := EnumDef.flagStorage_inv hstorage
  have hfew := Scalar.le_bitCount hcounted
  have hwidth := width.bitCount_le
  have hbelow : ∀ (sets : BitSets (constantWords width constants)) bits,
      (sets.ofBits64? bits).isSome = true ↔ bits.toNat < 2 ^ x.2.values.length := by
    intro sets bits
    rw [BitSets.isSome_ofBits64?_iff, @lt_two_pow_iff bits.toNat x.2.values.length]
    simp only [getLsbD_constantWords hconstants hfew]
    refine and_iff_right_of_imp fun h => ?_
    exact Nat.lt_of_lt_of_le (lt_two_pow_iff.mpr h) (Nat.pow_le_pow_right (by decide) hfew)
  have hcount : (EnumValue.flags 0 x.2.values).length = x.2.values.length := by
    rw [← List.length_map Flag.name, EnumValue.map_name_flags, List.length_map]
  constructor
  case stored => exact Scalar.stored_of_forFlagCount? hcounted
  case counted => exact ⟨hconstants.length_eq.symm.trans hcount, (List.length_map _).trans hcount⟩
  case below => exact hbelow
  case known =>
      intro sets bits
      rw [hbelow, Flag.ofTable_map, EnumValue.unknownBits_flags_iff (hfew.trans hwidth), FlagType.fits,
        decide_eq_true_iff, ← width.two_pow_bitCount]
      refine (and_iff_right_of_imp fun h => ?_).symm
      exact Nat.lt_of_lt_of_le h (Nat.pow_le_pow_right (by decide) hfew)
  case written => exact fun sets bits y => BitSets.toBits64_of_ofBits64? hwidth
  case read => exact fun sets y hy => hy.ofBits64? hwidth

/-- What a flag type reads is what the type of flags with its width and its table has. -/
theorem ReadsBits.ofBits?_eq {width : Scalar} {constants : List (Ident × Nat)} {table : List (String × Nat)} {n : Nat}
    (h : ReadsBits width constants table n) (sets : BitSets (constantWords width constants)) (bits : UInt64) :
    (sets.ofBits64? bits).map sets.toBits64 =
      FlagType.ofBits? { width, flags := Flag.ofTable table } bits := by
  have hiff : (FlagType.fits width bits && Flag.unknownBits (Flag.ofTable table) bits == 0) =
      (sets.ofBits64? bits).isSome := by
    rw [Bool.eq_iff_iff, Bool.and_eq_true, beq_iff_eq, h.known sets bits]
  rw [FlagType.ofBits?, Bool.false_or, hiff]
  cases hread : sets.ofBits64? bits with
  | none => rfl
  | some x => exact congrArg some (h.written sets bits x hread)

end Declaration

/-- **Every flag type in the accessors of a source reads and writes the bits of its flags.** There is one for
    each marked enum, in their order, with a flag for each of its values. It reads exactly the words that fit
    its width and have no bits outside its table, and these are the words below `2 ^ n`; what it reads is
    written as the same word, and every value made of its flags is read back. Its code shows the width, the
    constants and the table, and the bodies of its conversions write and read values so. -/
theorem accessorsOf_readsBits {source text : String} (h : (accessorsOf source).result = .ok text) :
    ∃ s low ds, Schema.parse source = .ok s ∧ (lower source).result = .ok low ∧
      low.schema.declarations.result = .ok ds ∧
      text = Schema.accessorsHeader ++ CodeTree.renderAll (allCode ds) ++ "\n" ∧
      List.Forall₂ (fun x d => ∃ ident width constants table, d = .flags ident width constants table ∧
        ReadsBits width constants table x.2.values.length ∧
        ∃ here, At ds here d ∧ ∃ c : FlagCode, c.StandsIn (allCode ds) here ∧ c.Shows ident width constants table ∧
          ∀ sets : BitSets (constantWords width constants), c.Converts sets) s.markedEnums (allFlagTypes ds) := by
  obtain ⟨s, low, ds, hparse, hlow, hds, htext, htypes⟩ := accessorsOf_flagTypes h
  have hspelled : ∀ x ∈ s.markedEnums, ∀ v ∈ x.2.values, v.Spelled source.toList := fun x hx =>
    Schema.spelled_parse hparse x (List.mem_filter.mp hx).1
  have hplaced := forall₂_and_right ((List.forall₂_and_left _ _).mpr ⟨hspelled, htypes⟩) fun d hd =>
    exists_at_of_allFlagTypes ds hd
  refine ⟨s, low, ds, hparse, hlow, hds, htext, hplaced.imp fun x d hd => ?_⟩
  obtain ⟨⟨hvalues, hdeclared⟩, here, hat⟩ := hd
  have hparts := hdeclared
  obtain ⟨width, -, ident, constants, -, -, rfl⟩ := hparts
  obtain ⟨c, hstands, hshows⟩ := hdeclared.exists_flagCode hvalues hat
  exact ⟨ident, _, constants, _, rfl, .of_declaredFor hdeclared, here, hat, c, hstands, hshows, hshows.converts⟩

/-- The flag type of three privilege modes: it reads the union of all of them, and it refuses a fourth bit and
    what does not fit its width. -/
theorem accessorsOf_readsBits_privilegeModes :
    let constants : List (Ident × Nat) := [(⟨"M", false⟩, 1), (⟨"S", false⟩, 2), (⟨"U", false⟩, 4)]
    let sets := BitSets.plain (constantWords .uint32 constants)
    (accessorsOf privilegeModes).result.isOk = true ∧
      ReadsBits .uint32 constants [("M", 1), ("S", 2), ("U", 4)] 3 ∧
      (sets.ofBits64? 7).map sets.toBits64 = some 7 ∧ ¬ (sets.ofBits64? 8).isSome = true ∧
      ¬ (sets.ofBits64? 0x10000000000).isSome = true := by
  intro constants sets
  obtain ⟨text, low, ds, ident, h, hlow, hds, htypes⟩ := flagTypes_privilegeModes
  obtain ⟨s, low', ds', -, hlow', hds', -, hall⟩ := accessorsOf_readsBits h
  rw [hlow] at hlow'
  cases hlow'
  rw [hds] at hds'
  cases hds'
  rw [htypes] at hall
  obtain ⟨x, -, hx⟩ := exists_left_of_forall₂ hall (List.mem_singleton_self _)
  obtain ⟨ident', width, constants', table, heq, hreads, -⟩ := hx
  cases heq
  have hcount : x.2.values.length = 3 := hreads.counted.1.symm
  rw [hcount] at hreads
  refine ⟨by rw [h]; rfl, hreads, ?_, ?_, ?_⟩
  · rw [hreads.ofBits?_eq sets 7]
    decide
  · rw [hreads.below sets 8]
    decide
  · rw [hreads.below sets 0x10000000000]
    decide

end FlagSchema
