import FlagSchema.Proofs.Reports
import FlagSchema.Proofs.Sessions

/-!
# The bits of flags

Two loops go through a table of flags: one picks the flags that a value has, the other takes the bits of every
flag from the value. A flag is picked if all its bits are set, but each of its bits is taken, so what is picked
and what is left need not be the whole value.

* **`Flag.testBit_union`**: the bits of several flags; **`Flag.unknownBits_eq`**: the residue is what is outside
  them.
* **`Flag.printed`**: the bits that a text shows; **`Flag.lost`**: those that it does not.
* **`Flag.printed_eq_iff`**: no bit is lost if and only if each bit that is set in a declared flag is one of a
  flag whose bits are all set.
* **`Flag.isIn_of_single`**, **`Flag.printed_of_single`**: flags of one bit, where no bit is lost.
-/

namespace FlagSchema

-- ── Bits of words ────────────────────────────────────────────────────────────────

namespace Flag

variable {flags : List Flag} {bits : UInt64}

/-- Words with the same bits are equal. -/
theorem eq_of_testBit {a b : UInt64} (h : ∀ i, a.toNat.testBit i = b.toNat.testBit i) : a = b :=
  UInt64.toNat_inj.mp (Nat.eq_of_testBit_eq h)

theorem testBit_and (a b : UInt64) (i : Nat) :
    (a &&& b).toNat.testBit i = (a.toNat.testBit i && b.toNat.testBit i) := by
  rw [UInt64.toNat_and, Nat.testBit_and]

theorem testBit_or (a b : UInt64) (i : Nat) :
    (a ||| b).toNat.testBit i = (a.toNat.testBit i || b.toNat.testBit i) := by
  rw [UInt64.toNat_or, Nat.testBit_or]

/-- The bits of one word that another has not. -/
theorem testBit_and_not (a b : UInt64) (i : Nat) :
    (a &&& ~~~b).toNat.testBit i = (a.toNat.testBit i && !b.toNat.testBit i) := by
  show (a &&& ~~~b).toBitVec.getLsbD i = (a.toBitVec.getLsbD i && !b.toBitVec.getLsbD i)
  rw [UInt64.toBitVec_and, UInt64.toBitVec_not, BitVec.getLsbD_and, BitVec.getLsbD_not]
  cases ha : a.toBitVec.getLsbD i with
  | false => rfl
  | true => rw [decide_eq_true (BitVec.lt_of_getLsbD ha), Bool.true_and]

-- ── Flags of a value ─────────────────────────────────────────────────────────────

theorem testBit_foldl_union (flags : List Flag) (start : UInt64) (i : Nat) :
    (flags.foldl (fun bits f => bits ||| f.value) start).toNat.testBit i =
      (start.toNat.testBit i || flags.any fun f => f.value.toNat.testBit i) := by
  induction flags generalizing start with
  | nil => rw [List.foldl_nil, List.any_nil, Bool.or_false]
  | cons f fs ih => rw [List.foldl_cons, ih, testBit_or, List.any_cons, Bool.or_assoc]

theorem testBit_union_cons (f : Flag) (fs : List Flag) (i : Nat) : (union (f :: fs)).toNat.testBit i =
    (f.value.toNat.testBit i || (union fs).toNat.testBit i) := by
  simp only [union, testBit_foldl_union, List.any_cons, UInt64.toNat_zero, Nat.zero_testBit, Bool.false_or]

/-- A bit of several flags is one of them. -/
theorem testBit_union {i : Nat} :
    (union flags).toNat.testBit i = true ↔ ∃ f ∈ flags, f.value.toNat.testBit i = true := by
  rw [union, testBit_foldl_union, UInt64.toNat_zero, Nat.zero_testBit, Bool.false_or, List.any_eq_true]

/-- **The residue of a value is what it has outside all flags.** -/
theorem unknownBits_eq (flags : List Flag) (bits : UInt64) : unknownBits flags bits = bits &&& ~~~union flags := by
  induction flags generalizing bits with
  | nil =>
      refine eq_of_testBit fun i => ?_
      simp [unknownBits, union]
  | cons f fs ih =>
      show unknownBits fs (bits &&& ~~~f.value) = _
      rw [ih]
      refine eq_of_testBit fun i => ?_
      simp only [testBit_and_not, testBit_union_cons, Bool.not_or, Bool.and_assoc]

theorem testBit_unknownBits (i : Nat) : (unknownBits flags bits).toNat.testBit i =
    (bits.toNat.testBit i && !(union flags).toNat.testBit i) := by
  rw [unknownBits_eq, testBit_and_not]

/-- Nothing is left of a value whose bits are all in some flag. -/
theorem unknownBits_eq_zero_iff : unknownBits flags bits = 0 ↔
    ∀ i, bits.toNat.testBit i = true → (union flags).toNat.testBit i = true := by
  constructor
  · intro h i hi
    have hbit := @testBit_unknownBits flags bits i
    rw [h, hi, UInt64.toNat_zero, Nat.zero_testBit, Bool.true_and] at hbit
    rwa [eq_comm, Bool.not_eq_false_eq_eq_true] at hbit
  · intro h
    refine eq_of_testBit fun i => ?_
    rw [testBit_unknownBits, UInt64.toNat_zero, Nat.zero_testBit]
    cases hi : bits.toNat.testBit i with
    | false => rfl
    | true => rw [h i hi]; rfl

/-- A value has a flag if it has all its bits, and there is one. -/
theorem isIn_iff {f : Flag} : isIn bits f = true ↔
    f.value ≠ 0 ∧ ∀ i, f.value.toNat.testBit i = true → bits.toNat.testBit i = true := by
  rw [isIn, Bool.and_eq_true, bne_iff_ne, beq_iff_eq]
  refine and_congr_right fun _ => ⟨fun h i hi => ?_, fun h => eq_of_testBit fun i => ?_⟩
  · rw [← h, testBit_and, Bool.and_eq_true] at hi
    exact hi.1
  · rw [testBit_and]
    cases hi : f.value.toNat.testBit i with
    | false => rw [Bool.and_false]
    | true => rw [h i hi, Bool.true_and]

/-- The flags that a value has. -/
def heldBy (flags : List Flag) (bits : UInt64) : List Flag := flags.filter (isIn bits)

theorem mem_heldBy {f : Flag} : f ∈ heldBy flags bits ↔ f ∈ flags ∧ isIn bits f = true :=
  List.mem_filter

/-- The bits of the flags that a value has are bits of it and of the table. -/
theorem testBit_union_heldBy {i : Nat} (h : (union (heldBy flags bits)).toNat.testBit i = true) :
    bits.toNat.testBit i = true ∧ (union flags).toNat.testBit i = true := by
  obtain ⟨f, hf, hi⟩ := testBit_union.mp h
  obtain ⟨hf, hin⟩ := mem_heldBy.mp hf
  exact ⟨(isIn_iff.mp hin).2 i hi, testBit_union.mpr ⟨f, hf, hi⟩⟩

-- ── What a text shows ────────────────────────────────────────────────────────────

/-- The bits that a text shows: those of the named flags and those of the residue. -/
def printed (flags : List Flag) (bits : UInt64) : UInt64 :=
  union (heldBy flags bits) ||| unknownBits flags bits

/-- The bits that a text does not show: they belong to declared flags, but to none that is there as a whole. -/
def lost (flags : List Flag) (bits : UInt64) : UInt64 :=
  bits &&& union flags &&& ~~~union (heldBy flags bits)

/-- The named flags and the residue have no bit in common. -/
theorem union_and_unknownBits (flags : List Flag) (bits : UInt64) :
    union (heldBy flags bits) &&& unknownBits flags bits = 0 := by
  refine eq_of_testBit fun i => ?_
  rw [testBit_and, testBit_unknownBits]
  cases hheld : (union (heldBy flags bits)).toNat.testBit i with
  | false => rw [Bool.false_and, UInt64.toNat_zero, Nat.zero_testBit]
  | true => rw [(testBit_union_heldBy hheld).2, Bool.not_true, Bool.and_false, Bool.and_false,
      UInt64.toNat_zero, Nat.zero_testBit]

/-- **Every bit of a value is shown or lost.** -/
theorem printed_or_lost (flags : List Flag) (bits : UInt64) : printed flags bits ||| lost flags bits = bits := by
  refine eq_of_testBit fun i => ?_
  rw [printed, lost, testBit_or, testBit_or, testBit_and_not, testBit_and, testBit_unknownBits]
  cases hheld : (union (heldBy flags bits)).toNat.testBit i with
  | false => cases bits.toNat.testBit i <;> cases (union flags).toNat.testBit i <;> rfl
  | true => rw [(testBit_union_heldBy hheld).1, Bool.true_or, Bool.true_or]

/-- **No bit of a value is both.** -/
theorem printed_and_lost (flags : List Flag) (bits : UInt64) : printed flags bits &&& lost flags bits = 0 := by
  refine eq_of_testBit fun i => ?_
  rw [printed, lost, testBit_and, testBit_or, testBit_and_not, testBit_and, testBit_unknownBits,
    UInt64.toNat_zero, Nat.zero_testBit]
  cases bits.toNat.testBit i <;> cases (union flags).toNat.testBit i <;>
    cases (union (heldBy flags bits)).toNat.testBit i <;> rfl

/-- **All bits are shown if and only if each one that a declared flag has is one of a flag that is there as a
    whole.** -/
theorem printed_eq_iff : printed flags bits = bits ↔
    ∀ f ∈ flags, ∀ i, f.value.toNat.testBit i = true → bits.toNat.testBit i = true →
      ∃ g ∈ flags, isIn bits g = true ∧ g.value.toNat.testBit i = true := by
  constructor
  · intro h f hf i hi hbit
    have hknown : (union flags).toNat.testBit i = true := testBit_union.mpr ⟨f, hf, hi⟩
    rw [← h, printed, testBit_or, testBit_unknownBits, hknown, Bool.not_true, Bool.and_false, Bool.or_false] at hbit
    obtain ⟨g, hg, hi⟩ := testBit_union.mp hbit
    obtain ⟨hg, hin⟩ := mem_heldBy.mp hg
    exact ⟨g, hg, hin, hi⟩
  · intro h
    refine eq_of_testBit fun i => ?_
    rw [printed, testBit_or, testBit_unknownBits]
    cases hheld : (union (heldBy flags bits)).toNat.testBit i with
    | true => rw [(testBit_union_heldBy hheld).1, Bool.true_or]
    | false =>
        cases hbit : bits.toNat.testBit i with
        | false => rfl
        | true =>
            cases hknown : (union flags).toNat.testBit i with
            | false => rfl
            | true =>
                obtain ⟨f, hf, hi⟩ := testBit_union.mp hknown
                obtain ⟨g, hg, hin, hi⟩ := h f hf i hi hbit
                have hheld' := testBit_union.mpr ⟨g, mem_heldBy.mpr ⟨hg, hin⟩, hi⟩
                rw [hheld] at hheld'
                cases hheld'

-- ── Flags of one bit ─────────────────────────────────────────────────────────────

/-- The value of an index has the bit of that index. -/
theorem testBit_flagBit {i : Nat} (hi : i < 64) (j : Nat) :
    (flagBit i).toNat.testBit j = true ↔ i = j := by
  rw [toNat_flagBit hi, Nat.testBit_two_pow, decide_eq_true_iff]

/-- A flag of one bit is there if its bit is. -/
theorem isIn_of_single {f : Flag} {i : Nat} (hi : i < 64) (hf : f.value = flagBit i) :
    isIn bits f = bits.toNat.testBit i := by
  rw [Bool.eq_iff_iff, isIn_iff, hf]
  constructor
  · rintro ⟨-, h⟩
    exact h i ((testBit_flagBit hi i).mpr rfl)
  · intro h
    refine ⟨fun hzero => ?_, fun j hj => (testBit_flagBit hi j).mp hj ▸ h⟩
    have hbit := (testBit_flagBit hi i).mpr rfl
    rw [hzero, UInt64.toNat_zero, Nat.zero_testBit] at hbit
    cases hbit

/-- Where no flag has several bits, none is lost. -/
theorem printed_of_single (h : ∀ f ∈ flags, f.value = 0 ∨ ∃ i < 64, f.value = flagBit i) (bits : UInt64) :
    printed flags bits = bits := by
  refine printed_eq_iff.mpr fun f hf i hi hbit => ⟨f, hf, ?_, hi⟩
  rcases h f hf with hzero | ⟨j, hj, hvalue⟩
  · rw [hzero, UInt64.toNat_zero, Nat.zero_testBit] at hi
    cases hi
  · have hindex : j = i := (testBit_flagBit hj i).mp (hvalue ▸ hi)
    rw [isIn_of_single hj hvalue, hindex, hbit]

end Flag

end FlagSchema
