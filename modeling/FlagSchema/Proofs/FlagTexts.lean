import FlagSchema.Proofs.FlagBits
import FlagSchema.Proofs.FlagDeclarations

/-!
# The texts of flags

A value is shown as the names of its flags and the number that is left, with bars between them, or as `None` if
it is zero. Where each flag has one bit and a name of its own, different values have different texts.

* **`Text.ofDigits?_hex`**: a number in base sixteen is read back as itself.
* **`Flag.eq_of_joined`**: parts without spaces are told apart by the text that joins them.
* **`Flag.display_bits`**: what the text of a value shows, for any table of flags, **`Flag.display_loses`**: it
  need not show all.
* **`Flag.IsTable`**: flags of one bit with names of their own; those of a marked enum are.
* **`Flag.display_faithful`**: the text of a value made of such flags.
-/

namespace FlagSchema

-- ── Numbers in base sixteen ──────────────────────────────────────────────────────

namespace Text

/-- **A number in base sixteen is read back as itself.** -/
theorem ofDigits?_hex (n : Nat) : ofDigits? 16 (hex n) = some n :=
  ofDigits?_toDigits (by decide) (by decide) n

/-- A number in base sixteen is written in digits. -/
theorem mem_hex {n : Nat} {c : Char} (h : c ∈ hex n) : ∃ d < 16, c = Nat.digitChar d := by
  unfold hex at h
  induction n using Nat.base_induction 16 (by decide) with
  | single m hm =>
      rw [Nat.toDigits_of_lt_base hm] at h
      exact ⟨m, hm, List.mem_singleton.mp h⟩
  | digit m k hk hm ih =>
      rw [← Nat.toDigits_append_toDigits (by decide) hm hk, Nat.toDigits_of_lt_base hk] at h
      rcases List.mem_append.mp h with h | h
      · exact ih h
      · exact ⟨k, hk, List.mem_singleton.mp h⟩

end Text

open Declaration

namespace Flag

-- ── Joined parts ─────────────────────────────────────────────────────────────────

/-- What stands between the parts of a text. -/
def bar : List Char := [' ', '|', ' ']

/-- A part of a text: not empty and without spaces. -/
def IsPart (cs : List Char) : Prop := cs ≠ [] ∧ ' ' ∉ cs

instance (cs : List Char) : Decidable (IsPart cs) :=
  inferInstanceAs (Decidable (cs ≠ [] ∧ ' ' ∉ cs))

/-- A part in front of a text that is empty or starts with a space is what is in front of that space. -/
theorem takeWhile_part {cs ds : List Char} (h : IsPart cs) (hds : ∀ d, ds.head? = some d → d = ' ') :
    (cs ++ ds).takeWhile (· ≠ ' ') = cs := by
  have hcs : ∀ c ∈ cs, (decide (c ≠ ' ')) = true := by
    intro c hc
    rw [decide_eq_true_iff]
    rintro rfl
    exact h.2 hc
  rw [List.takeWhile_append_of_pos hcs]
  cases ds with
  | nil => rw [List.takeWhile_nil, List.append_nil]
  | cons d ds => rw [List.takeWhile_cons_of_neg (by rw [hds d rfl]; decide), List.append_nil]

/-- What follows the first part is empty or starts with a space. -/
theorem head_behind (parts : List (List Char)) :
    ∀ d, (parts.flatMap (bar ++ ·)).head? = some d → d = ' ' := by
  intro d hd
  cases parts with
  | nil => cases hd
  | cons part parts => exact (Option.some.inj hd).symm

theorem intercalate_cons (part : List Char) (parts : List (List Char)) :
    bar.intercalate (part :: parts) = part ++ parts.flatMap (bar ++ ·) := by
  induction parts generalizing part with
  | nil => simp
  | cons next parts ih => rw [List.intercalate_cons_cons, ih, List.flatMap_cons, List.append_assoc, List.append_assoc]

/-- **Parts are told apart by the text that joins them.** -/
theorem eq_of_joined {xs ys : List (List Char)} (hxs : ∀ x ∈ xs, IsPart x) (hys : ∀ y ∈ ys, IsPart y)
    (h : bar.intercalate xs = bar.intercalate ys) : xs = ys := by
  induction xs generalizing ys with
  | nil =>
      cases ys with
      | nil => rfl
      | cons y ys =>
          rw [intercalate_cons] at h
          exact absurd (List.append_eq_nil_iff.mp h.symm).1 (hys y (List.mem_cons_self ..)).1
  | cons x xs ih =>
      obtain ⟨hx, hxs'⟩ := List.forall_mem_cons.mp hxs
      cases ys with
      | nil =>
          rw [intercalate_cons] at h
          exact absurd (List.append_eq_nil_iff.mp h).1 hx.1
      | cons y ys =>
          obtain ⟨hy, hys'⟩ := List.forall_mem_cons.mp hys
          rw [intercalate_cons, intercalate_cons] at h
          have hfirst : x = y := by
            rw [← takeWhile_part hx (head_behind xs), h, takeWhile_part hy (head_behind ys)]
          subst hfirst
          have hrest := List.append_cancel_left h
          cases xs with
          | nil =>
              cases ys with
              | nil => rfl
              | cons y' ys => cases hrest
          | cons x' xs =>
              cases ys with
              | nil => cases hrest
              | cons y' ys =>
                  rw [List.flatMap_cons, List.flatMap_cons, List.append_assoc, List.append_assoc] at hrest
                  have hjoined := List.append_cancel_left hrest
                  rw [← intercalate_cons, ← intercalate_cons] at hjoined
                  exact congrArg (x :: ·) (ih hxs' hys' hjoined)

-- ── What a text shows ────────────────────────────────────────────────────────────

variable {flags : List Flag} {bits : UInt64}

/-- The parts of the text of a value: the names of its flags and the residue. -/
def parts (flags : List Flag) (bits : UInt64) : List String :=
  namesIn flags bits ++ residue flags bits

/-- The text of a value that is not zero joins its parts. -/
theorem display_eq (h : bits ≠ 0) :
    (display flags bits).toList = bar.intercalate ((parts flags bits).map String.toList) := by
  rw [display, if_neg h, String.toList_intercalate]
  rfl

theorem residue_eq (flags : List Flag) (bits : UInt64) : residue flags bits =
    if unknownBits flags bits = 0 then [] else ["0x" ++ String.ofList (Text.hex (unknownBits flags bits).toNat)] :=
  rfl

/-- A residue is a number in base sixteen, which reads back as what is left of the value. -/
theorem mem_residue {part : String} (h : part ∈ residue flags bits) :
    ∃ digits, part.toList = '0' :: 'x' :: digits ∧ ' ' ∉ digits ∧
      Text.ofDigits? 16 digits = some (unknownBits flags bits).toNat := by
  rw [residue_eq] at h
  split at h
  · cases h
  · rw [List.mem_singleton] at h
    refine ⟨Text.hex (unknownBits flags bits).toNat, ?_, fun hspace => ?_, Text.ofDigits?_hex _⟩
    · rw [h, String.toList_append]
      exact congrArg (['0', 'x'] ++ ·) String.toList_ofList
    · obtain ⟨d, hd, hchar⟩ := Text.mem_hex hspace
      have hdigits : ∀ d < 16, ' ' ≠ Nat.digitChar d := by decide
      exact hdigits d hd hchar

theorem residue_eq_nil_iff : residue flags bits = [] ↔ unknownBits flags bits = 0 := by
  rw [residue_eq]
  split
  · next h => exact iff_of_true rfl h
  · next h => exact iff_of_false (List.cons_ne_nil _ _) h

/-- The residue tells which bits are left. -/
theorem unknownBits_of_residue {a b : UInt64} (h : residue flags a = residue flags b) :
    unknownBits flags a = unknownBits flags b := by
  cases hrest : residue flags a with
  | nil => rw [residue_eq_nil_iff.mp hrest, residue_eq_nil_iff.mp (h.symm.trans hrest)]
  | cons part rest =>
      have hpart : part ∈ residue flags a := hrest ▸ List.mem_cons_self ..
      obtain ⟨digits, htext, -, ha⟩ := mem_residue hpart
      obtain ⟨digits', htext', -, hb⟩ := mem_residue (h ▸ hpart)
      have hdigits : digits = digits' := by
        rw [htext] at htext'
        exact (List.cons.inj (List.cons.inj htext').2).2
      rw [hdigits, hb] at ha
      exact (UInt64.toNat_inj.mp (Option.some.inj ha)).symm

/-- The text that joins no parts is empty, and so is that of one empty part. -/
theorem intercalate_eq_nil_iff {xs : List (List Char)} : bar.intercalate xs = [] ↔ xs = [] ∨ xs = [[]] := by
  cases xs with
  | nil => simp
  | cons x xs =>
      rw [intercalate_cons, List.append_eq_nil_iff]
      cases xs <;> simp [bar]

/-- The text that joins the parts of a value is empty if no residue is left, and there is no name to show or
    only an empty one. -/
theorem parts_empty_iff : (parts flags bits = [] ∨ parts flags bits = [""]) ↔
    unknownBits flags bits = 0 ∧ (namesIn flags bits = [] ∨ namesIn flags bits = [""]) := by
  by_cases hrest : residue flags bits = []
  · rw [parts, hrest, List.append_nil, and_iff_right (residue_eq_nil_iff.mp hrest)]
  · refine iff_of_false ?_ fun h => hrest (residue_eq_nil_iff.mpr h.1)
    obtain ⟨part, hpart⟩ := List.exists_mem_of_ne_nil _ hrest
    obtain ⟨digits, htext, -⟩ := mem_residue hpart
    have hmem : part ∈ parts flags bits := List.mem_append_right _ hpart
    rintro (h | h)
    · rw [h] at hmem
      cases hmem
    · rw [h, List.mem_singleton] at hmem
      rw [hmem] at htext
      cases htext

/-- **What the text of a value shows, for any table of flags.** If the value is not zero, the text joins the
    names of the flags that are there as a whole and the residue, a number that reads back as the bits of the
    value outside all flags. What is shown and what is lost make up the value and share no bit. Nothing is
    lost if and only if each bit that a declared flag has is one of a flag that is there as a whole; so it is
    where no flag has several bits. The text is empty if and only if the value is not zero, no residue is
    left, and there is no name to show or only an empty one. -/
theorem display_bits (flags : List Flag) (bits : UInt64) :
    (bits ≠ 0 → display flags bits =
      " | ".intercalate ((heldBy flags bits).map name ++ residue flags bits)) ∧
    (∀ part ∈ residue flags bits, ∃ digits, part.toList = '0' :: 'x' :: digits ∧
      Text.ofDigits? 16 digits = some (unknownBits flags bits).toNat) ∧
    (residue flags bits = [] ↔ unknownBits flags bits = 0) ∧
    (printed flags bits ||| lost flags bits = bits ∧ printed flags bits &&& lost flags bits = 0) ∧
    (printed flags bits = bits ↔ ∀ f ∈ flags, ∀ i, f.value.toNat.testBit i = true →
      bits.toNat.testBit i = true → ∃ g ∈ flags, isIn bits g = true ∧ g.value.toNat.testBit i = true) ∧
    ((∀ f ∈ flags, f.value = 0 ∨ ∃ i < 64, f.value = flagBit i) → printed flags bits = bits) ∧
    (display flags bits = "" ↔ bits ≠ 0 ∧ unknownBits flags bits = 0 ∧
      (namesIn flags bits = [] ∨ namesIn flags bits = [""])) := by
  refine ⟨fun h => ?_, fun part hpart => ?_, residue_eq_nil_iff, ⟨printed_or_lost .., printed_and_lost ..⟩,
    printed_eq_iff, fun h => printed_of_single h bits, ?_⟩
  · rw [display, if_neg h]
    rfl
  · obtain ⟨digits, hpart, -, hvalue⟩ := mem_residue hpart
    exact ⟨digits, hpart, hvalue⟩
  · by_cases hzero : bits = 0
    · refine iff_of_false ?_ fun h => h.1 hzero
      rw [display, if_pos hzero]
      decide
    · have hparts : ∀ xs : List String, xs.map String.toList = [[]] ↔ xs = [""] := fun xs =>
        (List.map_injective_iff.mpr fun _ _ => String.toList_inj.mp).eq_iff' rfl
      rw [← String.toList_inj, display_eq hzero, String.toList_empty, intercalate_eq_nil_iff, List.map_eq_nil_iff,
        hparts, parts_empty_iff, and_iff_right hzero]

/-- A table with overlapping flags, one of no bit and one of several. -/
def overlappingFlags : List Flag :=
  [⟨"Top", 0x8000000000000000⟩, ⟨"RW", 3⟩, ⟨"Zero", 0⟩, ⟨"R", 1⟩, ⟨"W", 2⟩, ⟨"High", 0xff00⟩, ⟨"R", 1⟩]

/-- The privilege modes have one bit each. -/
theorem single_modeFlags : ∀ f ∈ modeFlags, ∃ i < 64, f.value = flagBit i := by decide +kernel

/-- Values of that table and of one with flags of one bit. -/
theorem display_bits_overlappingFlags :
    display overlappingFlags 0x83 = "RW | R | W | R | 0x80" ∧ printed modeFlags 0x41 = 0x41 := by
  obtain ⟨htext, -⟩ := display_bits overlappingFlags 0x83
  obtain ⟨-, -, -, -, -, hsingle, -⟩ := display_bits modeFlags 0x41
  refine ⟨?_, hsingle fun f hf => .inr (single_modeFlags f hf)⟩
  rw [htext (by decide)]
  decide +kernel

/-- **Not every bit is shown, and a text may be empty**: of a flag with eight bits one is set. -/
theorem display_loses : namesIn overlappingFlags 0x100 = [] ∧ residue overlappingFlags 0x100 = [] ∧
    printed overlappingFlags 0x100 ≠ 0x100 ∧ display overlappingFlags 0x100 = "" := by
  decide +kernel

-- ── Flags of one bit with names of their own ─────────────────────────────────────

/-- A text that reads as a name, as every identifier does: there is a first character, no digit, and no
    space. -/
structure ReadsAsName (name : String) : Prop where
  nonempty : name.toList ≠ []
  front    : name.toList.head?.any Char.isDigit = false
  together : ' ' ∉ name.toList

instance (name : String) : Decidable (ReadsAsName name) :=
  decidable_of_iff
    (name.toList ≠ [] ∧ name.toList.head?.any Char.isDigit = false ∧ ' ' ∉ name.toList)
    ⟨fun ⟨a, b, c⟩ => ⟨a, b, c⟩, fun h => ⟨h.nonempty, h.front, h.together⟩⟩

/-- A plain name reads as a name. -/
theorem ReadsAsName.of_isPlainName {name : String} (h : Token.isPlainName name.toList = true) :
    ReadsAsName name := by
  obtain ⟨c, cs, hname, hstart, hchars⟩ := Token.exists_of_isPlainName h
  refine ⟨?_, ?_, fun hspace => ?_⟩
  · rw [hname]
    exact List.cons_ne_nil _ _
  · rw [hname]
    exact (Token.isNameStart_excludes hstart).1
  · exact absurd (hchars _ hspace) (by decide)

/-- Flags of one bit each, with values and names of their own; the name of the empty set is none of them. -/
structure IsTable (flags : List Flag) : Prop where
  single : ∀ f ∈ flags, ∃ i < 64, f.value = flagBit i
  values : (flags.map value).Nodup
  names  : (flags.map name).Nodup
  words  : ∀ f ∈ flags, ReadsAsName f.name ∧ f.name ≠ emptySetName

/-- The index of the bit of a flag that has one. -/
def index (f : Flag) : Nat := f.value.toNat.log2

theorem index_of_single {f : Flag} {i : Nat} (hi : i < 64) (hf : f.value = flagBit i) : f.index = i := by
  rw [index, hf, toNat_flagBit hi, Nat.log2_two_pow]

namespace IsTable

/-- The flags that a value has are those whose bit is set. -/
theorem heldBy_eq (h : IsTable flags) (bits : UInt64) :
    heldBy flags bits = flags.filter fun f => bits.toNat.testBit f.index := by
  refine List.filter_congr fun f hf => ?_
  obtain ⟨i, hi, hvalue⟩ := h.single f hf
  rw [isIn_of_single hi hvalue, index_of_single hi hvalue]

/-- Nothing of a value is lost. -/
theorem printed_eq (h : IsTable flags) (bits : UInt64) : printed flags bits = bits :=
  printed_of_single (fun f hf => .inr (h.single f hf)) bits

/-- The name of a flag that a value has. -/
theorem mem_namesIn (h : IsTable flags) {part : String} (hpart : part ∈ namesIn flags bits) :
    ReadsAsName part ∧ part ≠ emptySetName := by
  obtain ⟨f, hf, rfl⟩ := List.mem_map.mp hpart
  exact h.words f (List.mem_filter.mp hf).1

theorem isPart (h : IsTable flags) : ∀ cs ∈ (parts flags bits).map String.toList, IsPart cs := by
  intro cs hcs
  obtain ⟨part, hpart, rfl⟩ := List.mem_map.mp hcs
  rcases List.mem_append.mp hpart with hpart | hpart
  · obtain ⟨hname, -⟩ := h.mem_namesIn hpart
    exact ⟨hname.nonempty, hname.together⟩
  · obtain ⟨digits, htext, hspace, -⟩ := mem_residue hpart
    rw [htext]
    refine ⟨List.cons_ne_nil _ _, fun hmem => ?_⟩
    rcases List.mem_cons.mp hmem with hmem | hmem
    · exact absurd hmem (by decide)
    rcases List.mem_cons.mp hmem with hmem | hmem
    · exact absurd hmem (by decide)
    · exact hspace hmem

/-- A part starts with a digit if and only if it is a residue. -/
theorem filter_parts (h : IsTable flags) :
    (parts flags bits).filter (fun part => part.toList.head?.any Char.isDigit) = residue flags bits := by
  rw [parts, List.filter_append, List.filter_eq_nil_iff.mpr, List.nil_append, List.filter_eq_self]
  · intro part hpart
    obtain ⟨digits, htext, -⟩ := mem_residue hpart
    rw [htext]
    rfl
  · intro part hpart
    obtain ⟨hname, -⟩ := h.mem_namesIn hpart
    rw [hname.front]
    exact Bool.false_ne_true

/-- The names of the flags that a value has tell which they are. -/
theorem heldBy_of_namesIn (h : IsTable flags) {a b : UInt64} (heq : namesIn flags a = namesIn flags b) :
    heldBy flags a = heldBy flags b := by
  have hnamed : ∀ x y, namesIn flags x = namesIn flags y → ∀ f ∈ flags, isIn x f = true → isIn y f = true := by
    intro x y heq f hf hin
    have hname : f.name ∈ namesIn flags x := List.mem_map_of_mem (mem_heldBy.mpr ⟨hf, hin⟩)
    rw [heq] at hname
    obtain ⟨g, hg, hsame⟩ := List.mem_map.mp hname
    obtain ⟨hg, hin⟩ := mem_heldBy.mp hg
    exact List.inj_on_of_nodup_map h.names hg hf hsame ▸ hin
  refine List.filter_congr fun f hf => ?_
  rw [Bool.eq_iff_iff]
  exact ⟨hnamed a b heq f hf, hnamed b a heq.symm f hf⟩

/-- Values with the same parts are equal: the names say which flags they have, the number what is left. -/
theorem eq_of_parts (h : IsTable flags) {a b : UInt64} (heq : parts flags a = parts flags b) : a = b := by
  have hresidue : residue flags a = residue flags b := by rw [← h.filter_parts, heq, h.filter_parts]
  have hnames : namesIn flags a = namesIn flags b := by
    rw [parts, parts, hresidue] at heq
    exact List.append_cancel_right heq
  rw [← h.printed_eq a, printed, h.heldBy_of_namesIn hnames, unknownBits_of_residue hresidue, ← printed,
    h.printed_eq b]

/-- The text of a value that is not zero is not that of zero. -/
theorem display_ne_none (h : IsTable flags) (hbits : bits ≠ 0) : display flags bits ≠ "None" := by
  intro heq
  have hjoined : bar.intercalate ((parts flags bits).map String.toList) = bar.intercalate ["None".toList] := by
    rw [← display_eq hbits, heq, List.intercalate_singleton]
  have hparts := eq_of_joined h.isPart (by decide) hjoined
  have hmem : "None".toList ∈ (parts flags bits).map String.toList := hparts ▸ List.mem_singleton_self _
  obtain ⟨part, hpart, htext⟩ := List.mem_map.mp hmem
  rcases List.mem_append.mp hpart with hpart | hpart
  · exact (h.mem_namesIn hpart).2 (String.toList_inj.mp htext)
  · obtain ⟨digits, hdigits, -⟩ := mem_residue hpart
    rw [htext] at hdigits
    cases hdigits

/-- **Different values have different texts.** -/
theorem eq_of_display (h : IsTable flags) {a b : UInt64} (heq : display flags a = display flags b) : a = b := by
  have hzero : display flags 0 = "None" := if_pos rfl
  by_cases ha : a = 0 <;> by_cases hb : b = 0
  · rw [ha, hb]
  · rw [ha, hzero] at heq
    exact absurd heq.symm (h.display_ne_none hb)
  · rw [hb, hzero] at heq
    exact absurd heq (h.display_ne_none ha)
  · have hjoined := congrArg String.toList heq
    rw [display_eq ha, display_eq hb] at hjoined
    have hparts := eq_of_joined h.isPart h.isPart hjoined
    exact h.eq_of_parts (List.map_injective_iff.mpr (fun _ _ => String.toList_inj.mp) hparts)

end IsTable

-- ── Tables of flag types ─────────────────────────────────────────────────────────

/-- The flags in the table of a flag type. -/
def ofTable (table : List (String × Nat)) : List Flag :=
  table.map fun x => ⟨x.1, UInt64.ofNat x.2⟩

/-- The table that lists flags has them. -/
theorem ofTable_map (flags : List Flag) : ofTable (flags.map fun f => (f.name, f.value.toNat)) = flags := by
  rw [ofTable, List.map_map]
  refine (List.map_congr_left fun f _ => ?_).trans (List.map_id flags)
  show (⟨f.name, UInt64.ofNat f.value.toNat⟩ : Flag) = f
  rw [UInt64.ofNat_toNat]

/-- **The table of a flag type whose names differ has flags of one bit with names of their own.** -/
theorem IsTable.of_declaredFor {source : List Char} {x : String × EnumDef} {ident : Ident} {width : Scalar}
    {constants : List (Ident × Nat)} {table : List (String × Nat)}
    (hspelled : ∀ v ∈ x.2.values, v.Spelled source)
    (h : FlagSet.DeclaredFor x (.flags ident width constants table)) (hnames : (table.map Prod.fst).Nodup) :
    IsTable (ofTable table) := by
  obtain ⟨hwidth, hconstants, rfl⟩ := FlagSet.declaredFor_inv h
  have hfew := Scalar.le_of_forFlagCount? (EnumDef.flagStorage_inv hwidth)
  rw [ofTable_map]
  constructor
  case single =>
      intro f hf
      obtain ⟨i, hi, hvalue⟩ := EnumValue.exists_of_mem_flags hf
      exact ⟨i, by omega, hvalue⟩
  case values =>
      rw [EnumValue.map_value_flags, ← List.range_eq_range']
      exact nodup_flagBits hfew
  case names =>
      rw [List.map_map] at hnames
      exact hnames
  case words =>
      intro f hf
      obtain ⟨c, -, hident, -⟩ := exists_right_of_forall₂ hconstants hf
      refine ⟨.of_isPlainName (EnumValue.isPlainName_flags hspelled f hf c.1 hident), fun hnone => ?_⟩
      have hname : f.name ∈ x.2.values.map EnumValue.name :=
        EnumValue.map_name_flags 0 x.2.values ▸ List.mem_map_of_mem hf
      obtain ⟨v, hv, heq⟩ := List.mem_map.mp hname
      rw [EnumDef.flagStorage, if_pos (EnumDef.any_emptySetName_iff.mpr ⟨v, hv, heq.trans hnone⟩)] at hwidth
      cases hwidth

/-- **The text of a value tells the value.** Of flags of one bit with names of their own, the names shown are
    those of the flags whose bit is set, in the order of the table; the bits of these flags and the bits left
    over are disjoint and together the value; and different values have different texts. Every flag type in
    the accessors has such flags if the names in its table differ. -/
theorem display_faithful :
    (∀ flags, IsTable flags →
      (∀ bits, namesIn flags bits = (flags.filter fun f => bits.toNat.testBit f.index).map name ∧
        union (flags.filter fun f => bits.toNat.testBit f.index) &&& unknownBits flags bits = 0 ∧
        union (flags.filter fun f => bits.toNat.testBit f.index) ||| unknownBits flags bits = bits) ∧
      ∀ a b, display flags a = display flags b → a = b) ∧
    ∀ source text, (accessorsOf source).result = .ok text →
      ∃ s low ds, Schema.parse source = .ok s ∧ (lower source).result = .ok low ∧
        low.schema.declarations.result = .ok ds ∧
        text = Schema.accessorsHeader ++ CodeTree.renderAll (allCode ds) ++ "\n" ∧
        ∀ ident width constants table, .flags ident width constants table ∈ allFlagTypes ds →
          (table.map Prod.fst).Nodup → IsTable (ofTable table) := by
  refine ⟨fun flags h => ⟨fun bits => ?_, fun a b => h.eq_of_display⟩, fun source text h => ?_⟩
  · rw [← h.heldBy_eq]
    exact ⟨rfl, union_and_unknownBits flags bits, h.printed_eq bits⟩
  · obtain ⟨s, low, ds, hparse, hlow, hds, htext, htypes⟩ := accessorsOf_flagTypes h
    refine ⟨s, low, ds, hparse, hlow, hds, htext, fun ident width constants table hmem hnames => ?_⟩
    obtain ⟨x, hx, hdeclared⟩ := exists_left_of_forall₂ htypes hmem
    exact .of_declaredFor (Schema.spelled_parse hparse x (List.mem_filter.mp hx).1) hdeclared hnames

/-- The privilege modes are such flags, and so are those of an enum that declares them. -/
theorem display_faithful_modes :
    IsTable modeFlags ∧ display modeFlags 0x41 = "M | 0x40" ∧ namesIn modeFlags 0x41 = ["M"] ∧
      (∀ a b, display modeFlags a = display modeFlags b → a = b) ∧
      (accessorsOf privilegeModes).result.isOk = true ∧ IsTable (ofTable [("M", 1), ("S", 2), ("U", 4)]) := by
  have htable : IsTable modeFlags := ⟨single_modeFlags, by decide +kernel, by decide +kernel, by decide +kernel⟩
  obtain ⟨hflags, haccessors⟩ := display_faithful
  obtain ⟨hbits, hinjective⟩ := hflags modeFlags htable
  obtain ⟨text, low, ds, ident, h, hlow, hds, htypes⟩ := flagTypes_privilegeModes
  obtain ⟨s, low', ds', -, hlow', hds', -, hall⟩ := haccessors privilegeModes text h
  rw [hlow] at hlow'
  cases hlow'
  rw [hds] at hds'
  cases hds'
  refine ⟨htable, by decide +kernel, ?_, hinjective, by rw [h]; rfl, ?_⟩
  · rw [(hbits 0x41).1]
    decide +kernel
  · exact hall ident _ _ _ (htypes ▸ List.mem_singleton_self _) (by decide)

end Flag

end FlagSchema
