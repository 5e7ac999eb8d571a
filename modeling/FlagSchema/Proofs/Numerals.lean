import Mathlib.Algebra.Group.Nat.Defs
import Mathlib.Data.List.Induction
import FlagSchema.Reading.Setting

/-!
# Numbers written and read

What the digits of a number denote, and a number written in base ten is read back as itself.

* **`Text.Numeral`**, **`Text.pushDigits?_eq_some_iff`**: the number that digits of a base denote is what they are
  read as.
* **`IntegerSpelling`**, **`integerValue?_eq_some_iff`**: the spellings of a number as an integer, which are all that
  is read.
* **`integerValue?_repr`**: the digits of base ten among them.
* **`digits_repr`**: what its digits are made of.
-/

namespace FlagSchema

namespace Text

/-- A character is the digit of a value, letters in either case. -/
def IsDigitOf (d : Nat) (c : Char) : Prop := c = Nat.digitChar d ∨ c = (Nat.digitChar d).toUpper

instance (d : Nat) (c : Char) : Decidable (IsDigitOf d c) := inferInstanceAs (Decidable (_ ∨ _))

/-- The digits of a base are those of the values below it. -/
theorem digit?_eq_some_iff {base d : Nat} {c : Char} (hbase : base ≤ 16) :
    digit? base c = some d ↔ d < base ∧ IsDigitOf d c := by
  constructor
  · intro h
    obtain ⟨hvalue, hd⟩ := Option.filter_eq_some_iff.mp h
    refine ⟨of_decide_eq_true hd, ?_⟩
    -- A character from each of the three ranges is known by its value.
    have hdigits : ∀ d < 10, IsDigitOf d (Char.ofNat (d + '0'.toNat)) := by decide
    have hlower : ∀ d < 6, IsDigitOf (d + 10) (Char.ofNat (d + 'a'.toNat)) := by decide
    have hupper : ∀ d < 6, IsDigitOf (d + 10) (Char.ofNat (d + 'A'.toNat)) := by decide
    have h9 : '9'.toNat = '0'.toNat + 9 := rfl
    have hf : 'f'.toNat = 'a'.toNat + 5 := rfl
    have hF : 'F'.toNat = 'A'.toNat + 5 := rfl
    rw [← Char.ofNat_toNat c]
    simp only [Bool.and_eq_true, decide_eq_true_eq] at hvalue
    split at hvalue
    · have hn := hdigits d (by cases hvalue; omega)
      cases hvalue
      rwa [Nat.sub_add_cancel (by omega)] at hn
    split at hvalue
    · cases hvalue
      have hn := hlower (c.toNat - 'a'.toNat) (by omega)
      rwa [Nat.sub_add_cancel (by omega)] at hn
    split at hvalue
    · cases hvalue
      have hn := hupper (c.toNat - 'A'.toNat) (by omega)
      rwa [Nat.sub_add_cancel (by omega)] at hn
    · cases hvalue
  · rintro ⟨hd, hc⟩
    refine Option.filter_eq_some_iff.mpr ⟨?_, decide_eq_true hd⟩
    replace hd : d < 16 := Nat.lt_of_lt_of_le hd hbase
    clear hbase
    rcases hc with rfl | rfl
    · revert d; decide
    · revert d; decide

/-- A text of digits of a base denotes a number: each digit after others adds its value to that of the others taken
    times the base. -/
inductive Numeral (base : Nat) : Nat → List Char → Prop where
  | nil : Numeral base 0 []
  | digit {n d : Nat} {cs : List Char} {c : Char} (front : Numeral base n cs) (below : d < base)
      (spelled : IsDigitOf d c) : Numeral base (n * base + d) (cs ++ [c])

/-- A number written in a base denotes itself. -/
theorem numeral_toDigits {base : Nat} (hbase : 1 < base) (n : Nat) : Numeral base n (Nat.toDigits base n) := by
  induction n using Nat.base_induction base hbase with
  | single d hd =>
      rw [Nat.toDigits_of_lt_base hd]
      have hdigit := Numeral.nil.digit hd (.inl rfl)
      rwa [Nat.zero_mul, Nat.zero_add, List.nil_append] at hdigit
  | digit m d hd hm ih =>
      rw [← Nat.toDigits_append_toDigits hbase hm hd, Nat.toDigits_of_lt_base hd, Nat.mul_comm]
      exact ih.digit hd (.inl rfl)

theorem Numeral.lt_pow {base n : Nat} {cs : List Char} (h : Numeral base n cs) : n < base ^ cs.length := by
  induction h with
  | nil => exact Nat.one_pos
  | @digit n d cs c _ below _ ih =>
      rw [List.length_append, List.length_singleton, Nat.pow_succ]
      calc n * base + d < n * base + base := Nat.add_lt_add_left below _
        _ = (n + 1) * base := (Nat.succ_mul n base).symm
        _ ≤ base ^ cs.length * base := Nat.mul_le_mul_right base ih

/-- Digits of base ten without a needless zero in front are those that the number is written in. -/
theorem Numeral.eq_toDigits {n : Nat} {cs : List Char} (h : Numeral 10 n cs) (hne : cs ≠ [])
    (hzero : cs.head? = some '0' → cs = ['0']) : cs = Nat.toDigits 10 n := by
  have hdigit : ∀ d < 10, (Nat.digitChar d).toUpper = Nat.digitChar d := by decide
  induction h with
  | nil => exact absurd rfl hne
  | @digit n d cs c front below spelled ih =>
      have hc : c = Nat.digitChar d := by
        rcases spelled with hc | hc
        · exact hc
        · rw [hc, hdigit d below]
      subst hc
      cases cs with
      | nil =>
          have hn : n < 10 ^ 0 := front.lt_pow
          obtain rfl : n = 0 := Nat.lt_one_iff.mp hn
          rw [Nat.zero_mul, Nat.zero_add, Nat.toDigits_of_lt_base below, List.nil_append]
      | cons x xs =>
          -- A zero in front of the last digit would be the whole text.
          have hx : x ≠ '0' := by
            rintro rfl
            have hlength := congrArg List.length (hzero rfl)
            simp at hlength
          have hfront : x :: xs = Nat.toDigits 10 n :=
            ih (List.cons_ne_nil _ _) fun hhead => absurd (Option.some.inj hhead) hx
          have hn : 0 < n := by
            refine Nat.pos_of_ne_zero ?_
            rintro rfl
            exact hx (List.cons.inj hfront).1
          rw [Nat.mul_comm, ← Nat.toDigits_append_toDigits (by decide) hn below, ← hfront,
            Nat.toDigits_of_lt_base below]

theorem Numeral.forall_digit {base n : Nat} {cs : List Char} (h : Numeral base n cs) :
    ∀ c ∈ cs, ∃ d < base, IsDigitOf d c := by
  induction h with
  | nil => exact List.forall_mem_nil _
  | digit _ below spelled ih => exact List.forall_mem_append.mpr ⟨ih, List.forall_mem_singleton.mpr ⟨_, below, spelled⟩⟩

theorem Numeral.isDigit {base n : Nat} {cs : List Char} (hbase : base ≤ 10) (h : Numeral base n cs) :
    ∀ c ∈ cs, c.isDigit = true := by
  have hdigit : ∀ d < 10, (Nat.digitChar d).isDigit = true ∧ (Nat.digitChar d).toUpper.isDigit = true := by decide
  intro c hc
  obtain ⟨d, hd, rfl | rfl⟩ := h.forall_digit c hc
  · exact (hdigit d (by omega)).1
  · exact (hdigit d (by omega)).2

theorem pushDigits?_append (base start : Nat) (cs ds : List Char) :
    pushDigits? base start (cs ++ ds) = (pushDigits? base start cs).bind fun n => pushDigits? base n ds := by
  induction cs generalizing start with
  | nil => rfl
  | cons c cs ih =>
      rw [List.cons_append, pushDigits?, pushDigits?, Option.bind_assoc]
      exact Option.bind_congr fun d _ => ih _

/-- **Digits are read as the number that they denote.** -/
theorem pushDigits?_eq_some_iff {base n : Nat} {cs : List Char} (hbase : base ≤ 16) :
    pushDigits? base 0 cs = some n ↔ Numeral base n cs := by
  constructor
  · intro h
    induction cs using List.reverseRecOn generalizing n with
    | nil =>
        cases h
        exact .nil
    | append_singleton cs c ih =>
        rw [pushDigits?_append] at h
        obtain ⟨m, hm, h⟩ := Option.bind_eq_some_iff.mp h
        obtain ⟨d, hd, h⟩ := Option.bind_eq_some_iff.mp h
        cases h
        obtain ⟨hbelow, hspelled⟩ := (digit?_eq_some_iff hbase).mp hd
        exact .digit (ih hm) hbelow hspelled
  · intro h
    induction h with
    | nil => rfl
    | digit front below spelled ih =>
        rw [pushDigits?_append, ih, Option.bind_some, pushDigits?,
          (digit?_eq_some_iff hbase).mpr ⟨below, spelled⟩]
        rfl

theorem ofDigits?_eq_some_iff {base n : Nat} {cs : List Char} (hbase : base ≤ 16) :
    ofDigits? base cs = some n ↔ cs ≠ [] ∧ Numeral base n cs := by
  cases cs with
  | nil => exact ⟨nofun, fun h => absurd rfl h.1⟩
  | cons c cs =>
      rw [ofDigits?, pushDigits?_eq_some_iff hbase]
      · exact ⟨fun h => ⟨List.cons_ne_nil _ _, h⟩, And.right⟩
      · exact List.cons_ne_nil _ _

/-- A number written in a base is read back as itself. -/
theorem ofDigits?_toDigits {base : Nat} (hlow : 1 < base) (hhigh : base ≤ 16) (n : Nat) :
    ofDigits? base (Nat.toDigits base n) = some n :=
  (ofDigits?_eq_some_iff hhigh).mpr ⟨Nat.toDigits_ne_nil, numeral_toDigits hlow n⟩

end Text

/-- The digits of a number are digits, and there is one. -/
theorem digits_repr (n : Nat) :
    ∃ c cs, n.repr.toList = c :: cs ∧ ∀ d ∈ c :: cs, d.isDigit = true := by
  rw [Nat.toList_repr]
  cases hn : Nat.toDigits 10 n with
  | nil => exact absurd hn Nat.toDigits_ne_nil
  | cons c cs =>
      refine ⟨c, cs, rfl, ?_⟩
      rw [← hn]
      exact fun d hd => Nat.isDigit_of_mem_toDigits (by decide) (by decide) hd

/-- A number of more than one digit does not start with a zero. -/
theorem toDigits_eq_zero_cons {n : Nat} {cs : List Char} (h : Nat.toDigits 10 n = '0' :: cs) :
    cs = [] := by
  induction n using Nat.base_induction 10 (by decide) generalizing cs with
  | single m hm =>
      rw [Nat.toDigits_of_lt_base hm, List.cons.injEq] at h
      exact h.2.symm
  | digit m k hk hm ih =>
      rw [← Nat.toDigits_append_toDigits (by decide) hm hk] at h
      cases hd : Nat.toDigits 10 m with
      | nil => exact absurd hd Nat.toDigits_ne_nil
      | cons d ds =>
          rw [hd, List.cons_append, List.cons.injEq] at h
          obtain ⟨rfl, -⟩ := h
          have hds := ih hd
          have hvalue := Nat.ofDigitChars_ten_toDigits (n := m)
          rw [hd, hds, Nat.ofDigitChars_cons, Nat.ofDigitChars_nil] at hvalue
          omega

/-- The spellings of a number: in base ten without a needless zero, in base sixteen behind `0x` and in base eight
    behind a zero. -/
inductive IntegerSpelling (n : Nat) : List Char → Prop where
  | decimal : IntegerSpelling n (Nat.toDigits 10 n)
  | hex {x : Char} {digits : List Char} (mark : x = 'x' ∨ x = 'X') (some : digits ≠ [])
      (denotes : Text.Numeral 16 n digits) : IntegerSpelling n ('0' :: x :: digits)
  | octal {digits : List Char} (some : digits ≠ []) (denotes : Text.Numeral 8 n digits) :
      IntegerSpelling n ('0' :: digits)

/-- **The spellings of the numbers below `2^127` have these as their values**, and no other text has a value. -/
theorem integerValue?_eq_some_iff {n : Nat} {text : String} :
    integerValue? text = some n ↔ IntegerSpelling n text.toList ∧ n < integerLimit := by
  unfold integerValue?
  rw [Option.filter_eq_some_iff, decide_eq_true_iff]
  refine and_congr_left fun _ => ?_
  generalize text.toList = cs
  constructor
  · intro h
    split at h
    · next x digits =>
        split at h
        · next mark =>
            obtain ⟨hsome, hdenotes⟩ := (Text.ofDigits?_eq_some_iff (by decide)).mp h
            exact .hex mark hsome hdenotes
        · obtain ⟨hsome, hdenotes⟩ := (Text.ofDigits?_eq_some_iff (by decide)).mp h
          exact .octal hsome hdenotes
    · next hshape =>
        obtain ⟨hsome, hdenotes⟩ := (Text.ofDigits?_eq_some_iff (by decide)).mp h
        have hzero : cs.head? = some '0' → cs = ['0'] := by
          match cs with
          | [] => exact nofun
          | [c] => exact fun hc => congrArg (fun c => [c]) (Option.some.inj hc)
          | c :: x :: digits => exact fun hc => absurd (by rw [Option.some.inj hc]) (hshape x digits)
        rw [hdenotes.eq_toDigits hsome hzero]
        exact .decimal
  · intro h
    cases h with
    | decimal =>
        split
        · next x digits heq => cases toDigits_eq_zero_cons heq
        · exact Text.ofDigits?_toDigits (by decide) (by decide) n
    | hex mark some denotes =>
        show (if _ then _ else _) = _
        rw [if_pos mark]
        exact (Text.ofDigits?_eq_some_iff (by decide)).mpr ⟨some, denotes⟩
    | @octal digits some denotes =>
        cases digits with
        | nil => exact absurd rfl some
        | cons x digits =>
            have hx : ¬ (x = 'x' ∨ x = 'X') := by
              have hdigit := denotes.isDigit (by decide) x (List.mem_cons_self ..)
              rintro (rfl | rfl) <;> exact absurd hdigit (by decide)
            show (if _ then _ else _) = _
            rw [if_neg hx]
            exact (Text.ofDigits?_eq_some_iff (by decide)).mpr ⟨some, denotes⟩

/-- **A number in base ten is read back as itself.** -/
theorem integerValue?_repr {n : Nat} (h : n < integerLimit) : integerValue? n.repr = some n := by
  refine integerValue?_eq_some_iff.mpr ⟨?_, h⟩
  rw [Nat.toList_repr]
  exact .decimal

end FlagSchema
