import FlagSchema.Proofs.Numerals
import FlagSchema.Proofs.Origins
import FlagSchema.Proofs.Phrases

/-!
# Integers

The scanner takes for an integer every run of digits with what is glued to it. Where an integer is read, those that
denote a number below `2^127` are that number, all others are refused, and so nothing that is read wraps around.

* **`Token.leads_integer`**: the spellings of a number are integers to the scanner.
* **`ReadsAs`**, **`Unreadable`**: what becomes of an integer wherever one is read.
* **`Constant.Phrase.int_bounds`**, **`EnumDef.yields_values`**, **`Field.yields_number`**: what the numbers that are
  read are bounded by.
* **`integer_denotes`**: integers from the scanner to the numbers of a schema.
-/

namespace FlagSchema

open Token Reader

-- ── Scanning ─────────────────────────────────────────────────────────────────────

namespace Token

theorem isHexDigit_of_isDigitOf {d : Nat} {c : Char} (hd : d < 16) (hc : Text.IsDigitOf d c) :
    isHexDigit c = true := by
  rw [isHexDigit, (Text.digit?_eq_some_iff (by decide)).mpr ⟨hd, hc⟩]
  rfl

/-- The digits in base sixteen are characters of names. -/
theorem isNameChar_of_isHexDigit {c : Char} (h : isHexDigit c = true) : isNameChar c = true := by
  have hnames : ∀ d < 16, isNameChar (Nat.digitChar d) = true ∧ isNameChar (Nat.digitChar d).toUpper = true := by
    decide
  obtain ⟨d, hd⟩ := Option.isSome_iff_exists.mp h
  obtain ⟨hlt, rfl | rfl⟩ := (Text.digit?_eq_some_iff (by decide)).mp hd
  · exact (hnames d hlt).1
  · exact (hnames d hlt).2

/-- The scanner finds every spelling of a number, where no digit, letter or dot follows. -/
theorem leads_integer {n : Nat} {cs rest : List Char} (b : List Char) (h : IntegerSpelling n cs)
    (hrest : DigitsEnd rest) : (⟨b, cs, .int (String.ofList cs)⟩ : Word).Leads rest := by
  cases h with
  | decimal =>
      have hdigits := (Text.numeral_toDigits (by decide) n).isDigit (Nat.le_refl 10)
      cases hn : Nat.toDigits 10 n with
      | nil => exact absurd hn Nat.toDigits_ne_nil
      | cons c cs =>
          rw [hn] at hdigits
          exact leads_digits b hdigits hrest
  | @hex x digits mark some denotes =>
      refine Form.leads (.number '0' (x :: digits) false rfl (.inl rfl) rfl ?_)
      show cutNumber ('0' :: x :: (digits ++ rest)) = _
      have hcut : cut isHexDigit (digits ++ rest) = (digits, rest) := by
        refine cut_eq_iff.mpr ⟨fun c hc => ?_, fun c hc => ?_⟩
        · obtain ⟨d, hd, hc⟩ := denotes.forall_digit c hc
          exact isHexDigit_of_isDigitOf hd hc
        · refine Bool.eq_false_iff.mpr fun hdigit => ?_
          have hname := isNameChar_of_isHexDigit hdigit
          rw [(hrest c hc).1] at hname
          cases hname
      rw [cutNumber_hex mark, hcut]
  | @octal digits some denotes =>
      refine leads_digits b (List.forall_mem_cons.mpr ⟨rfl, ?_⟩) hrest
      exact denotes.isDigit (by decide)

end Token

-- ── Reading ──────────────────────────────────────────────────────────────────────

/-- Wherever an integer is read, a token with this text is read as the number, also behind a plus sign, and behind a
    minus sign as its negative. -/
structure ReadsAs (text : String) (n : Nat) : Prop where
  integer : ∀ {s : Stream} {t : Token} {us : List Token}, s.tokens = t :: us → t.kind = .int text →
    ∀ what, ∃ s', readInteger what s = .ok ((n, t), s') ∧ s'.tokens = us
  constant : ∀ {s : Stream} {t : Token} {us : List Token}, s.tokens = t :: us → t.kind = .int text →
    ∀ source, ∃ s', Constant.read source s = .ok ((.int n, t.span.stop), s') ∧ s'.tokens = us
  positive : ∀ {s : Stream} {sign t : Token} {us : List Token}, s.tokens = sign :: t :: us →
    sign.kind = .symbol '+' → t.kind = .int text →
    ∀ source, ∃ s', Constant.read source s = .ok ((.int n, t.span.stop), s') ∧ s'.tokens = us
  negative : ∀ {s : Stream} {sign t : Token} {us : List Token}, s.tokens = sign :: t :: us →
    sign.kind = .symbol '-' → t.kind = .int text →
    ∀ source, ∃ s', Constant.read source s = .ok ((.int (-n), t.span.stop), s') ∧ s'.tokens = us

/-- Wherever an integer is read, a token with this text is an error at its place. -/
structure Unreadable (text : String) : Prop where
  integer : ∀ {s : Stream} {t : Token} {us : List Token}, s.tokens = t :: us → t.kind = .int text →
    ∀ what, readInteger what s = .error (.badNumber t.position text)
  constant : ∀ {s : Stream} {t : Token} {us : List Token}, s.tokens = t :: us → t.kind = .int text →
    ∀ source, Constant.read source s = .error (.badNumber t.position text)
  positive : ∀ {s : Stream} {sign t : Token} {us : List Token}, s.tokens = sign :: t :: us →
    sign.kind = .symbol '+' → t.kind = .int text →
    ∀ source, Constant.read source s = .error (.badNumber t.position text)
  negative : ∀ {s : Stream} {sign t : Token} {us : List Token}, s.tokens = sign :: t :: us →
    sign.kind = .symbol '-' → t.kind = .int text →
    ∀ source, Constant.read source s = .error (.badNumber t.position text)

theorem readsAs_of_value {text : String} {n : Nat} (h : integerValue? text = some n) : ReadsAs text n where
  integer hs ht what := readInteger_ok what hs ht h
  constant hs ht source := by
    rw [Constant.read_int source hs ht]
    exact readNumber_ok hs ht h
  positive hs hsign ht source := by
    obtain ⟨s₁, hs₁, hread⟩ := Constant.read_plus source hs hsign
    rw [hread]
    exact readNumber_ok hs₁ ht h
  negative hs hsign ht source := by
    obtain ⟨s₁, hs₁, hread⟩ := Constant.read_minus source hs hsign
    obtain ⟨s', hnumber, hs'⟩ := readNumber_ok hs₁ ht h
    refine ⟨s', ?_, hs'⟩
    rw [hread, bind_ok hnumber]
    rfl

theorem unreadable_of_value {text : String} (h : integerValue? text = none) : Unreadable text where
  integer hs ht what := readInteger_error what hs ht h
  constant hs ht source := by
    rw [Constant.read_int source hs ht]
    exact readNumber_error hs ht h
  positive hs hsign ht source := by
    obtain ⟨s₁, hs₁, hread⟩ := Constant.read_plus source hs hsign
    rw [hread]
    exact readNumber_error hs₁ ht h
  negative hs hsign ht source := by
    obtain ⟨s₁, hs₁, hread⟩ := Constant.read_minus source hs hsign
    rw [hread]
    show (readNumber s₁ >>= _) = _
    rw [readNumber_error hs₁ ht h]
    rfl

-- ── Bounds ───────────────────────────────────────────────────────────────────────

/-- A number whose negative is as far from wrapping around as itself. -/
def Within (v : Int) : Prop := -2 ^ 127 < v ∧ v < 2 ^ 127

theorem within_of_lt {n : Nat} (h : n < integerLimit) : Within n ∧ Within (-n) := by
  have hlimit : integerLimit = 2 ^ 127 := by decide
  rw [hlimit] at h
  unfold Within
  omega

theorem lt_of_readInteger {what : Expectation} {s s' : Stream} {x : Nat × Token}
    (h : readInteger what s = .ok (x, s')) : x.1 < integerLimit := by
  obtain ⟨text, -, hvalue⟩ := readInteger_inv h
  exact (integerValue?_eq_some_iff.mp hvalue).2

/-- The integer that a token stands for. -/
theorem Token.Kind.lt_of_number? {k : Kind} {v : Int} (h : k.number? = some (.int v)) :
    ∃ n : Nat, v = n ∧ n < integerLimit := by
  cases k with
  | int text =>
      rw [Kind.number?] at h
      cases hn : integerValue? text with
      | none => rw [hn] at h; cases h
      | some n => rw [hn] at h; cases h; exact ⟨n, rfl, (integerValue?_eq_some_iff.mp hn).2⟩
  | float text => obtain ⟨x, -, hx⟩ := Option.map_eq_some_iff.mp h; cases hx
  | ident name => obtain ⟨x, -, hx⟩ := Option.map_eq_some_iff.mp h; cases hx
  | _ => cases h

/-- A value that is an integer is small enough, whatever its sign. -/
theorem Constant.Phrase.int_bounds {source : List Char} {us : List Token} {v : Int}
    (h : Constant.Phrase source us (.int v)) : Within v := by
  generalize hc : Constant.int v = c at h
  cases h with
  | str => cases hc
  | block => cases hc
  | @name t name =>
      exfalso
      unfold Constant.ofName at hc
      split_ifs at hc
      cases hnumber : namedNumber? name with
      | none => rw [hnumber] at hc; cases hc
      | some x => rw [hnumber] at hc; cases hc
  | number h =>
      subst hc
      obtain ⟨n, rfl, hn⟩ := Kind.lt_of_number? h
      exact (within_of_lt hn).1
  | positive _ h =>
      subst hc
      obtain ⟨n, rfl, hn⟩ := Kind.lt_of_number? h
      exact (within_of_lt hn).1
  | @negative sign t c _ h =>
      cases c with
      | int w =>
        obtain ⟨n, rfl, hn⟩ := Kind.lt_of_number? h
        cases hc
        exact (within_of_lt hn).2
      | _ => cases hc

/-- Integers among the values of options are small enough. -/
theorem Constant.within_read {source : List Char} {s s' : Stream} {v : Int} {stop : Nat}
    (h : Constant.read source s = .ok ((.int v, stop), s')) : Within v := by
  obtain ⟨us, -, hphrase, -⟩ := Constant.parses_read trivial h
  exact hphrase.int_bounds

-- ── Fields and enums ─────────────────────────────────────────────────────────────

variable {source : List Char}

/-- All values of an enum are of a sort that is read. -/
theorem EnumDef.yields_values {P : EnumValue → Prop} (hP : Yields source (EnumValue.read source) P) (keyword : Token) :
    Yields source (EnumDef.read source keyword) fun e => ∀ v ∈ e.values, P v := by
  have hstep : ∀ body : Body, (∀ v ∈ body.values, P v) → Yields source (bodyStep source body)
      (Sum.elim (fun body => ∀ v ∈ body.values, P v) fun x => ∀ v ∈ x.1.values, P v) := by
    intro body hbody
    refine .behind .peek? fun kind => ?_
    split
    · exact .refuse _
    · split
      · exact .behind (.next _) fun _ => .pure hbody
      · split
        · exact .behind (.next _) fun _ => .pure hbody
        · exact .refuse _
    · refine .behind (.symbolAhead _ _) fun isValue => ?_
      split
      · exact .behind Setting.passes_readStatement fun _ => .pure hbody
      · split
        · exact .behind (.next _) fun _ => .behind (passes_skipPast _) fun _ => .pure hbody
        · exact hP.bind fun v hv => .pure (List.forall_mem_append.mpr ⟨hbody, List.forall_mem_singleton.mpr hv⟩)
    · exact .refuse _
  refine .behind (.name _) fun _ => .behind (.symbol _) fun _ => .behind .dropHeld fun _ => ?_
  refine (Yields.iterate hstep (List.forall_mem_nil _)).bind fun x hx => ?_
  exact .behind .takeHeld fun _ => .pure hx

theorem yields_readInteger (what : Expectation) : Yields source (readInteger what) fun x => x.1 < integerLimit := by
  intro s p ws x s' hs h
  obtain ⟨-, hs'⟩ := Yields.of_passes (passes_readInteger what) hs h
  exact ⟨lt_of_readInteger h, hs'⟩

/-- The number of a value of an enum is small enough, whatever its sign. -/
theorem EnumValue.yields_number : Yields source (EnumValue.read source) fun v => Within v.number := by
  refine .behind (.name _) fun _ => .behind .takeHeld fun _ => .behind (.symbol _) fun _ =>
    .behind (.acceptSymbol _) fun negative => (yields_readInteger _).bind fun x hx => ?_
  refine .behind Setting.passes_readBracketed fun _ => .behind (.symbol _) fun _ => .behind (.trailing _) fun _ =>
    .pure ?_
  show Within (if negative = true then -(x.1 : Int) else x.1)
  split
  · exact (within_of_lt hx).2
  · exact (within_of_lt hx).1

/-- The number of a field is one of those that a field may have. -/
theorem Field.yields_number (oneof : Option String) :
    Yields source (Field.read source oneof) fun f => 1 ≤ f.number ∧ f.number ≤ maxFieldNumber := by
  have hnumber : Yields source Field.readNumber fun n => 1 ≤ n ∧ n ≤ maxFieldNumber := by
    refine (yields_readInteger _).bind fun x _ => ?_
    dsimp only
    split
    · next h => exact .pure h
    · exact fun _ _ _ _ _ _ h => nomatch h
  exact .behind (passes_readHead _) fun _ => .behind (passes_readType _ _) fun _ => .behind (.name _) fun _ =>
    .behind (.symbol _) fun _ => hnumber.bind fun n hn => .behind Setting.passes_readBracketed fun _ =>
    .behind (.symbol _) fun _ => .pure hn

-- ── From the scanner to the schema ───────────────────────────────────────────────

/-- **Integers denote their values and never wrap around.** Each spelling of a number below `2^127` is one token in
    front of every text that could not go on with it, and is read as that number; every other integer is refused
    where one is read. Values of options and numbers of enum values are within the bounds with either sign, and the
    numbers of fields are among those that a field may have, which 32 bits hold. -/
theorem integer_denotes :
    (∀ (n : Nat) (cs : List Char), IntegerSpelling n cs → n < 2 ^ 127 →
      (∀ (p : Place) (rest : List Char), DigitsEnd rest →
        scan p (cs ++ rest) = (scan (p.after cs) rest).map
          (⟨.int (String.ofList cs), ⟨p.offset, p.offset + Text.byteSize cs⟩, p.position⟩ :: ·)) ∧
      ReadsAs (String.ofList cs) n) ∧
    (∀ text : String, (¬ ∃ n < 2 ^ 127, IntegerSpelling n text.toList) → Unreadable text) ∧
    (∀ what s x s', readInteger what s = .ok (x, s') → Within x.1 ∧ Within (-x.1)) ∧
    (∀ s v stop s', readNumber s = .ok ((.int v, stop), s') → 0 ≤ v ∧ Within v ∧ Within (-v)) ∧
    (∀ source s v stop s', Constant.read source s = .ok ((.int v, stop), s') → Within v) ∧
    ∀ source s, Schema.parse source = .ok s →
      (∀ x ∈ s.enumsIn, ∀ v ∈ x.2.values, Within v.number) ∧
      ∀ x ∈ s.fieldsIn, 1 ≤ x.2.number ∧ x.2.number ≤ 536870911 ∧ (UInt32.ofNat x.2.number).toNat = x.2.number := by
  have hlimit : integerLimit = 2 ^ 127 := by decide
  refine ⟨fun n cs hcs hn => ⟨fun p rest hrest => ?_, ?_⟩, fun text htext => ?_, fun what s x s' h => ?_,
    fun s v stop s' h => ?_, fun source s v stop s' h => Constant.within_read h, fun source s h => ?_⟩
  · exact (leads_integer [] hcs hrest).scan_spelling p
  · refine readsAs_of_value (integerValue?_eq_some_iff.mpr ⟨?_, hlimit ▸ hn⟩)
    rwa [String.toList_ofList]
  · refine unreadable_of_value (Option.eq_none_iff_forall_ne_some.mpr fun n hn => ?_)
    obtain ⟨hspelling, hlt⟩ := integerValue?_eq_some_iff.mp hn
    exact htext ⟨n, hlimit ▸ hlt, hspelling⟩
  · exact within_of_lt (lt_of_readInteger h)
  · obtain ⟨us, -, t, -, hnumber, -⟩ := parses_readNumber trivial h
    obtain ⟨n, rfl, hn⟩ := Kind.lt_of_number? hnumber
    exact ⟨Int.natCast_nonneg n, within_of_lt hn⟩
  · have hdeclares := Schema.declares_parse h .name (EnumDef.yields_values EnumValue.yields_number) Field.yields_number
    refine ⟨hdeclares.of_enumsIn, fun x hx => ?_⟩
    obtain ⟨hlow, hhigh⟩ := hdeclares.of_fieldsIn x hx
    refine ⟨hlow, hhigh, UInt32.toNat_ofNat_of_lt' ?_⟩
    exact Nat.lt_of_le_of_lt hhigh (by decide)

/-- The largest integer, in base sixteen with a needless zero. -/
def largestInteger : List Char :=
  '0' :: 'X' :: '0' :: '7' :: List.replicate 15 'f' ++ List.replicate 16 'F'

/-- The largest numbers of a field and of an enum value, with the sign that takes the latter furthest down. -/
def largestNumbers : String :=
  "message Hart { bool last = 03777777777; }\n" ++
  "enum Mode { ZERO = 00; LOW = -0x7FFFFFFFFFFFFFFFFFFFFFFFFFFFFFFF; }\n"

/-- They are read as what they denote; the next integer, and what denotes none, is not. -/
theorem integer_denotes_largest :
    scan {} (largestInteger ++ [';'])
        = .ok [⟨.int (String.ofList largestInteger), ⟨0, 35⟩, ⟨1, 1⟩⟩, ⟨.symbol ';', ⟨35, 36⟩, ⟨1, 36⟩⟩] ∧
      ReadsAs (String.ofList largestInteger) (2 ^ 127 - 1) ∧
      Unreadable "170141183460469231731687303715884105728" ∧ Unreadable "08" ∧ Unreadable "0x" ∧ Unreadable "12abc" ∧
      ∃ s, Schema.parse largestNumbers = .ok s ∧ (s.fieldsIn.map fun x => x.2.number) = [536870911] ∧
        (s.enumsIn.map fun x => x.2.values.map EnumValue.number) = [[0, -(2 ^ 127 - 1)]] ∧
        (∀ x ∈ s.enumsIn, ∀ v ∈ x.2.values, Within v.number) ∧
        ∀ x ∈ s.fieldsIn, (UInt32.ofNat x.2.number).toNat = x.2.number := by
  obtain ⟨hspellings, hothers, -, -, -, hschemas⟩ := integer_denotes
  have hlargest : IntegerSpelling (2 ^ 127 - 1) largestInteger :=
    .hex (.inr rfl) (by decide) ((Text.pushDigits?_eq_some_iff (by decide)).mp (by decide +kernel))
  have hnone : ∀ text : String, integerValue? text = none → Unreadable text := by
    intro text htext
    refine hothers text ?_
    rintro ⟨n, hn, hspelling⟩
    rw [integerValue?_eq_some_iff.mpr ⟨hspelling, hn⟩] at htext
    cases htext
  obtain ⟨hscan, hreads⟩ := hspellings _ _ hlargest (by decide)
  refine ⟨?_, hreads, hnone _ (by decide +kernel), hnone _ (by decide +kernel), hnone _ (by decide +kernel),
    hnone _ (by decide +kernel), ?_⟩
  · rw [hscan {} [';'] (by rintro c hc; cases hc; decide)]
    decide +kernel
  · have hcomputed : (Schema.parse largestNumbers).toOption.map (fun s =>
        (s.fieldsIn.map fun x => x.2.number, s.enumsIn.map fun x => x.2.values.map EnumValue.number)) =
          some ([536870911], [[0, -(2 ^ 127 - 1)]]) := by
      rw [Schema.parse_eq]
      delta largestNumbers
      simp only [String.toList_append, String.reduceToList]
      decide +kernel
    cases h : Schema.parse largestNumbers with
    | error e => rw [h] at hcomputed; cases hcomputed
    | ok s =>
        rw [h] at hcomputed
        obtain ⟨hfields, henums⟩ := Prod.mk.inj (Option.some.inj hcomputed)
        obtain ⟨hvalues, hnumbers⟩ := hschemas _ s h
        exact ⟨s, rfl, hfields, henums, hvalues, fun x hx => (hnumbers x hx).2.2⟩

end FlagSchema
