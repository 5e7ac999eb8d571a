import FlagSchema.Proofs.LineBreaks
import FlagSchema.Proofs.Numerals

/-!
# String literals

A string literal is what its characters are written as, between two quotes. Each character has several spellings,
and whichever are chosen, the literal is one token with the string as its value: an escape ends where its spelling
does, whatever character comes next.

* **`CharSpelling`**: the spellings of a character between quotes.
* **`Token.leads_literal`**: the scanner finds a literal in front of every text.
* **`tokenize_literal`**: a literal is one token.
-/

namespace FlagSchema

/-- The characters with an escape of their own, each behind the letter that names it. -/
def controlNames : List (Char × Char) :=
  [('n', '\n'), ('r', '\r'), ('t', '\t'), ('a', '\x07'), ('b', '\x08'), ('f', '\x0c'), ('v', '\x0b')]

/-- The spellings of a character in a literal between the given quotes. -/
inductive CharSpelling (quote : Char) : Char → List Char → Prop where
  /-- A character that means nothing else stands for itself. -/
  | itself {c : Char} (notQuote : c ≠ quote) (notBackslash : c ≠ '\\') (notFeed : c ≠ '\n') : CharSpelling quote c [c]
  | escaped {c : Char} (special : c = quote ∨ c = '\\') : CharSpelling quote c ['\\', c]
  | named {name c : Char} (names : (name, c) ∈ controlNames) : CharSpelling quote c ['\\', name]
  | hex {x c : Char} {digits : List Char} (mark : x = 'x' ∨ x = 'X') (two : digits.length = 2)
      (denotes : Text.Numeral 16 c.toNat digits) : CharSpelling quote c ('\\' :: x :: digits)
  | octal {c : Char} {digits : List Char} (three : digits.length = 3) (denotes : Text.Numeral 8 c.toNat digits)
      (byte : c.toNat < 256) : CharSpelling quote c ('\\' :: digits)

/-- A string literal, from the spellings of its characters. -/
def literal (quote : Char) (spellings : List (List Char)) : List Char :=
  quote :: spellings.flatten ++ [quote]

namespace Token

-- ── Escapes ──────────────────────────────────────────────────────────────────────

/-- As many digits as may be cut off are cut off, also in front of more. -/
theorem cutDigits_of_pushDigits? {base start n : Nat} {digits : List Char}
    (h : Text.pushDigits? base start digits = some n) (rest : List Char) :
    cutDigits base digits.length start (digits ++ rest) = (n, digits, rest) := by
  induction digits generalizing start with
  | nil =>
      cases h
      rfl
  | cons c digits ih =>
      obtain ⟨d, hd, h⟩ := Option.bind_eq_some_iff.mp h
      rw [List.length_cons, List.cons_append, cutDigits, hd]
      dsimp only
      rw [ih h]

/-- A digit in base eight opens no other escape. -/
theorem namedEscape?_of_digit {c : Char} {d : Nat} (h : Text.digit? 8 c = some d) :
    namedEscape? c = none ∧ ¬ (c = 'x' ∨ c = 'X') := by
  obtain ⟨hd, hc⟩ := (Text.digit?_eq_some_iff (by decide)).mp h
  clear h
  rcases hc with rfl | rfl
  · revert d; decide
  · revert d; decide

theorem cutEscape?_named {name c : Char} (h : (name, c) ∈ controlNames) (rest : List Char) :
    cutEscape? (name :: rest) = some (c, [name], rest) := by
  have hnames : ∀ pair ∈ controlNames, namedEscape? pair.1 = some pair.2 := by decide
  have hname : namedEscape? name = some c := hnames _ h
  rw [cutEscape?, hname]

theorem cutEscape?_hex {x c : Char} {digits : List Char} (hx : x = 'x' ∨ x = 'X') (htwo : digits.length = 2)
    (h : Text.Numeral 16 c.toNat digits) (rest : List Char) :
    cutEscape? (x :: digits ++ rest) = some (c, x :: digits, rest) := by
  have hvalue := (Text.pushDigits?_eq_some_iff (by decide)).mpr h
  have hbyte : c.toNat < 256 := by
    have hpow := h.lt_pow
    rwa [htwo] at hpow
  have hcut := cutDigits_of_pushDigits? hvalue rest
  rw [htwo] at hcut
  have hname : namedEscape? x = none := by rcases hx with rfl | rfl <;> rfl
  rw [List.cons_append, cutEscape?, hname]
  dsimp only
  rw [if_pos (by simpa using hx), hcut, Nat.mod_eq_of_lt hbyte, Char.ofNat_toNat]

theorem cutEscape?_octal {c : Char} {digits : List Char} (hthree : digits.length = 3)
    (h : Text.Numeral 8 c.toNat digits) (hbyte : c.toNat < 256) (rest : List Char) :
    cutEscape? (digits ++ rest) = some (c, digits, rest) := by
  have hvalue := (Text.pushDigits?_eq_some_iff (by decide)).mpr h
  cases digits with
  | nil => cases hthree
  | cons first digits =>
      obtain ⟨d, hd, hvalue⟩ := Option.bind_eq_some_iff.mp hvalue
      rw [Nat.zero_mul, Nat.zero_add] at hvalue
      have hcut := cutDigits_of_pushDigits? hvalue rest
      rw [Nat.succ.inj hthree] at hcut
      obtain ⟨hname, hx⟩ := namedEscape?_of_digit hd
      rw [List.cons_append, cutEscape?, hname]
      dsimp only
      rw [if_neg (by simpa using hx), hd]
      dsimp only
      rw [hcut, Nat.mod_eq_of_lt hbyte, Char.ofNat_toNat]

/-- A quote or a backslash behind a backslash stands for itself. -/
theorem cutEscape?_special {quote c : Char} (hquote : quote = '"' ∨ quote = '\'') (h : c = quote ∨ c = '\\')
    (rest : List Char) : cutEscape? (c :: rest) = some (c, [c], rest) := by
  rcases h with rfl | rfl
  · rcases hquote with rfl | rfl <;> rfl
  · rfl

-- ── Literals ─────────────────────────────────────────────────────────────────────

/-- The scanner takes a character in each of its spellings, and goes on behind it. -/
theorem cutString?_charSpelling {quote c : Char} {spelling : List Char} (hquote : quote = '"' ∨ quote = '\'')
    (h : CharSpelling quote c spelling) (cs : List Char) :
    cutString? quote (spelling ++ cs)
      = (cutString? quote cs).map fun (values, front, back) => (c :: values, spelling ++ front, back) := by
  have hslash : quote ≠ '\\' := by rcases hquote with rfl | rfl <;> decide
  cases h with
  | itself notQuote notBackslash notFeed => exact cutString?_plain cs notFeed notQuote notBackslash
  | escaped special => exact cutString?_escape hslash (cutEscape?_special hquote special cs)
  | named names => exact cutString?_escape hslash (cutEscape?_named names cs)
  | hex mark two denotes => exact cutString?_escape hslash (cutEscape?_hex mark two denotes cs)
  | octal three denotes byte => exact cutString?_escape hslash (cutEscape?_octal three denotes byte cs)

/-- **What is written inside quotes is read back**, up to the closing quote. -/
theorem cutString?_literal {quote : Char} {value : List Char} {spellings : List (List Char)}
    (hquote : quote = '"' ∨ quote = '\'') (h : List.Forall₂ (CharSpelling quote) value spellings) (rest : List Char) :
    cutString? quote (spellings.flatten ++ quote :: rest)
      = some (value, spellings.flatten ++ [quote], rest) := by
  induction h with
  | nil =>
      have hfeed : quote ≠ '\n' := by rcases hquote with rfl | rfl <;> decide
      rw [List.flatten_nil, List.nil_append, cutString?, if_neg hfeed, if_pos rfl, List.nil_append]
  | cons hc _ ih =>
      rw [List.flatten_cons, List.append_assoc, cutString?_charSpelling hquote hc, ih, List.append_assoc]
      rfl

/-- The scanner finds a literal in front of every text. -/
theorem leads_literal {quote : Char} {value : String} {spellings : List (List Char)} (b : List Char)
    (hquote : quote = '"' ∨ quote = '\'') (h : List.Forall₂ (CharSpelling quote) value.toList spellings)
    (rest : List Char) : (⟨b, literal quote spellings, .str value⟩ : Word).Leads rest := by
  refine Form.leads (.string quote (spellings.flatten ++ [quote]) value.toList rfl hquote ?_ ?_)
  · show Kind.str value = .str (String.ofList value.toList)
    rw [String.ofList_toList]
  · rw [List.append_assoc, List.singleton_append, cutString?_literal hquote h]

end Token

open Token

/-- **A string literal is one token with the string as its value**, however its characters are spelled: alone, and
    in front of every text. -/
theorem tokenize_literal {quote : Char} {value : String} {spellings : List (List Char)}
    (hquote : quote = '"' ∨ quote = '\'') (h : List.Forall₂ (CharSpelling quote) value.toList spellings) :
    tokenize (String.ofList (literal quote spellings))
        = .ok [⟨.str value, ⟨0, Text.byteSize (literal quote spellings)⟩, ⟨1, 1⟩⟩] ∧
      ∀ (p : Place) (rest : List Char),
        scan p (literal quote spellings ++ rest)
          = (scan (p.after (literal quote spellings)) rest).map
              (⟨.str value, ⟨p.offset, p.offset + Text.byteSize (literal quote spellings)⟩, p.position⟩ :: ·) := by
  constructor
  · exact (leads_literal [] hquote h []).tokenize_spelling
  · intro p rest
    exact (leads_literal [] hquote h rest).scan_spelling p

/-- Escapes of all kinds, in front of characters that other escapes would go on with. -/
def mixedSpellings : List (List Char) :=
  [['\\', 'x', '4', '1'], ['1'], ['\\', '3', '5', '1'], ['7'], ['\\', '\\'], ['n'], ['\\', 'n'], ['\\', '\''],
    ['"'], ['\\', 'X', 'e', 'F']]

/-- Their literal is one token. -/
theorem tokenize_literal_mixed :
    String.ofList (literal '\'' mixedSpellings) = "'\\x411\\3517\\\\n\\n\\'\"\\XeF'" ∧
      List.Forall₂ (CharSpelling '\'') "A1é7\\n\n'\"ï".toList mixedSpellings ∧
      tokenize (String.ofList (literal '\'' mixedSpellings)) = .ok [⟨.str "A1é7\\n\n'\"ï", ⟨0, 24⟩, ⟨1, 1⟩⟩] := by
  have hplain : ∀ c, c ≠ '\'' ∧ c ≠ '\\' ∧ c ≠ '\n' → CharSpelling '\'' c [c] :=
    fun c hc => .itself hc.1 hc.2.1 hc.2.2
  have hhex : ∀ n cs, Text.pushDigits? 16 0 cs = some n → Text.Numeral 16 n cs :=
    fun _ _ => (Text.pushDigits?_eq_some_iff (by decide)).mp
  have hoctal : ∀ n cs, Text.pushDigits? 8 0 cs = some n → Text.Numeral 8 n cs :=
    fun _ _ => (Text.pushDigits?_eq_some_iff (by decide)).mp
  have hspells : List.Forall₂ (CharSpelling '\'') "A1é7\\n\n'\"ï".toList mixedSpellings :=
    .cons (.hex (.inl rfl) rfl (hhex _ _ (by decide))) <|
    .cons (hplain '1' (by decide)) <|
    .cons (.octal rfl (hoctal _ _ (by decide)) (by decide)) <|
    .cons (hplain '7' (by decide)) <|
    .cons (.escaped (.inr rfl)) <|
    .cons (hplain 'n' (by decide)) <|
    .cons (.named (by decide)) <|
    .cons (.escaped (.inl rfl)) <|
    .cons (hplain '"' (by decide)) <|
    .cons (.hex (.inr rfl) rfl (hhex _ _ (by decide))) .nil
  exact ⟨by decide, hspells, (tokenize_literal (.inr rfl) hspells).1⟩

end FlagSchema
