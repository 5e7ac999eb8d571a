import FlagSchema.Token.Basic
import FlagSchema.Text.Blank
import FlagSchema.Text.Numeral

/-!
# Lexemes

The first token of a text, found without regard to where the text stands: which kind it is, which
characters spell it and which are left. Each rule below cuts a text in two.

* **`Lexeme.first`**: the lexeme at the start of a text that does not start with a blank.
* **`Fault`**: why a text has none there.
* **`Lexeme.first_append`**, **`Lexeme.length_rest_lt`**: spelling and rest make up the text, and the
  rest is shorter.
-/

namespace FlagSchema.Token

/-- A letter of ASCII or an underscore, which start a name. -/
def isNameStart (c : Char) : Bool :=
  c.isAlpha || c == '_'

/-- A character inside a name. -/
def isNameChar (c : Char) : Bool :=
  c.isAlphanum || c == '_'

/-- A digit in base sixteen. -/
def isHexDigit (c : Char) : Bool :=
  (Text.digit? 16 c).isSome

/-- The punctuation characters of ASCII. -/
def isPunctuation (c : Char) : Bool :=
  0x21 ≤ c.toNat && c.toNat ≤ 0x7e && !c.isAlphanum

/-- A text cut where a predicate first fails. -/
def cut (p : Char → Bool) (cs : List Char) : List Char × List Char :=
  (cs.takeWhile p, cs.dropWhile p)

theorem cut_append (p : Char → Bool) (cs : List Char) : (cut p cs).1 ++ (cut p cs).2 = cs :=
  List.takeWhile_append_dropWhile

/-- The rest of a name: name characters, and dots that a name start follows. -/
def cutName : List Char → List Char × List Char
  | [] => ([], [])
  | c :: cs =>
    if isNameChar c || (c == '.' && cs.head?.any isNameStart) then
      let (front, back) := cutName cs
      (c :: front, back)
    else ([], c :: cs)

/-- The rest of a block comment up to and including the marker that closes it. -/
def cutBlock? : List Char → Option (List Char × List Char)
  | '*' :: '/' :: cs => some (['*', '/'], cs)
  | c :: cs          => (cutBlock? cs).map fun (front, back) => (c :: front, back)
  | []               => none

/-- An optional part of a number: nothing unless the text starts with one of `marks`, else that
    character and what `tail` cuts after it. -/
def cutPart (marks : List Char) (tail : List Char → List Char × List Char) :
    List Char → List Char × List Char
  | [] => ([], [])
  | c :: cs =>
    if marks.contains c then
      let (front, back) := tail cs
      (c :: front, back)
    else ([], c :: cs)

/-- Nothing, with the whole text left. -/
def cutNone (cs : List Char) : List Char × List Char := ([], cs)

/-- Digits after a sign or none. -/
def cutSigned (cs : List Char) : List Char × List Char :=
  let (sign, rest) := cutPart ['+', '-'] cutNone cs
  let (digits, rest) := cut Char.isDigit rest
  (sign ++ digits, rest)

/-- A number: whether it is a floating point one, its spelling and the rest. Name characters glued to a
    decimal number belong to its spelling; the meaning of the spelling is decided where it is used. -/
def cutNumber (cs : List Char) : Bool × List Char × List Char :=
  match cs with
  | '0' :: x :: tail =>
    if x = 'x' || x = 'X' then
      let (digits, rest) := cut isHexDigit tail
      (false, '0' :: x :: digits, rest)
    else decimal cs
  | _ => decimal cs
where
  /-- A number in base ten. -/
  decimal (cs : List Char) : Bool × List Char × List Char :=
    let (whole, rest) := cut Char.isDigit cs
    let (fraction, rest) := cutPart ['.'] (cut Char.isDigit) rest
    let (exponent, rest) := cutPart ['e', 'E'] cutSigned rest
    let isFloat := !(fraction.isEmpty && exponent.isEmpty)
    let (suffix, rest) := cutPart (if isFloat then ['f', 'F'] else []) cutNone rest
    let (glued, rest) := cut isNameChar rest
    (isFloat, whole ++ fraction ++ exponent ++ suffix ++ glued, rest)

/-- At most `limit` more digits of a base, added to a number already read: the number, the spelling of
    the digits and the rest. -/
def cutDigits (base : Nat) : Nat → Nat → List Char → Nat × List Char × List Char
  | 0,         n, cs => (n, [], cs)
  | _ + 1,     n, [] => (n, [], [])
  | limit + 1, n, c :: cs =>
    match Text.digit? base c with
    | none   => (n, [], c :: cs)
    | some d =>
      let (value, front, back) := cutDigits base limit (n * base + d) cs
      (value, c :: front, back)

/-- What the character after a backslash stands for when it is the name of a control character. -/
def namedEscape? : Char → Option Char
  | 'n' => some '\n'
  | 'r' => some '\r'
  | 't' => some '\t'
  | 'a' => some '\x07'
  | 'b' => some '\x08'
  | 'f' => some '\x0c'
  | 'v' => some '\x0b'
  | _   => none

/-- An escape after its backslash: the character it stands for, its spelling and the rest. Numbers are
    `x` with up to two digits of base sixteen, or up to three digits of base eight; the value is taken
    modulo 256. Any other character stands for itself. -/
def cutEscape? : List Char → Option (Char × List Char × List Char)
  | [] => none
  | c :: cs =>
    match namedEscape? c with
    | some control => some (control, [c], cs)
    | none =>
      if c = 'x' || c = 'X' then
        let (code, front, back) := cutDigits 16 2 0 cs
        some (Char.ofNat (code % 256), c :: front, back)
      else
        match Text.digit? 8 c with
        | some d =>
          let (code, front, back) := cutDigits 8 2 d cs
          some (Char.ofNat (code % 256), c :: front, back)
        | none => some (c, [c], cs)

theorem cutDigits_append (base limit n : Nat) (cs : List Char) :
    (cutDigits base limit n cs).2.1 ++ (cutDigits base limit n cs).2.2 = cs := by
  induction limit generalizing n cs with
  | zero => rfl
  | succ limit ih =>
    cases cs with
    | nil => rfl
    | cons c cs =>
      rw [cutDigits]
      split
      · rfl
      · simp [ih]

theorem cutEscape?_append {cs front back : List Char} {c : Char}
    (h : cutEscape? cs = some (c, front, back)) : front ++ back = cs ∧ front ≠ [] := by
  cases cs with
  | nil => simp [cutEscape?] at h
  | cons x xs =>
    have h16 := cutDigits_append 16 2 0 xs
    simp only [cutEscape?] at h
    split at h
    · simp at h; grind
    · split at h
      · simp at h; grind
      · split at h
        · next d _ =>
          have h8 := cutDigits_append 8 2 d xs
          simp at h; grind
        · simp at h; grind

theorem length_cutEscape?_le {cs front back : List Char} {c : Char}
    (h : cutEscape? cs = some (c, front, back)) : back.length ≤ cs.length := by
  rw [← (cutEscape?_append h).1, List.length_append]
  exact Nat.le_add_left _ _

/-- The rest of a string literal up to and including its closing quote: the value, the spelling and the
    remaining text. A line feed ends the line without closing the string unless a backslash precedes
    it. -/
def cutString? (quote : Char) (cs : List Char) : Option (List Char × List Char × List Char) :=
  match cs with
  | [] => none
  | c :: rest =>
    if c = '\n' then none
    else if c = quote then some ([], [c], rest)
    else if c = '\\' then
      match h : cutEscape? rest with
      | none => none
      | some (value, spelling, rest') =>
        have := length_cutEscape?_le h
        (cutString? quote rest').map fun (values, front, back) =>
          (value :: values, c :: spelling ++ front, back)
    else
      (cutString? quote rest).map fun (values, front, back) => (c :: values, c :: front, back)
termination_by cs.length

/-! ## The parts of a cut make up the text -/

theorem cutName_append (cs : List Char) : (cutName cs).1 ++ (cutName cs).2 = cs := by
  induction cs with
  | nil => rfl
  | cons c cs ih =>
    rw [cutName]
    split
    · simp [ih]
    · rfl

theorem cutBlock?_append {cs front back : List Char} (h : cutBlock? cs = some (front, back)) :
    front ++ back = cs := by
  induction cs using cutBlock?.induct generalizing front back with
  | case1 cs =>
    simp only [cutBlock?, Option.some.injEq, Prod.mk.injEq] at h
    obtain ⟨rfl, rfl⟩ := h
    rfl
  | case2 c cs hc ih =>
    rw [cutBlock?.eq_2 c cs hc] at h
    obtain ⟨⟨f, b⟩, hfb, h⟩ := Option.map_eq_some_iff.1 h
    simp only [Prod.mk.injEq] at h
    obtain ⟨rfl, rfl⟩ := h
    simp [ih hfb]
  | case3 => simp [cutBlock?] at h

theorem cutPart_append (marks : List Char) {tail : List Char → List Char × List Char}
    (htail : ∀ cs, (tail cs).1 ++ (tail cs).2 = cs) (cs : List Char) :
    (cutPart marks tail cs).1 ++ (cutPart marks tail cs).2 = cs := by
  cases cs with
  | nil => rfl
  | cons c cs =>
    rw [cutPart]
    split
    · simp [htail]
    · rfl

theorem cutNone_append (cs : List Char) : (cutNone cs).1 ++ (cutNone cs).2 = cs := rfl

theorem cutSigned_append (cs : List Char) : (cutSigned cs).1 ++ (cutSigned cs).2 = cs := by
  simp only [cutSigned, List.append_assoc, cut_append]
  exact cutPart_append _ cutNone_append cs

theorem cutNumber_decimal_append (cs : List Char) :
    (cutNumber.decimal cs).2.1 ++ (cutNumber.decimal cs).2.2 = cs := by
  have hfraction := fun ds => cutPart_append ['.'] (cut_append Char.isDigit) ds
  have hexponent := fun ds => cutPart_append ['e', 'E'] cutSigned_append ds
  have hsuffix := fun (isFloat : Bool) ds =>
    cutPart_append (if isFloat then ['f', 'F'] else []) cutNone_append ds
  simp only [cutNumber.decimal, List.append_assoc, cut_append]
  rw [hsuffix, hexponent, hfraction, cut_append]

theorem cutNumber_append (cs : List Char) : (cutNumber cs).2.1 ++ (cutNumber cs).2.2 = cs := by
  unfold cutNumber
  split
  · split
    · simp [cut_append]
    · exact cutNumber_decimal_append _
  · exact cutNumber_decimal_append _

theorem cutString?_append {quote : Char} {cs value front back : List Char}
    (h : cutString? quote cs = some (value, front, back)) : front ++ back = cs := by
  fun_induction cutString? quote cs generalizing value front back with
  | case1 => cases h
  | case2 => cases h
  | case3 => cases h; rfl
  | case4 => cases h
  | case5 rest c spelling rest' hesc _ _ _ ih =>
    obtain ⟨⟨v, f, b⟩, hvfb, h⟩ := Option.map_eq_some_iff.1 h
    cases h
    simp [ih hvfb, (cutEscape?_append hesc).1]
  | case6 c rest hc hq hb ih =>
    obtain ⟨⟨v, f, b⟩, hvfb, h⟩ := Option.map_eq_some_iff.1 h
    cases h
    simp [ih hvfb]

/-! ## The first lexeme -/

/-- Why a text has no lexeme at its start. -/
inductive Fault where
  /-- A character that starts no token. -/
  | stray (c : Char)
  /-- A string that its line does not close. -/
  | openString
  /-- A block comment that the text does not close. -/
  | openComment
  deriving DecidableEq, Repr

/-- A kind of token, the characters that spell it and the text after them. -/
structure Lexeme where
  kind     : Kind
  spelling : List Char
  rest     : List Char
  deriving DecidableEq, Repr

namespace Lexeme

/-- A comment to the end of its line; its text loses the blanks at the end. -/
def lineComment (cs : List Char) : Lexeme :=
  let (front, back) := cut (· ≠ '\n') cs
  ⟨.comment (String.ofList (Text.trimEnd front)), front, back⟩

/-- A block comment, given the text after its opening marker. -/
def blockComment? (cs : List Char) : Option Lexeme :=
  (cutBlock? cs).map fun (front, back) =>
    ⟨.comment (String.ofList ('/' :: '*' :: front)), '/' :: '*' :: front, back⟩

/-- A number. -/
def number (cs : List Char) : Lexeme :=
  let (isFloat, front, back) := cutNumber cs
  ⟨if isFloat then .float (String.ofList front) else .int (String.ofList front), front, back⟩

/-- A name. -/
def name (cs : List Char) : Lexeme :=
  let (front, back) := cutName cs
  ⟨.ident (String.ofList front), front, back⟩

/-- A string, given the text after its opening quote. -/
def string? (quote : Char) (cs : List Char) : Option Lexeme :=
  (cutString? quote cs).map fun (value, front, back) =>
    ⟨.str (String.ofList value), quote :: front, back⟩

/-- The lexeme at the start of the text `c :: cs`, where `c` is no blank. A slash with another slash or
    a star opens a comment; a dot belongs to a number or a name when a digit or a name start follows. -/
def first (c : Char) (cs : List Char) : Except Fault Lexeme :=
  if c = '/' ∧ cs.head? = some '/' then .ok (lineComment (c :: cs))
  else if c = '/' ∧ cs.head? = some '*' then
    (blockComment? cs.tail).elim (.error .openComment) .ok
  else if c.isDigit ∨ (c = '.' ∧ cs.head?.any Char.isDigit) then .ok (number (c :: cs))
  else if isNameStart c ∨ (c = '.' ∧ cs.head?.any isNameStart) then .ok (name (c :: cs))
  else if c = '"' ∨ c = '\'' then (string? c cs).elim (.error .openString) .ok
  else if isPunctuation c then .ok ⟨.symbol c, [c], cs⟩
  else .error (.stray c)

/-- The spelling and the rest make up the text. -/
theorem first_append {c : Char} {cs : List Char} {l : Lexeme} (h : first c cs = .ok l) :
    l.spelling ++ l.rest = c :: cs := by
  unfold first at h
  split at h
  · cases h; exact cut_append _ _
  split at h
  · next hc =>
    cases hb : cutBlock? cs.tail with
    | none => simp [blockComment?, hb] at h
    | some parts =>
      simp only [blockComment?, hb, Option.map_some, Option.elim_some, Except.ok.injEq] at h
      subst h
      have hcs : cs = '*' :: cs.tail := by
        cases cs with
        | nil => simp at hc
        | cons d ds => simpa using hc.2
      rw [hcs, hc.1]
      simp [cutBlock?_append hb]
  split at h
  · cases h; exact cutNumber_append (c :: cs)
  split at h
  · cases h; exact cutName_append (c :: cs)
  split at h
  · cases hs : cutString? c cs with
    | none => simp [string?, hs] at h
    | some parts =>
      simp only [string?, hs, Option.map_some, Option.elim_some, Except.ok.injEq] at h
      subst h
      simp [cutString?_append hs]
  split at h
  · cases h; rfl
  · cases h

/-- A number takes at least its first character. -/
theorem number_spelling_ne_nil {c : Char} {cs : List Char}
    (h : c.isDigit = true ∨ (c = '.' ∧ cs.head?.any Char.isDigit = true)) :
    (number (c :: cs)).spelling ≠ [] := by
  have hdecimal : (cutNumber.decimal (c :: cs)).2.1 ≠ [] := by
    by_cases hc : c.isDigit = true
    · simp [cutNumber.decimal, cut, hc]
    · obtain rfl := (h.resolve_left hc).1
      simp [cutNumber.decimal, cut, cutPart, hc]
  simp only [number]
  unfold cutNumber
  split
  · split
    · simp
    · exact hdecimal
  · exact hdecimal

/-- A name takes at least its first character. -/
theorem name_spelling_ne_nil {c : Char} {cs : List Char}
    (h : isNameStart c = true ∨ (c = '.' ∧ cs.head?.any isNameStart = true)) :
    (name (c :: cs)).spelling ≠ [] := by
  have hfirst : (isNameChar c || (c == '.' && cs.head?.any isNameStart)) = true := by
    rcases h with h | ⟨rfl, h⟩
    · simp only [isNameStart, Bool.or_eq_true] at h
      rcases h with h | h <;> simp [isNameChar, Char.isAlphanum, h]
    · simp [h]
  simp [name, cutName, hfirst]

/-- The rest is shorter than the text. -/
theorem length_rest_lt {c : Char} {cs : List Char} {l : Lexeme} (h : first c cs = .ok l) :
    l.rest.length < (c :: cs).length := by
  suffices hne : l.spelling ≠ [] by
    rw [← first_append h, List.length_append]
    have := List.length_pos_iff.2 hne
    omega
  unfold first at h
  split at h
  · next hc => cases h; simp [lineComment, cut, hc.1]
  split at h
  · cases hb : blockComment? cs.tail with
    | none => simp [hb] at h
    | some l' =>
      obtain ⟨parts, -, rfl⟩ := Option.map_eq_some_iff.1 hb
      simp only [blockComment?] at hb
      simp only [blockComment?, hb, Option.elim_some, Except.ok.injEq] at h
      simp [← h]
  split at h
  · next hc => cases h; exact number_spelling_ne_nil hc
  split at h
  · next hc => cases h; exact name_spelling_ne_nil hc
  split at h
  · cases hs : cutString? c cs with
    | none => simp [string?, hs] at h
    | some parts =>
      simp only [string?, hs, Option.map_some, Option.elim_some, Except.ok.injEq] at h
      simp [← h]
  split at h
  · cases h; simp
  · cases h

end Lexeme

end FlagSchema.Token
