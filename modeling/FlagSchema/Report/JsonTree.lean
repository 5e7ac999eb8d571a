import FlagSchema.Text.Numeral
import FlagSchema.Text.Quoted

/-!
# JSON

Documents of JSON as trees. The reader is strict about the grammar and keeps what a strict reader of a
value has to know: the order and the repetition of keys, whether a number is a natural one, whether a
string has a value.

* **`JsonTree.pretty`**: a tree as a text, two blanks per level.
* **`JsonTree.parse?`**: the tree of a text.
-/

namespace FlagSchema

/-- The value of a string literal: none where an escape names half of a surrogate pair. -/
abbrev JsonText := Option String

/-- A document. -/
inductive JsonTree where
  | null
  | bool (b : Bool)
  /-- A number written with digits alone. -/
  | natural (n : Nat)
  /-- A number with a sign, a fraction or an exponent, whose value nothing here needs. -/
  | number
  | string (text : JsonText)
  | array (items : List JsonTree)
  | object (members : List (JsonText × JsonTree))
  deriving Repr, Inhabited

namespace JsonTree

-- ── Writing ──────────────────────────────────────────────────────────────────────

/-- A character inside a string literal: the quote, the backslash and the controls of ASCII are
    escaped. -/
def escaped (c : Char) : List Char :=
  if c = '"' then ['\\', '"']
  else if c = '\\' then ['\\', '\\']
  else if c = '\x08' then ['\\', 'b']
  else if c = '\t' then ['\\', 't']
  else if c = '\n' then ['\\', 'n']
  else if c = '\x0c' then ['\\', 'f']
  else if c = '\r' then ['\\', 'r']
  else if c.toNat < 0x20 then
    let digits := Text.hex c.toNat
    '\\' :: 'u' :: List.replicate (4 - digits.length) '0' ++ digits
  else [c]

/-- A string literal. A text without a value is written as the empty one. -/
def literal (t : JsonText) : List Char :=
  '"' :: (t.getD "").toList.flatMap escaped ++ ['"']

/-- A line feed and the indentation of the next line. -/
def newLine (indent : Nat) : List Char :=
  '\n' :: List.replicate indent ' '

mutual

/-- A tree as a text whose lines after the first are indented. -/
def prettyAt (indent : Nat) : JsonTree → List Char
  | null           => ['n', 'u', 'l', 'l']
  | bool true      => ['t', 'r', 'u', 'e']
  | bool false     => ['f', 'a', 'l', 's', 'e']
  | natural n      => Nat.toDigits 10 n
  | number         => ['-', '0']
  | string t       => literal t
  | array []       => ['[', ']']
  | array (i :: is) =>
    '[' :: newLine (indent + 2) ++ prettyAt (indent + 2) i ++ prettyItems (indent + 2) is ++
      newLine indent ++ [']']
  | object []      => ['\x7b', '\x7d']
  | object ((k, v) :: ms) =>
    '\x7b' :: newLine (indent + 2) ++ literal k ++ ':' :: ' ' :: prettyAt (indent + 2) v ++
      prettyMembers (indent + 2) ms ++ newLine indent ++ ['\x7d']

/-- The items of an array after its first. -/
def prettyItems (indent : Nat) : List JsonTree → List Char
  | []      => []
  | i :: is => ',' :: newLine indent ++ prettyAt indent i ++ prettyItems indent is

/-- The members of an object after its first. -/
def prettyMembers (indent : Nat) : List (JsonText × JsonTree) → List Char
  | []           => []
  | (k, v) :: ms =>
    ',' :: newLine indent ++ literal k ++ ':' :: ' ' :: prettyAt indent v ++ prettyMembers indent ms

end

/-- A tree as a text. -/
def pretty (t : JsonTree) : String :=
  String.ofList (prettyAt 0 t)

-- ── Reading ──────────────────────────────────────────────────────────────────────

/-- The white space of JSON. -/
def isBlank (c : Char) : Bool :=
  c == ' ' || c == '\n' || c == '\t' || c == '\r'

/-- A text without the white space at its start. -/
def skipBlanks (cs : List Char) : List Char :=
  cs.dropWhile isBlank

/-- The character that the letter after a backslash stands for. -/
def namedEscape? : Char → Option Char
  | '"'  => some '"'
  | '\\' => some '\\'
  | '/'  => some '/'
  | 'b'  => some '\x08'
  | 'f'  => some '\x0c'
  | 'n'  => some '\n'
  | 'r'  => some '\r'
  | 't'  => some '\t'
  | _    => none

/-- A piece of a string literal: a character, or a code unit of UTF-16 that an escape names. -/
inductive Piece where
  | char (c : Char)
  | unit (n : Nat)
  deriving DecidableEq, Repr

/-- The pieces of a string literal after its opening quote, and the text after its closing one. -/
def readPieces : List Char → Option (List Piece × List Char)
  | []           => none
  | '"' :: rest  => some ([], rest)
  | '\\' :: 'u' :: a :: b :: c :: d :: rest =>
    (Text.ofDigits? 16 [a, b, c, d]).bind fun n =>
      (readPieces rest).map fun (ps, rest) => (.unit n :: ps, rest)
  | '\\' :: c :: rest =>
    (namedEscape? c).bind fun c => (readPieces rest).map fun (ps, rest) => (.char c :: ps, rest)
  | c :: rest    =>
    if c = '\\' ∨ c.toNat < 0x20 then none
    else (readPieces rest).map fun (ps, rest) => (.char c :: ps, rest)

/-- The characters of pieces: a high and a low surrogate in a row make one; either alone has no
    value. -/
def joinPieces : List Piece → Option (List Char)
  | [] => some []
  | .char c :: ps => (joinPieces ps).map (c :: ·)
  | .unit n :: ps =>
    if 0xd800 ≤ n ∧ n < 0xdc00 then
      match ps with
      | .unit m :: ps =>
        if 0xdc00 ≤ m ∧ m < 0xe000 then
          (joinPieces ps).map (Char.ofNat (0x10000 + (n - 0xd800) * 0x400 + (m - 0xdc00)) :: ·)
        else none
      | _ => none
    else if 0xdc00 ≤ n ∧ n < 0xe000 then none
    else (joinPieces ps).map (Char.ofNat n :: ·)

/-- A string literal after its opening quote. -/
def readText (cs : List Char) : Option (JsonText × List Char) :=
  (readPieces cs).map fun (ps, rest) => ((joinPieces ps).map String.ofList, rest)

/-- At least one digit after a character that announces some, or nothing in its absence: whether
    something was there, and the rest. -/
def readDigitsAfter (announces : Char → Bool) (signs : List Char) (cs : List Char) :
    Option (Bool × List Char) :=
  match cs with
  | [] => some (false, [])
  | c :: rest =>
    if announces c then
      let rest :=
        match rest with
        | s :: tail => if signs.contains s then tail else rest
        | []        => []
      if (rest.head?.any Char.isDigit) then some (true, rest.dropWhile Char.isDigit) else none
    else some (false, cs)

/-- A number: a sign or none, digits without a leading zero, a fraction, an exponent. -/
def readNumber (cs : List Char) : Option (JsonTree × List Char) :=
  let (signed, cs) :=
    match cs with
    | '-' :: rest => (true, rest)
    | rest        => (false, rest)
  let digits := cs.takeWhile Char.isDigit
  let rest := cs.dropWhile Char.isDigit
  if digits.head? = some '0' ∧ digits.length ≠ 1 then none
  else
    (Text.ofDigits? 10 digits).bind fun n =>
      (readDigitsAfter (· == '.') [] rest).bind fun (hasFraction, rest) =>
        (readDigitsAfter (fun c => c == 'e' || c == 'E') ['+', '-'] rest).map
          fun (hasExponent, rest) =>
            (if signed || hasFraction || hasExponent then .number else .natural n, rest)

mutual

/-- A value and the text after it. The first argument bounds the depth of the recursion. -/
def readValue : Nat → List Char → Option (JsonTree × List Char)
  | 0,         _  => none
  | bound + 1, cs =>
    match skipBlanks cs with
    | 'n' :: 'u' :: 'l' :: 'l' :: rest        => some (.null, rest)
    | 't' :: 'r' :: 'u' :: 'e' :: rest        => some (.bool true, rest)
    | 'f' :: 'a' :: 'l' :: 's' :: 'e' :: rest => some (.bool false, rest)
    | '"' :: rest => (readText rest).map fun (t, rest) => (.string t, rest)
    | '[' :: rest =>
      match skipBlanks rest with
      | ']' :: rest => some (.array [], rest)
      | rest        => (readItems bound rest).map fun (is, rest) => (.array is, rest)
    | '\x7b' :: rest =>
      match skipBlanks rest with
      | '\x7d' :: rest => some (.object [], rest)
      | rest           => (readMembers bound rest).map fun (ms, rest) => (.object ms, rest)
    | rest => readNumber rest

/-- The items of an array up to its closing bracket, at least one. -/
def readItems : Nat → List Char → Option (List JsonTree × List Char)
  | 0,         _  => none
  | bound + 1, cs =>
    (readValue bound cs).bind fun (v, rest) =>
      match skipBlanks rest with
      | ',' :: rest => (readItems bound rest).map fun (vs, rest) => (v :: vs, rest)
      | ']' :: rest => some ([v], rest)
      | _           => none

/-- The members of an object up to its closing brace, at least one. -/
def readMembers : Nat → List Char → Option (List (JsonText × JsonTree) × List Char)
  | 0,         _  => none
  | bound + 1, cs =>
    match skipBlanks cs with
    | '"' :: rest =>
      (readText rest).bind fun (k, rest) =>
        match skipBlanks rest with
        | ':' :: rest =>
          (readValue bound rest).bind fun (v, rest) =>
            match skipBlanks rest with
            | ','    :: rest => (readMembers bound rest).map fun (ms, rest) => ((k, v) :: ms, rest)
            | '\x7d' :: rest => some ([(k, v)], rest)
            | _              => none
        | _ => none
    | _ => none

end

/-- The tree of a text: one value with white space around it. Every level of the recursion but one takes
    a character, so twice the length bounds its depth. -/
def parse? (s : String) : Option JsonTree :=
  (readValue (2 * s.length + 2) s.toList).bind fun (t, rest) =>
    if (skipBlanks rest).isEmpty then some t else none

-- ── Looking into a tree ──────────────────────────────────────────────────────────

/-- The text that a tree is. -/
def text? : JsonTree → Option String
  | string t => t
  | _        => none

/-- The items of the array that a tree is. -/
def items? : JsonTree → Option (List JsonTree)
  | array is => some is
  | _        => none

/-- The value of a key among members: at most one, and every key must have a value. -/
def member? (name : String) (members : List (JsonText × JsonTree)) : Option (Option JsonTree) :=
  if members.any fun m => m.1.isNone then none
  else
    match members.filter fun m => m.1 == some name with
    | []     => some none
    | [m]    => some (some m.2)
    | _ :: _ => none

/-- The fields of a record, each present or absent: an object with the names as keys, among others, or an
    array of all of them in order. -/
def fields? (names : List String) : JsonTree → Option (List (Option JsonTree))
  | array is  => if is.length = names.length then some (is.map some) else none
  | object ms => names.mapM fun name => member? name ms
  | _         => none

end JsonTree

end FlagSchema
