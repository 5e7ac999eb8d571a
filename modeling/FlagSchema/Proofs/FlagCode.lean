import Mathlib.Data.List.Basic
import FlagSchema.Proofs.Items
import FlagSchema.Proofs.Names

/-!
# Code of flag types

What stands in the code for a flag type: a structure of constants that a library turns into sets of bits, and beside
it the width once more, a table of names and values, and the conversions from and to words of 64 bits. Constants and
table are read back as the names and numbers that were written.

* **`FlagCode`**: the parts of a flag type in code, **`FlagCode.StandsIn`**: code has them in a module.
* **`Code.readConstants?`**, **`Code.readRows?`**: the names and numbers of constants and of a table.
* **`FlagCode.Shows`**: the parts of a flag type show its name, its width, its constants and its table.
* **`Declaration.At.exists_flagCode`**: every flag type among definitions is one in their code.
-/

namespace FlagSchema

open Declaration

-- ── Parts of a flag type ─────────────────────────────────────────────────────────

/-- A flag type as code has it. -/
structure FlagCode where
  name      : String
  /-- The type of the words that hold its bits. -/
  repr      : Code
  constants : Code
  /-- The name of its width. -/
  tag       : Code
  rows      : Code
  /-- The body of the method that gives the bits of a value. -/
  toBits    : Code
  /-- The body of the method that gives the value with certain bits. -/
  ofBits    : Code

namespace FlagCode

/-- The item in which a library makes the type of the constants. -/
def definition (c : FlagCode) : CodeItem :=
  ⟨words ":: protobitmap :: bitflags :: bitflags !",
    words "#" ++ brackets (words "derive" ++ parens (words "Default")) ++
      words "pub struct" ++ [.word c.name] ++ words ":" ++ c.repr ++ braces c.constants⟩

/-- The item with what flag types have in common. -/
def implementation (c : FlagCode) : CodeItem :=
  ⟨words "impl :: protobitmap :: Bitmap for" ++ [.word c.name],
    words "const WIDTH : :: protobitmap :: TypeTag =" ++ c.tag ++ words ";" ++
      words "const FLAGS : & 'static" ++ brackets (parens (words "& 'static str , u64")) ++
      words "= &" ++ brackets c.rows ++ words ";" ++
      words "fn to_bits" ++ parens (words "self") ++ words "-> u64" ++ braces c.toBits ++
      words "fn from_bits_u64" ++ parens (words "bits : u64") ++ words "-> Option < Self >" ++ braces c.ofBits⟩

/-- Code has a flag type in a module. -/
def StandsIn (c : FlagCode) (code : Code) (here : List Ident) : Prop :=
  ∃ inner, Code.Inside code (here.map Ident.render) inner ∧
    c.definition ∈ inner.items ∧ c.implementation ∈ inner.items

end FlagCode

-- ── Reading constants and tables ─────────────────────────────────────────────────

namespace Code

/-- The text that a word in quotes stands for, if nothing in it is escaped. -/
def unquote? (word : String) : Option String :=
  match word.toList with
  | '"' :: cs => (cs.dropSuffix? ['"']).bind fun name =>
    if '"' ∈ name ∨ '\\' ∈ name then none else some (String.ofList name)
  | _ => none

/-- The number of 64 bits that a word of digits stands for with the type behind them. -/
def decimal64? (word : String) : Option Nat :=
  (word.toList.dropSuffix? ['u', '6', '4']).bind (Text.ofDigits? 10)

/-- Reads constants: their names and their values. -/
def readConstants? : Code → Option (List (String × Nat))
  | [] => some []
  | .word "#" :: .group .brackets _ :: .word "const" :: .word name :: .word "=" :: .word value :: .word ";" ::
      rest => do
    let n ← decimal? value
    let others ← readConstants? rest
    some ((name, n) :: others)
  | _ => none

/-- Reads the rows of a table: names in quotes and values. -/
def readRows? : Code → Option (List (String × Nat))
  | [] => some []
  | .group .parens [.word quoted, .word ",", .word value] :: .word "," :: rest => do
    let name ← unquote? quoted
    let n ← decimal64? value
    let others ← readRows? rest
    some ((name, n) :: others)
  | _ => none

/-- What stands in front of a suffix. -/
theorem dropSuffix?_append {α : Type} [BEq α] [LawfulBEq α] (front back : List α) :
    (front ++ back).dropSuffix? back = some front :=
  List.dropSuffix?_eq_some_iff.mpr ⟨back, rfl, beq_self_eq_true back⟩

/-- A plain name stands in quotes as it is. -/
theorem unquote?_quoted {name : String} (h : Token.isPlainName name.toList = true) :
    unquote? ("\"" ++ name ++ "\"") = some name := by
  obtain ⟨c, cs, -, -, hchars⟩ := Token.exists_of_isPlainName h
  have hquote : '"' ∉ name.toList := fun hmem => absurd (hchars _ hmem) (by decide)
  have hescape : '\\' ∉ name.toList := fun hmem => absurd (hchars _ hmem) (by decide)
  have htext : ("\"" ++ name ++ "\"").toList = '"' :: (name.toList ++ ['"']) := by
    simp
  rw [unquote?, htext]
  show ((name.toList ++ ['"']).dropSuffix? ['"']).bind _ = _
  rw [dropSuffix?_append, Option.bind_some, if_neg (not_or.mpr ⟨hquote, hescape⟩), String.ofList_toList]

theorem decimal64?_repr (n : Nat) : decimal64? (n.repr ++ "u64") = some n := by
  have htext : (n.repr ++ "u64").toList = n.repr.toList ++ ['u', '6', '4'] := by
    simp
  rw [decimal64?, htext, dropSuffix?_append, Option.bind_some]
  exact decimal?_repr n

theorem readConstants?_cons (i : Ident) (n : Nat) (rest : Code) :
    readConstants? (words "#" ++ brackets (words "allow" ++ parens (words "non_upper_case_globals")) ++
        words "const" ++ i.code ++ words "=" ++ [.word (toString n)] ++ words ";" ++ rest) =
      (readConstants? rest).map ((i.render, n) :: ·) := by
  simp [words, Text.splitAt, brackets, Ident.code, readConstants?, Option.map_eq_bind]

/-- **Constants are read as they are written.** -/
theorem readConstants?_flatMap (constants : List (Ident × Nat)) :
    readConstants? (constants.flatMap fun (i, n) =>
        words "#" ++ brackets (words "allow" ++ parens (words "non_upper_case_globals")) ++
          words "const" ++ i.code ++ words "=" ++ [.word (toString n)] ++ words ";") =
      some (constants.map fun x => (x.1.render, x.2)) := by
  induction constants with
  | nil => rfl
  | cons x constants ih => rw [List.flatMap_cons, readConstants?_cons, ih]; rfl

theorem readRows?_cons {name : String} (h : Token.isPlainName name.toList = true) (n : Nat) (rest : Code) :
    readRows? (parens [.word ("\"" ++ name ++ "\""), .word ",", .word (toString n ++ "u64")] ++ words "," ++ rest) =
      (readRows? rest).map ((name, n) :: ·) := by
  simp [words, Text.splitAt, parens, readRows?, unquote?_quoted h, decimal64?_repr, Option.map_eq_bind]

/-- **A table is read as it is written**, if its names are plain. -/
theorem readRows?_flatMap {table : List (String × Nat)}
    (h : ∀ row ∈ table, Token.isPlainName row.1.toList = true) :
    readRows? (table.flatMap fun (name, n) =>
        parens [.word ("\"" ++ name ++ "\""), .word ",", .word (toString n ++ "u64")] ++ words ",") =
      some table := by
  induction table with
  | nil => rfl
  | cons row table ih =>
      obtain ⟨hrow, htable⟩ := List.forall_mem_cons.mp h
      rw [List.flatMap_cons, readRows?_cons hrow, ih htable]
      rfl

end Code

-- ── Flag types among definitions ─────────────────────────────────────────────────

/-- How the width of a flag type is written: as the type of its words, and as the name that tells it. -/
inductive Scalar.WrittenAs : Scalar → Code → Code → Prop where
  | uint32 : WrittenAs .uint32 (words "u32") (words ":: protobitmap :: TypeTag :: UINT32")
  | uint64 : WrittenAs .uint64 (words "u64") (words ":: protobitmap :: TypeTag :: UINT64")

/-- The code of a flag type shows its name and its width, and its constants and its table are read in it. The bits of
    a value are written as a word of 64 bits; such a word is narrowed to the width and left to the library. -/
structure FlagCode.Shows (c : FlagCode) (ident : Ident) (width : Scalar) (constants : List (Ident × Nat))
    (table : List (String × Nat)) : Prop where
  name      : c.name = ident.render
  width     : width.WrittenAs c.repr c.tag
  constants : Code.readConstants? c.constants = some (constants.map fun x => (x.1.render, x.2))
  table     : Code.readRows? c.rows = some table
  toBits    : c.toBits = words "self . bits" ++ parens [] ++ words "as u64"
  ofBits    : c.ofBits = words ":: core :: convert :: TryFrom :: try_from" ++ parens (words "bits") ++
    words ". ok" ++ parens [] ++ words ". and_then" ++ parens (words "Self :: from_bits")

theorem Scalar.writtenAs_of_stored {width : Scalar} (h : width = .uint32 ∨ width = .uint64) :
    width.WrittenAs width.storage (tagCode width) := by
  have htags : Scalar.uint32.tag = "UINT32" ∧ Scalar.uint64.tag = "UINT64" := by decide +kernel
  rw [tagCode]
  rcases h with rfl | rfl
  · rw [htags.1]
    exact .uint32
  · rw [htags.2]
    exact .uint64

/-- **A flag type among definitions is one in their code**, if it has a width for flags and plain names. -/
theorem Declaration.At.exists_flagCode {ds : List Declaration} {here : List Ident} {ident : Ident} {width : Scalar}
    {constants : List (Ident × Nat)} {table : List (String × Nat)} (h : At ds here (.flags ident width constants table))
    (hwidth : width = .uint32 ∨ width = .uint64) (htable : ∀ row ∈ table, Token.isPlainName row.1.toList = true) :
    ∃ c : FlagCode, c.StandsIn (allCode ds) here ∧ c.Shows ident width constants table := by
  obtain ⟨inner, hinner, hitems⟩ := h.code
  rw [(consists_flags ..).items] at hitems
  let c : FlagCode := {
    name := ident.render
    repr := width.storage
    constants := constants.flatMap fun (i, n) =>
      words "#" ++ brackets (words "allow" ++ parens (words "non_upper_case_globals")) ++
        words "const" ++ i.code ++ words "=" ++ [.word (toString n)] ++ words ";"
    tag := tagCode width
    rows := table.flatMap fun (name, n) =>
      parens [.word ("\"" ++ name ++ "\""), .word ",", .word (toString n ++ "u64")] ++ words ","
    toBits := words "self . bits" ++ parens [] ++ words "as u64"
    ofBits := words ":: core :: convert :: TryFrom :: try_from" ++ parens (words "bits") ++
      words ". ok" ++ parens [] ++ words ". and_then" ++ parens (words "Self :: from_bits") }
  have hstands : c.StandsIn (allCode ds) here :=
    ⟨inner, hinner, hitems (List.mem_cons_self ..), hitems (List.mem_cons_of_mem _ (List.mem_singleton_self _))⟩
  exact ⟨c, hstands, rfl, Scalar.writtenAs_of_stored hwidth, Code.readConstants?_flatMap constants,
    Code.readRows?_flatMap htable, rfl, rfl⟩

end FlagSchema
