import FlagSchema.Proofs.Items

/-!
# Code of enums

What stands in the code for a plain enum: its variants with their discriminants, a `match` that gives the variant of
a number, and the default. The discriminants are read back as the numbers that were written, and of the arms of the
`match` the first with a number is taken.

* **`Variant.ofNumber?`**, **`Variant.readFrom`**: the variant that a number is read as, without and with the default.
* **`EnumCode`**: the parts of an enum in code, **`EnumCode.StandsIn`**: code has them in a module.
* **`Code.readVariants?`**, **`Code.matchNumber?`**: the discriminants, and what a `match` on a number gives.
* **`EnumCode.Shows`**: the parts of an enum show its variants and the reading of every number.
* **`Declaration.At.exists_enumCode`**: every enum among definitions is one in their code.
-/

namespace FlagSchema

open Declaration

-- ── Reading a number as a variant ────────────────────────────────────────────────

/-- The variant that a number is read as: the first one with that number. -/
def Variant.ofNumber? (variants : List Variant) (n : Int) : Option Variant :=
  variants.find? fun x => x.number == n

/-- The variant that a stored number is read as: the first one with that number, or else the default. -/
def Variant.readFrom (first : Variant) (others : List Variant) (stored : Int) : Variant :=
  (ofNumber? (first :: others) stored).getD first

/-- A variant of an enum with a name, as code. -/
def Variant.code (ident : Ident) (x : Variant) : Code := ident.code ++ words "::" ++ x.ident.code

-- ── Parts of an enum ─────────────────────────────────────────────────────────────

/-- A plain enum as code has it. -/
structure EnumCode where
  name     : String
  variants : Code
  /-- The arms of the `match` on a number. -/
  arms     : Code
  default  : Code

namespace EnumCode

/-- The item with the variants. -/
def definition (c : EnumCode) : CodeItem :=
  ⟨words "#" ++ brackets (words "allow" ++ parens (words "non_camel_case_types")) ++
      words "#" ++ brackets (words "derive" ++ parens (words "Clone , Copy , Debug , PartialEq , Eq , Hash")) ++
      words "#" ++ brackets (words "repr" ++ parens (words "i32")) ++ words "pub enum" ++ [.word c.name],
    c.variants⟩

/-- The item with the reading of a number. -/
def reading (c : EnumCode) : CodeItem :=
  ⟨words "impl" ++ [.word c.name],
    words "pub fn from_i32" ++ parens (words "v : i32") ++ words "-> Option <" ++ [.word c.name] ++ words ">" ++
      braces (words "match v" ++ braces c.arms)⟩

/-- The item with the default. -/
def defaulting (c : EnumCode) : CodeItem :=
  ⟨words "impl Default for" ++ [.word c.name],
    words "fn default" ++ parens [] ++ words "-> Self" ++ braces c.default⟩

/-- Code has an enum in a module. -/
def StandsIn (c : EnumCode) (code : Code) (here : List Ident) : Prop :=
  ∃ inner, Code.Inside code (here.map Ident.render) inner ∧
    c.definition ∈ inner.items ∧ c.reading ∈ inner.items ∧ c.defaulting ∈ inner.items

end EnumCode

-- ── Discriminants and arms ───────────────────────────────────────────────────────

namespace Code

/-- Reads variants: their names and their discriminants. -/
def readVariants? : Code → Option (List (String × Int))
  | [] => some []
  | .word name :: .word "=" :: .word "-" :: .word digits :: .word "," :: rest => do
    let n ← decimal? digits
    let others ← readVariants? rest
    some ((name, -(n : Int)) :: others)
  | .word name :: .word "=" :: .word digits :: .word "," :: rest => do
    let n ← decimal? digits
    let others ← readVariants? rest
    some ((name, (n : Int)) :: others)
  | _ => none

/-- What a `match` on a number gives: the value in the first arm with the number, if there is one. -/
def matchNumber? (v : Int) : Code → Option (Option Code)
  | [.word "_", .word "=>", .word "None", .word ","] => some none
  | .word "-" :: .word digits :: .word "=>" :: .word "Some" :: .group .parens value :: .word "," :: rest => do
    let n ← decimal? digits
    if -(n : Int) = v then some (some value) else matchNumber? v rest
  | .word digits :: .word "=>" :: .word "Some" :: .group .parens value :: .word "," :: rest => do
    let n ← decimal? digits
    if (n : Int) = v then some (some value) else matchNumber? v rest
  | _ => none

/-- Digits are no sign. -/
theorem repr_ne_minus (n : Nat) : n.repr ≠ "-" := by
  intro h
  have hdecimal := decimal?_repr n
  rw [h] at hdecimal
  cases hdecimal

theorem readVariants?_cons (i : Ident) (n : Int) (rest : Code) :
    readVariants? (i.code ++ words "=" ++ numberCode n ++ words "," ++ rest) =
      (readVariants? rest).map ((i.render, n) :: ·) := by
  unfold numberCode
  generalize hk : n.natAbs = k
  split
  · next hn =>
      obtain rfl : n = -(k : Int) := by omega
      simp [words, Text.splitAt, Ident.code, readVariants?, Option.map_eq_bind]
  · next hn =>
      obtain rfl : n = (k : Int) := by omega
      simp [words, Text.splitAt, Ident.code, readVariants?, repr_ne_minus, Option.map_eq_bind]

theorem matchNumber?_cons (v n : Int) (value rest : Code) :
    matchNumber? v (numberCode n ++ words "=> Some" ++ parens value ++ words "," ++ rest) =
      if n = v then some (some value) else matchNumber? v rest := by
  unfold numberCode
  generalize hk : n.natAbs = k
  split
  · next hn =>
      obtain rfl : n = -(k : Int) := by omega
      simp [words, Text.splitAt, parens, matchNumber?]
  · next hn =>
      obtain rfl : n = (k : Int) := by omega
      simp [words, Text.splitAt, parens, matchNumber?]

/-- **Variants are read with the discriminants that are written.** -/
theorem readVariants?_flatMap (xs : List Variant) :
    readVariants? (xs.flatMap fun x => x.ident.code ++ words "=" ++ numberCode x.number ++ words ",") =
      some (xs.map fun x => (x.ident.render, x.number)) := by
  induction xs with
  | nil => rfl
  | cons x xs ih => rw [List.flatMap_cons, readVariants?_cons, ih]; rfl

/-- **A `match` on a number gives the variant that the number is read as.** -/
theorem matchNumber?_flatMap (v : Int) (ident : Ident) (xs : List Variant) :
    matchNumber? v ((xs.flatMap fun x => numberCode x.number ++ words "=> Some" ++
        parens (ident.code ++ words "::" ++ x.ident.code) ++ words ",") ++ words "_ => None ,") =
      some ((Variant.ofNumber? xs v).map (Variant.code ident)) := by
  induction xs with
  | nil => simp [words, Text.splitAt, matchNumber?, Variant.ofNumber?]
  | cons x xs ih =>
      rw [List.flatMap_cons, List.append_assoc, matchNumber?_cons, Variant.ofNumber?, List.find?_cons]
      by_cases hx : x.number = v
      · rw [if_pos hx, beq_iff_eq.mpr hx]
        rfl
      · rw [if_neg hx, ih, beq_eq_false_iff_ne.mpr hx, Variant.ofNumber?]

end Code

-- ── Enums among definitions ──────────────────────────────────────────────────────

/-- The code of an enum shows its variants: they are read with their discriminants, and a `match` on any number gives
    the variant that the number is read as. The default is the first variant, and so what is read of a number with the
    default in place of nothing is what it is read from. -/
structure EnumCode.Shows (c : EnumCode) (ident : Ident) (first : Variant) (others : List Variant) : Prop where
  name     : c.name = ident.render
  variants : Code.readVariants? c.variants = some ((first :: others).map fun x => (x.ident.render, x.number))
  reads    : ∀ n, Code.matchNumber? n c.arms =
    some ((Variant.ofNumber? (first :: others) n).map (Variant.code ident))
  default  : c.default = first.code ident
  readsOr  : ∀ n, (Code.matchNumber? n c.arms).map (·.getD c.default) =
    some ((Variant.readFrom first others n).code ident)

/-- **An enum among definitions is one in their code.** -/
theorem Declaration.At.exists_enumCode {ds : List Declaration} {here : List Ident} {ident : Ident} {first : Variant}
    {others : List Variant} (h : At ds here (.enum ident first others)) :
    ∃ c : EnumCode, c.StandsIn (allCode ds) here ∧ c.Shows ident first others := by
  obtain ⟨inner, hinner, hitems⟩ := h.code
  rw [(consists_enum ..).items] at hitems
  let c : EnumCode := {
    name := ident.render
    variants := (first :: others).flatMap fun x => x.ident.code ++ words "=" ++ numberCode x.number ++ words ","
    arms := ((first :: others).flatMap fun x => numberCode x.number ++ words "=> Some" ++
      parens (ident.code ++ words "::" ++ x.ident.code) ++ words ",") ++ words "_ => None ,"
    default := ident.code ++ words "::" ++ first.ident.code }
  have hstands : c.StandsIn (allCode ds) here :=
    ⟨inner, hinner, hitems (.head _), hitems (.tail _ (.head _)), hitems (.tail _ (.tail _ (.head _)))⟩
  have hreads := fun n => Code.matchNumber?_flatMap n ident (first :: others)
  refine ⟨c, hstands, rfl, Code.readVariants?_flatMap (first :: others), hreads, rfl, fun n => ?_⟩
  rw [hreads n, Option.map_some, Variant.readFrom]
  cases Variant.ofNumber? (first :: others) n <;> rfl

end FlagSchema
