import FlagSchema.Decimal.Shortest

/-!
# Layouts of decimals

How the digits of a decimal are laid out as a text: positionally, with a point among or after them, or
with an exponent.

* **`Decimal.Layout`**: the decisions of one format.
* **`Decimal.Layout.render`**: a floating point value in a format.
-/

namespace FlagSchema.Decimal

/-- The decisions of a number format. An exponent is the power of ten of the leading digit. -/
structure Layout where
  /-- The smallest exponent written positionally. -/
  lowest   : Int
  /-- The largest exponent written positionally. -/
  highest  : Int
  /-- What follows a whole number written positionally. -/
  whole    : String
  /-- What stands before an exponent. -/
  mark     : String
  /-- The text of infinity, without a sign. -/
  infinity : String
  /-- The text of a value that is no number. -/
  nan      : String

namespace Layout

/-- Digits with a point after the first `point` of them, padded with zeros on either side. -/
def positional (layout : Layout) (digits : List Char) (point : Int) : List Char :=
  if point ≤ 0 then
    '0' :: '.' :: List.replicate (-point).toNat '0' ++ digits
  else if point < digits.length then
    digits.take point.toNat ++ '.' :: digits.drop point.toNat
  else
    digits ++ List.replicate (point.toNat - digits.length) '0' ++ layout.whole.toList

/-- One digit, the others after a point, and the exponent. -/
def scientific (layout : Layout) (digits : List Char) (exponent : Int) : List Char :=
  let tail := digits.drop 1
  digits.take 1 ++ (if tail.isEmpty then [] else '.' :: tail) ++ layout.mark.toList ++
    (toString exponent).toList

/-- A decimal, without a sign. -/
def renderDecimal (layout : Layout) (d : Decimal) : List Char :=
  let digits := Nat.toDigits 10 d.digits
  let point := d.exponent + digits.length
  if layout.lowest ≤ point - 1 ∧ point - 1 ≤ layout.highest then layout.positional digits point
  else layout.scientific digits (point - 1)

/-- A floating point value; zero and infinity keep their sign. -/
def render (layout : Layout) (x : Binary64) : String :=
  if x.isNaN then layout.nan
  else
    let sign := if x.isNegative then "-" else ""
    if x.isInfinite then sign ++ layout.infinity
    else if x.magnitude = 0 then sign ++ "0" ++ layout.whole
    else sign ++ String.ofList (layout.renderDecimal (Decimal.shortest x))

end Layout

end FlagSchema.Decimal
