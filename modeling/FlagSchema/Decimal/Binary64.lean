import FlagSchema.Text.Numeral

/-!
# Binary floating point values

A value of a floating point option, kept as the 64 bits of its IEEE 754 form, so that two values are
equal exactly when they are the same bits.

* **`Binary64.ofRatio`**: the value nearest to a ratio, a tie to the even neighbour.
* **`Binary64.ofLiteral?`**: the value of a decimal literal: digits, a point, an exponent.
* **`Binary64.magnitude`**, **`Binary64.decode`**: the bits without the sign, and the number
  `m · 2^q` that they stand for.
-/

namespace FlagSchema

/-- A floating point value, by its bits. -/
structure Binary64 where
  bits : UInt64
  deriving DecidableEq, Repr, Inhabited

namespace Binary64

/-- The bits of positive infinity; larger magnitudes are no numbers. -/
def infinityBits : Nat := 0x7ff0000000000000

/-- Positive infinity. -/
def infinity : Binary64 := ⟨UInt64.ofNat infinityBits⟩

/-- The value that is no number. -/
def nan : Binary64 := ⟨0x7ff8000000000000⟩

/-- The value with the other sign, zeros and infinities included. -/
def neg (x : Binary64) : Binary64 := ⟨x.bits ^^^ 0x8000000000000000⟩

/-- The value of the sign bit: `2^63`. -/
def signBit : Nat := 0x8000000000000000

/-- The value of the lowest bit of the exponent field: `2^52`. -/
def fieldBit : Nat := 0x10000000000000

/-- Whether the sign bit is set. -/
def isNegative (x : Binary64) : Bool := signBit ≤ x.bits.toNat

/-- The bits without the sign. -/
def magnitude (x : Binary64) : Nat := x.bits.toNat % signBit

/-- Whether the value is no number. -/
def isNaN (x : Binary64) : Bool := infinityBits < x.magnitude

/-- Whether the value is an infinity of either sign. -/
def isInfinite (x : Binary64) : Bool := x.magnitude == infinityBits

/-- The pair `(m, q)` for which a finite magnitude is `m · 2^q`. -/
def decode (x : Binary64) : Nat × Int :=
  let field : Nat := x.magnitude / fieldBit
  let fraction : Nat := x.magnitude % fieldBit
  if field = 0 then (fraction, -1074) else (fraction + fieldBit, (field : Int) - 1075)

/-- A quotient rounded to the nearest natural number, a tie to the even one. -/
def roundEven (num den : Nat) : Nat :=
  let floor := num / den
  let twice := 2 * (num % den)
  if twice < den then floor
  else if den < twice then floor + 1
  else floor + floor % 2

/-- `2^q` as the numerator and the denominator of a ratio. -/
def powerOfTwo (q : Int) : Nat × Nat :=
  (Nat.pow 2 q.toNat, Nat.pow 2 (-q).toNat)

/-- The largest `k` with `2^k ≤ num / den`, for positive numbers. -/
def binaryOrder (num den : Nat) : Int :=
  let guess : Int := (Nat.log2 num : Int) - Nat.log2 den
  let (up, down) := powerOfTwo guess
  if den * up ≤ num * down then guess else guess - 1

/-- The value nearest to `num / den`. A significand that rounds up to the next power of two carries
    into the exponent field, and a magnitude beyond the largest finite one is infinity. -/
def ofRatio (num den : Nat) : Binary64 :=
  if num = 0 then ⟨0⟩
  else
    let q := max (binaryOrder num den - 52) (-1074)
    let (up, down) := powerOfTwo q
    let m := roundEven (num * down) (den * up)
    ⟨UInt64.ofNat (min (m + (q + 1074).toNat * fieldBit) infinityBits)⟩

/-- The value nearest to `m · 10^e`. Exponents far outside the range are decided by the number of
    digits alone. -/
def ofDecimal (m : Nat) (e : Int) : Binary64 :=
  let size := e + (Nat.toDigits 10 m).length
  if m = 0 || size < -330 then ⟨0⟩
  else if 310 < size then infinity
  else ofRatio (m * Nat.pow 10 e.toNat) (Nat.pow 10 (-e).toNat)

/-- The exponent after its mark: a sign or none, then digits. -/
def exponent? : List Char → Option Int
  | '+' :: cs => (Text.ofDigits? 10 cs).map Int.ofNat
  | '-' :: cs => (Text.ofDigits? 10 cs).map fun n => -(n : Int)
  | cs        => (Text.ofDigits? 10 cs).map Int.ofNat

/-- The value of a decimal literal without a sign: digits, at least one, with or without a point among
    them, then an exponent or none. -/
def ofLiteral? (cs : List Char) : Option Binary64 :=
  let whole := cs.takeWhile Char.isDigit
  let rest := cs.dropWhile Char.isDigit
  let (fraction, rest) :=
    match rest with
    | '.' :: tail => (tail.takeWhile Char.isDigit, tail.dropWhile Char.isDigit)
    | tail        => ([], tail)
  let exponent :=
    match rest with
    | []        => some 0
    | c :: tail => if c = 'e' || c = 'E' then exponent? tail else none
  (Text.ofDigits? 10 (whole ++ fraction)).bind fun m =>
    exponent.map fun e => ofDecimal m (e - fraction.length)

end Binary64

end FlagSchema
