/-!
# Numerals

Reading a run of digits in a base from two to sixteen.

* **`digit?`**: the value of one digit; letters count in either case.
* **`ofDigits?`**: the value of a whole run, `none` for the empty run and for a character that is no
  digit of the base.
-/

namespace FlagSchema.Text

/-- The value of a digit of a base, letters in either case. -/
def digit? (base : Nat) (c : Char) : Option Nat :=
  let n := c.toNat
  let value :=
    if '0'.toNat ≤ n && n ≤ '9'.toNat then some (n - '0'.toNat)
    else if 'a'.toNat ≤ n && n ≤ 'f'.toNat then some (n - 'a'.toNat + 10)
    else if 'A'.toNat ≤ n && n ≤ 'F'.toNat then some (n - 'A'.toNat + 10)
    else none
  value.filter (· < base)

/-- The value of digits read after a number already read. -/
def pushDigits? (base : Nat) (start : Nat) : List Char → Option Nat
  | []      => some start
  | c :: cs => (digit? base c).bind fun d => pushDigits? base (start * base + d) cs

/-- The value of a run of digits; the empty run has none. -/
def ofDigits? (base : Nat) : List Char → Option Nat
  | [] => none
  | cs => pushDigits? base 0 cs

end FlagSchema.Text
