/-!
# Scalar types

The fifteen scalar value types of the schema language, their keywords and numbers, and the choice of a
storage type for a set of flags.

* **`Scalar.ofKeyword?_keyword`**, **`Scalar.ofNumber?_number`**: each type is read back from its keyword
  and from its number.
* **`Scalar.forFlagCount?`**: `uint32` while the next free flag value stays below `2^32`, else `uint64`.
* **`flagBit`**: the value of the flag with a given index.
-/

namespace FlagSchema

/-- The scalar value types, in the order of their numbers. -/
inductive Scalar where
  | double | float | int32 | int64 | uint32 | uint64 | sint32 | sint64
  | fixed32 | fixed64 | sfixed32 | sfixed64 | bool | string | bytes
  deriving DecidableEq, Repr

namespace Scalar

/-- Storage of flags unless their number asks for more. -/
instance : Inhabited Scalar := ⟨.uint32⟩

/-- Every scalar type, in the order of the numbers. -/
def all : List Scalar :=
  [double, float, int32, int64, uint32, uint64, sint32, sint64,
   fixed32, fixed64, sfixed32, sfixed64, bool, string, bytes]

/-- The number of a type. -/
def number (s : Scalar) : Nat := s.ctorIdx

/-- The type with a number. -/
def ofNumber? (n : Nat) : Option Scalar := all[n]?

/-- The keyword of a type in a schema. -/
def keyword : Scalar → String
  | double   => "double"
  | float    => "float"
  | int32    => "int32"
  | int64    => "int64"
  | uint32   => "uint32"
  | uint64   => "uint64"
  | sint32   => "sint32"
  | sint64   => "sint64"
  | fixed32  => "fixed32"
  | fixed64  => "fixed64"
  | sfixed32 => "sfixed32"
  | sfixed64 => "sfixed64"
  | bool     => "bool"
  | string   => "string"
  | bytes    => "bytes"

/-- The type with a keyword; keywords are in lower case. -/
def ofKeyword? (s : String) : Option Scalar :=
  all.find? fun t => t.keyword == s

/-- The name of a type as a constant: its keyword in capitals. -/
def tag (s : Scalar) : String :=
  s.keyword.map Char.toUpper

@[simp] theorem ofKeyword?_keyword (s : Scalar) : ofKeyword? s.keyword = some s := by
  cases s <;> decide

@[simp] theorem ofNumber?_number (s : Scalar) : ofNumber? s.number = some s := by
  cases s <;> rfl

/-- The largest number of flags that one value can hold. -/
def maxFlags : Nat := 64

/-- The storage type for a number of flags. Flags take the values `1, 2, 4, …`, so after `count` of
    them the next free value is `2 ^ count`. -/
def forFlagCount? (count : Nat) : Option Scalar :=
  if count < 32 then some uint32
  else if count ≤ maxFlags then some uint64
  else none

/-- How many values a storage type of flags has: `2^32` or `2^64`. -/
def capacity (width : Scalar) : Nat :=
  if width = uint32 then 0x100000000 else 0x10000000000000000

end Scalar

/-- The value of the flag with an index below 64: `2^index`. -/
def flagBit (index : Nat) : UInt64 := UInt64.ofNat (Nat.pow 2 index)

end FlagSchema
