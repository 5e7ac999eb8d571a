import FlagSchema.Scalar
import FlagSchema.Text.Quoted

/-!
# Flags

Values made of flags: which declared flags a value has, which bits are left over, and the text that shows
both. A table of flags may hold any values: zero, repeated, overlapping or of several bits.

* **`Flag.unknownBits`**: a value without the bits of any declared flag.
* **`Flag.namesIn`**: the names of the flags that a value has, all their bits set, in the order of the
  table; a flag of value zero is never one of them.
* **`Flag.display`**: `M | S | 0x40`, or `None` for the empty value.
* **`FlagType`**: a width and a table, and the values that belong to them.
-/

namespace FlagSchema

/-- A declared flag. -/
structure Flag where
  name  : String
  value : UInt64
  deriving DecidableEq, Repr, Inhabited

namespace Flag

/-- The bits of a value outside every declared flag. -/
def unknownBits (flags : List Flag) (bits : UInt64) : UInt64 :=
  flags.foldl (fun rest f => rest &&& ~~~f.value) bits

/-- Whether a value has a flag: some bit and all bits of it. -/
def isIn (bits : UInt64) (f : Flag) : Bool :=
  f.value != 0 && bits &&& f.value == f.value

/-- The names of the flags that a value has. -/
def namesIn (flags : List Flag) (bits : UInt64) : List String :=
  (flags.filter (isIn bits)).map name

/-- The residue as a hexadecimal number, unless it is zero. -/
def residue (flags : List Flag) (bits : UInt64) : List String :=
  let rest := unknownBits flags bits
  if rest = 0 then [] else ["0x" ++ String.ofList (Text.hex rest.toNat)]

/-- A value as a text: the names of its flags and the residue between bars, or `None` if it is zero. -/
def display (flags : List Flag) (bits : UInt64) : String :=
  if bits = 0 then "None"
  else " | ".intercalate (namesIn flags bits ++ residue flags bits)

/-- The table of `count` flags named by a letter and their index, one bit each. -/
def numbered (letter : String) (count : Nat) : List Flag :=
  (List.range count).map fun i => ⟨letter ++ toString i, flagBit i⟩

end Flag

/-- A type of values made of flags. -/
structure FlagType where
  width : Scalar
  flags : List Flag
  /-- Whether bits outside the flags and the width belong to it. -/
  isOpen : Bool := false
  deriving DecidableEq, Repr, Inhabited

namespace FlagType

/-- Whether bits fit a width. -/
def fits (width : Scalar) (bits : UInt64) : Bool :=
  bits.toNat < width.capacity

/-- The value with given bits: all of them within the width and in some flag, or any if the type is
    open. -/
def ofBits? (t : FlagType) (bits : UInt64) : Option UInt64 :=
  if t.isOpen || (fits t.width bits && Flag.unknownBits t.flags bits == 0) then some bits else none

/-- The type of numbered flags, stored as their number asks for. -/
def numbered? (letter : String) (count : Nat) : Option FlagType :=
  (Scalar.forFlagCount? count).map fun width => { width, flags := Flag.numbered letter count }

end FlagType

end FlagSchema
