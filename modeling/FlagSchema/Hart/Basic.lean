import FlagSchema.Flags

/-!
# Harts

The messages of the example schema, a RISC-V hart and its privilege configuration, as values that change
by accessor calls. A set of modes is stored as an integer, which may have bits that no mode declares;
reading hides them.

* **`Privileged.apply`**, **`Hart.apply`**: one accessor call.
* **`Privileged.modes`**: the declared part of the stored bits.
* **`Privileged.run`**, **`Hart.run`**: calls in a row.
-/

namespace FlagSchema

-- ── Privilege configuration ──────────────────────────────────────────────────────

/-- The privilege modes: machine, supervisor, user. -/
def modeFlags : List Flag := [⟨"M", 1⟩, ⟨"S", 2⟩, ⟨"U", 4⟩]

/-- The type of sets of privilege modes. -/
def modeType : FlagType := { width := .uint32, flags := modeFlags }

/-- The bits of all modes. -/
def declaredModes : UInt32 := 7

/-- A privilege configuration. -/
structure Privileged where
  /-- The bits of the modes as set, declared or not. -/
  storedModes : UInt32 := 0
  mxlen       : UInt32 := 0
  isa         : String := ""
  deriving DecidableEq, Repr, Inhabited

namespace Privileged

/-- The modes as read: undeclared bits are hidden. -/
def modes (p : Privileged) : UInt32 := p.storedModes &&& declaredModes

/-- Whether nothing differs from a new configuration, hidden bits included. -/
def isDefault (p : Privileged) : Bool := p == {}

/-- A call of an accessor that changes a privilege configuration. -/
inductive Call where
  | setModes (bits : UInt32)
  | clearModes
  | setMxlen (n : UInt32)
  | clearMxlen
  | setIsa (text : String)
  /-- A change of the text in place. -/
  | editIsa (edit : String → String)
  | clearIsa
  deriving Inhabited

/-- Appends to the text in place. -/
def Call.appendIsa (text : String) : Call := .editIsa (· ++ text)

/-- The effect of a call. -/
def apply (p : Privileged) : Call → Privileged
  | .setModes bits  => { p with storedModes := bits }
  | .clearModes     => { p with storedModes := 0 }
  | .setMxlen n     => { p with mxlen := n }
  | .clearMxlen     => { p with mxlen := 0 }
  | .setIsa text    => { p with isa := text }
  | .editIsa edit   => { p with isa := edit p.isa }
  | .clearIsa       => { p with isa := "" }

/-- The effect of calls in a row. -/
def run (p : Privileged) (calls : List Call) : Privileged := calls.foldl apply p

theorem run_append (p : Privileged) (before after : List Call) :
    p.run (before ++ after) = (p.run before).run after :=
  List.foldl_append

end Privileged

-- ── Register width ───────────────────────────────────────────────────────────────

/-- The width of the registers of a hart. -/
inductive Xlen where
  | unspecified | x32 | x64
  deriving DecidableEq, Repr

namespace Xlen

instance : Inhabited Xlen := ⟨unspecified⟩

/-- The widths in the order of their numbers. -/
def all : List Xlen := [unspecified, x32, x64]

/-- The number of a width. -/
def number (x : Xlen) : Nat := x.ctorIdx

/-- The width with a number. -/
def ofNumber? (n : Int) : Option Xlen := all.find? fun x => (x.number : Int) == n

/-- The name of a width in the schema. -/
def name : Xlen → String
  | unspecified => "XLEN_UNSPECIFIED"
  | x32         => "XLEN_32"
  | x64         => "XLEN_64"

@[simp] theorem ofNumber?_number (x : Xlen) : ofNumber? x.number = some x := by
  cases x <;> rfl

end Xlen

-- ── Harts ────────────────────────────────────────────────────────────────────────

/-- A hart. -/
structure Hart where
  hartId     : UInt64 := 0
  xlen       : Xlen := .unspecified
  privileged : Option Privileged := none
  /-- Sets of modes, each as the bits that were added. -/
  delegated  : List UInt32 := []
  extensions : List String := []
  deriving DecidableEq, Repr, Inhabited

namespace Hart

/-- Whether nothing differs from a new hart; a privilege configuration differs even if it is new. -/
def isDefault (h : Hart) : Bool := h == {}

/-- A call of an accessor that changes a hart. -/
inductive Call where
  | setHartId (n : UInt64)
  | clearHartId
  | setXlen (x : Xlen)
  | clearXlen
  | setPrivileged (p : Privileged)
  | clearPrivileged
  /-- Calls on the privilege configuration in place, which is made anew if there is none, even for no
      call at all. -/
  | editPrivileged (calls : List Privileged.Call)
  | addDelegated (bits : UInt32)
  /-- A change of the list in place. -/
  | editDelegated (edit : List UInt32 → List UInt32)
  | clearDelegated
  | addExtension (name : String)
  /-- A change of the list in place. -/
  | editExtensions (edit : List String → List String)
  | clearExtensions
  deriving Inhabited

namespace Call

/-- One call on the privilege configuration in place. -/
def onPrivileged (call : Privileged.Call) : Call := .editPrivileged [call]

/-- Removes the last delegated set, if there is one. -/
def popDelegated : Call := .editDelegated List.dropLast

/-- Reverses the extensions. -/
def reverseExtensions : Call := .editExtensions List.reverse

end Call

/-- The effect of a call. -/
def apply (h : Hart) : Call → Hart
  | .setHartId n          => { h with hartId := n }
  | .clearHartId          => { h with hartId := 0 }
  | .setXlen x            => { h with xlen := x }
  | .clearXlen            => { h with xlen := .unspecified }
  | .setPrivileged p      => { h with privileged := some p }
  | .clearPrivileged      => { h with privileged := none }
  | .editPrivileged calls => { h with privileged := some ((h.privileged.getD {}).run calls) }
  | .addDelegated bits    => { h with delegated := h.delegated ++ [bits] }
  | .editDelegated edit   => { h with delegated := edit h.delegated }
  | .clearDelegated       => { h with delegated := [] }
  | .addExtension name    => { h with extensions := h.extensions ++ [name] }
  | .editExtensions edit  => { h with extensions := edit h.extensions }
  | .clearExtensions      => { h with extensions := [] }

/-- The effect of calls in a row. -/
def run (h : Hart) (calls : List Call) : Hart := calls.foldl apply h

theorem run_append (h : Hart) (before after : List Call) :
    h.run (before ++ after) = (h.run before).run after :=
  List.foldl_append

end Hart

end FlagSchema
