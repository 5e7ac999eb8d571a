import FlagSchema.Flags

/-!
# Reports

What the lowering of a schema did, for tools: the sets of flags it made and the fields it retyped.

* **`Report`**: the facts.
* **`Report.flagSet?`**: a set of flags by its full name; the first of that name counts.
-/

namespace FlagSchema

/-- An enum made into a set of flags. -/
structure FlagSet where
  fullName : String
  width    : Scalar
  flags    : List Flag
  deriving DecidableEq, Repr, Inhabited

/-- A field whose type became the storage type of a set of flags. -/
structure RetypedField where
  /-- The full name of the message that declares the field. -/
  message : String
  field   : String
  /-- The full name of the set of flags. -/
  flagSet : String
  width   : Scalar
  deriving DecidableEq, Repr, Inhabited

/-- What the lowering of a schema did. -/
structure Report where
  package  : Option String := none
  flagSets : List FlagSet := []
  retyped  : List RetypedField := []
  deriving DecidableEq, Repr, Inhabited

/-- The type of the values of a set of flags. -/
def FlagSet.type (s : FlagSet) : FlagType := { width := s.width, flags := s.flags }

/-- The first of several sets of flags with a full name. -/
def FlagSet.find? (sets : List FlagSet) (fullName : String) : Option FlagSet :=
  List.find? (fun s => s.fullName == fullName) sets

/-- A set of flags by its full name. -/
def Report.flagSet? (r : Report) (fullName : String) : Option FlagSet :=
  FlagSet.find? r.flagSets fullName

end FlagSchema
