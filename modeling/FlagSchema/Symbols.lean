import FlagSchema.Schema.Basic

/-!
# Symbols

The messages and enums of a schema by their full names, and what a name written inside a scope refers to.

* **`Symbols.ofSchema`**: every definition of a schema; of two with one name the later counts.
* **`enclosingScopes`**: a scope and the scopes around it, out to the root.
* **`Symbols.resolve?`**: a name with a leading dot is absolute, any other is looked up in each enclosing
  scope from the inside out.
-/

namespace FlagSchema

/-- What a full name stands for. -/
inductive Definition where
  | message
  | enum
  | flags (width : Scalar)
  deriving DecidableEq, Repr, Inhabited

/-- What an enum is: a set of flags once it is stored as one. -/
def EnumDef.definition (e : EnumDef) : Definition :=
  match e.storage with
  | some width => .flags width
  | none       => .enum

/-- An enum found in a scope, by its full name. -/
def EnumDef.named (scope : String) (e : EnumDef) : String × Definition :=
  (joinName scope e.name, e.definition)

mutual

/-- The definitions that a message found in a scope brings: its enums, the messages nested in it with
    theirs, itself. -/
def Message.definitions (scope : String) : Message → List (String × Definition)
  | ⟨name, _, _, messages, enums, _, _⟩ =>
    enums.map (EnumDef.named (joinName scope name)) ++
      Message.allDefinitions (joinName scope name) messages ++ [(joinName scope name, .message)]

/-- The definitions that several messages bring. -/
def Message.allDefinitions (scope : String) : List Message → List (String × Definition)
  | []      => []
  | m :: ms => Message.definitions scope m ++ Message.allDefinitions scope ms

end

/-- The definitions of a schema: the top-level enums, then those of each message. -/
def Schema.definitions (s : Schema) : List (String × Definition) :=
  s.enums.map (EnumDef.named s.scope) ++ Message.allDefinitions s.scope s.messages

/-- Definitions by full name, the latest first. -/
structure Symbols where
  entries : List (String × Definition)
  deriving Repr, Inhabited

/-- The part of a dotted name in front of its last dot; empty if there is none. -/
def parentScope (scope : List Char) : List Char :=
  ((scope.reverse.dropWhile (· ≠ '.')).drop 1).reverse

theorem length_parentScope_lt {scope : List Char} (h : scope ≠ []) :
    (parentScope scope).length < scope.length := by
  have hlen := congrArg List.length
    (List.takeWhile_append_dropWhile (p := (· ≠ '.')) (l := scope.reverse))
  have hpos := List.length_pos_iff.2 h
  simp only [List.length_append, List.length_reverse] at hlen
  simp only [parentScope, List.length_reverse, List.length_drop]
  omega

/-- A scope and the scopes around it, from the inside out; the root, which is empty, comes last. -/
def enclosingScopes (scope : List Char) : List (List Char) :=
  if h : scope = [] then [[]]
  else
    have := length_parentScope_lt h
    scope :: enclosingScopes (parentScope scope)
termination_by scope.length

namespace Symbols

/-- The symbols of a schema. -/
def ofSchema (s : Schema) : Symbols :=
  ⟨s.definitions.reverse⟩

/-- What a full name stands for. -/
def get? (symbols : Symbols) (fullName : String) : Option Definition :=
  symbols.entries.lookup fullName

/-- A name looked up in one scope. -/
def getIn? (symbols : Symbols) (name scope : String) : Option (String × Definition) :=
  (symbols.get? (joinName scope name)).map (joinName scope name, ·)

/-- What a name written inside a scope refers to, with its full name. -/
def resolve? (symbols : Symbols) (scope name : String) : Option (String × Definition) :=
  match name.toList with
  | '.' :: absolute => symbols.getIn? (String.ofList absolute) ""
  | _ => (enclosingScopes scope.toList).findSome? fun s => symbols.getIn? name (String.ofList s)

end Symbols

end FlagSchema
