import FlagSchema.Code.Declaration
import FlagSchema.Lowering.Schema

/-!
# Generating accessors

The declarations for a schema whose enums have been made sets of flags. Each segment of the package and
each message with types of its own becomes a module; a field reaches the type it holds by a path from its
module to the root and on from there.

* **`ModuleTable`**: the module of every type, by full name.
* **`Generator.ofMessage`**: the declarations of a message and of those nested in it.
* **`Schema.declarations`**: the declarations of a schema.
* **`Schema.accessors`**: their text.
-/

namespace FlagSchema

/-- Why no accessors can be generated. -/
inductive GenerateError where
  /-- A plain enum has no values, or the type of a field is not declared. -/
  | schema (e : SchemaError)
  /-- A name with a dot stands where one identifier is needed. -/
  | dottedName (name : String)
  deriving DecidableEq, Repr

/-- A computation of the generator. -/
abbrev Generating (α : Type) := Traced GenerateError α

/-- The identifier of a name. -/
def identOf (name : String) : Generating Ident :=
  match Ident.ofName? name with
  | some i => pure i
  | none   => Traced.fail (.dottedName name)

-- ── Modules ──────────────────────────────────────────────────────────────────────

/-- The names of the modules from the root to a type, by the full name of the type; the latest first. -/
abbrev ModuleTable := List (String × List String)

mutual

/-- The modules of the types that a message found in a scope and a module brings: its enums, the messages
    nested in it with theirs, itself. -/
def Message.moduleEntries (scope : String) (module : List String) : Message → ModuleTable
  | ⟨name, _, _, messages, enums, _, _⟩ =>
    let fullName := joinName scope name
    let inner := module ++ [snakeCase name]
    enums.map (fun e => (joinName fullName e.name, inner)) ++
      Message.allModuleEntries fullName inner messages ++ [(fullName, module)]

/-- The modules of the types that several messages bring. -/
def Message.allModuleEntries (scope : String) (module : List String) : List Message → ModuleTable
  | []      => []
  | m :: ms => Message.moduleEntries scope module m ++ Message.allModuleEntries scope module ms

end

namespace Schema

/-- The modules of the top-level types: the segments of the package. -/
def rootModule (s : Schema) : List String := nameSegments s.scope

/-- The module of every type of a schema. -/
def moduleTable (s : Schema) : ModuleTable :=
  (s.enums.map (fun e => (joinName s.scope e.name, s.rootModule)) ++
    Message.allModuleEntries s.scope s.rootModule s.messages).reverse

end Schema

/-- What the generator looks names up in. -/
structure Generator where
  symbols : Symbols
  modules : ModuleTable

namespace Generator

/-- What the generator needs of a schema. -/
def ofSchema (s : Schema) : Generator :=
  { symbols := Symbols.ofSchema s, modules := s.moduleTable }

-- ── Fields ───────────────────────────────────────────────────────────────────────

/-- The path from a module to a type. -/
def typePath (g : Generator) (module : List String) (fullName : String) : Generating TypePath := do
  let name ← identOf (lastSegment fullName)
  let modules ← Traced.each identOf ((g.modules.lookup fullName).getD [])
  pure { ups := module.length, modules, name }

/-- A field that has no accessors because it is a map. -/
def skipMap (message : String) (f : Field) : Generating (Option Holding) := do
  Traced.tell (.mapSkipped message f.name)
  pure none

/-- What a field of a message with a full name holds; nothing if it is a map. -/
def holding (g : Generator) (message : String) (module : List String) (f : Field) :
    Generating (Option Holding) :=
  match f.flags, f.type with
  | some fullName, .single (.scalar width) => do
    let path ← g.typePath module fullName
    pure (some (.flags path width))
  | some _, _                 => skipMap message f
  | none, .single (.scalar s) => pure (some (.scalar s))
  | none, .map _ _            => skipMap message f
  | none, .single (.named written) =>
    match g.symbols.resolve? message written with
    | none => Traced.fail (.schema (.unresolvedType (joinName message f.name) written))
    | some (fullName, definition) => do
      let path ← g.typePath module fullName
      pure <| some <|
        match definition with
        | .message     => .message path
        | .enum        => .enum path
        | .flags width => .flags path width

/-- The member for a field; none if the field is a map. -/
def member (g : Generator) (message : String) (module : List String) (f : Field) :
    Generating (Option Member) := do
  match ← g.holding message module f with
  | none => pure none
  | some holding =>
    let ident ← identOf (snakeCase f.name)
    if f.label = .repeated then
      Traced.tell (.repeatedField f.name f.number)
      pure (some { ident, isRepeated := true, holding })
    else pure (some { ident, isRepeated := false, holding })

/-- The structure for a message with a full name. -/
def structOf (g : Generator) (fullName : String) (module : List String) (m : Message) :
    Generating Declaration := do
  let ident ← identOf m.name
  let members ← Traced.each (g.member fullName module) m.fields
  pure (.struct ident (members.filterMap id))

-- ── Enums ────────────────────────────────────────────────────────────────────────

/-- The variants for values: of several with one number the first. Numbers are cut to 32 bits. -/
def variants (fullName : String) (seen : List Int) : List EnumValue → Generating (List Variant)
  | []      => pure []
  | v :: vs =>
    if seen.contains v.number then do
      Traced.tell (.aliasSkipped fullName v.name)
      variants fullName seen vs
    else do
      let ident ← identOf v.name
      let others ← variants fullName (v.number :: seen) vs
      pure ({ ident, number := v.number.bmod Scalar.uint32.capacity } :: others)

/-- The enum for a plain enum with a full name. -/
def enumOf (fullName : String) (e : EnumDef) : Generating Declaration := do
  let ident ← identOf e.name
  match ← variants fullName [] e.values with
  | []              => Traced.fail (.schema (.emptyEnum fullName))
  | first :: others => pure (.enum ident first others)

/-- A number cut to the bits of a storage type. -/
def cutTo (width : Scalar) (n : Int) : Nat :=
  (n % width.capacity).toNat

/-- The flag type for a set of flags. The empty set is no flag. -/
def flagsOf (width : Scalar) (e : EnumDef) : Generating Declaration := do
  let ident ← identOf e.name
  let flags := e.values.filter fun v => v.number ≠ 0
  let idents ← Traced.each (fun v => identOf v.name) flags
  let constants := idents.zip (flags.map fun v => cutTo width v.number)
  let table := flags.map fun v => (v.name, cutTo .uint64 v.number)
  pure (.flags ident width constants table)

/-- The declaration for an enum of a scope. -/
def enumOrFlagsOf (scope : String) (e : EnumDef) : Generating Declaration :=
  match e.storage with
  | some width => flagsOf width e
  | none       => enumOf (joinName scope e.name) e

-- ── Scopes ───────────────────────────────────────────────────────────────────────

mutual

/-- The declarations for a message found in a scope and a module: its structure, and a module for the
    types declared in it, if there are any. -/
def ofMessage (g : Generator) (scope : String) (module : List String) :
    Message → Generating (List Declaration)
  | ⟨name, position, fields, messages, enums, settings, oneofs⟩ => do
    let fullName := joinName scope name
    let declaration ← g.structOf fullName module
      ⟨name, position, fields, messages, enums, settings, oneofs⟩
    if enums.isEmpty && messages.isEmpty then pure [declaration]
    else
      let innerModule := module ++ [snakeCase name]
      let enumDeclarations ← Traced.each (enumOrFlagsOf fullName) enums
      let inner ← ofMessages g fullName innerModule messages
      let ident ← identOf (snakeCase name)
      pure [declaration, .module ident (enumDeclarations ++ inner)]

/-- The declarations for several messages. -/
def ofMessages (g : Generator) (scope : String) (module : List String) :
    List Message → Generating (List Declaration)
  | []      => pure []
  | m :: ms => do
    let first ← ofMessage g scope module m
    let others ← ofMessages g scope module ms
    pure (first ++ others)

end

end Generator

namespace Schema

/-- Items inside modules with given names, the last one innermost. -/
def nest (declarations : List Declaration) : List String → Generating (List Declaration)
  | []      => pure declarations
  | m :: ms => do
    let inner ← nest declarations ms
    let ident ← identOf m
    pure [.module ident inner]

/-- The declarations for a schema. -/
def declarations (s : Schema) : Generating (List Declaration) := do
  let g := Generator.ofSchema s
  let enumDeclarations ← Traced.each (Generator.enumOrFlagsOf s.scope) s.enums
  let messageDeclarations ← Generator.ofMessages g s.scope s.rootModule s.messages
  nest (enumDeclarations ++ messageDeclarations) s.rootModule

/-- The line in front of all accessors. -/
def accessorsHeader : String := "// @generated by protobitmap-codegen, do not edit\n"

/-- The accessors for a schema as a text. -/
def accessors (s : Schema) : Generating String := do
  let declarations ← s.declarations
  pure (accessorsHeader ++ CodeTree.renderAll (Declaration.allCode declarations) ++ "\n")

end Schema

/-- The accessors for a source, once it is lowered. -/
def accessorsOf (source : String) : Generating String := do
  let r ← (lower source).mapError .schema
  r.schema.accessors

end FlagSchema
