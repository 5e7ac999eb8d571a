import FlagSchema.Reading.Message
import FlagSchema.Token.Scan

/-!
# Reading schemas

A schema is a sequence of top-level statements up to the end of the input.

* **`Schema.readStatement`**: one statement, added to what has been read.
* **`Schema.ofTokens`**: the schema that the tokens of a source declare.
* **`Schema.parse`**: the schema that a text declares.
-/

namespace FlagSchema

open Reader

namespace Schema

/-- The path of an import, after its keyword and its modifier. -/
def readImport : Reader String := do
  let _ ← accept fun k =>
    if k = .ident "public" ∨ k = .ident "weak" then some () else none
  let (path, _) ← readString .importPath
  let _ ← symbol ';'
  pure path

theorem takes_readImport : Takes 1 readImport :=
  .bind_right (.accept _) fun _ =>
    .bind_left (takes_readString _) fun _ =>
      .bind_right ((Takes.symbol _).mono (Nat.zero_le _)) fun _ => .pure _

/-- The statement that a word starts, added to a schema. -/
def readNamed (source : List Char) (schema : Schema) (word : String) : Reader Schema := do
  if word = "syntax" ∨ word = "edition" then
    let _ ← next .topLevelStatement
    let _ ← symbol '='
    let (edition, _) ← readString .syntaxString
    let _ ← symbol ';'
    pure { schema with edition := some edition }
  else if word = "package" then
    let _ ← next .topLevelStatement
    let (package, _) ← name .packageName
    let _ ← symbol ';'
    pure { schema with package := some package }
  else if word = "import" then
    let _ ← next .topLevelStatement
    let path ← readImport
    pure { schema with imports := schema.imports ++ [path] }
  else if word = "option" then
    let s ← Setting.readStatement source
    pure { schema with settings := schema.settings ++ [s] }
  else if word = "message" then
    let _ ← next .topLevelStatement
    let m ← Message.read source
    pure { schema with messages := schema.messages ++ [m] }
  else if word = "enum" then
    let keyword ← next .topLevelStatement
    let e ← EnumDef.read source keyword
    pure { schema with enums := schema.enums ++ [e] }
  else if word = "service" ∨ word = "extend" then
    let _ ← next .topLevelStatement
    skipBlock
    pure schema
  else refuse .topLevelStatement

theorem takes_readNamed (source : List Char) (schema : Schema) (word : String) :
    Takes 1 (readNamed source schema word) := by
  unfold readNamed
  split
  · exact .bind_left (.next _) fun _ =>
      .bind_right ((Takes.symbol _).mono (Nat.zero_le _)) fun _ =>
        .bind_right ((takes_readString _).mono (Nat.zero_le _)) fun _ =>
          .bind_right ((Takes.symbol _).mono (Nat.zero_le _)) fun _ => .pure _
  split
  · exact .bind_left (.next _) fun _ =>
      .bind_right ((Takes.name _).mono (Nat.zero_le _)) fun _ =>
        .bind_right ((Takes.symbol _).mono (Nat.zero_le _)) fun _ => .pure _
  split
  · exact .bind_left (.next _) fun _ =>
      .bind_right (takes_readImport.mono (Nat.zero_le _)) fun _ => .pure _
  split
  · exact .bind_left (Setting.takes_readStatement _) fun _ => .pure _
  split
  · exact .bind_left (.next _) fun _ =>
      .bind_right ((Message.takes_read _).mono (Nat.zero_le _)) fun _ => .pure _
  split
  · exact .bind_left (.next _) fun _ =>
      .bind_right ((EnumDef.takes_read _ _).mono (Nat.zero_le _)) fun _ => .pure _
  split
  · exact .bind_left (.next _) fun _ =>
      .bind_right (takes_skipBlock.mono (Nat.zero_le _)) fun _ => .pure _
  · exact .refuse _ _

/-- One top-level statement, added to a schema. -/
def readStatement (source : List Char) (schema : Schema) : Reader Schema := do
  match ← peek? with
  | some (.symbol c) =>
    if c = ';' then
      let _ ← next .topLevelStatement
      pure schema
    else refuse .topLevelStatement
  | some (.ident word) => readNamed source schema word
  | _ => refuse .topLevelStatement

theorem takes_readStatement (source : List Char) (schema : Schema) :
    Takes 1 (readStatement source schema) := by
  refine .bind_right .peek? fun kind => ?_
  split
  · split
    · exact .bind_left (.next _) fun _ => .pure _
    · exact .refuse _ _
  · exact takes_readNamed _ _ _
  · exact .refuse _ _

/-- One top-level statement, added to a schema, or the end of the input. Comments outside enums are
    forgotten. -/
def step (source : List Char) (schema : Schema) : Reader (Schema ⊕ Schema) := do
  dropHeld
  if ← atEnd then pure (.inr schema)
  else
    let schema ← readStatement source schema
    pure (.inl schema)

theorem proceeds_step (source : List Char) : Proceeds (step source) := by
  intro schema s schema' s' h
  obtain ⟨_, s₁, h1, h⟩ := exists_of_bind h
  obtain ⟨ended, s₂, h2, h⟩ := exists_of_bind h
  cases h1
  cases h2
  split at h
  · cases h
  · obtain ⟨next, s₃, h3, h⟩ := exists_of_bind h
    cases h
    have hlt := takes_readStatement source schema h3
    exact hlt

/-- The schema that the tokens of a source declare. -/
def ofTokens (source : List Char) (tokens : List Token) : Except SchemaError Schema :=
  (iterate (step source) (proceeds_step source) {} (Stream.ofTokens tokens)).map Prod.fst

/-- The schema that a text declares. -/
def parse (source : String) : Except SchemaError Schema :=
  match tokenize source with
  | .error (position, fault) => .error (.text position fault)
  | .ok tokens               => ofTokens source.toList tokens

end Schema

end FlagSchema
