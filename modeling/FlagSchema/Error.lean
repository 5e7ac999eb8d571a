import FlagSchema.Schema.Basic
import FlagSchema.Token.Lexeme

/-!
# Errors

Why a schema is refused: a fault in its text, a statement that is not as expected, a set of flags that
cannot be formed, a name without a meaning.

* **`Expectation`**: what a statement asks for at some point.
* **`SchemaError`**: the causes, with the facts that a message needs.
* **`SchemaError.message`**: their wording.
-/

namespace FlagSchema

/-- What a statement asks for at some point. -/
inductive Expectation where
  | symbol (c : Char)
  | topLevelStatement | syntaxString | packageName | importPath
  | optionName | extensionName | constant | string | number | integer
  | messageName | messageElement | oneofName
  | fieldType | mapKeyType | scalarMapKeyType | mapValueType | fieldName | fieldNumber
  | enumName | enumValue | enumValueNumber
  deriving DecidableEq, Repr

/-- The words for what is expected. -/
def Expectation.render : Expectation → String
  | symbol c          => Token.backquoted (String.singleton c)
  | topLevelStatement => "top-level statement"
  | syntaxString      => "syntax string"
  | packageName       => "package name"
  | importPath        => "import path"
  | optionName        => "option name"
  | extensionName     => "extension name"
  | constant          => "constant"
  | string            => "string"
  | number            => "number"
  | integer           => "integer"
  | messageName       => "message name"
  | messageElement    => "message element"
  | oneofName         => "oneof name"
  | fieldType         => "field type"
  | mapKeyType        => "map key type"
  | scalarMapKeyType  => "scalar map key type"
  | mapValueType      => "map value type"
  | fieldName         => "field name"
  | fieldNumber       => "field number"
  | enumName          => "enum name"
  | enumValue         => "enum value"
  | enumValueNumber   => "enum value number"

/-- Why a schema is refused. -/
inductive SchemaError where
  /-- The text has no token where one should start. -/
  | text (position : Position) (fault : Token.Fault)
  /-- Another token stands where a certain one is expected. -/
  | expected (position : Position) (what : Expectation) (found : Token.Kind)
  /-- The text ends where a certain token is expected. -/
  | endOfInput (what : Expectation)
  /-- A number whose spelling has no value. -/
  | badNumber (position : Position) (spelling : String)
  /-- A field number outside `1 … 536870911`. -/
  | fieldNumber (position : Position) (number : Int)
  /-- A field that is a group. -/
  | group (position : Position)
  /-- A set of more flags than a value can hold. -/
  | tooManyFlags (enum : String) (count : Nat)
  /-- A set of flags that declares the name of the empty set. -/
  | reservedNone (enum : String)
  /-- A default of a retyped field that is none of the flags. -/
  | badDefault (field enum : String) (value : Constant)
  /-- An enum without values. -/
  | emptyEnum (enum : String)
  /-- A type that no declaration explains. -/
  | unresolvedType (field type : String)
  deriving DecidableEq, Repr

/-- What a default names: an identifier as it is, any other constant with its kind. -/
def Constant.asDefault : Constant → String
  | .ident name => name
  | c           => c.describe

/-- The wording of an error. -/
def SchemaError.message : SchemaError → String
  | text p (.stray c)     => p.render ++ ": unexpected character " ++ Text.quotedChar c
  | text p .openString    => p.render ++ ": unterminated string"
  | text p .openComment   => p.render ++ ": unterminated block comment"
  | expected p what found => p.render ++ ": expected " ++ what.render ++ ", found " ++ found.render
  | endOfInput what       => "unexpected end of input, expected " ++ what.render
  | badNumber p s         => p.render ++ ": invalid number " ++ Text.quoted s
  | fieldNumber p n       => p.render ++ ": field number " ++ toString n ++ " out of range"
  | group p               => p.render ++ ": groups are not supported"
  | tooManyFlags e count  =>
    "bitmap enum " ++ e ++ " has " ++ toString count ++ " values, at most " ++
      toString Scalar.maxFlags ++ " fit in uint64"
  | reservedNone e        =>
    "bitmap enum " ++ e ++ " declares " ++ Token.backquoted "None" ++
      ", which is reserved for the empty set"
  | badDefault f e value  =>
    "default " ++ Text.quoted value.asDefault ++ " of field " ++ f ++
      " is not a flag of bitmap " ++ e
  | emptyEnum e           => "enum " ++ e ++ " has no values"
  | unresolvedType f type =>
    "cannot resolve type " ++ Text.quoted type ++ " of field " ++ f

end FlagSchema
