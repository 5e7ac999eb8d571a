import FlagSchema.Code.Ident

/-!
# Declarations of the accessors

What the accessors define: a structure for each message, an enum for each plain enum, a flag type for
each set of flags, and modules that hold the types declared inside a package or a message.

* **`Declaration`**: a definition.
* **`TypePath`**: the way from a module to the type that a field holds.
* **`Member.methods`**: the accessors of a field; which ones it has depends on what it holds.
* **`Declaration.code`**: the code of a definition.
-/

namespace FlagSchema

/-- A way to a type: out of so many modules, into others, and its name there. -/
structure TypePath where
  ups     : Nat
  modules : List Ident
  name    : Ident
  deriving DecidableEq, Repr, Inhabited

/-- What a field holds. -/
inductive Holding where
  | scalar (s : Scalar)
  | message (path : TypePath)
  | enum (path : TypePath)
  | flags (path : TypePath) (width : Scalar)
  deriving DecidableEq, Repr, Inhabited

/-- A field of a structure. -/
structure Member where
  ident      : Ident
  isRepeated : Bool
  holding    : Holding
  deriving DecidableEq, Repr, Inhabited

/-- A variant of an enum and its number. -/
structure Variant where
  ident  : Ident
  number : Int
  deriving DecidableEq, Repr, Inhabited

/-- A definition. -/
inductive Declaration where
  | struct (ident : Ident) (members : List Member)
  /-- An enum; its first variant is its default. -/
  | enum (ident : Ident) (first : Variant) (others : List Variant)
  /-- A flag type: its constants, and the table of names and values. -/
  | flags (ident : Ident) (width : Scalar) (constants : List (Ident × Nat)) (table : List (String × Nat))
  | module (ident : Ident) (declarations : List Declaration)
  deriving Repr, Inhabited

-- ── Types ────────────────────────────────────────────────────────────────────────

/-- A path as code. -/
def TypePath.code (p : TypePath) : Code :=
  (List.replicate p.ups (words "super ::")).flatten ++
    (p.modules.map fun m => m.code ++ words "::").flatten ++ p.name.code

/-- The type that stores a scalar. -/
def Scalar.storage : Scalar → Code
  | double                      => words "f64"
  | float                       => words "f32"
  | int32 | sint32 | sfixed32   => words "i32"
  | int64 | sint64 | sfixed64   => words "i64"
  | uint32 | fixed32            => words "u32"
  | uint64 | fixed64            => words "u64"
  | bool                        => words "bool"
  | string                      => words "String"
  | bytes                       => words "Vec < u8 >"

-- ── Accessors ────────────────────────────────────────────────────────────────────

/-- A method of a structure: its name, its parameters, its result and its body. -/
structure Method where
  ident      : Ident
  parameters : Code
  result     : Code
  body       : Code

/-- A method as code. -/
def Method.code (m : Method) : Code :=
  words "pub fn" ++ m.ident.code ++ parens m.parameters ++ m.result ++ braces m.body

namespace Member

/-- The field of the receiver. -/
def place (m : Member) : Code := words "self ." ++ m.ident.code

/-- A method that only looks at the receiver. -/
def looking (ident : Ident) (result body : Code) : Method :=
  { ident, parameters := words "& self", result := words "->" ++ result, body }

/-- A method that changes the receiver. -/
def changing (ident : Ident) (body : Code) : Method :=
  { ident, parameters := words "& mut self", result := [], body }

/-- A method that changes the receiver by a value. -/
def taking (ident : Ident) (type body : Code) : Method :=
  { ident, parameters := words "& mut self , v :" ++ type, result := [], body }

/-- A method that hands out the receiver's field for changing. -/
def lending (ident : Ident) (type body : Code) : Method :=
  { ident, parameters := words "& mut self", result := words "-> & mut" ++ type, body }

/-- `set_…`. -/
def setter (m : Member) : Ident := m.ident.around "set_" ""

/-- `clear_…`. -/
def clearer (m : Member) : Ident := m.ident.around "clear_" ""

/-- `mutable_…`. -/
def lender (m : Member) : Ident := m.ident.around "mutable_" ""

/-- `has_…`. -/
def tester (m : Member) : Ident := m.ident.around "has_" ""

/-- `add_…`. -/
def adder (m : Member) : Ident := m.ident.around "add_" ""

/-- `…_len`. -/
def counter (m : Member) : Ident := m.ident.around "" "_len"

/-- Empties the field. -/
def emptying (m : Member) : Method :=
  changing m.clearer (m.place ++ words ". clear" ++ parens [] ++ words ";")

/-- The accessors of a single text or byte string: the type that is lent, the one that is looked at. -/
def textMethods (m : Member) (owned viewed : Code) (into : Code) : List Method := [
  looking m.ident (words "&" ++ viewed) (words "&" ++ m.place),
  taking m.setter into (m.place ++ words "= v . into" ++ parens [] ++ words ";"),
  lending m.lender owned (words "& mut" ++ m.place),
  m.emptying]

/-- What `v : impl Into <…>` asks of a text or a byte string. -/
def intoText : Code := words "impl Into < String >"

/-- What `v : impl Into <…>` asks of a byte string. -/
def intoBytes : Code := words "impl Into < Vec < u8 >>"

/-- The accessors of a field that holds one value. -/
def singleMethods (m : Member) : List Method :=
  match m.holding with
  | .scalar .string => m.textMethods Scalar.string.storage (words "str") intoText
  | .scalar .bytes  => m.textMethods Scalar.bytes.storage (brackets (words "u8")) intoBytes
  | .scalar s => [
      looking m.ident s.storage m.place,
      taking m.setter s.storage (m.place ++ words "= v ;"),
      changing m.clearer (m.place ++ words "= Default :: default" ++ parens [] ++ words ";")]
  | .enum path => [
      looking m.ident path.code
        (path.code ++ words ":: from_i32" ++ parens m.place ++ words ". unwrap_or_default" ++ parens []),
      taking m.setter path.code (m.place ++ words "= v as i32 ;"),
      changing m.clearer (m.place ++ words "= 0 ;")]
  | .flags path _ => [
      looking m.ident path.code (path.code ++ words ":: from_bits_truncate" ++ parens m.place),
      taking m.setter path.code (m.place ++ words "= v . bits" ++ parens [] ++ words ";"),
      changing m.clearer (m.place ++ words "= 0 ;")]
  | .message path => [
      looking m.ident (words "Option < &" ++ path.code ++ words ">")
        (m.place ++ words ". as_deref" ++ parens []),
      looking m.tester (words "bool") (m.place ++ words ". is_some" ++ parens []),
      taking m.setter path.code
        (m.place ++ words "= Some" ++ parens (words "Box :: new" ++ parens (words "v")) ++ words ";"),
      lending m.lender path.code
        (m.place ++ words ". get_or_insert_with" ++ parens (words "Box :: default")),
      changing m.clearer (m.place ++ words "= None ;")]

/-- The element of a field that holds several values: its type, the type of a value to be added, and the
    value as an element. -/
def element (m : Member) : Code × Code × Code :=
  match m.holding with
  | .scalar .string => (Scalar.string.storage, intoText, words "v . into" ++ parens [])
  | .scalar .bytes  => (Scalar.bytes.storage, intoBytes, words "v . into" ++ parens [])
  | .scalar s       => (s.storage, s.storage, words "v")
  | .enum path      => (words "i32", path.code, words "v as i32")
  | .flags path w   => (w.storage, path.code, words "v . bits" ++ parens [])
  | .message path   => (path.code, path.code, words "v")

/-- The accessors of a field that holds several values. -/
def repeatedMethods (m : Member) : List Method :=
  let (element, value, added) := m.element
  [ looking m.ident (words "&" ++ brackets element) (words "&" ++ m.place),
    looking m.counter (words "usize") (m.place ++ words ". len" ++ parens []),
    taking m.adder value (m.place ++ words ". push" ++ parens added ++ words ";"),
    lending m.lender (words "Vec <" ++ element ++ words ">") (words "& mut" ++ m.place),
    m.emptying]

/-- The accessors of a field. -/
def methods (m : Member) : List Method :=
  if m.isRepeated then m.repeatedMethods else m.singleMethods

/-- The type that stores a field. -/
def storage (m : Member) : Code :=
  if m.isRepeated then words "Vec <" ++ m.element.1 ++ words ">"
  else
    match m.holding with
    | .scalar s     => s.storage
    | .enum _       => words "i32"
    | .flags _ w    => w.storage
    | .message path => words "Option < Box <" ++ path.code ++ words ">>"

end Member

-- ── Definitions ──────────────────────────────────────────────────────────────────

/-- A number as code; the sign of a negative one is a word of its own. -/
def numberCode (n : Int) : Code :=
  if n < 0 then words "-" ++ [.word (toString n.natAbs)] else [.word (toString n.natAbs)]

namespace Declaration

/-- The method that makes an empty structure. -/
def newMethod : Method :=
  { ident := { text := "new" }, parameters := [], result := words "-> Self",
    body := words "Self :: default" ++ parens [] }

/-- The methods of a structure. -/
def structMethods (members : List Member) : List Method :=
  newMethod :: members.flatMap Member.methods

/-- A structure and its accessors. -/
def structCode (ident : Ident) (members : List Member) : Code :=
  let fields := members.flatMap fun m => m.ident.code ++ words ":" ++ m.storage ++ words ","
  attributeCode "derive" "Clone , Debug , Default , PartialEq" ++
    words "pub struct" ++ ident.code ++ braces fields ++
    words "impl" ++ ident.code ++ braces ((structMethods members).flatMap Method.code)

/-- An enum, the reading of its numbers and its default. -/
def enumCode (ident : Ident) (first : Variant) (others : List Variant) : Code :=
  let variants := first :: others
  let declared := variants.flatMap fun v => v.ident.code ++ words "=" ++ numberCode v.number ++ words ","
  let arms := variants.flatMap fun v =>
    numberCode v.number ++ words "=> Some" ++ parens (ident.code ++ words "::" ++ v.ident.code) ++
      words ","
  let reading := words "match v" ++ braces (arms ++ words "_ => None ,")
  attributeCode "allow" "non_camel_case_types" ++
    attributeCode "derive" "Clone , Copy , Debug , PartialEq , Eq , Hash" ++
    attributeCode "repr" "i32" ++
    words "pub enum" ++ ident.code ++ braces declared ++
    words "impl" ++ ident.code ++ braces
      (words "pub fn from_i32" ++ parens (words "v : i32") ++
        words "-> Option <" ++ ident.code ++ words ">" ++ braces reading) ++
    words "impl Default for" ++ ident.code ++ braces
      (words "fn default" ++ parens [] ++ words "-> Self" ++
        braces (ident.code ++ words "::" ++ first.ident.code))

/-- The name of the constant for a scalar type. -/
def tagCode (s : Scalar) : Code :=
  words ":: protobitmap :: TypeTag ::" ++ [.word s.tag]

/-- A flag type with its constants, its table and its conversions. -/
def flagsCode (ident : Ident) (width : Scalar) (constants : List (Ident × Nat))
    (table : List (String × Nat)) : Code :=
  let consts := constants.flatMap fun (i, n) =>
    attributeCode "allow" "non_upper_case_globals" ++
      words "const" ++ i.code ++ words "=" ++ [.word (toString n)] ++ words ";"
  let rows := table.flatMap fun (name, n) =>
    parens [.word ("\"" ++ name ++ "\""), .word ",", .word (toString n ++ "u64")] ++ words ","
  words ":: protobitmap :: bitflags :: bitflags !" ++ braces
      (attributeCode "derive" "Default" ++
        words "pub struct" ++ ident.code ++ words ":" ++ width.storage ++ braces consts) ++
    words "impl :: protobitmap :: Bitmap for" ++ ident.code ++ braces
      (words "const WIDTH : :: protobitmap :: TypeTag =" ++ tagCode width ++ words ";" ++
        words "const FLAGS : & 'static" ++ brackets (parens (words "& 'static str , u64")) ++
        words "= &" ++ brackets rows ++ words ";" ++
        words "fn to_bits" ++ parens (words "self") ++ words "-> u64" ++
        braces (words "self . bits" ++ parens [] ++ words "as u64") ++
        words "fn from_bits_u64" ++ parens (words "bits : u64") ++ words "-> Option < Self >" ++
        braces
          (words ":: core :: convert :: TryFrom :: try_from" ++ parens (words "bits") ++
            words ". ok" ++ parens [] ++ words ". and_then" ++ parens (words "Self :: from_bits")))

mutual

/-- A definition as code. -/
def code : Declaration → Code
  | struct ident members              => structCode ident members
  | enum ident first others           => enumCode ident first others
  | flags ident width constants table => flagsCode ident width constants table
  | module ident declarations                => words "pub mod" ++ ident.code ++ braces (allCode declarations)

/-- Definitions as code. -/
def allCode : List Declaration → Code
  | []      => []
  | d :: ds => code d ++ allCode ds

end

end Declaration

end FlagSchema
