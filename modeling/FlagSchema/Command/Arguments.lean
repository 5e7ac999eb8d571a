/-!
# Arguments

What the command line asks for. Options may stand anywhere before `--`; after it every argument names an
input.

* **`Word.ofArgument`**: the kinds of arguments, by their leading dashes.
* **`Gathered.addAll`**: the arguments taken in order. Help and version are answered, and an unknown
  option or a second input refused, at the argument that asks for it.
* **`Gathered.toInvocation`**: what the whole line asks for. An option given twice is refused only here.
-/

namespace FlagSchema.Command

/-- What is made of a schema. -/
inductive Product where
  | schema | report | accessors
  deriving DecidableEq, Repr, Inhabited

namespace Product

/-- The word for a product on the command line. -/
def word : Product → String
  | schema    => "proto"
  | report    => "report"
  | accessors => "rust"

/-- The product with a word. -/
def ofWord? (s : String) : Option Product :=
  [schema, report, accessors].find? fun p => p.word == s

@[simp] theorem ofWord?_word (p : Product) : ofWord? p.word = some p := by
  cases p <;> decide

end Product

/-- A request to work on a schema. -/
structure Arguments where
  /-- The file to read; standard input if there is none. -/
  input     : Option String := none
  /-- The file to write; standard output if there is none. -/
  output    : Option String := none
  product   : Product := .schema
  /-- How much more to log. -/
  verbosity : Nat := 0
  deriving DecidableEq, Repr, Inhabited

/-- What a command line asks for. -/
inductive Invocation where
  | work (a : Arguments)
  | help
  | version
  /-- Nothing that makes sense. -/
  | refused
  deriving DecidableEq, Repr

-- ── Words ────────────────────────────────────────────────────────────────────────

/-- An argument by its leading dashes. -/
inductive Word where
  /-- `--` alone. -/
  | separator
  /-- Two dashes or more, a name, and the value after the first equals sign. -/
  | long (name : List Char) (value : Option (List Char))
  /-- One dash and letters. -/
  | short (letters : List Char)
  /-- No dash, or one alone. -/
  | plain (text : String)
  deriving DecidableEq, Repr

/-- The value of an option, without the equals signs in front of it. -/
def bareValue (value : List Char) : List Char := value.dropWhile (· == '=')

/-- The kind of an argument. -/
def Word.ofArgument (argument : String) : Word :=
  match argument.toList with
  | ['-', '-'] => .separator
  | '-' :: '-' :: cs =>
    let body := cs.dropWhile (· == '-')
    match body.dropWhile (· ≠ '=') with
    | []         => .long body none
    | _ :: value => .long (body.takeWhile (· ≠ '=')) (some (bareValue value))
  | '-' :: c :: cs => .short (c :: cs)
  | _              => .plain argument

-- ── Gathering ────────────────────────────────────────────────────────────────────

/-- The options that take a value. -/
inductive ValueOption where
  | output | product
  deriving DecidableEq, Repr

/-- What the arguments so far say; of the options with values every use, a missing value included. -/
structure Gathered where
  input     : Option String := none
  outputs   : List (Option String) := []
  products  : List (Option String) := []
  verbosity : Nat := 0
  deriving DecidableEq, Repr, Inhabited

namespace Gathered

/-- One more use of an option. -/
def use (g : Gathered) (value : Option String) : ValueOption → Gathered
  | .output  => { g with outputs := g.outputs ++ [value] }
  | .product => { g with products := g.products ++ [value] }

/-- An option that found no value, if there is one. -/
def close (g : Gathered) : Option ValueOption → Gathered
  | none   => g
  | some o => g.use none o

/-- An input; there may be one. -/
def addInput (g : Gathered) (name : String) : Except Invocation Gathered :=
  match g.input with
  | none   => .ok { g with input := some name }
  | some _ => .error .refused

/-- The letters after one dash. The letter of an option takes the rest for its value, or waits for one if
    there is no rest. -/
def addLetters (g : Gathered) : List Char → Except Invocation (Gathered × Option ValueOption)
  | []        => .ok (g, none)
  | 'v' :: cs => addLetters { g with verbosity := g.verbosity + 1 } cs
  | 'V' :: _  => .error .version
  | 'h' :: _  => .error .help
  | ['o']     => .ok (g, some .output)
  | 'o' :: cs => .ok (g.use (String.ofList (bareValue cs)) .output, none)
  | _         => .error .refused

/-- An option that takes a value, with the value or waiting for one. -/
def addValued (g : Gathered) (o : ValueOption) :
    Option (List Char) → Gathered × Option ValueOption
  | none       => (g, some o)
  | some value => (g.use (String.ofList value) o, none)

/-- A long option. -/
def addLong (g : Gathered) (name : List Char) (value : Option (List Char)) :
    Except Invocation (Gathered × Option ValueOption) :=
  match String.ofList name with
  | "output"  => .ok (g.addValued .output value)
  | "emit"    => .ok (g.addValued .product value)
  | "version" => .error .version
  | "help"    => .error .help
  | _         => .error .refused

/-- The arguments in order. An option may be waiting for its value: an argument without a dash, or a dash
    alone, is the value; any other ends the wait. -/
def addAll (g : Gathered) (waiting : Option ValueOption) : List String → Except Invocation Gathered
  | []           => .ok (g.close waiting)
  | arg :: args =>
    match Word.ofArgument arg with
    | .separator => args.foldlM addInput (g.close waiting)
    | .plain text =>
      match waiting with
      | some o => addAll (g.use text o) none args
      | none   =>
        match g.addInput text with
        | .ok next    => addAll next none args
        | .error stop => .error stop
    | .short letters =>
      match (g.close waiting).addLetters letters with
      | .ok (next, waits) => addAll next waits args
      | .error stop       => .error stop
    | .long name value =>
      match (g.close waiting).addLong name value with
      | .ok (next, waits) => addAll next waits args
      | .error stop       => .error stop

/-- The output of a line: at most one use, with a value. -/
def output? (g : Gathered) : Option (Option String) :=
  match g.outputs with
  | []            => some none
  | [some output] => some (some output)
  | _             => none

/-- The product of a line: at most one use, with the word of a product or without a value. -/
def product? (g : Gathered) : Option Product :=
  match g.products with
  | []          => some .schema
  | [none]      => some .schema
  | [some word] => Product.ofWord? word
  | _           => none

/-- What the whole line asks for. An input of one dash is standard input. -/
def toInvocation (g : Gathered) : Invocation :=
  match g.output?, g.product? with
  | some output, some product =>
    .work { input := g.input.filter (· ≠ "-"), output, product, verbosity := g.verbosity }
  | _, _ => .refused

end Gathered

/-- What a command line asks for. -/
def Invocation.ofArguments (arguments : List String) : Invocation :=
  match Gathered.addAll {} none arguments with
  | .ok g       => g.toInvocation
  | .error stop => stop

end FlagSchema.Command
