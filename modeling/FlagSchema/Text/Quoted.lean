import FlagSchema.Text.Printable

/-!
# Quoted texts

The form in which messages show a character or a text: between quotes, on one line, with every
character that could be misread written as an escape.

* **`quoted`**: a text in double quotes; a double quote inside is escaped, a single one is not.
* **`quotedChar`**: a character in single quotes; a single quote is escaped, a double one is not.
-/

namespace FlagSchema.Text

/-- The digits of a number in base sixteen, in lower case and without leading zeros. -/
def hex (n : Nat) : List Char :=
  Nat.toDigits 16 n

/-- One character between the given quotes: the escape that names it, its code point in braces when
    it has no shape of its own, or itself. -/
def escaped (quote c : Char) : List Char :=
  if c = '\x00' then ['\\', '0']
  else if c = '\t' then ['\\', 't']
  else if c = '\r' then ['\\', 'r']
  else if c = '\n' then ['\\', 'n']
  else if c = '\\' || c = quote then ['\\', c]
  else if isPrintable c then [c]
  else '\\' :: 'u' :: '\x7b' :: hex c.toNat ++ ['\x7d']

/-- A text in double quotes. -/
def quoted (s : String) : String :=
  String.ofList ('"' :: s.toList.flatMap (escaped '"') ++ ['"'])

/-- A character in single quotes. -/
def quotedChar (c : Char) : String :=
  String.ofList ('\'' :: escaped '\'' c ++ ['\''])

end FlagSchema.Text
