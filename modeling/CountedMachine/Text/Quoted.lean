import CountedMachine.Text.Printable

/-! # Quoted text

A text is shown between double quotes. The quote and the backslash are written after a backslash,
the common controls by their letter, every other unprintable character by its code point in
hexadecimal between braces, and all else as it stands. -/

namespace CountedMachine.Text

/-- The digits of `n` in base sixteen, lower case, without padding. -/
def hex (n : Nat) : List Char := Nat.toDigits 16 n

/-- How one character is written inside quotes. -/
def quoteChar (c : Char) : List Char :=
  if c = '"' then ['\\', '"']
  else if c = '\\' then ['\\', '\\']
  else if c = '\n' then ['\\', 'n']
  else if c = '\r' then ['\\', 'r']
  else if c = '\t' then ['\\', 't']
  else if c.toNat = 0 then ['\\', '0']
  else if printable c then [c]
  else "\\u\x7b".toList ++ hex c.toNat ++ "\x7d".toList

/-- The text between quotes, character by character. -/
def quote (s : String) : String :=
  String.ofList ('"' :: s.toList.flatMap quoteChar ++ ['"'])

end CountedMachine.Text
