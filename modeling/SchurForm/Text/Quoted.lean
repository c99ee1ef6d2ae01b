import SchurForm.Text.Hidden

/-!
# Quoted texts

A text in double quotes, on one line and with every character visible. Quotes and backslashes are
escaped, and a character that is not shown by itself is replaced by its code.
-/

namespace SchurForm

namespace Text

/-- The code of a character in braces. -/
def codeEscape (c : Char) : List Char :=
  ['\\', 'u', '\x7b'] ++ Nat.toDigits 16 c.toNat ++ ['\x7d']

/-- A character inside double quotes. -/
def quotedChar (c : Char) : List Char :=
  if c = '"' ∨ c = '\\' then ['\\', c]
  else if c = '\n' then ['\\', 'n']
  else if c = '\r' then ['\\', 'r']
  else if c = '\t' then ['\\', 't']
  else if c.toNat = 0 then ['\\', '0']
  else if c.toNat < 0x20 ∨ c.toNat = 0x7F then codeEscape c
  else if 0x80 ≤ c.toNat ∧ isHidden c then codeEscape c
  else [c]

/-- A text in double quotes. -/
def quoted (text : String) : String :=
  String.ofList ('"' :: text.toList.flatMap quotedChar ++ ['"'])

end Text

end SchurForm
