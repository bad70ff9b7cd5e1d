/-! # String literals

A string is written between double quotes. The quote, the backslash and the control characters are
escaped, everything else stands for itself.
-/

namespace TemplateCompiler.Text

def hexDigit (n : Nat) : Char :=
  if n < 10 then Char.ofNat (n + 48) else Char.ofNat (n + 87)

/-- How one character is written inside a string literal. -/
def quoteChar (c : Char) : List Char :=
  if c == '\x22' then ['\\', '\x22']
  else if c == '\\' then ['\\', '\\']
  else if c == '\x08' then ['\\', 'b']
  else if c == '\x0c' then ['\\', 'f']
  else if c == '\n' then ['\\', 'n']
  else if c == '\r' then ['\\', 'r']
  else if c == '\t' then ['\\', 't']
  else if c.toNat < 0x20 then
    ['\\', 'u', '0', '0', hexDigit (c.toNat / 16), hexDigit (c.toNat % 16)]
  else [c]

def quoteChars (cs : List Char) : List Char := '\x22' :: cs.flatMap quoteChar ++ ['\x22']

/-- The string literal whose value is `s`. -/
def quote (s : String) : String := String.ofList (quoteChars s.toList)

end TemplateCompiler.Text
