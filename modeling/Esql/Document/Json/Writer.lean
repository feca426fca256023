import Esql.Document.Json.Reader

/-!
# `Document.Json.Writer` — writing JSON strings

A quote, a backslash and every control character below the space are escaped, the last by one letter
where there is one and else by four digits in small letters; all else stands for itself.
-/

namespace Esql.Document.Json

/-- A digit of base sixteen, in small letters. -/
def hexDigit (n : Nat) : Char := Nat.digitChar (n % 16)

/-- A character inside a string. -/
def escaped (c : Char) : List Char :=
  if c = '"' then ['\\', '"']
  else if c = '\\' then ['\\', '\\']
  else if c = '\x08' then ['\\', 'b']
  else if c = '\x0c' then ['\\', 'f']
  else if c = '\n' then ['\\', 'n']
  else if c = '\r' then ['\\', 'r']
  else if c = '\t' then ['\\', 't']
  else if c.toNat < 0x20 then
    ['\\', 'u', '0', '0', hexDigit (c.toNat / 16), hexDigit c.toNat]
  else [c]

/-- A string between its quotes. -/
def quoted (s : String) : List Char := '"' :: s.toList.flatMap escaped ++ ['"']

example : quoted "a\"\n\x1f" = "\"a\\\"\\n\\u001f\"".toList := by decide +kernel

end Esql.Document.Json
