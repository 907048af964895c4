import Workflow.Text.Hex

/-!
# Quoted strings

A quoted string stands between two double quotes. The quote, the backslash and the characters
below the space are escaped; every other character stands for itself.
-/

namespace Workflow.Text

/-- The characters that stand for one character between quotes. -/
def escape (c : Char) : List Char :=
  if c = '"' then ['\\', '"']
  else if c = '\\' then ['\\', '\\']
  else if c = '\x08' then ['\\', 'b']
  else if c = '\x0c' then ['\\', 'f']
  else if c = '\n' then ['\\', 'n']
  else if c = '\r' then ['\\', 'r']
  else if c = '\t' then ['\\', 't']
  else if c.toNat < 0x20 then '\\' :: 'u' :: hexDigits .lower 4 c.toNat
  else [c]

def quoteChars (cs : List Char) : List Char :=
  '"' :: (cs.flatMap escape ++ ['"'])

def quote (s : String) : String :=
  String.ofList (quoteChars s.toList)

end Workflow.Text
