import Workflow.Number.Decimal

/-!
# Words

A word is made of letters, digits and underscores of the basic Latin alphabet and starts with no
digit. Other alphabets have no words here.
-/

namespace Workflow.Text

def isWordStart (c : Char) : Bool :=
  ('a' ≤ c && c ≤ 'z') || ('A' ≤ c && c ≤ 'Z') || c = '_'

def isWordChar (c : Char) : Bool := isWordStart c || Decimal.isDigit c

/-- Whether a text is a row of characters of words. -/
def isSimpleName (s : String) : Bool := !s.isEmpty && s.toList.all isWordChar

/-- Whether words with single dots between them follow. At the start of a word a letter has to
come. -/
def isDotted (atStart : Bool) : List Char → Bool
  | [] => !atStart
  | c :: rest =>
    if c = '.' then !atStart && isDotted true rest
    else (if atStart then isWordStart c else isWordChar c) && isDotted false rest

def isDottedName (s : String) : Bool := isDotted true s.toList

end Workflow.Text
