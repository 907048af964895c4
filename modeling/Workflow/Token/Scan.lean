import Workflow.Text.Blank
import Workflow.Text.Hex
import Workflow.Text.Word
import Workflow.Token.Basic
import Workflow.Token.Numeral

/-!
# From source text to tokens

`Lexeme.scan?` reads the one lexeme at the start of a text and says how many characters it takes.
`Token.ofSource` reads a whole text: between lexemes it skips blanks and comments, and after the
last one it adds the end of input.
-/

namespace Workflow

namespace Lexeme

/-- The character after a backslash, other than a numbered one. -/
def simpleEscape? (c : Char) : Option Char :=
  if c = '"' then some '"'
  else if c = '\\' then some '\\'
  else if c = '/' then some '/'
  else if c = 'n' then some '\n'
  else if c = 't' then some '\t'
  else if c = 'r' then some '\r'
  else if c = 'f' then some '\x0c'
  else if c = 'b' then some '\x08'
  else none

/-- The character with a code point, unless it is a surrogate or out of range. -/
def charOf? (n : Nat) : Option Char :=
  if n.isValidChar then some (Char.ofNat n) else none

def isHighSurrogate (n : Nat) : Bool := 0xD800 ≤ n && n ≤ 0xDBFF

def isLowSurrogate (n : Nat) : Bool := 0xDC00 ≤ n && n ≤ 0xDFFF

def pairOf? (high low : Nat) : Option Char :=
  if isLowSurrogate low then charOf? (0x10000 + (high - 0xD800) * 1024 + (low - 0xDC00)) else none

/-- Reads a string literal after its opening quote: its characters, and how many characters of the
text it takes with the closing quote. A line feed or the end of the text ends no string. -/
def stringBody? : List Char → Option (List Char × Nat)
  | [] => none
  | c :: rest =>
    if c = '"' then some ([], 1)
    else if c = '\n' then none
    else if c = '\\' then
      match rest with
      | [] => none
      | e :: rest =>
        if e = 'u' then
          match rest with
          | h₁ :: h₂ :: h₃ :: h₄ :: rest =>
            match Text.hexValue4? h₁ h₂ h₃ h₄ with
            | none => none
            | some unit =>
              -- the first half of a pair needs the second one right behind it
              if isHighSurrogate unit then
                match rest with
                | b :: u :: l₁ :: l₂ :: l₃ :: l₄ :: rest =>
                  if b = '\\' ∧ u = 'u' then do
                    let low ← Text.hexValue4? l₁ l₂ l₃ l₄
                    let char ← pairOf? unit low
                    let (chars, width) ← stringBody? rest
                    return (char :: chars, width + 12)
                  else none
                | _ => none
              else do
                let char ← charOf? unit
                let (chars, width) ← stringBody? rest
                return (char :: chars, width + 6)
          | _ => none
        else do
          let char ← simpleEscape? e
          let (chars, width) ← stringBody? rest
          return (char :: chars, width + 2)
    else do
      let (chars, width) ← stringBody? rest
      return (c :: chars, width + 1)

/-- Reads an expression literal after its opening `$` and brace: everything up to the first closing
brace. -/
def expressionBody? (cs : List Char) : Option (List Char × Nat) :=
  let inner := cs.takeWhile (· ≠ '}')
  if inner.length < cs.length then some (inner, inner.length + 1) else none

def ofWord (word : String) : Lexeme :=
  match Keyword.ofText? word with
  | some k => .keyword k
  | none => .identifier word

def doubleSymbol? (c d : Char) : Option Symbol :=
  if d = '=' then
    if c = '=' then some .eq
    else if c = '!' then some .neq
    else if c = '<' then some .lte
    else if c = '>' then some .gte
    else none
  else none

def singleSymbol? (c : Char) : Option Symbol :=
  if c = '=' then some .assign
  else if c = '<' then some .lt
  else if c = '>' then some .gt
  else if c = '+' then some .plus
  else if c = '-' then some .minus
  else if c = '*' then some .star
  else if c = '/' then some .slash
  else if c = '%' then some .percent
  else if c = '(' then some .lparen
  else if c = ')' then some .rparen
  else if c = '[' then some .lbracket
  else if c = ']' then some .rbracket
  else if c = '{' then some .lbrace
  else if c = '}' then some .rbrace
  else if c = ',' then some .comma
  else if c = '.' then some .dot
  else if c = ':' then some .colon
  else none

/-- The sign at the start of a text; two characters are tried before one. -/
def scanSymbol? (c : Char) (rest : List Char) : Option (Lexeme × Nat) :=
  match rest.head?.bind (doubleSymbol? c) with
  | some s => some (.symbol s, 2)
  | none => (singleSymbol? c).map fun s => (.symbol s, 1)

/-- Whether a numeral starts here. A `-` is its sign only where no value has just ended. -/
def startsNumeral (afterValue : Bool) (c : Char) (rest : List Char) : Bool :=
  Decimal.isDigit c || (c = '-' && rest.head?.any Decimal.isDigit && !afterValue)

/-- The lexeme at the start of a text and the number of characters it takes. -/
def scan? (afterValue : Bool) (c : Char) (rest : List Char) : Option (Lexeme × Nat) :=
  if c = '"' then
    (stringBody? rest).map fun (chars, width) => (.string (String.ofList chars), width + 1)
  else if c = '$' ∧ rest.head? = some '{' then
    (expressionBody? rest.tail).map fun (chars, width) =>
      (.expression (String.ofList chars), width + 2)
  else if startsNumeral afterValue c rest then
    let numeral := Numeral.scan (c :: rest)
    numeral.number?.map fun n => (.number n, numeral.chars.length)
  else if Text.isWordStart c then
    let word := c :: rest.takeWhile Text.isWordChar
    some (ofWord (String.ofList word), word.length)
  else scanSymbol? c rest

end Lexeme

namespace Token

structure ScanError where
  /-- The text at the fault, up to the next blank and at most sixteen characters. -/
  text : String
  position : Position
  deriving DecidableEq

def excerpt (cs : List Char) : String :=
  String.ofList ((cs.takeWhile fun c => !Text.isBlank c).take 16)

/-- The blanks that may stand between tokens. -/
def isGap (c : Char) : Bool := c = ' ' || c = '\t' || c = '\r' || c = '\n'

def ofChars (afterValue : Bool) (position : Position) :
    List Char → Except ScanError (List Token)
  | [] => .ok [⟨.endOfInput, "", position⟩]
  | c :: rest =>
    if isGap c then ofChars afterValue (position.next c) rest
    else if c = '/' ∧ rest.head? = some '/' then
      -- the line feed behind a comment is left as a gap
      ofChars afterValue ((position.next c).advance (rest.takeWhile (· ≠ '\n')))
        (rest.dropWhile (· ≠ '\n'))
    else
      match Lexeme.scan? afterValue c rest with
      | none => .error ⟨excerpt (c :: rest), position⟩
      | some (lexeme, width) => do
        let image := c :: rest.take (width - 1)
        let others ← ofChars lexeme.endsValue (position.advance image) (rest.drop (width - 1))
        return ⟨lexeme, String.ofList image, position⟩ :: others
termination_by cs => cs.length
decreasing_by
  · simp
  · have := (List.dropWhile_sublist (· ≠ '\n') (l := rest)).length_le
    simp only [List.length_cons]
    omega
  · simp only [List.length_drop, List.length_cons]
    omega

/-- The tokens of a source text. The last one is the end of input, and no other is. -/
def ofSource (source : String) : Except ScanError (List Token) :=
  ofChars false .start source.toList

end Token

end Workflow
