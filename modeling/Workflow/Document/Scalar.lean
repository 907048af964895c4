import Workflow.Number.Layout
import Workflow.Text.Hex

/-!
# Strings as YAML scalars

A string can be written plain, between single or double quotes, or as a block of lines. This
module chooses the style and writes the text.
-/

namespace Workflow.Scalar

/-! ## Plain texts that are not strings -/

def reservedWords : List String :=
  ["null", "Null", "NULL", "~", "true", "True", "TRUE", "false", "False", "FALSE"]

/-- Words that stand for infinity, before which a sign may stand. -/
def infinityWords : List (List Char) := [".inf".toList, ".Inf".toList, ".INF".toList]

def undefinedWords : List (List Char) := [".nan".toList, ".NaN".toList, ".NAN".toList]

/-- The number that digits of a base write, if there are any and all are digits of it. -/
def ofBase? (base : Nat) (cs : List Char) : Option Nat :=
  if cs.isEmpty then none
  else cs.foldl (fun n c => do
    let n ← n
    let d ← Text.hexValue? c
    if d < base then some (n * base + d) else none) (some 0)

/-- The number that a text with `0x`, `0o` or `0b` in front writes. -/
def ofMarkedBase? : List Char → Option Nat
  | '0' :: 'x' :: ds => ofBase? 16 ds
  | '0' :: 'o' :: ds => ofBase? 8 ds
  | '0' :: 'b' :: ds => ofBase? 2 ds
  | _ => none

/-- Whether a text is an integer in a marked base that fits into 128 bits. -/
def isMarkedInteger : List Char → Bool
  | '-' :: cs => (ofMarkedBase? cs).any (· ≤ Nat.pow 2 127)
  | '+' :: cs => (ofMarkedBase? cs).any (· < Nat.pow 2 128)
  | cs => (ofMarkedBase? cs).any (· < Nat.pow 2 128)

def withoutSign : List Char → List Char
  | '-' :: cs => cs
  | '+' :: cs => cs
  | cs => cs

/-- Whether a text is made of digits with a needless zero in front. -/
def isZeroPadded (cs : List Char) : Bool :=
  match withoutSign cs with
  | '0' :: d :: ds => (d :: ds).all Decimal.isDigit
  | _ => false

/-- Whether a text is a decimal whose nearest floating-point number is finite. -/
def isFiniteDecimal (cs : List Char) : Bool :=
  (Decimal.ofChars? (withoutSign cs)).any fun d => Binary64.nearestMagnitude d < Binary64.infinite

/-- Whether a plain text would be read back as something other than a string, or looks like a
number that is written in an unusual way. -/
def isReserved (s : String) : Bool :=
  let cs := s.toList
  cs.isEmpty || reservedWords.contains s || isMarkedInteger cs || isZeroPadded cs ||
    isFiniteDecimal cs || infinityWords.contains (withoutSign cs) || undefinedWords.contains cs

/-! ## Facts about characters -/

def isBreak (c : Char) : Bool :=
  c = '\n' || c = '\r' || c = '\u0085' || c = '\u2028' || c = '\u2029'

/-- Whether a character cannot be printed. -/
def isSpecial (c : Char) : Bool :=
  (c.toNat < 0x20 && c ≠ '\n') || (0x7F ≤ c.toNat && c.toNat ≤ 0x9F) ||
    c = '\ufeff' || c = '\ufffe' || c = '\uffff'

/-- Whether a word ends before this character, or before the end of the text. -/
def isBoundary : Option Char → Bool
  | none => true
  | some c => c = ' ' || c = '\t' || c = '\x00' || isBreak c

/-- Characters that mean something else than themselves at the start of a plain text. -/
def indicators : List Char :=
  ['#', ',', '[', ']', '{', '}', '&', '*', '!', '|', '>', Char.ofNat 39, '"', '%', '@',
   Char.ofNat 96]

/-- Whether two neighbouring characters satisfy a relation somewhere in a text. -/
def hasNeighbours (p : Char → Char → Bool) (cs : List Char) : Bool :=
  (cs.zip cs.tail).any fun pair => p pair.1 pair.2

/-- Whether a colon stands before the end of a word. -/
def hasKeyMark : List Char → Bool
  | [] => false
  | c :: rest => (c = ':' && isBoundary rest.head?) || hasKeyMark rest

def hasSpaceBeforeBreak (cs : List Char) : Bool :=
  hasNeighbours (fun a b => a = ' ' && isBreak b) cs

def hasSpaceAfterBreak (cs : List Char) : Bool :=
  hasNeighbours (fun a b => isBreak a && b = ' ') cs

/-! ## Styles -/

inductive Style where
  | plain
  | single
  | double
  | literal
  deriving DecidableEq

def startsSpecially (cs : List Char) : Bool :=
  "---".toList.isPrefixOf cs || "...".toList.isPrefixOf cs ||
    match cs with
    | [] => false
    | c :: rest => indicators.contains c || ((c = '?' || c = '-') && isBoundary rest.head?)

def allowsPlain (cs : List Char) : Bool :=
  !cs.head?.any (· = ' ') && !cs.getLast?.any (· = ' ') && !cs.any isBreak && !cs.any isSpecial &&
    !startsSpecially cs && !hasKeyMark cs &&
    !hasNeighbours (fun a b => isBoundary (some a) && b = '#') cs

def allowsSingle (cs : List Char) : Bool :=
  !cs.any isSpecial && !hasSpaceAfterBreak cs && !hasSpaceBeforeBreak cs

def allowsLiteral (cs : List Char) : Bool :=
  !cs.any isSpecial && !hasSpaceBeforeBreak cs && !cs.getLast?.any (· = ' ')

def style (s : String) : Style :=
  let cs := s.toList
  if cs.contains '\n' then
    if allowsLiteral cs then .literal else .double
  else if isReserved s || !allowsPlain cs then
    if allowsSingle cs then .single else .double
  else .plain

/-! ## Texts -/

def escape (c : Char) : List Char :=
  let short (l : Char) : List Char := ['\\', l]
  if c = '"' || c = '\\' then short c
  else if !(isSpecial c || isBreak c) then [c]
  else if c = '\x00' then short '0'
  else if c = '\x07' then short 'a'
  else if c = '\x08' then short 'b'
  else if c = '\t' then short 't'
  else if c = '\n' then short 'n'
  else if c = '\x0b' then short 'v'
  else if c = '\x0c' then short 'f'
  else if c = '\r' then short 'r'
  else if c = '\x1b' then short 'e'
  else if c = '\u0085' then short 'N'
  else if c = '\u2028' then short 'L'
  else if c = '\u2029' then short 'P'
  else if c.toNat ≤ 0xFF then '\\' :: 'x' :: Text.hexDigits .upper 2 c.toNat
  else '\\' :: 'u' :: Text.hexDigits .upper 4 c.toNat

/-- The text between single quotes. What follows a line end is indented. -/
def singleBody (indent : Nat) (afterBreak : Bool) : List Char → List Char
  | [] => if afterBreak then List.replicate indent ' ' else []
  | c :: rest =>
    if isBreak c then c :: singleBody indent true rest
    else
      (if afterBreak then List.replicate indent ' ' else []) ++
        (if c = Char.ofNat 39 then [c, c] else [c]) ++ singleBody indent false rest

/-- The lines of a block. Lines with characters are indented. -/
def literalBody (indent : Nat) (afterBreak : Bool) : List Char → List Char
  | [] => []
  | c :: rest =>
    if isBreak c then c :: literalBody indent true rest
    else
      (if afterBreak then List.replicate indent ' ' else []) ++ c :: literalBody indent false rest

/-- The marks behind the bar of a block: `2` where the text starts with a space or a line end, `-`
where it does not end in a line end, and `+` where it ends in two or is a single one. -/
def literalHints (cs : List Char) : List Char :=
  (if cs.head?.any fun c => c = ' ' || isBreak c then ['2'] else []) ++
    match cs.reverse with
    | [] => ['-']
    | [c] => if isBreak c then ['+'] else ['-']
    | c :: d :: _ => if !isBreak c then ['-'] else if isBreak d then ['+'] else []

def chars (indent : Nat) (s : String) : List Char :=
  let cs := s.toList
  match style s with
  | .plain => cs
  | .single => Char.ofNat 39 :: (singleBody indent false cs ++ [Char.ofNat 39])
  | .double => '"' :: (cs.flatMap escape ++ ['"'])
  | .literal => '|' :: (literalHints cs ++ '\n' :: literalBody indent true cs)

/-- A text up to the end of its line, which the last line of a block may have brought. -/
def endLine (cs : List Char) : List Char :=
  if cs.getLast?.any isBreak then cs else cs ++ ['\n']

def text (indent : Nat) (s : String) : String := String.ofList (chars indent s)

def line (indent : Nat) (s : String) : String := String.ofList (endLine (chars indent s))

end Workflow.Scalar
