import Workflow.Document.Basic
import Workflow.Document.Scalar

/-!
# Documents as YAML text

Block style with two columns for each level. A sequence under a key starts at the column of the
key. An entry whose key is long or spans lines is written over two lines, marked `?` and `:`.
-/

namespace Workflow

/-- Floating-point numbers in YAML: as in JSON, but a positive exponent has no sign. -/
def yamlFloat : FloatLayout := ⟨.toEven, fun e => -5 ≤ e && e < 16, true, false⟩

namespace Document

def isSimpleKey (key : String) : Bool :=
  !key.toList.any Scalar.isBreak && key.utf8ByteSize ≤ 128

/-- Joins the texts of items or entries that start at a column. The first stands there already. -/
def stacked (column : Nat) (texts : List String) : String :=
  (spaces column).intercalate texts

/-- The line of a value without items or fields. Further lines of a string start at a column. -/
def yamlLeaf (column : Nat) : Document → String
  | .null => "null\n"
  | .bool b => if b then "true\n" else "false\n"
  | .int n => Decimal.intText n ++ "\n"
  | .float x => String.ofList (yamlFloat.chars x) ++ "\n"
  | .string s => Scalar.line column s
  | .array _ => "[]\n"
  | .object _ => "\x7b\x7d\n"

mutual

/-- The text of a value that starts at a column, up to the end of its last line. -/
def yamlValue (column : Nat) : Document → String
  | .array items =>
    if items.isEmpty then "[]\n" else stacked column (yamlItems column items)
  | .object fields =>
    if fields.isEmpty then "\x7b\x7d\n" else stacked column (yamlFields column fields)
  | leaf => yamlLeaf column leaf

/-- The text of a value behind a key that starts at a column. Items and fields start on the next
line: items below the key, fields further in. -/
def yamlFieldValue (column : Nat) : Document → String
  | .array items =>
    if items.isEmpty then " []\n"
    else "\n" ++ spaces column ++ stacked column (yamlItems column items)
  | .object fields =>
    if fields.isEmpty then " \x7b\x7d\n"
    else "\n" ++ spaces (column + 2) ++ stacked (column + 2) (yamlFields (column + 2) fields)
  | leaf => " " ++ yamlLeaf (column + 2) leaf

def yamlItems (column : Nat) : List Document → List String
  | [] => []
  | item :: rest => ("- " ++ yamlValue (column + 2) item) :: yamlItems column rest

def yamlFields (column : Nat) : List (String × Document) → List String
  | [] => []
  | (key, value) :: rest =>
    (if isSimpleKey key then
      Scalar.text (column + 2) key ++ ":" ++ yamlFieldValue column value
    else
      "? " ++ Scalar.line (column + 2) key ++ spaces column ++ ": " ++ yamlValue (column + 2) value)
    :: yamlFields column rest

end

def toYaml (d : Document) : String := yamlValue 0 d

end Document

end Workflow
