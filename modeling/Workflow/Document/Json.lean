import Workflow.Document.Basic
import Workflow.Number.Layout
import Workflow.Text.Quoted

/-!
# Documents as JSON text

Two forms: a compact one without blanks, and one with a line for each item and field.
-/

namespace Workflow

/-- Floating-point numbers in JSON: no exponent from `10 ^ -5` to below `10 ^ 16`, whole numbers end
in `.0`, and a positive exponent has its sign. -/
def jsonFloat : FloatLayout := ⟨.toEven, fun e => -5 ≤ e && e < 16, true, true⟩

namespace Document

mutual

def toJson : Document → String
  | .null => "null"
  | .bool b => if b then "true" else "false"
  | .int n => Decimal.intText n
  | .float x => String.ofList (jsonFloat.chars x)
  | .string s => Text.quote s
  | .array items => "[" ++ ",".intercalate (itemsJson items) ++ "]"
  | .object fields => "\x7b" ++ ",".intercalate (fieldsJson fields) ++ "\x7d"

def itemsJson : List Document → List String
  | [] => []
  | item :: rest => item.toJson :: itemsJson rest

def fieldsJson : List (String × Document) → List String
  | [] => []
  | (name, value) :: rest => (Text.quote name ++ ":" ++ value.toJson) :: fieldsJson rest

end

/-- Texts between brackets, each on a line of its own, two columns further in. -/
def bracketed (opening closing : String) (depth : Nat) (texts : List String) : String :=
  if texts.isEmpty then opening ++ closing
  else
    opening ++ "\n" ++ spaces (depth + 2) ++ (",\n" ++ spaces (depth + 2)).intercalate texts ++
      "\n" ++ spaces depth ++ closing

mutual

/-- The text of a document over several lines, for a place `depth` columns in. -/
def toPrettyJson (depth : Nat) : Document → String
  | .null => "null"
  | .bool b => if b then "true" else "false"
  | .int n => Decimal.intText n
  | .float x => String.ofList (jsonFloat.chars x)
  | .string s => Text.quote s
  | .array items => bracketed "[" "]" depth (itemsPretty (depth + 2) items)
  | .object fields => bracketed "\x7b" "\x7d" depth (fieldsPretty (depth + 2) fields)

def itemsPretty (depth : Nat) : List Document → List String
  | [] => []
  | item :: rest => item.toPrettyJson depth :: itemsPretty depth rest

def fieldsPretty (depth : Nat) : List (String × Document) → List String
  | [] => []
  | (name, value) :: rest =>
    (Text.quote name ++ ": " ++ value.toPrettyJson depth) :: fieldsPretty depth rest

end

end Document

end Workflow
