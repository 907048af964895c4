import Workflow.Document.Fields
import Workflow.Number.Basic

/-!
# Documents

A document is a tree of values: what a program is compiled into, and what an error is reported as.
Objects keep the order of their fields. A document has no infinite and no undefined number: `null`
stands for them.
-/

namespace Workflow

inductive Document where
  | null
  | bool (value : Bool)
  | int (value : Int)
  | float (value : Binary64)
  | string (value : String)
  | array (items : List Document)
  | object (fields : List (String × Document))

def Number.toDocument : Number → Document
  | .int n => .int n.toInt
  | .float x => if x.isFinite then .float x else .null

namespace Document

def single (name : String) (value : Document) : Document := .object [(name, value)]

def ofNat (n : Nat) : Document := .int n

def spaces (n : Nat) : String := String.ofList (List.replicate n ' ')

def isArray : Document → Bool
  | .array _ => true
  | _ => false

end Document

end Workflow
