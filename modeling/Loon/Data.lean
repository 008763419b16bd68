import Loon.Analysis

namespace Loon

inductive Data
  | string (text : String)
  | integer (n : Int)
  | float (x : Double)
  | bool (b : Bool)
  | null
  | array (items : List Data)
  | object (entries : List (String × Data))
deriving Repr, Inhabited

/-- A whole number is an integer as long as its neighbours are told apart from it. -/
def Data.ofDouble (x : Double) : Data :=
  match x.toInteger? with
  | some n => .integer n
  | none => .float x

namespace Value

mutual

def toData : Value → Data
  | .string text => .string text
  | .number x => .ofDouble x
  | .bool b => .bool b
  | .null => .null
  | .list items => .array (toDataItems items)
  | .mapping entries => .object (toDataEntries entries)
  | .placeholder _ => .null

def toDataItems : List Value → List Data
  | [] => []
  | v :: rest => v.toData :: toDataItems rest

def toDataEntries : List (String × Value) → List (String × Data)
  | [] => []
  | (key, v) :: rest => (key, v.toData) :: toDataEntries rest

end

end Value

def Analysis.toData (a : Analysis) : Data := (Value.mapping a.labels).toData

end Loon
