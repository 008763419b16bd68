import Loon.Value
import Loon.Number.Layout

namespace Loon.Value

def numberLayout : Layout where
  tie := .up
  positional := none
  pointZero := false
  exponentPlus := false
  nan := "NaN"
  infinity := "inf"

mutual

def text : Value → String
  | .string s => s
  | .number x => numberLayout.write x
  | .bool b => if b then "true" else "false"
  | .null => "null"
  | .mapping entries => "\x7b" ++ String.intercalate ", " (entryTexts entries) ++ "\x7d"
  | .list items => "[" ++ String.intercalate ", " (itemTexts items) ++ "]"
  | .placeholder p => "[" ++ p.expr ++ "]"

def entryTexts : List (String × Value) → List String
  | [] => []
  | (key, v) :: rest => (key ++ ": " ++ v.text) :: entryTexts rest

def itemTexts : List Value → List String
  | [] => []
  | v :: rest => v.text :: itemTexts rest

end

end Loon.Value
