import Loon.Number.Decimal
import Loon.Text

namespace Loon.Data.Yaml

def nullWords : List String := ["", "null", "Null", "NULL", "~"]

def boolWords : List String := ["true", "True", "TRUE", "false", "False", "FALSE"]

def nonFiniteWords : List String :=
  [".inf", ".Inf", ".INF", "+.inf", "+.Inf", "+.INF", "-.inf", "-.Inf", "-.INF",
    ".nan", ".NaN", ".NAN"]

def dropSign (marks : List Char) : List Char → List Char
  | [] => []
  | c :: s => if marks.contains c then s else c :: s

def hasLeadingZero (s : List Char) : Bool :=
  match dropSign ['+', '-'] s with
  | '0' :: d :: ds => (d :: ds).all Char.isDigit
  | _ => false

def digitValue (c : Char) : Nat :=
  if c.isDigit then c.toNat - 48
  else if 'a' ≤ c ∧ c ≤ 'f' then c.toNat - 87
  else if 'A' ≤ c ∧ c ≤ 'F' then c.toNat - 55
  else 16

def readDigits (base : Nat) (s : List Char) : Option Nat :=
  if !s.isEmpty && s.all fun c => digitValue c < base then
    some (s.foldl (fun n c => base * n + digitValue c) 0)
  else none

def bases : List (List Char × Nat) := [(['0', 'x'], 16), (['0', 'o'], 8), (['0', 'b'], 2)]

def readNatural (s : List Char) : Option Nat :=
  let marked := bases.findSome? fun (mark, base) => (Text.after mark s).bind (readDigits base)
  marked <|> if hasLeadingZero s then none else readDigits 10 s

def readsAsInteger (s : List Char) : Bool :=
  match s with
  | '-' :: s => (readNatural s).any fun n => n ≤ Nat.pow 2 127
  | s => (readNatural (dropSign ['+'] s)).any fun n => n < Nat.pow 2 128

def readsAsFloat (s : List Char) : Bool :=
  nonFiniteWords.contains (String.ofList s) || (Numeral.toDouble? s).isSome

def needsQuotes (s : List Char) : Bool :=
  let word := String.ofList s
  nullWords.contains word || boolWords.contains word || readsAsInteger s || hasLeadingZero s
    || readsAsFloat s

end Loon.Data.Yaml
