import Loon.Data
import Loon.Number.Layout

namespace Loon.Data.Json

/-- Floats keep a point, and from `10 ^ 16` and below `10 ^ -5` take an exponent with its sign. JSON
has no words for what is not finite. -/
def numberLayout : Layout where
  tie := .even
  positional := some (-5, 15)
  pointZero := true
  exponentPlus := true
  nan := "null"
  infinity := "null"

def number (x : Double) : String := if x.isFinite then numberLayout.write x else "null"

def backslash : Char := '\x5c'

def hexPair (n : Nat) : List Char := [Nat.digitChar (n / 16 % 16), Nat.digitChar (n % 16)]

def escape (c : Char) : List Char :=
  if c = '\x22' then [backslash, '\x22']
  else if c = backslash then [backslash, backslash]
  else if c = '\n' then [backslash, 'n']
  else if c = '\t' then [backslash, 't']
  else if c = '\r' then [backslash, 'r']
  else if c = '\x08' then [backslash, 'b']
  else if c = '\x0c' then [backslash, 'f']
  else if c.toNat < 32 then [backslash, 'u', '0', '0'] ++ hexPair c.toNat
  else [c]

def quote (text : String) : String :=
  String.ofList ('\x22' :: text.toList.flatMap escape ++ ['\x22'])

def newline (depth : Nat) : String := "\n" ++ String.ofList (List.replicate (2 * depth) ' ')

def block (opening closing : String) (depth : Nat) (parts : List String) : String :=
  match parts with
  | [] => opening ++ closing
  | _ =>
    opening ++ newline (depth + 1) ++ String.intercalate ("," ++ newline (depth + 1)) parts
      ++ newline depth ++ closing

mutual

def write (depth : Nat) : Data → String
  | .string text => quote text
  | .integer n => toString n
  | .float x => number x
  | .bool b => if b then "true" else "false"
  | .null => "null"
  | .array items => block "[" "]" depth (writeItems (depth + 1) items)
  | .object entries => block "\x7b" "\x7d" depth (writeEntries (depth + 1) entries)

def writeItems (depth : Nat) : List Data → List String
  | [] => []
  | d :: rest => write depth d :: writeItems depth rest

def writeEntries (depth : Nat) : List (String × Data) → List String
  | [] => []
  | (key, d) :: rest => (quote key ++ ": " ++ write depth d) :: writeEntries depth rest

end

end Loon.Data.Json

namespace Loon

def Data.toJson (d : Data) : String := Data.Json.write 0 d

def Analysis.toJson (a : Analysis) : String := a.toData.toJson

end Loon
