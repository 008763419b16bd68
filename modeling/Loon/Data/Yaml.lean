import Loon.Data
import Loon.Data.Yaml.Scalar
import Loon.Number.Layout

namespace Loon.Data.Yaml

def numberLayout : Layout where
  tie := .even
  positional := some (-5, 15)
  pointZero := true
  exponentPlus := false
  nan := ".nan"
  infinity := ".inf"

def indentation (n : Nat) : String := String.ofList (blanks n)

def endsInBreak (text : String) : Bool := text.toList.getLast?.any isBreak

def lineEnd (text : String) : String := if endsInBreak text then "" else "\n"

def stack (indent : Nat) : List String → String
  | [] => ""
  | [text] => text
  | text :: rest => text ++ lineEnd text ++ indentation indent ++ stack indent rest

def isShortKey (key : String) : Bool := !isMultiline key.toList && Text.size key.toList ≤ 128

def keyText (indent : Nat) (key : String) : String :=
  let text := scalar (indent + 2) key
  if isShortKey key then text ++ ":" else "? " ++ text ++ lineEnd text ++ indentation indent ++ ":"

mutual

/-- The text after the colon or the dash of a level. A collection after a short key goes to the next
line, and after another mark it begins on the line itself. -/
def write (indent : Nat) (afterKey : Bool) : Data → String
  | .string text => " " ++ scalar (indent + 2) text
  | .integer n => " " ++ toString n
  | .float x => " " ++ numberLayout.write x
  | .bool b => if b then " true" else " false"
  | .null => " null"
  | .array [] => " []"
  | .array items =>
    if afterKey then "\n" ++ indentation indent ++ stack indent (writeItems indent items)
    else " " ++ stack (indent + 2) (writeItems (indent + 2) items)
  | .object [] => " \x7b\x7d"
  | .object entries =>
    (if afterKey then "\n" ++ indentation (indent + 2) else " ")
      ++ stack (indent + 2) (writeEntries (indent + 2) entries)

def writeItems (indent : Nat) : List Data → List String
  | [] => []
  | d :: rest => ("-" ++ write indent false d) :: writeItems indent rest

def writeEntries (indent : Nat) : List (String × Data) → List String
  | [] => []
  | (key, d) :: rest =>
    (keyText indent key ++ write indent (isShortKey key) d) :: writeEntries indent rest

end

def document : Data → String
  | .object (entry :: entries) => stack 0 (writeEntries 0 (entry :: entries))
  | .array (item :: items) => stack 0 (writeItems 0 (item :: items))
  | d => String.ofList ((write 0 false d).toList.drop 1)

end Loon.Data.Yaml

namespace Loon

def Data.toYaml (d : Data) : String :=
  let text := Data.Yaml.document d
  text ++ Data.Yaml.lineEnd text

def Analysis.toYaml (a : Analysis) : String := a.toData.toYaml

end Loon
