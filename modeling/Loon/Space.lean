import Loon.Value

namespace Loon

/-- What a space has gathered. The first thing put in decides whether it is a mapping or a list, and an
item put into a mapping turns it into a list for good. -/
inductive Space
  | empty
  | mapping (entries : List (String × Value))
  | list (items : List Value)
deriving Repr, Inhabited

namespace Space

def insert : Space → String → Value → Option Space
  | empty, key, v => some (mapping [(key, v)])
  | mapping entries, key, v => some (mapping (Mapping.insert entries key v))
  | list _, _, _ => none

def merge : Space → Mapping Value → Option Space
  | empty, new => some (mapping new)
  | mapping entries, new => some (mapping (Mapping.extend entries new))
  | list _, _ => none

def single (entry : String × Value) : Value := .mapping [entry]

def push : Space → Value → Space
  | empty, v => list [v]
  | mapping entries, v => list (entries.map single ++ [v])
  | list items, v => list (items ++ [v])

def isList : Space → Bool
  | list _ => true
  | _ => false

def value : Space → Value
  | empty => .null
  | mapping entries => .mapping entries
  | list items => .list items

end Space

end Loon
