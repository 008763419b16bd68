import Loon.Name

namespace Loon

/-- What a reference names: a label, a space of a label, or a field of either. Written `label`,
`label:space`, `label.field` and `label:space.field`, with blanks around the parts as one likes. -/
structure Address where
  label : String
  space : Option String
  field : Option String
deriving DecidableEq, Repr, Inhabited

namespace Address

def part (s : List Char) : Option String :=
  let name := Text.trim s
  if Name.isValid name then some (String.ofList name) else none

def optionalPart : Option (List Char) → Option (Option String)
  | none => some none
  | some s => (part s).map some

def split (mark : Char) (s : List Char) : List Char × Option (List Char) :=
  match Text.cut mark s with
  | some (a, b) => (a, some b)
  | none => (s, none)

/-- Reads an address. A mark too many ends up inside a part, which is then no name. -/
def ofChars (s : List Char) : Option Address :=
  let (scope, field) := split '.' (Text.trim s)
  let (label, space) := split ':' scope
  match part label, optionalPart space, optionalPart field with
  | some label, some space, some field => some ⟨label, space, field⟩
  | _, _, _ => none

def parse (s : String) : Option Address := ofChars s.toList

def name (a : Address) : String := (a.field <|> a.space).getD a.label

end Address

end Loon
