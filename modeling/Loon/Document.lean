import Loon.Address
import Loon.Value

/-!
Documents before their references are followed: the visible labels, which make up the result, and
the hidden ones, which only references see.
-/

namespace Loon

structure Document where
  labels : Mapping Value
  hidden : Mapping Value
deriving Repr, Inhabited

namespace Document

def empty : Document := ⟨[], []⟩

/-- The label of a name. A hidden label stands before a visible one of the same name. -/
def find? (d : Document) (name : String) : Option Value :=
  Mapping.get? d.hidden name <|> Mapping.get? d.labels name

def defines (d : Document) (name : String) : Bool :=
  Mapping.contains d.labels name || Mapping.contains d.hidden name

def fieldOf (scope : Value) : Option String → Option Value
  | some field => scope.get? field
  | none => some scope

/-- Looks up what an address names, following no reference. The error is the label or space that is
missing; a missing field is no error. -/
def lookup (d : Document) (a : Address) : Except String (Option Value) :=
  match d.find? a.label with
  | none => .error a.label
  | some label =>
    match a.space with
    | none => .ok (fieldOf label a.field)
    | some space =>
      match label.get? space with
      | none => .error space
      | some scope => .ok (fieldOf scope a.field)

def define (d : Document) (name : String) (hidden : Bool) (body : Mapping Value) : Document :=
  if hidden then
    { labels := Mapping.erase d.labels name
      hidden := Mapping.insert d.hidden name (.mapping body) }
  else
    { labels := Mapping.insert d.labels name (.mapping body)
      hidden := Mapping.erase d.hidden name }

/-- Takes in a visible label of another document. A hidden label of its name gives way, unless
a visible one is there to be replaced. -/
def adoptLabel (d : Document) (name : String) (v : Value) : Document :=
  { labels := Mapping.insert d.labels name v
    hidden :=
      if Mapping.contains d.labels name then d.hidden else Mapping.erase d.hidden name }

def adopt (d other : Document) : Document :=
  let d := other.labels.foldl (fun d entry => d.adoptLabel entry.1 entry.2) d
  { d with hidden := Mapping.extend d.hidden other.hidden }

def enclose (d other : Document) : Document :=
  { d with hidden := Mapping.extend (Mapping.extend d.hidden other.labels) other.hidden }

def overwritten : Document → Mapping Value → List String
  | _, [] => []
  | d, (name, v) :: rest =>
    let later := overwritten (d.adoptLabel name v) rest
    if d.defines name then name :: later else later

end Document

end Loon
