import Loon.Address
import Loon.Fault
import Loon.Space
import Loon.Value.Text

namespace Loon

/-- A step in the making of a label: it writes a key, merges a mapping, or, for a value standing
alone, writes its text as a key without a value. -/
inductive BodyItem
  | entry (key : String) (v : Value)
  | merge (entries : List (String × Value))
  | bare (v : Value)
deriving Repr, Inhabited

namespace BodyItem

def apply (m : Mapping Value) : BodyItem → Mapping Value
  | entry key v => Mapping.insert m key v
  | merge entries => Mapping.extend m entries
  | bare v => Mapping.insert m v.text .null

def fold (items : List BodyItem) : Mapping Value := items.foldl apply []

@[simp] theorem fold_nil : fold [] = [] := rfl

theorem fold_append (items : List BodyItem) (item : BodyItem) :
    fold (items ++ [item]) = apply (fold items) item := by
  simp [fold]

end BodyItem

inductive Insertion
  | pair (key : String) (v : Value)
  | item (v : Value)
  | merge (entries : List (String × Value))
deriving Repr, Inhabited

namespace Insertion

def keyOf (p : Placeholder) : String :=
  match Address.parse p.expr with
  | some a => a.name
  | none => p.expr

/-- In the body of a label itself a reference standing alone merges its target. -/
def bodyItem : Insertion → BodyItem
  | pair key v => .entry key v
  | merge entries => .merge entries
  | item (.placeholder p) => .entry (keyOf p) (.placeholder { p with merge := true })
  | item (.mapping entries) => .merge entries
  | item v => .bare v

def put (content : Space) : Insertion → Except Keyed Space
  | pair key v =>
    match content.insert key v with
    | some content => .ok content
    | none => .error .pair
  | merge entries =>
    match content.merge entries with
    | some content => .ok content
    | none => .error .injection
  | item v => .ok (content.push v)

end Insertion

structure OpenSpace where
  name : String
  content : Space
  openedAt : Place
deriving Repr, Inhabited

structure OpenLabel where
  name : String
  hidden : Bool
  items : List BodyItem
  space : Option OpenSpace
  openedAt : Place
deriving Repr, Inhabited

namespace OpenLabel

def put (l : OpenLabel) (here : Place) (insertion : Insertion) : Except Error OpenLabel :=
  match l.space with
  | none => .ok { l with items := l.items ++ [insertion.bodyItem] }
  | some space =>
    match insertion.put space.content with
    | .ok content => .ok { l with space := some { space with content } }
    | .error attempted => .error ⟨.mixedContainer space.name attempted, some here⟩

/-- Puts the labels of an imported document, as one mapping, into the open space, or else under the
name of the label itself. -/
def enclose (l : OpenLabel) (labels : Mapping Value) : OpenLabel :=
  match l.space with
  | none => { l with items := l.items ++ [.entry l.name (.mapping labels)] }
  | some space =>
    { l with space := some { space with content := space.content.push (.mapping labels) } }

end OpenLabel

end Loon
