import Loon.Body
import Loon.Document
import Loon.Line
import Loon.Record
import Loon.Token

/-!
A document in the making: the labels closed so far and the label that is open. Each statement is
a step from draft to draft, or an error, which changes nothing.
-/

namespace Loon

structure Draft where
  document : Document
  current : Option OpenLabel
deriving Repr, Inhabited

namespace Draft

def empty : Draft := ⟨.empty, none⟩

structure Site where
  place : Place
  text : String

def Site.error (site : Site) (fault : Fault) : Error := ⟨fault, some site.place⟩

def enclosing (d : Draft) (site : Site) : Except Error OpenLabel :=
  match d.current with
  | some label => .ok label
  | none => .error (site.error (.noOpenLabel site.text))

def requireName (site : Site) (construct : Construct) (name : String) : Except Error Unit :=
  if Name.isValid name.toList then .ok () else .error (site.error (.invalidName construct name))

def requireAddress (site : Site) (expr : String) : Except Error Address :=
  match Address.parse expr with
  | some a => .ok a
  | none => .error (site.error (.malformedReference expr))

def beginLabel (d : Draft) (site : Site) (name : String) (hidden : Bool) : Except Error Draft :=
  match d.current with
  | some label => .error ⟨.unclosedLabel label.name, some label.openedAt⟩
  | none => do
    requireName site .label name
    return { d with current := some ⟨name, hidden, [], none, site.place⟩ }

def beginSpace (d : Draft) (site : Site) (name : String) : Except Error Draft := do
  let label ← d.enclosing site
  match label.space with
  | some space => .error ⟨.nestedSpace name space.name, some space.openedAt⟩
  | none => do
    requireName site .space name
    return { d with current := some { label with space := some ⟨name, .empty, site.place⟩ } }

def endSpace (d : Draft) (site : Site) : Except Error (Draft × String × Value) :=
  match d.current with
  | none => .error (site.error .noOpenSpace)
  | some label =>
    match label.space with
    | none => .error (site.error .noOpenSpace)
    | some space =>
      let v := space.content.value
      let items := label.items ++ [.entry space.name v]
      .ok ({ d with current := some { label with items, space := none } }, space.name, v)

def closingRecords (d : Document) (label : OpenLabel) (body : Mapping Value) : List Record :=
  .labelDefined label.name label.hidden body.length ::
    if d.defines label.name then [.labelRedefined label.name] else []

def endLabel (d : Draft) (site : Site) : Except Error (Draft × List Record) := do
  let label ← d.enclosing site
  match label.space with
  | some space => .error ⟨.unclosedSpace space.name, some space.openedAt⟩
  | none =>
    let body := BodyItem.fold label.items
    .ok (⟨d.document.define label.name label.hidden body, none⟩,
      closingRecords d.document label body)

def put (d : Draft) (site : Site) (insertion : Insertion) : Except Error Draft := do
  let label ← d.enclosing site
  let label ← label.put site.place insertion
  return { d with current := some label }

def readValue (site : Site) (token : String) : Except Error Value :=
  match Value.ofToken token with
  | .placeholder p => do
    let _ ← requireAddress site p.expr
    return .placeholder { p with origin := some site.place }
  | v => .ok v

def keyOfAlias (d : Draft) (site : Site) (expr : String) : Except Error String := do
  let a ← requireAddress site expr
  match d.document.lookup a with
  | .ok (some _) => .ok a.name
  | .ok none => .error (site.error (.aliasTargetNotFound expr a.name))
  | .error name => .error (site.error (.aliasTargetNotFound expr name))

def readKey (d : Draft) (site : Site) (key : String) : Except Error String :=
  match Text.after ['$'] key.toList with
  | some expr => d.keyOfAlias site (String.ofList (Text.trim expr))
  | none => .ok key

def setKey (d : Draft) (site : Site) (key token : String) : Except Error Draft := do
  let _ ← d.enclosing site
  if key.isEmpty then .error (site.error .missingKey)
  else do
    let key ← d.readKey site key
    let v ← readValue site token
    d.put site (.pair key v)

def addItem (d : Draft) (site : Site) (token : String) : Except Error Draft := do
  let v ← readValue site token
  d.put site (.item v)

def injected (d : Draft) (site : Site) (target : String) (a : Address) : Except Error Value :=
  match d.document.lookup a with
  | .ok (some v) => .ok v
  | .ok none => .error (site.error (.notFound target a.name))
  | .error name => .error (site.error (.notFound target name))

def fitsBody : Value → Bool
  | .list _ => false
  | .null => false
  | _ => true

def copyIn (d : Draft) (site : Site) (target : String) (valueOnly : Bool) :
    Except Error Draft := do
  let label ← d.enclosing site
  let a ← requireAddress site target
  let v ← d.injected site target a
  if valueOnly then
    if label.space.isNone && !fitsBody v then
      .error (site.error (.invalidInjection target v.kind label.name))
    else d.put site (.item v)
  else d.put site (.merge [(a.name, v)])

def takeIn (d : Draft) (target : String) (other : Document) : Draft × List Record :=
  match d.current with
  | none =>
    ({ d with document := d.document.adopt other },
      (d.document.overwritten other.labels).map (.labelOverwritten target))
  | some label =>
    (⟨d.document.enclose other, some (label.enclose other.labels)⟩, [])

def finish (d : Draft) : Except Error Document :=
  match d.current with
  | none => .ok d.document
  | some label =>
    match label.space with
    | some space => .error ⟨.unclosedSpace space.name, some space.openedAt⟩
    | none => .error ⟨.unclosedLabel label.name, some label.openedAt⟩

end Draft

end Loon
