import Loon.Document
import Loon.Fault

/-!
Following references. A walk over a value replaces every placeholder by what it resolves to, and
what it resolves to is found by the same walk over the label it names. The walks take the resolution
of one placeholder as a parameter, and `Document.dereferenceWithin` ties the knot: it refuses an
expression that is being followed already, so each round has one expression less to follow.

Nothing in a walk depends on how a run goes on or gives up, so the monad is a parameter too. A
document is resolved in `Except Error`.
-/

namespace Loon

abbrev Dereference (m : Type → Type) := Placeholder → m Value

variable {m : Type → Type} [Monad m]

structure Write where
  key : String
  merges : Bool
  value : Value
deriving Repr, Inhabited

namespace Write

def apply (m : Mapping Value) (w : Write) : Mapping Value :=
  match w.merges, w.value with
  | true, .mapping entries => Mapping.extend m entries
  | _, v => Mapping.insert m w.key v

def applyAll (ws : List Write) : Mapping Value := ws.foldl apply []

def supply? (w : Write) (key : String) : Option Value :=
  match w.merges, w.value with
  | true, .mapping entries => Mapping.get? entries key
  | _, v => if w.key = key then some v else none

theorem applyAll_append (ws : List Write) (w : Write) :
    applyAll (ws ++ [w]) = apply (applyAll ws) w := by
  simp [applyAll]

end Write

namespace Value

mutual

def resolve (deref : Dereference m) : Value → m Value
  | .placeholder p => deref p
  | .mapping entries => do return .mapping (Write.applyAll (← resolveEntries deref entries))
  | .list items => do return .list (← resolveItems deref items)
  | .string text => return .string text
  | .number x => return .number x
  | .bool b => return .bool b
  | .null => return .null

def resolveEntries (deref : Dereference m) : List (String × Value) → m (List Write)
  | [] => return []
  | (key, v) :: rest => do
    let w ← v.resolve deref
    return ⟨key, v.merges, w⟩ :: (← resolveEntries deref rest)

def resolveItems (deref : Dereference m) : List Value → m (List Value)
  | [] => return []
  | v :: rest => do
    let w ← v.resolve deref
    return w :: (← resolveItems deref rest)

end

def resolveMerge (deref : Dereference m) (v : Value) : m Value :=
  if v.merges then v.resolve deref else pure v

def resolveAlone (deref : Dereference m) : Value → m Value
  | .placeholder p => deref p
  | v => return v

end Value

def firstSupply (deref : Dereference m) (key : String) :
    List (String × Value) → m (Option Value)
  | [] => return none
  | (name, v) :: rest => do
    let w ← v.resolveMerge deref
    match Write.supply? ⟨name, v.merges, w⟩ key with
    | some found => return some found
    | none => firstSupply deref key rest

/-- The value under a key of a mapping that may still hold placeholders. Later entries win, so the
search goes backwards. -/
def Value.search (deref : Dereference m) (key : String) : Value → m (Option Value)
  | .mapping entries => firstSupply deref key entries.reverse
  | _ => return none

namespace Document

def danglingError (p : Placeholder) (name : String) : Error :=
  ⟨.dangling p.expr name, p.origin⟩

def cycleError (stack : List String) (p : Placeholder) : Error :=
  ⟨.referenceCycle (p.expr :: stack).reverse, p.origin⟩

def target (deref : Dereference m) (scope : Value) : Option String → m Value
  | none => scope.resolve deref
  | some field => do
    match ← scope.search deref field with
    | some v => v.resolve deref
    | none => return .null

variable [MonadExcept Error m]

/-- The scope of an address: the label, or a space of it. A space written as a reference is only
a pointer to the real one. -/
def scope (deref : Dereference m) (p : Placeholder) (label : Value) : Option String → m Value
  | none => return label
  | some space => do
    match ← label.search deref space with
    | some entry => entry.resolveAlone deref
    | none => throw (danglingError p space)

def dereferenceOnce (d : Document) (deref : Dereference m) (p : Placeholder) : m Value :=
  match Address.parse p.expr with
  | none => throw (danglingError p p.expr)
  | some a =>
    match d.find? a.label with
    | none => throw (danglingError p a.label)
    | some label => do target deref (← scope deref p label a.space) a.field

/-- Resolves a placeholder while the expressions on the stack, the latest first, are being followed.
When no round is left, every expression of the document is on it, the one at hand among them. -/
def dereferenceWithin (d : Document) :
    (rounds : Nat) → (stack : List String) → Dereference (Except Error)
  | 0, stack, p => .error (cycleError stack p)
  | rounds + 1, stack, p =>
    if stack.contains p.expr then .error (cycleError stack p)
    else d.dereferenceOnce (d.dereferenceWithin rounds (p.expr :: stack)) p

/-- The rounds that suffice: one for each placeholder in the document, and one for a placeholder
from outside it. -/
def rounds (d : Document) : Nat :=
  (Value.placeholdersOfEntries d.labels).length + (Value.placeholdersOfEntries d.hidden).length + 1

def dereference (d : Document) : Dereference (Except Error) := d.dereferenceWithin d.rounds []

def resolve (d : Document) (v : Value) : Except Error Value := v.resolve d.dereference

def resolveEach (d : Document) : Mapping Value → Except Error (Mapping Value)
  | [] => .ok []
  | (name, v) :: rest => do
    let w ← d.resolve v
    return (name, w) :: (← d.resolveEach rest)

def resolvedLabels (d : Document) : Except Error (Mapping Value) := d.resolveEach d.labels

end Document

end Loon
