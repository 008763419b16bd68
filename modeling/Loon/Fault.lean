import Loon.Value

namespace Loon

inductive Construct
  | label
  | space
deriving DecidableEq, Repr

inductive Keyed
  | pair
  | injection
deriving DecidableEq, Repr

inductive Obstacle
  | extension
  | missing
deriving DecidableEq, Repr

inductive ReadFailure
  | notFound
  | notFolder
  | isFolder
  | notText
deriving DecidableEq, Repr

inductive Fault
  | noOpenLabel (construct : String)
  | noOpenSpace
  | unclosedLabel (name : String)
  | unclosedSpace (name : String)
  | nestedSpace (name outer : String)
  | invalidName (construct : Construct) (name : String)
  | missingKey
  | malformedReference (reference : String)
  | mixedContainer (space : String) (attempted : Keyed)
  | notFound (reference name : String)
  | dangling (reference name : String)
  | aliasTargetNotFound (target name : String)
  | referenceCycle (chain : List String)
  | invalidInjection (reference : String) (found : Kind) (label : String)
  | invalidTarget (target : String) (obstacle : Obstacle)
  | importCycle (chain : List String)
  | invalidEntryFile (path : String)
  | unreadable (path : String) (failure : ReadFailure)
deriving DecidableEq, Repr

def Construct.name : Construct → String
  | .label => "label"
  | .space => "space"

def Keyed.name : Keyed → String
  | .pair => "key-value"
  | .injection => "structured injection"

def Obstacle.message : Obstacle → String
  | .extension => "imported files must have the .loon extension"
  | .missing => "file does not exist"

def ReadFailure.message : ReadFailure → String
  | .notFound => "No such file or directory (os error 2)"
  | .notFolder => "Not a directory (os error 20)"
  | .isFolder => "Is a directory (os error 21)"
  | .notText => "stream did not contain valid UTF-8"

namespace Fault

def chainText (links : List String) : String := String.intercalate " -> " links

def message : Fault → String
  | noOpenLabel construct => s!"`{construct}` used outside of a label"
  | noOpenSpace => "`end:` without an open space"
  | unclosedLabel name => s!"Label '{name}' is never closed"
  | unclosedSpace name => s!"Space '{name}' is never closed"
  | nestedSpace name outer => s!"Cannot open space '{name}' inside space '{outer}'"
  | invalidName construct name => s!"Invalid {construct.name} name '{name}'"
  | missingKey => "Assignment without a key"
  | malformedReference reference => s!"Malformed reference '{reference}'"
  | mixedContainer space attempted => s!"Cannot mix {attempted.name} with list in space '{space}'"
  | notFound reference name => s!"Reference '{reference}' not found: '{name}' does not exist"
  | dangling reference name =>
    s!"Reference '[{reference}]' could not be resolved: '{name}' does not exist"
  | aliasTargetNotFound target name =>
    s!"Alias target '{target}' not found: '{name}' does not exist"
  | referenceCycle chain =>
    "Reference cycle detected: " ++ chainText (chain.map fun expr => "[" ++ expr ++ "]")
  | invalidInjection reference found label =>
    s!"Cannot inject {found.name} '{reference}' directly into label '{label}'"
  | invalidTarget target obstacle => s!"Invalid import target '{target}': {obstacle.message}"
  | importCycle chain => "Import cycle detected: " ++ chainText chain
  | invalidEntryFile path => s!"Input file '{path}' must be a .loon file"
  | unreadable path failure => s!"Failed to read '{path}': {failure.message}"

def code : Fault → String
  | noOpenLabel _ => "loon::syntax::no_open_label"
  | noOpenSpace => "loon::syntax::no_open_space"
  | unclosedLabel _ => "loon::syntax::unclosed_label"
  | unclosedSpace _ => "loon::syntax::unclosed_space"
  | nestedSpace _ _ => "loon::syntax::nested_space"
  | invalidName _ _ => "loon::syntax::invalid_name"
  | missingKey => "loon::syntax::missing_key"
  | malformedReference _ => "loon::syntax::malformed_reference"
  | mixedContainer _ _ => "loon::space::mixed_container"
  | notFound _ _ => "loon::reference::not_found"
  | dangling _ _ => "loon::reference::dangling"
  | aliasTargetNotFound _ _ => "loon::reference::alias_target_not_found"
  | referenceCycle _ => "loon::reference::cycle"
  | invalidInjection _ _ _ => "loon::reference::invalid_injection"
  | invalidTarget _ _ => "loon::import::invalid_target"
  | importCycle _ => "loon::import::cycle"
  | invalidEntryFile _ => "loon::import::invalid_entry_file"
  | unreadable _ _ => "loon::import::io"

def help? : Fault → Option String
  | noOpenLabel _ => some "Open a label with `(name)` or `%(name)` before this line."
  | noOpenSpace => some "A space is opened with `:name` inside a label body."
  | unclosedLabel _ =>
    some "Close the label with `end` before opening another one or ending the file."
  | unclosedSpace _ => some "Close the space with `end:` before closing its label."
  | nestedSpace _ outer => some s!"Spaces do not nest. Close '{outer}' with `end:` first."
  | invalidName _ _ =>
    some "Names must be non-empty and may not contain whitespace or any of ()[]:.=@$%&<"
  | missingKey => some "Assignments are written as `key = value`."
  | malformedReference _ =>
    some "References have the form `label`, `label.field`, `label:space` or `label:space.field`."
  | mixedContainer _ _ =>
    some "A space that already holds a list only accepts bare values and value-only injections."
  | notFound _ _ => some "Injected labels must be closed with `end` before the `->` line."
  | dangling _ name =>
    some s!"Define '{name}' somewhere in this document or in one of its imports."
  | aliasTargetNotFound _ name =>
    some s!"`$key` aliases are resolved immediately; declare '{name}' before this line."
  | referenceCycle _ => some "A reference may not (directly or indirectly) resolve to itself."
  | invalidInjection _ _ _ =>
    some "Inject it without `&` so it is stored under its own name, or inject it inside a space."
  | invalidTarget _ _ =>
    some "Imports must name an existing `.loon` file, relative to the importing file."
  | importCycle _ => some "Files may not import themselves, directly or through other files."
  | invalidEntryFile _ => none
  | unreadable _ _ => none

def label? : Fault → Option String
  | noOpenLabel _ => some "no label is open here"
  | noOpenSpace => some "nothing to close"
  | unclosedLabel _ => some "label opened here"
  | unclosedSpace _ => some "space opened here"
  | nestedSpace _ outer => some s!"space '{outer}' is still open"
  | invalidName _ _ => some "invalid name"
  | missingKey => some "expected a key before `=`"
  | malformedReference _ => some "cannot parse this reference"
  | mixedContainer space _ => some s!"space '{space}' is already a list"
  | notFound _ name => some s!"'{name}' is not defined at this point"
  | dangling _ name => some s!"'{name}' is not defined anywhere"
  | aliasTargetNotFound _ _ => some "alias target is not defined at this point"
  | referenceCycle _ => some "this reference closes the cycle"
  | invalidInjection _ found _ => some s!"value-only injection of a {found.name}"
  | invalidTarget _ _ => some "imported here"
  | importCycle _ => some "this import closes the cycle"
  | invalidEntryFile _ => none
  | unreadable _ _ => none

end Fault

structure Error where
  fault : Fault
  place : Option Place
deriving DecidableEq, Repr

def Error.message (e : Error) : String := e.fault.message

end Loon
