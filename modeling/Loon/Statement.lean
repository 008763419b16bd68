import Loon.Text

namespace Loon

inductive Statement
  | openLabel (name : String) (hidden : Bool)
  | openSpace (name : String)
  | closeSpace
  | closeLabel
  | assign (key value : String)
  | importFile (target : String)
  | inject (target : String) (valueOnly : Bool)
  | item (text : String)
deriving DecidableEq, Repr, Inhabited

namespace Statement

def labelOf (s : List Char) : Option Statement :=
  match Text.before ')' s with
  | none => none
  | some inner =>
    match Text.after ['%', '('] inner with
    | some name => some (.openLabel (String.ofList name) true)
    | none =>
      match Text.after ['('] inner with
      | some name => some (.openLabel (String.ofList name) false)
      | none => none

def injectionOf (s : List Char) : Statement :=
  let target := Text.trim s
  match Text.before '&' target with
  | some target => .inject (String.ofList (Text.trim target)) true
  | none => .inject (String.ofList target) false

/-- The first rule that fits decides: a label `(name)`, or `%(name)` for a hidden one, a space `:name`, its
end, the end of the label, an assignment cut at its first `=`, an import `@target`, an injection
`-> target`, or `-> target&` for the value alone, and else an item. -/
def ofChars (s : List Char) : Statement :=
  match labelOf s with
  | some statement => statement
  | none =>
    match Text.after [':'] s with
    | some name => .openSpace (String.ofList (Text.trim name))
    | none =>
      if s = ['e', 'n', 'd', ':'] then .closeSpace
      else if s = ['e', 'n', 'd'] then .closeLabel
      else
        match Text.cut '=' s with
        | some (key, value) =>
          .assign (String.ofList (Text.trim key)) (String.ofList (Text.trim value))
        | none =>
          match Text.after ['@'] s with
          | some target => .importFile (String.ofList (Text.trim target))
          | none =>
            match Text.after ['-', '>'] s with
            | some target => injectionOf target
            | none => .item (String.ofList s)

def ofText (text : String) : Statement := ofChars text.toList

end Statement

end Loon
