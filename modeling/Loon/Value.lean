import Loon.Mapping
import Loon.Number.Double
import Loon.Place

namespace Loon

/-- A reference as written. It merges when it stands alone in the body of a label. The origin only
serves messages. -/
structure Placeholder where
  expr : String
  merge : Bool := false
  origin : Option Place := none
deriving DecidableEq, Repr, Inhabited

inductive Value
  | string (text : String)
  | number (x : Double)
  | bool (b : Bool)
  | null
  | mapping (entries : List (String × Value))
  | list (items : List Value)
  | placeholder (p : Placeholder)
deriving Repr, Inhabited

inductive Kind
  | string
  | number
  | boolean
  | null
  | mapping
  | list
  | reference
deriving DecidableEq, Repr

def Kind.name : Kind → String
  | .string => "string"
  | .number => "number"
  | .boolean => "boolean"
  | .null => "null"
  | .mapping => "mapping"
  | .list => "list"
  | .reference => "reference"

namespace Value

def kind : Value → Kind
  | .string _ => .string
  | .number _ => .number
  | .bool _ => .boolean
  | .null => .null
  | .mapping _ => .mapping
  | .list _ => .list
  | .placeholder _ => .reference

def get? : Value → String → Option Value
  | .mapping entries, key => Mapping.get? entries key
  | _, _ => none

def string? : Value → Option String
  | .string text => some text
  | _ => none

def number? : Value → Option Double
  | .number x => some x
  | _ => none

def bool? : Value → Option Bool
  | .bool b => some b
  | _ => none

def list? : Value → Option (List Value)
  | .list items => some items
  | _ => none

def mapping? : Value → Option (Mapping Value)
  | .mapping entries => some entries
  | _ => none

def merges : Value → Bool
  | .placeholder p => p.merge
  | _ => false

mutual

def placeholders : Value → List Placeholder
  | .placeholder p => [p]
  | .mapping entries => placeholdersOfEntries entries
  | .list items => placeholdersOfItems items
  | _ => []

def placeholdersOfEntries : List (String × Value) → List Placeholder
  | [] => []
  | (_, v) :: rest => v.placeholders ++ placeholdersOfEntries rest

def placeholdersOfItems : List Value → List Placeholder
  | [] => []
  | v :: rest => v.placeholders ++ placeholdersOfItems rest

end

def hasPlaceholder (v : Value) : Bool := !v.placeholders.isEmpty

mutual

/-- Equality of values: mappings compare without their order, numbers as numbers, and placeholders
without their origin. -/
def equal : Value → Value → Bool
  | .string a, .string b => a == b
  | .number x, .number y => x.equal y
  | .bool a, .bool b => a == b
  | .null, .null => true
  | .mapping as, .mapping bs => as.length == bs.length && allEntriesIn as bs
  | .list as, .list bs => equalItems as bs
  | .placeholder p, .placeholder q => p.expr == q.expr && p.merge == q.merge
  | _, _ => false

def allEntriesIn : List (String × Value) → List (String × Value) → Bool
  | [], _ => true
  | (k, v) :: rest, bs =>
    match Mapping.get? bs k with
    | some w => v.equal w && allEntriesIn rest bs
    | none => false

def equalItems : List Value → List Value → Bool
  | [], [] => true
  | a :: as, b :: bs => a.equal b && equalItems as bs
  | _, _ => false

end

end Value

end Loon
