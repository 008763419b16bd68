import Loon.Fault

namespace Loon

inductive Level
  | warn
  | debug
deriving DecidableEq, Repr

def Level.name : Level → String
  | .warn => "WARN"
  | .debug => "DEBUG"

inductive Record
  | spaceClosed (name : String) (kind : Kind)
  | labelDefined (name : String) (hidden : Bool) (keys : Nat)
  | labelRedefined (name : String)
  | importStarted (path : String)
  | importFinished (target : String) (visible hidden : Nat)
  | labelOverwritten (target name : String)
  | parsed (visible hidden : Nat)
  | resolving (labels : Nat)
  | spaceLeftOut (name : String) (error : Error)
deriving DecidableEq, Repr

namespace Record

def level : Record → Level
  | labelRedefined _ => .warn
  | labelOverwritten _ _ => .warn
  | spaceLeftOut _ _ => .warn
  | _ => .debug

def visibility (hidden : Bool) : String := if hidden then "hidden" else "visible"

def message : Record → String
  | spaceClosed name kind => s!"Closed space '{name}' as {kind.name}"
  | labelDefined name hidden keys => s!"Committed {visibility hidden} label '{name}' ({keys} keys)"
  | labelRedefined name => s!"Label '{name}' is defined more than once; the last definition wins"
  | importStarted path => s!"Importing {path}"
  | importFinished target visible hidden =>
    s!"Imported {visible} visible and {hidden} hidden label(s) from {target}"
  | labelOverwritten target name => s!"Import of '{target}' overwrites label '{name}'"
  | parsed visible hidden =>
    s!"Parsed {visible} visible and {hidden} hidden label(s); resolving references"
  | resolving labels => s!"Resolving references in {labels} label(s)"
  | spaceLeftOut name error => s!"Space '{name}' left out of the registry: {error.message}"

end Record

end Loon
