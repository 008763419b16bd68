import Loon.Record
import Loon.Value

namespace Loon

structure Session where
  spaces : Mapping Value
  log : List Record
deriving Repr, Inhabited

namespace Session

def empty : Session := ⟨[], []⟩

def note (s : Session) (records : List Record) : Session := { s with log := s.log ++ records }

def register (s : Session) (name : String) (v : Value) : Session :=
  { s with spaces := Mapping.insert s.spaces name v }

def spaceClosed (s : Session) (name : String) (v : Value) : Session :=
  (s.note [.spaceClosed name v.kind]).register name v

@[simp] theorem spaces_note (s : Session) (records : List Record) :
    (s.note records).spaces = s.spaces := rfl

end Session

end Loon
