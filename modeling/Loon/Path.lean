import Loon.Text

namespace Loon

abbrev Location := List String

structure Path where
  text : String
  rooted : Bool
  parts : List String
deriving DecidableEq, Repr, Inhabited

namespace Path

def pieces (text : String) : List String := (Text.pieces '/' text.toList).map String.ofList

def isIdle (piece : String) : Bool := piece == "" || piece == "."

def isRooted (text : String) : Bool := text.toList.head? == some '/'

def ofText (text : String) : Path where
  text
  rooted := isRooted text
  parts := (pieces text).filter fun piece => !isIdle piece

def ofLocation (l : Location) : Path where
  text := if l.isEmpty then "/" else String.join (l.map fun name => "/" ++ name)
  rooted := true
  parts := l

def isAt (p : Path) (l : Location) : Bool := p.rooted && p.parts == l

@[simp] theorem isAt_ofLocation (l : Location) : (ofLocation l).isAt l = true := by
  simp [isAt, ofLocation]

def extensionOf (name : List Char) : Option (List Char) :=
  match Text.cut '.' name.reverse with
  | some (ext, stem) => if stem.isEmpty then none else some ext.reverse
  | none => none

def extension (p : Path) : Option (List Char) :=
  match p.parts.getLast? with
  | some ".." => none
  | some name => extensionOf name.toList
  | none => none

def isLoonFile (text : String) : Bool := (ofText text).extension == some ['l', 'o', 'o', 'n']

def joinText (folder text : String) : String :=
  if isRooted text then text
  else if folder.isEmpty || folder.toList.getLast? == some '/' then folder ++ text
  else folder ++ "/" ++ text

end Path

end Loon
