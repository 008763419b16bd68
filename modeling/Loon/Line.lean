import Loon.Place
import Loon.Statement

namespace Loon

structure Line where
  statement : Statement
  text : String
  number : Nat
  start : Nat
deriving DecidableEq, Repr, Inhabited

namespace Line

def length (l : Line) : Nat := Text.size l.text.toList

def stop (l : Line) : Nat := l.start + l.length

def span (l : Line) : Span := ⟨l.start, l.length⟩

def isSignificant (text : List Char) : Bool := !text.isEmpty && text.head? != some '<'

def scan (offset number : Nat) : List (List Char) → List Line
  | [] => []
  | raw :: rest =>
    let text := Text.trim raw
    let later := scan (offset + Text.size raw) (number + 1) rest
    if isSignificant text then
      { statement := Statement.ofChars text
        text := String.ofList text
        number
        start := offset + (Text.size raw - Text.size (Text.trimStart raw)) } :: later
    else later

end Line

def Source.lines (s : Source) : List Line := Line.scan 0 1 (Text.lines s.text.toList)

end Loon
