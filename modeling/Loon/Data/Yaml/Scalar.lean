import Loon.Data.Yaml.Plain

namespace Loon.Data.Yaml

def isBreak (c : Char) : Bool :=
  c == '\n' || c == '\r' || c == '\x85' || c == '\u2028' || c == '\u2029'

def isPrintable (c : Char) : Bool :=
  let n := c.toNat
  n == 0x0A || (0x20 ≤ n && n ≤ 0x7E) || (0xA0 ≤ n && n ≤ 0xFFFD && n != 0xFEFF) || 0x10000 ≤ n

def endsWord : Option Char → Bool
  | none => true
  | some c => c == ' ' || c == '\t' || c == '\x00' || isBreak c

def adjacent (p q : Char → Bool) : List Char → Bool
  | c :: d :: s => (p c && q d) || adjacent p q (d :: s)
  | _ => false

def leadingIndicators : List Char :=
  ['#', ',', '[', ']', '\x7b', '\x7d', '&', '*', '!', '|', '>', '\x27', '\x22', '%', '@', '\x60']

def beginsWithIndicator : List Char → Bool
  | [] => false
  | c :: s =>
    leadingIndicators.contains c || ((c == '?' || c == ':' || c == '-') && endsWord s.head?)

def holdsIndicator (previous : Char) : List Char → Bool
  | [] => false
  | c :: s =>
    (c == ':' && endsWord s.head?) || (c == '#' && endsWord (some previous)) || holdsIndicator c s

def hasIndicator (s : List Char) : Bool :=
  ['-', '-', '-'].isPrefixOf s || ['.', '.', '.'].isPrefixOf s || beginsWithIndicator s
    || match s with
      | [] => false
      | c :: rest => holdsIndicator c rest

def isBlankEnd (c : Char) : Bool := c == ' ' || isBreak c

def hasBlankBeforeBreak (s : List Char) : Bool := adjacent (· == ' ') isBreak s

def hasBlankAfterBreak (s : List Char) : Bool := adjacent isBreak (· == ' ') s

def isMultiline (s : List Char) : Bool := s.any isBreak

def allowsPlain (s : List Char) : Bool :=
  s.all isPrintable && !isMultiline s && !s.head?.any isBlankEnd && !s.getLast?.any isBlankEnd
    && !hasIndicator s

def allowsSingleQuotes (s : List Char) : Bool :=
  s.all isPrintable && !hasBlankBeforeBreak s && !hasBlankAfterBreak s

def allowsLiteral (s : List Char) : Bool :=
  s.all isPrintable && !hasBlankBeforeBreak s && !s.getLast?.any (· == ' ')

inductive Style
  | plain
  | singleQuoted
  | doubleQuoted
  | literal
deriving DecidableEq, Repr

/-- Text of several lines is literal. Other text is plain if it can be, and reads as a string. What
a style does not allow goes into single quotes if they allow it, or else into double ones. -/
def style (s : List Char) : Style :=
  if s.contains '\n' then if allowsLiteral s then .literal else .doubleQuoted
  else if !needsQuotes s && allowsPlain s then .plain
  else if allowsSingleQuotes s then .singleQuoted
  else .doubleQuoted

def blanks (n : Nat) : List Char := List.replicate n ' '

def indentLines (indent : Nat) (double : Char → List Char) (atStart : Bool) : List Char → List Char
  | [] => []
  | c :: s =>
    if isBreak c then c :: indentLines indent double true s
    else (if atStart then blanks indent else []) ++ double c ++ indentLines indent double false s

def singleQuoted (indent : Nat) (s : List Char) : List Char :=
  let body := indentLines indent (fun c => if c = '\x27' then [c, c] else [c]) false s
  '\x27' :: body ++ (if s.getLast?.any isBreak then blanks indent else []) ++ ['\x27']

def hexDigit (n : Nat) : Char := (Nat.digitChar n).toUpper

def hex (n : Nat) : (width : Nat) → List Char
  | 0 => []
  | width + 1 => hexDigit (n / 16 ^ width % 16) :: hex n width

def shortEscapes : List (Char × Char) :=
  [('\x00', '0'), ('\x07', 'a'), ('\x08', 'b'), ('\x09', 't'), ('\x0a', 'n'), ('\x0b', 'v'),
    ('\x0c', 'f'), ('\x0d', 'r'), ('\x1b', 'e'), ('\x22', '\x22'), ('\x5c', '\x5c'),
    ('\x85', 'N'), ('\u2028', 'L'), ('\u2029', 'P')]

def escapeCode (c : Char) : List Char :=
  match shortEscapes.lookup c with
  | some letter => [letter]
  | none =>
    if c.toNat ≤ 0xFF then 'x' :: hex c.toNat 2
    else if c.toNat ≤ 0xFFFF then 'u' :: hex c.toNat 4
    else 'U' :: hex c.toNat 8

def escape (c : Char) : List Char :=
  if !isPrintable c || isBreak c || c == '\x22' || c == '\x5c' then '\x5c' :: escapeCode c else [c]

def doubleQuoted (s : List Char) : List Char := '\x22' :: s.flatMap escape ++ ['\x22']

/-- How a literal block treats the breaks at its end: it drops the one that is not there, keeps one
without a mark, and keeps all with a mark. -/
def chomping (s : List Char) : List Char :=
  match s.reverse with
  | [] => ['-']
  | [c] => if isBreak c then ['+'] else ['-']
  | c :: d :: _ => if !isBreak c then ['-'] else if isBreak d then ['+'] else []

def literal (indent : Nat) (s : List Char) : List Char :=
  '|' :: (if s.head?.any isBlankEnd then ['2'] else []) ++ chomping s
    ++ '\n' :: indentLines indent (fun c => [c]) true s

def scalar (indent : Nat) (text : String) : String :=
  let s := text.toList
  String.ofList <|
    match style s with
    | .plain => s
    | .singleQuoted => singleQuoted indent s
    | .doubleQuoted => doubleQuoted s
    | .literal => literal indent s

end Loon.Data.Yaml
