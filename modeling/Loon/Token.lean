import Loon.Text
import Loon.Value
import Loon.Number.Decimal

namespace Loon.Token

def lower (s : List Char) : List Char := s.map Char.toLower

def truth? (s : List Char) : Option Bool :=
  let word := lower s
  if word = ['t', 'r', 'u', 'e'] then some true
  else if word = ['f', 'a', 'l', 's', 'e'] then some false
  else none

def quoted? (s : List Char) : Option (List Char) :=
  Text.between '\x22' '\x22' s <|> Text.between '\x27' '\x27' s

/-- The first rule that fits decides: a reference in brackets, a quoted string, a truth value, a finite
number, and else the token itself as a string. -/
def value (s : List Char) : Value :=
  let token := Text.trim s
  match Text.between '[' ']' token with
  | some expr => .placeholder { expr := String.ofList (Text.trim expr) }
  | none =>
    match quoted? token with
    | some text => .string (String.ofList text)
    | none =>
      match truth? token with
      | some b => .bool b
      | none =>
        match Numeral.toDouble? token with
        | some x => .number x
        | none => .string (String.ofList token)

end Loon.Token

namespace Loon

def Value.ofToken (token : String) : Value := Token.value token.toList

end Loon
