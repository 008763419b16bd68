import Loon.Number.Shortest

namespace Loon

structure Layout where
  tie : Tie
  positional : Option (Int × Int)
  pointZero : Bool
  exponentPlus : Bool
  nan : String
  infinity : String

namespace Layout

def positionalText (pointZero : Bool) (ds : List Char) (exponent : Int) : List Char :=
  let point : Int := ds.length + exponent
  if 0 ≤ exponent then
    ds ++ List.replicate exponent.toNat '0' ++ (if pointZero then ['.', '0'] else [])
  else if 0 < point then
    ds.take point.toNat ++ '.' :: ds.drop point.toNat
  else
    '0' :: '.' :: (List.replicate (-point).toNat '0' ++ ds)

def scientificText (exponentPlus : Bool) (ds : List Char) (leading : Int) : List Char :=
  let mantissa :=
    match ds with
    | [] => []
    | [d] => [d]
    | d :: rest => d :: '.' :: rest
  let plus := if exponentPlus && decide (0 ≤ leading) then ['+'] else []
  mantissa ++ 'e' :: (plus ++ (toString leading).toList)

def decimalText (l : Layout) (d : Decimal) : List Char :=
  let ds := (toString d.digits).toList
  let leading : Int := ds.length + d.exponent - 1
  match l.positional with
  | none => positionalText l.pointZero ds d.exponent
  | some (least, most) =>
    if least ≤ leading ∧ leading ≤ most then positionalText l.pointZero ds d.exponent
    else scientificText l.exponentPlus ds leading

def write (l : Layout) (x : Double) : String :=
  if x.isNaN then l.nan
  else
    let magnitude :=
      if x.isFinite then String.ofList (l.decimalText (x.shortest l.tie)) else l.infinity
    if x.negative then "-" ++ magnitude else magnitude

end Layout

end Loon
