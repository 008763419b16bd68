import Loon.Number.Double

namespace Loon

structure Decimal where
  digits : Nat
  exponent : Int
deriving DecidableEq, Repr, Inhabited

namespace Decimal

/-- Powers of ten that no double reaches are not computed. Zero is zero at any power. Else every
number beyond `10 ^ 400` is infinite, and `digits · 10 ^ -e` is below `2 ^ (log2 digits + 1 - 3 e)`,
which is nearest to zero as soon as that power lies under `2 ^ -1099`. -/
def toDouble (d : Decimal) : Double :=
  if d.digits = 0 then Double.ofRatio 0 1
  else
    match d.exponent with
    | .ofNat e =>
      if 400 < e then Double.infinity else Double.ofRatio (d.digits * Nat.pow 10 e) 1
    | .negSucc e =>
      if d.digits.log2 + 1100 < 3 * (e + 1) then Double.ofRatio 0 1
      else Double.ofRatio d.digits (Nat.pow 10 (e + 1))

end Decimal

namespace Numeral

def digitsValue (ds : List Char) : Nat := ds.foldl (fun n c => 10 * n + (c.toNat - 48)) 0

def sign : List Char → Bool × List Char
  | '+' :: s => (false, s)
  | '-' :: s => (true, s)
  | s => (false, s)

/-- The number that the digits of an exponent write. It stays below `2 ^ 20`: once `2 ^ 16` is
reached, no further digit counts. -/
def exponentValue (ds : List Char) : Nat :=
  ds.foldl (fun n c => if n < Nat.pow 2 16 then 10 * n + (c.toNat - 48) else n) 0

def readPower (s : List Char) : Option Int :=
  let (negative, ds) := sign s
  if ds.isEmpty || !ds.all Char.isDigit then none
  else some (Double.signed negative (exponentValue ds))

def readExponent : List Char → Option Int
  | [] => some 0
  | c :: s => if c = 'e' ∨ c = 'E' then readPower s else none

def fractionDigits : List Char → List Char × List Char
  | '.' :: s => s.span Char.isDigit
  | s => ([], s)

/-- Reads `[+-]? (D+ ('.' D*)? | '.' D+) ([eE] [+-]? D+)?`, with `D` a digit from 0 to 9. -/
def read (s : List Char) : Option (Bool × Decimal) :=
  let (negative, s) := sign s
  let (whole, s) := s.span Char.isDigit
  let (fraction, s) := fractionDigits s
  if whole.isEmpty && fraction.isEmpty then none
  else
    match readExponent s with
    | none => none
    | some e => some (negative, ⟨digitsValue (whole ++ fraction), e - fraction.length⟩)

def toDouble? (s : List Char) : Option Double :=
  match read s with
  | none => none
  | some (negative, d) =>
    let x := d.toDouble
    if x.isFinite then some (x.withSign negative) else none

end Numeral

end Loon
