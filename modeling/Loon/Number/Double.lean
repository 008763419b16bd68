/-!
Numbers of double precision, held as their sixty-four bits and read as exact values: a finite one is
`± mantissa · 2 ^ exponent`. All arithmetic here is on natural numbers and integers.
-/

namespace Loon

structure Double where
  bits : UInt64
deriving DecidableEq, Repr, Inhabited

namespace Double

def negative (x : Double) : Bool := Nat.pow 2 63 ≤ x.bits.toNat

def exponentField (x : Double) : Nat := x.bits.toNat / Nat.pow 2 52 % Nat.pow 2 11

def fraction (x : Double) : Nat := x.bits.toNat % Nat.pow 2 52

def isFinite (x : Double) : Bool := x.exponentField != 2047

def isNaN (x : Double) : Bool := x.exponentField == 2047 && x.fraction != 0

def mantissa (x : Double) : Nat :=
  if x.exponentField = 0 then x.fraction else x.fraction + Nat.pow 2 52

def exponent (x : Double) : Int := (max x.exponentField 1 : Nat) - 1075

def isZero (x : Double) : Bool := x.exponentField == 0 && x.fraction == 0

def equal (x y : Double) : Bool :=
  !x.isNaN && !y.isNaN && (x == y || (x.isZero && y.isZero))

def wholeMagnitude? (x : Double) : Option Nat :=
  if x.isFinite then
    match x.exponent with
    | .ofNat e => some (x.mantissa * Nat.pow 2 e)
    | .negSucc e =>
      if x.mantissa % Nat.pow 2 (e + 1) = 0 then some (x.mantissa / Nat.pow 2 (e + 1))
      else none
  else none

def signed (negative : Bool) (magnitude : Nat) : Int :=
  if negative then -(magnitude : Int) else magnitude

def toInteger? (x : Double) : Option Int :=
  match x.wholeMagnitude? with
  | some n => if n ≤ Nat.pow 2 53 - 1 then some (signed x.negative n) else none
  | none => none

def infinity : Double := ⟨0x7ff0000000000000⟩

def withSign (negative : Bool) (x : Double) : Double :=
  if negative then ⟨x.bits ||| 0x8000000000000000⟩ else x

def roundEven (num den : Nat) : Nat :=
  let n := num / den
  let r := num % den
  if 2 * r < den ∨ (2 * r = den ∧ n % 2 = 0) then n else n + 1

def rescale (num den : Nat) : Int → Nat × Nat
  | .ofNat e => (num, den * Nat.pow 2 e)
  | .negSucc e => (num * Nat.pow 2 (e + 1), den)

def exponentOf (num den : Nat) : Int :=
  let e : Int := (num.log2 : Int) - den.log2 - 52
  let (n, d) := rescale num den e
  max (-1074) (if n < Nat.pow 2 52 * d then e - 1 else e)

/-- The double nearest to `num / den`, a half going to the even mantissa. Mantissa and exponent are
added up, so that a mantissa rounded up to the next power of two moves to the next exponent. -/
def ofRatio (num den : Nat) : Double :=
  if num = 0 then ⟨0⟩
  else
    let e := exponentOf num den
    let (n, d) := rescale num den e
    let bits := (e + 1074).toNat * Nat.pow 2 52 + roundEven n d
    if bits < infinity.bits.toNat then ⟨UInt64.ofNat bits⟩ else infinity

end Double

end Loon
