/-!
Binary numbers of 64 bits, as exact values: a sign, a whole mantissa and a power of two. A
quotient rounds to the nearest such number, a tie to the even mantissa. Comparison is exact;
a number that is none compares with nothing.
-/

namespace EdgeCompose

/-- A finite number is its mantissa times two to the exponent. Mantissas lie below `2 ^ 53`
and exponents from `-1074` up. -/
inductive Double where
  | nan
  | infinite (negative : Bool)
  | finite (negative : Bool) (mantissa : Nat) (exponent : Int)
  deriving DecidableEq, Repr

namespace Double

def minExponent : Int := -1074

def maxExponent : Int := 971

/-- Mantissas lie from this bound up, except those of the least exponent. -/
def leastMantissa : Nat := 4503599627370496

def zero (negative : Bool) : Double := .finite negative 0 minExponent

/-- The quotient `num / (den * 2 ^ e)`, rounded to the nearest whole number, ties to even. -/
def scaledQuotient (num den : Nat) (e : Int) : Nat :=
  let n := num * Nat.pow 2 (-e).toNat
  let d := den * Nat.pow 2 e.toNat
  let q := n / d
  let r := n % d
  if 2 * r > d || (2 * r == d && q % 2 == 1) then q + 1 else q

/-- The floor of the binary logarithm of a positive quotient. -/
def binaryLog (num den : Nat) : Int :=
  let guess : Int := (Nat.log2 num : Int) - (Nat.log2 den : Int)
  if num * Nat.pow 2 (-guess).toNat ≥ den * Nat.pow 2 guess.toNat then guess else guess - 1

/-- The number nearest to a quotient of whole numbers. -/
def ofQuotient (negative : Bool) (num den : Nat) : Double :=
  if num == 0 then zero negative
  else
    let e := max minExponent (binaryLog num den - 52)
    let q := scaledQuotient num den e
    let (q, e) := if q == 2 * leastMantissa then (leastMantissa, e + 1) else (q, e)
    if e > maxExponent then .infinite negative else .finite negative q e

/-- A finite number in units of the least one. -/
def units (negative : Bool) (mantissa : Nat) (exponent : Int) : Int :=
  let size : Nat := mantissa * Nat.pow 2 (exponent - minExponent).toNat
  if negative then -(size : Int) else size

def compare : Double → Double → Option Ordering
  | .nan, _ | _, .nan => none
  | .infinite a, .infinite b =>
    some (if a == b then .eq else if a then .lt else .gt)
  | .infinite a, _ => some (if a then .lt else .gt)
  | _, .infinite b => some (if b then .gt else .lt)
  | .finite s m e, .finite t n f => some (Ord.compare (units s m e) (units t n f))

def isZero : Double → Bool
  | .finite _ m _ => m == 0
  | _ => false

end Double

end EdgeCompose
