import EdgeCompose.Number.Double
import EdgeCompose.Text.Basic

/-!
Decimal numerals. Reading takes a sign, digits with at most one point and an exponent, or one
of the words for infinity and for no number. Writing takes the fewest digits that read back as
the same number, of those the nearest, and writes them without an exponent.
-/

namespace EdgeCompose.Decimal

open Text

/-- The value `digits * 10 ^ exponent`; exponents far outside the range of doubles are not
multiplied out. -/
def toDouble (negative : Bool) (digits : Nat) (exponent : Int) : Double :=
  let size : Int := (ofNat digits).length + exponent
  if digits == 0 then .zero negative
  else if size > 400 then .infinite negative
  else if size < -400 then .zero negative
  else .ofQuotient negative (digits * Nat.pow 10 exponent.toNat) (Nat.pow 10 (-exponent).toNat)

/-- An optional sign before anything else. -/
def sign : Text → Bool × Text
  | '-' :: t => (true, t)
  | '+' :: t => (false, t)
  | t => (false, t)

/-- The exponent part: nothing, or an `e` with an optional sign and at least one digit. -/
def exponentPart? : Text → Option Int
  | [] => some 0
  | c :: t =>
    if c == 'e' || c == 'E' then
      let (negative, digits) := sign t
      if !digits.isEmpty && digits.all isDigit then
        let n : Int := digitsValue digits
        some (if negative then -n else n)
      else none
    else none

/-- Digits with at most one point among them, at least one digit in all, then an exponent. -/
def unsigned? (negative : Bool) (t : Text) : Option Double :=
  let whole := t.takeWhile isDigit
  let rest := t.dropWhile isDigit
  let (fraction, rest) := match rest with
    | '.' :: more => (more.takeWhile isDigit, more.dropWhile isDigit)
    | _ => ([], rest)
  if whole.isEmpty && fraction.isEmpty then none
  else (exponentPart? rest).map fun e =>
    toDouble negative (digitsValue (whole ++ fraction)) (e - fraction.length)

def read? (t : Text) : Option Double :=
  let (negative, body) := sign t
  let word := lower body
  if word == "inf".toList || word == "infinity".toList then some (.infinite negative)
  else if word == "nan".toList then some .nan
  else unsigned? negative body

/-- The numbers that round to a given one lie between these bounds, as quotients over `den`;
the bounds belong to them when the mantissa is even. -/
structure Interval where
  low : Nat
  value : Nat
  high : Nat
  den : Nat
  closed : Bool

def Interval.of (mantissa : Nat) (exponent : Int) : Interval :=
  let narrow := mantissa == Double.leastMantissa && exponent > Double.minExponent
  let up := Nat.pow 2 exponent.toNat
  { low := (4 * mantissa - (if narrow then 1 else 2)) * up
    value := 4 * mantissa * up
    high := (4 * mantissa + 2) * up
    den := 4 * Nat.pow 2 (-exponent).toNat
    closed := mantissa % 2 == 0 }

/-- Whether `digits * 10 ^ place` lies in the interval. -/
def Interval.contains (i : Interval) (digits : Nat) (place : Int) : Bool :=
  let n := digits * Nat.pow 10 place.toNat * i.den
  let d := Nat.pow 10 (-place).toNat
  if i.closed then i.low * d ≤ n && n ≤ i.high * d else i.low * d < n && n < i.high * d

/-- The two neighbours of the value on the grid of multiples of `10 ^ place`, the nearer
first. -/
def Interval.neighbours (i : Interval) (place : Int) : List Nat :=
  let n := i.value * Nat.pow 10 (-place).toNat
  let d := i.den * Nat.pow 10 place.toNat
  let q := n / d
  let r := n % d
  if 2 * r < d || (2 * r == d && q % 2 == 0) then [q, q + 1] else [q + 1, q]

/-- The least `k` with the value below `10 ^ k`, looked for near an estimate. -/
def Interval.magnitude (i : Interval) : Int :=
  let guess := Double.binaryLog i.value i.den * 30103 / 100000
  let below (k : Int) : Bool :=
    i.value * Nat.pow 10 (-k).toNat < i.den * Nat.pow 10 k.toNat
  ([guess - 1, guess, guess + 1, guess + 2].find? below).getD (guess + 3)

/-- The shortest digits and the place of the last one. -/
def shortest (mantissa : Nat) (exponent : Int) : Nat × Int :=
  let i := Interval.of mantissa exponent
  let k := i.magnitude
  let grids := (List.range 17).map fun n => k - (n + 1 : Nat)
  let hit (place : Int) : Option (Nat × Int) :=
    ((i.neighbours place).find? (i.contains · place)).map (·, place)
  (grids.findSome? hit).getD (i.value / i.den, 0)

/-- Digits with the last one at `place`, without an exponent. -/
def positional (digits : Text) (place : Int) : Text :=
  if place ≥ 0 then digits ++ List.replicate place.toNat '0'
  else
    let behind := (-place).toNat
    if behind < digits.length then
      digits.take (digits.length - behind) ++ '.' :: digits.drop (digits.length - behind)
    else '0' :: '.' :: (List.replicate (behind - digits.length) '0' ++ digits)

/-- Drops zeros at the end of the digits, moving the place up. -/
def normal (digits : Text) (place : Int) : Text × Int :=
  let kept := dropEndWhile (· == '0') digits
  (kept, place + (digits.length - kept.length : Nat))

def write : Double → Text
  | .nan => "NaN".toList
  | .infinite negative => if negative then "-inf".toList else "inf".toList
  | .finite negative mantissa exponent =>
    let body :=
      if mantissa == 0 then ['0']
      else
        let (digits, place) := shortest mantissa exponent
        let (digits, place) := normal (ofNat digits) place
        positional digits place
    if negative then '-' :: body else body

end EdgeCompose.Decimal
