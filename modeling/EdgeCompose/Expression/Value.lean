import EdgeCompose.Number.Decimal

/-!
The values of test expressions, how they compare and which of them count as true. Two values
compare as numbers where both read as one, and otherwise as text, character by character.
-/

namespace EdgeCompose.Expression

inductive Value where
  | text (t : Text)
  | number (n : Double)
  | truth (b : Bool)
  deriving DecidableEq, Repr

inductive Comparison where
  | eq
  | ne
  | lt
  | le
  | gt
  | ge
  deriving DecidableEq, Repr

namespace Value

/-- The empty text and the word for false count as false, and so does zero. -/
def truthy : Value → Bool
  | .truth b => b
  | .number n => !n.isZero
  | .text t => !t.isEmpty && t != "false".toList

def number? : Value → Option Double
  | .number n => some n
  | .text t => Decimal.read? (Text.trim t)
  | .truth _ => none

def toText : Value → Text
  | .text t => t
  | .number n => Decimal.write n
  | .truth b => if b then "true".toList else "false".toList

/-- The order of two values; there is none next to a number that is none. -/
def order? (a b : Value) : Option Ordering :=
  match a.number?, b.number? with
  | some x, some y => x.compare y
  | _, _ => some (compare a.toText b.toText)

end Value

namespace Comparison

/-- Whether a comparison holds of values in the given order. -/
def accepts (c : Comparison) (order : Option Ordering) : Bool :=
  match c with
  | .eq => order == some .eq
  | .ne => order != some .eq
  | .lt => order == some .lt
  | .le => order == some .lt || order == some .eq
  | .gt => order == some .gt
  | .ge => order == some .gt || order == some .eq

def holds (c : Comparison) (a b : Value) : Bool := c.accepts (a.order? b)

end Comparison

end EdgeCompose.Expression
