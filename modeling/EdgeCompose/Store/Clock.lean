/-!
The clock that lifetimes are counted on, in whole seconds. An expiry that the clock cannot
represent is an overflow.
-/

namespace EdgeCompose

/-- Marks a computation that ended because an expiry could not be represented. -/
inductive Overflow where
  | expiry
  deriving DecidableEq, Repr

structure Clock where
  elapsed : Nat := 0
  deriving DecidableEq, Repr

namespace Clock

/-- The last second that the clock represents. -/
def last : Int := 9223372036854775807

/-- The calendar time; documents expire by it. -/
def calendar (c : Clock) : Int := 1700000000 + c.elapsed

/-- The time since a fixed moment; backend answers expire by it. -/
def steady (c : Clock) : Int := 1000000 + c.elapsed

def advance (c : Clock) (seconds : Nat) : Clock := { elapsed := c.elapsed + seconds }

/-- The moment `seconds` after `now`. -/
def after? (now : Int) (seconds : Int) : Except Overflow Int :=
  if now + seconds > last then .error .expiry else .ok (now + seconds)

end Clock

end EdgeCompose
