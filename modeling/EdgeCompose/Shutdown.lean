/-!
The signal to stop. It is broadcast to everyone who is subscribed; a receiver holds one signal
at most, and learns how many were overwritten before it read them.
-/

namespace EdgeCompose

/-- `sent` counts the signals; each receiver knows how many of them are behind it, and is absent
once it has been dropped. -/
structure Shutdown where
  sent : Nat := 0
  receivers : List (Option Nat) := []
  deriving DecidableEq, Repr

namespace Shutdown

inductive Receipt where
  | signal
  | empty
  | lagged (missed : Nat)
  deriving DecidableEq, Repr

def count (s : Shutdown) : Nat := (s.receivers.filter Option.isSome).length

/-- A new receiver does not see the signals that were sent before. -/
def subscribe (s : Shutdown) : Shutdown := { s with receivers := s.receivers ++ [some s.sent] }

/-- Sends the signal; it is lost if nobody is subscribed. -/
def trigger (s : Shutdown) : Shutdown :=
  if s.count == 0 then s else { s with sent := s.sent + 1 }

def drop (s : Shutdown) (receiver : Nat) : Shutdown :=
  { s with receivers := s.receivers.set receiver none }

/-- What a receiver at a position reads, and its position after that. -/
def receipt (sent position : Nat) : Receipt × Nat :=
  if position == sent then (.empty, position)
  else if position + 1 == sent then (.signal, sent)
  else (.lagged (sent - 1 - position), sent - 1)

/-- Reads without waiting; a dropped receiver reads nothing. -/
def receive (s : Shutdown) (receiver : Nat) : Option Receipt × Shutdown :=
  match (s.receivers[receiver]?).join with
  | none => (none, s)
  | some position =>
    let (read, position) := receipt s.sent position
    (some read, { s with receivers := s.receivers.set receiver (some position) })

end Shutdown

end EdgeCompose
