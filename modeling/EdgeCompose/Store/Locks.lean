import EdgeCompose.Store.Fragments

/-!
One lock to a key. The one who asked first holds it, the others wait in the order in which they
asked, and a key for which nobody asks is not in the table.
-/

namespace EdgeCompose

abbrev Locks := Table FragmentKey (List Nat)

namespace Locks

/-- Who asked for a key's lock and has not given it back, the holder first. -/
def queue (l : Locks) (k : FragmentKey) : List Nat := (l.get? k).getD []

def holder? (l : Locks) (k : FragmentKey) : Option Nat := (l.queue k).head?

def isFree (l : Locks) (k : FragmentKey) : Bool := (l.queue k).isEmpty

/-- Joins the queue of a key, once. -/
def enter (l : Locks) (k : FragmentKey) (who : Nat) : Locks :=
  if (l.queue k).contains who then l else l.insert k (l.queue k ++ [who])

/-- Leaves the queue of a key; the next in it holds the lock then. -/
def leave (l : Locks) (k : FragmentKey) (who : Nat) : Locks :=
  match (l.queue k).erase who with
  | [] => l.erase k
  | rest => l.insert k rest

end Locks

end EdgeCompose
