import EdgeCompose.Table
import EdgeCompose.Text.Basic

/-!
Composable documents by the URL they came from. An entry may expire; an expired one is removed
by the look-up that finds it. An entry that was registered as not fetchable is not displaced by
a fetched document while it lasts.
-/

namespace EdgeCompose

/-- A document, or one named part of it. -/
structure FragmentKey where
  url : Text
  name : Option Text := none
  deriving DecidableEq, Repr

def FragmentKey.toText (k : FragmentKey) : Text := k.url ++ (k.name.map ('#' :: ·)).getD []

structure FragmentEntry where
  content : Text
  expires : Option Int := none
  fetchable : Bool := true
  deriving DecidableEq, Repr

/-- An entry is gone at the very second it expires. -/
def FragmentEntry.isExpired (e : FragmentEntry) (now : Int) : Bool := e.expires.any (· ≤ now)

abbrev FragmentStore := Table FragmentKey FragmentEntry

namespace FragmentStore

/-- The content of a key, if it has not expired. -/
def find (s : FragmentStore) (now : Int) (k : FragmentKey) : Option Text × FragmentStore :=
  match s.get? k with
  | none => (none, s)
  | some e => if e.isExpired now then (none, s.erase k) else (some e.content, s)

/-- Gives a key an entry, whatever it had. -/
def put (s : FragmentStore) (k : FragmentKey) (e : FragmentEntry) : FragmentStore := s.insert k e

/-- Whether a fetched document must leave a key's entry alone. -/
def isPinned (s : FragmentStore) (now : Int) (k : FragmentKey) : Bool :=
  (s.get? k).any fun e => !e.fetchable && !e.isExpired now

/-- Stores a fetched document, and says whether it did. -/
def storeFetched (s : FragmentStore) (now : Int) (k : FragmentKey) (content : Text)
    (expires : Option Int) : Bool × FragmentStore :=
  if s.isPinned now k then (false, s) else (true, s.insert k { content, expires })

def invalidate (s : FragmentStore) (k : FragmentKey) : Bool × FragmentStore :=
  (s.contains k, s.erase k)

end FragmentStore

end EdgeCompose
