import EdgeCompose.Compose.Error
import EdgeCompose.Markup.Directive

/-!
What an include tag asks for: a source, perhaps one fragment of it, another source to fall back
on, and how long to keep what is fetched.
-/

namespace EdgeCompose

structure Inclusion where
  source : Text := []
  fragment : Option Text := none
  alternate : Option Text := none
  continues : Bool := false
  lifetime : Option Nat := none
  deriving DecidableEq, Repr

namespace Inclusion

/-- The seconds of a unit of time. -/
def unit? (c : Char) : Option Nat :=
  if c == 's' then some 1
  else if c == 'm' then some 60
  else if c == 'h' then some 3600
  else if c == 'd' then some 86400
  else none

/-- A number of seconds, or of another unit named by one letter after it. -/
def lifetime? (t : Text) : Option Nat := do
  let t := Text.trim t
  let last ← t.getLast?
  let (digits, unit) := if Text.isAlpha last then (t.dropLast, last.toLower) else (t, 's')
  let n ← Text.u64? digits
  let seconds ← unit? unit
  if n * seconds < 18446744073709551616 then some (n * seconds) else none

/-- What a tag asks for; a tag without a source asks for nothing. -/
def ofTag (tag : Text) : Except ComposeError Inclusion :=
  let attributes := Markup.attributes tag
  let named (name : String) : Option Text := (attributes.get? name.toList).filter (! ·.isEmpty)
  match attributes.get? "src".toList with
  | none => .error (.missingAttribute "include".toList "src".toList)
  | some source =>
    .ok {
      source
      fragment := named "fragment"
      alternate := named "alt"
      continues := (attributes.get? "onerror".toList).any (Text.equalFold · "continue".toList)
      lifetime := (attributes.get? "ttl".toList).bind lifetime? }

end Inclusion

end EdgeCompose
