import EdgeCompose.Http.Header

/-!
The Cache-Control directives that a shared cache heeds. Directives are read one after the
other, whatever lines they stand on; the flags add up, and the last lifetime of a name counts.
-/

namespace EdgeCompose

structure CacheControl where
  noStore : Bool := false
  noCache : Bool := false
  isPrivate : Bool := false
  isPublic : Bool := false
  mustRevalidate : Bool := false
  maxAge : Option Nat := none
  sharedMaxAge : Option Nat := none
  deriving DecidableEq, Repr

namespace CacheControl

def fieldName : Text := "cache-control".toList

/-- A directive's name in lower case and its argument without quotes around it. -/
def directive (t : Text) : Text × Option Text :=
  let t := Text.trim t
  match Text.splitOnce? '=' t with
  | some (name, argument) =>
    (Text.lower (Text.trim name), some (Text.trimChar '"' (Text.trim argument)))
  | none => (Text.lower t, none)

def apply (cc : CacheControl) (d : Text × Option Text) : CacheControl :=
  if d.1 == "no-store".toList then { cc with noStore := true }
  else if d.1 == "no-cache".toList then { cc with noCache := true }
  else if d.1 == "private".toList then { cc with isPrivate := true }
  else if d.1 == "public".toList then { cc with isPublic := true }
  else if d.1 == "must-revalidate".toList then { cc with mustRevalidate := true }
  else if d.1 == "max-age".toList then { cc with maxAge := d.2.bind Text.u64? }
  else if d.1 == "s-maxage".toList then { cc with sharedMaxAge := d.2.bind Text.u64? }
  else cc

/-- The directives of one line. -/
def directives (line : Text) : List (Text × Option Text) := (line.splitOn ',').map directive

def ofLines (lines : List Text) : CacheControl :=
  (lines.flatMap directives).foldl apply {}

/-- Lines that are no text say nothing. -/
def ofHeaders (headers : Headers) : CacheControl :=
  ofLines ((headers.getAll fieldName).filterMap Headers.valueText?)

/-- How long a shared cache may serve the answer. -/
def lifetime? (cc : CacheControl) : Option Nat := cc.sharedMaxAge <|> cc.maxAge

/-- Whether the answer to an authorized request may be shared. -/
def allowsAuthorized (cc : CacheControl) : Bool :=
  cc.isPublic || cc.mustRevalidate || cc.sharedMaxAge.isSome

end CacheControl

end EdgeCompose
