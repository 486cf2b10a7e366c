import EdgeCompose.Text.Percent

/-!
Request targets as clients write them: a path, an absolute URI, an authority, or a star. A
fragment is dropped, and characters that no target holds make it invalid.
-/

namespace EdgeCompose

/-- `path` and `query` are as written; an absolute target has a scheme, and a bare authority
has neither path nor query. -/
structure Target where
  scheme : Option Text := none
  authority : Text := []
  path : Text := []
  query : Option Text := none
  deriving DecidableEq, Repr

namespace Target

def root : Target := { path := ['/'] }

def isPathChar (c : Char) : Bool :=
  let n := c.toNat
  n == 0x21 || (0x24 ≤ n && n ≤ 0x3B) || n == 0x3D || (0x40 ≤ n && n ≤ 0x5F) ||
    (0x61 ≤ n && n ≤ 0x7A) || n == 0x7C || n == 0x7E || n ≥ 0x80 ||
    n == 0x22 || n == 0x7B || n == 0x7D

def isQueryChar (c : Char) : Bool :=
  let n := c.toNat
  n == 0x21 || (0x24 ≤ n && n ≤ 0x3B) || n == 0x3D || (0x3F ≤ n && n != 0x7F)

def isAuthorityChar (c : Char) : Bool :=
  Text.isAlphanumeric c || "!$&'()*+,-.:;=@[]_~%".toList.contains c

def isSchemeChar (c : Char) : Bool := Text.isAlphanumeric c || "+-.~".toList.contains c

/-- Path and query up to a fragment. -/
def pathAndQuery? (t : Text) : Option (Text × Option Text) :=
  let t := t.takeWhile (· != '#')
  match Text.splitOnce? '?' t with
  | some (path, query) =>
    if path.all isPathChar && query.all isQueryChar then some (path, some query) else none
  | none => if t.all isPathChar then some (t, none) else none

/-- What has been seen of an authority: colons, brackets and percent signs that are not part of
the user's name, and whether the last character was an at sign. -/
structure Seen where
  colons : Nat := 0
  opened : Bool := false
  closed : Bool := false
  percent : Bool := false
  atLast : Bool := false

def Seen.next (s : Seen) (c : Char) : Option Seen :=
  let s := { s with atLast := false }
  if !isAuthorityChar c then none
  else if c == ':' then if s.colons ≥ 8 then none else some { s with colons := s.colons + 1 }
  else if c == '[' then if s.percent || s.opened then none else some { s with opened := true }
  else if c == ']' then
    if !s.opened || s.closed then none
    else some { s with closed := true, colons := 0, percent := false }
  else if c == '@' then some { s with colons := 0, percent := false, atLast := true }
  else if c == '%' then some { s with percent := true }
  else some s

def Seen.complete (s : Seen) : Bool :=
  s.opened == s.closed && s.colons ≤ 1 && !s.atLast && !s.percent

def isAuthority (t : Text) : Bool :=
  ((t.foldl (fun s? c => s?.bind (·.next c)) (some {})).map Seen.complete).getD false

/-- The scheme of an absolute target and what follows its two slashes. The two web schemes are
written in lower case; no other scheme is longer than 64 characters. -/
def scheme? (t : Text) : Option (Option (Text × Text)) :=
  let name := t.takeWhile isSchemeChar
  match t.dropWhile isSchemeChar with
  | ':' :: '/' :: '/' :: rest =>
    let known := Text.lower name == "http".toList || Text.lower name == "https".toList
    if name.length > 64 then none
    else some (some (if known then Text.lower name else name, rest))
  | _ => some none

def isAuthorityEnd (c : Char) : Bool := c == '/' || c == '?' || c == '#'

def parse? (t : Text) : Option Target :=
  if (Utf8.encode t).length > 65534 then none
  else
    match t with
    | [] => none
    | ['*'] => some { path := ['*'] }
    | '/' :: _ => (pathAndQuery? t).map fun (path, query) => { path, query }
    | _ => do
      match ← scheme? t with
      | some (scheme, rest) =>
        let authority := rest.takeWhile (! isAuthorityEnd ·)
        if authority.isEmpty || !isAuthority authority then none
        else do
          let (path, query) ← pathAndQuery? (rest.dropWhile (! isAuthorityEnd ·))
          some { scheme := some scheme, authority, path, query }
      | none => if isAuthority t then some { authority := t } else none

/-- A text that is no target stands for the root. -/
def read (t : Text) : Target := (parse? t).getD root

def isBareAuthority (t : Target) : Bool := t.scheme.isNone && !t.authority.isEmpty

/-- Path and query as they are forwarded. -/
def pathAndQuery (t : Target) : Text :=
  let written := t.path ++ (t.query.map ('?' :: ·)).getD []
  if t.isBareAuthority || written.isEmpty then ['/'] else written

/-- The path alone; an absolute target without one has the root. -/
def pathOnly (t : Target) : Text :=
  if t.isBareAuthority then [] else if t.path.isEmpty then ['/'] else t.path

def queryString (t : Target) : Text := t.query.getD []

def toText (t : Target) : Text :=
  (t.scheme.map (· ++ "://".toList)).getD [] ++ t.authority ++ t.pathOnly ++
    (t.query.map ('?' :: ·)).getD []

end Target

end EdgeCompose
