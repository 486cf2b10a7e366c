import EdgeCompose.Url.Path

/-!
Reading URLs, alone or against a base. Spaces and controls around the text are dropped, and tabs
and line ends in it are passed over. What the text leaves out is taken from the base.
-/

namespace EdgeCompose.Url

open Text

def isSpaceOrControl (c : Char) : Bool := c.toNat ≤ 0x20

def cleaned (t : Text) : Text := dropEndWhile isSpaceOrControl (t.dropWhile isSpaceOrControl)

/-- The text from its first character that counts. -/
def ahead (t : Text) : Text := t.dropWhile isIgnored

/-- What follows a character of a kind, if one of that kind is next. -/
def after? (p : Char → Bool) (t : Text) : Option Text :=
  match ahead t with
  | c :: rest => if p c then some rest else none
  | [] => none

def isAnySlash (c : Char) : Bool := c == '/' || c == '\\'

def isPathEnd (c : Char) : Bool := c == '?' || c == '#'

def isFileHostEnd (c : Char) : Bool := isAnySlash c || isPathEnd c

def inUserinfoSet (c : Char) : Bool := inPathSet c || "/:;=@[\\]^|".toList.contains c

def inQuerySet (kind : SchemeKind) (c : Char) : Bool :=
  Host.isControl c || " \"#<>".toList.contains c || (kind.isSpecial && c == '\'')

def isSchemeChar (c : Char) : Bool := isAlphanumeric c || c == '+' || c == '-' || c == '.'

/-- A scheme in lower case and what follows its colon. -/
def scheme? (t : Text) : Option (Text × Text) :=
  let inside (c : Char) : Bool := isSchemeChar c || isIgnored c
  let name := visible (t.takeWhile inside)
  match t.dropWhile inside with
  | ':' :: rest => if name.head?.any isAlpha then some (lower name, rest) else none
  | _ => none

def pathText (t : Text) : Text := t.takeWhile (! isPathEnd ·)

def afterPath (t : Text) : Text := t.dropWhile (! isPathEnd ·)

def fragmentText (t : Text) : Text := Percent.encode inFragmentSet (visible t)

/-- Query and fragment, from a text that is empty or begins with their mark. -/
def queryAndFragment (kind : SchemeKind) (t : Text) : Option Text × Option Text :=
  match ahead t with
  | '?' :: t =>
    (some (Percent.encode (inQuerySet kind) (visible (t.takeWhile (· != '#')))),
      (after? (· == '#') (t.dropWhile (· != '#'))).map fragmentText)
  | '#' :: t => (none, some (fragmentText t))
  | _ => (none, none)

/-- The URL `u` with a path, and the query and fragment of `t`. -/
def finishWith (u : Url) (path t : Text) : Url :=
  let guarded := u.authority.isNone && (dropLead? ['/', '/'] path).isSome
  let (query, fragment) := queryAndFragment u.kind (afterPath t)
  { u with path, guarded, query, fragment }

/-- The URL `u` with the path that `t` leads to behind `start`, and what follows it in `t`. -/
def finish (u : Url) (start t : Text) : Url :=
  u.finishWith (Draft.extend u.kind start (pathText t)).toText t

/-- How a path after an authority starts, and what is left of it. A special URL always has one
slash there; that of a file without a host is written with its slashes already. -/
def pathStart (u : Url) (t : Text) : Text × Text :=
  if u.kind == .file && (u.authority.bind (·.host)).isNone then ([], t)
  else
    match ahead t with
    | c :: rest =>
      if u.kind.isSpecial then (['/'], if isSlash u.kind c then rest else t)
      else (if c == '/' || isPathEnd c then [] else ['/'], t)
    | [] => (if u.kind.isSpecial then ['/'] else [], [])

/-- The text after the last at sign, and the text before it. -/
def splitLastAt (t : Text) : Option (Text × Text) :=
  if t.contains '@' then
    let host := (t.reverse.takeWhile (· != '@')).reverse
    some (t.take (t.length - host.length - 1), host)
  else none

def userinfo (info : Text) : Authority :=
  let code := Percent.encode inUserinfoSet
  match splitOnce? ':' info with
  | some (name, word) =>
    { username := code name, password := if word.isEmpty then none else some (code word) }
  | none => { username := code info }

/-- Cuts a host off at the first colon outside brackets. -/
def splitHost : Bool → Text → Text × Text
  | _, [] => ([], [])
  | inside, c :: t =>
    if c == ':' && !inside then ([], c :: t)
    else
      let inside := if c == '[' then true else if c == ']' then false else inside
      let (host, rest) := splitHost inside t
      (c :: host, rest)

/-- A port and what follows it; the default port of the scheme is left out. -/
def port (scheme : Text) (t : Text) : Except UrlError (Option Nat × Text) :=
  let digits := t.takeWhile isDigit
  let rest := t.dropWhile isDigit
  let n := digitsValue digits
  if n > 65535 then .error .invalidPort
  else if (rest.head?.map fun c => "/\\?#".toList.contains c).getD true then
    .ok (if digits.isEmpty || defaultPort? scheme == some n then none else some n, rest)
  else .error .invalidPort

def host (kind : SchemeKind) (t : Text) : Except UrlError (Option Host) :=
  if kind.isSpecial then
    if t.isEmpty then .error .emptyHost else (Host.parse t).map some
  else Host.parseFlat t

def hostAndPort (scheme : Text) (hostText rest : Text) :
    Except UrlError (Option Host × Option Nat × Text) := do
  let found ← host (.of scheme) hostText
  match rest with
  | ':' :: more =>
    if found.isNone then .error .emptyHost
    else do
      let (number, after) ← port scheme more
      return (found, number, after)
  | _ => return (found, none, rest)

/-- Everything after the two slashes that announce an authority. -/
def afterSlashes (scheme : Text) (t : Text) : Except UrlError Url := do
  let kind := SchemeKind.of scheme
  let isEnd (c : Char) : Bool := isSlash kind c || isPathEnd c
  let authority := visible (t.takeWhile (! isEnd ·))
  let rest := t.dropWhile (! isEnd ·)
  let (info, hostPart) := (splitLastAt authority).getD ([], authority)
  if authority.contains '@' && info.isEmpty && hostPart.isEmpty && !rest.isEmpty then
    throw .emptyHost
  let (hostText, afterHost) := splitHost false hostPart
  let (found, number, after) ← hostAndPort scheme hostText (afterHost ++ rest)
  let login := userinfo info
  if found.isNone && (! login.username.isEmpty || login.password.isSome) then throw .emptyHost
  let u : Url :=
    { scheme, authority := some { login with host := found, port := number }, path := [] }
  let (start, path) := u.pathStart after
  return u.finish start path

/-- The base with the query and the fragment of a reference that has nothing else. -/
def withMarks (base : Url) (t : Text) : Url :=
  match ahead t with
  | '?' :: _ =>
    let (query, fragment) := queryAndFragment base.kind t
    { base with query, fragment }
  | '#' :: rest => { base with fragment := some (fragmentText rest) }
  | _ => { base with fragment := none }

/-- A reference against a base that is no file. -/
def relative (base : Url) (t : Text) : Except UrlError Url :=
  match ahead t with
  | [] => .ok (base.withMarks t)
  | c :: rest =>
    if isPathEnd c then .ok (base.withMarks t)
    else if isAnySlash c then
      match after? isAnySlash rest with
      | some more =>
        if c == '/' && (ahead rest).head? == some '/' then afterSlashes base.scheme more
        else afterSlashes base.scheme (more.dropWhile fun c => isAnySlash c || isIgnored c)
      | none => .ok (base.finish ['/'] rest)
    else
      let directory := dropEndWhile (· != '/') base.path
      .ok (base.finish (if directory.isEmpty then ['/'] else directory) t)

/-- The host of a file URL: none for an empty one and for the local host. -/
def fileHost (t : Text) : Except UrlError (Option Host) :=
  if t.isEmpty then .ok none
  else (Host.parse t).map fun found =>
    if found == .domain "localhost".toList then none else some found

def emptyFile : Url := { scheme := "file".toList, authority := some {}, path := [] }

/-- A file URL after its two slashes. A drive in place of the host is part of the path, and one at
the front of the path removes the host. -/
def afterFileSlashes (t : Text) : Except UrlError Url := do
  let hostText := visible (t.takeWhile (! isFileHostEnd ·))
  if isDriveLetter hostText then return emptyFile.finish ['/'] t
  let after := t.dropWhile (! isFileHostEnd ·)
  match ← fileHost hostText with
  | none => return emptyFile.finish ['/'] after
  | some found =>
    let u := { emptyFile with authority := some { host := some found } }
    let (start, rest) := u.pathStart after
    let draft := Draft.extend .file start (pathText rest)
    return (if draft.drive then emptyFile else u).finishWith draft.toText rest

/-- A file reference that begins with one slash; `t` holds that slash. It stays on the drive of
the base, or else on its host. -/
def fileFromRoot (base? : Option Url) (t after : Text) : Url :=
  match base? with
  | none => emptyFile.finish [] t
  | some base =>
    let first := (base.path.drop 1).takeWhile (· != '/')
    if startsWithDrive (visible after) then emptyFile.finish [] t
    else if Draft.isDrive first.reverse then emptyFile.finish ('/' :: first) t
    else { emptyFile with authority := base.authority }.finish [] t

/-- A file reference; the base, where there is one, is a file too. -/
def fileReference (base? : Option Url) (t : Text) : Except UrlError Url :=
  match after? isAnySlash t with
  | some rest =>
    match after? isAnySlash rest with
    | some more => afterFileSlashes more
    | none => .ok (fileFromRoot base? (ahead t) rest)
  | none =>
    match base? with
    | none => .ok (emptyFile.finish ['/'] t)
    | some base =>
      if (ahead t).head?.all isPathEnd then .ok (base.withMarks t)
      else if startsWithDrive (visible t) then .ok (emptyFile.finish ['/'] t)
      else .ok (base.finish (Draft.shorten .file base.path.reverse).reverse t)

/-- What follows a scheme that is neither special nor a file. -/
def afterOtherScheme (scheme : Text) (t : Text) : Except UrlError Url :=
  match after? (· == '/') t with
  | some rest =>
    match after? (· == '/') rest with
    | some more => afterSlashes scheme more
    | none => .ok (finish { scheme, path := [] } ['/'] rest)
  | none =>
    .ok (finishWith { scheme, path := [] } (Percent.encode Host.isControl (visible (pathText t))) t)

def afterScheme (base? : Option Url) (scheme : Text) (t : Text) : Except UrlError Url :=
  match SchemeKind.of scheme with
  | .file => fileReference (base?.filter (·.kind == .file)) t
  | .special =>
    let slashOrIgnored (c : Char) : Bool := isAnySlash c || isIgnored c
    let slashes := visible (t.takeWhile slashOrIgnored)
    match base?.filter (·.scheme == scheme) with
    | some base =>
      if slashes.length < 2 then relative base t
      else afterSlashes scheme (t.dropWhile slashOrIgnored)
    | none => afterSlashes scheme (t.dropWhile slashOrIgnored)
  | .other => afterOtherScheme scheme t

/-- Reads a reference against a base, or an absolute URL where there is none. -/
def read (base? : Option Url) (t : Text) : Except UrlError Url :=
  let t := cleaned t
  match scheme? t with
  | some (scheme, rest) => afterScheme base? scheme rest
  | none =>
    match base? with
    | none => .error .noBase
    | some base =>
      if (ahead t).head? == some '#' then .ok (base.withMarks t)
      else if base.isFlat then .error .flatBase
      else if base.kind == .file then fileReference (some base) t
      else relative base t

def parse (t : Text) : Except UrlError Url := read none t

def join (base : Url) (reference : Text) : Except UrlError Url := read (some base) reference

/-- The URL with another path; marks of a query or fragment in it are percent-coded. A flat path
stays flat, and the guard of a path stays where it is. -/
def withPath (u : Url) (t : Text) : Url :=
  let code (t : Text) : Text := Percent.encode Host.isControl (visible t)
  if u.isFlat then
    let path := match t with
      | '/' :: rest => "%2F".toList ++ code rest
      | _ => code t
    { u with path }
  else if !u.kind.isSpecial && (ahead t).head?.any isPathEnd then { u with path := [] }
  else
    let (start, rest) := u.pathStart t
    { u with path := (Draft.extend u.kind start rest).toText }

end EdgeCompose.Url
