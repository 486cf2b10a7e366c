import EdgeCompose.Url.Host

/-!
Writing the path of a URL, one segment after the other. Dots take back what is written already,
and in file paths drive letters stay where they stand: dots do not remove them, and nothing
becomes part of their segment. The path so far is kept backwards, its last character first, as
all that a step looks at is near the end.
-/

namespace EdgeCompose.Url

open Text

/-- Tabs and line ends count for nothing in a URL, wherever they stand. -/
def isIgnored (c : Char) : Bool := c == '\t' || c == '\n' || c == '\r'

def visible (t : Text) : Text := t.filter (! isIgnored ·)

def inFragmentSet (c : Char) : Bool := Host.isControl c || " \"<>`".toList.contains c

def inPathSet (c : Char) : Bool := inFragmentSet c || "#?\x7b\x7d".toList.contains c

def isSlash (kind : SchemeKind) (c : Char) : Bool := c == '/' || (kind.isSpecial && c == '\\')

def isDoubleDot (s : Text) : Bool :=
  ["..".toList, ".%2e".toList, "%2e.".toList, "%2e%2e".toList].contains (lower s)

def isSingleDot (s : Text) : Bool := [".".toList, "%2e".toList].contains (lower s)

/-- A drive may be written with a bar; its proper form has a colon. -/
def isDriveLetter : Text → Bool
  | [a, b] => isAlpha a && (b == ':' || b == '|')
  | _ => false

/-- Whether a drive letter is all there is up to a mark or the end. -/
def startsWithDrive (t : Text) : Bool :=
  isDriveLetter (t.take 2) && ((t.drop 2).head?.map fun c => "/\\?#".toList.contains c).getD true

/-- A path that is being written; `drive` says whether a drive was entered at its front. -/
structure Draft where
  back : Text
  drive : Bool := false

namespace Draft

def ofText (t : Text) : Draft := { back := t.reverse }

def toText (d : Draft) : Text := d.back.reverse

/-- A proper drive letter, written backwards. -/
def isDrive : Text → Bool
  | [b, a] => b == ':' && isAlpha a
  | _ => false

/-- Whether a proper drive letter is all that follows the first character of a path. -/
def isDriveAlone : Text → Bool
  | [b, a, _] => isDrive [b, a]
  | _ => false

/-- An empty path follows the slashes of an empty host. -/
def endsInSlash (back : Text) : Bool := back.head?.all (· == '/')

def close (back : Text) : Text := if endsInSlash back then back else '/' :: back

/-- Takes the last name off; a drive in a file path stays. -/
def pop (kind : SchemeKind) (back : Text) : Text :=
  if kind == .file && isDrive (back.takeWhile (· != '/')) then back else back.dropWhile (· != '/')

def shorten (kind : SchemeKind) (back : Text) : Text :=
  if kind == .file && isDrive back then back else pop kind back

/-- Takes a slash at the end off, unless it is the first one or follows a drive letter. -/
def reopen (back : Text) : Text :=
  match back with
  | '/' :: dir =>
    if (dir.dropWhile (· != '/')).isEmpty || startsWithDrive (dir.takeWhile (· != '/')).reverse
    then back else dir
  | _ => back

def parent (kind : SchemeKind) (back : Text) : Text := shorten kind (reopen back)

/-- Writes characters that nothing ignored interrupts, `length` of the segment being written.
A drive that is alone in a file path is closed before more follows. -/
def write (kind : SchemeKind) (s : Text × Nat) (run : Text) : Text × Nat :=
  let (back, length) := s
  let code := Percent.encode inPathSet run
  let back := if kind == .file && isDriveAlone back then '/' :: back else back
  (code.reverse ++ back, length + code.length)

def splitRuns (piece : Text) : List Text :=
  ((piece.map fun c => if isIgnored c then '\t' else c).splitOn '\t').filter (! ·.isEmpty)

/-- Adds one piece of a path; `more` says that a slash follows it. -/
def push (kind : SchemeKind) (d : Draft) (piece : Text) (more : Bool) : Draft :=
  let (back, length) := (splitRuns piece).foldl (write kind) (d.back, 0)
  let segment := (back.take length).reverse
  let front := back.drop length
  if isDoubleDot segment then
    let back := parent kind front
    { d with back := if more then close back else back }
  else if isSingleDot segment then { d with back := close front }
  else
    let drive := kind == .file && front == ['/'] && isDriveLetter segment
    let back := if drive then ':' :: segment.head?.toList ++ front else back
    { back := if more then '/' :: back else back, drive := d.drive || drive }

def pushAll (kind : SchemeKind) (d : Draft) : List Text → Draft
  | [] => d
  | [piece] => d.push kind piece false
  | piece :: rest => pushAll kind (d.push kind piece true) rest

/-- The pieces of a path between its slashes. -/
def pieces (kind : SchemeKind) (t : Text) : List Text :=
  (t.map fun c => if isSlash kind c then '/' else c).splitOn '/'

/-- File paths have one slash at their front. -/
def trimmed (kind : SchemeKind) (d : Draft) : Draft :=
  if kind == .file then { d with back := (dropEndWhile (· == '/') d.back) ++ ['/'] } else d

/-- The path that `t` leads to when `start` is written before it. -/
def extend (kind : SchemeKind) (start t : Text) : Draft :=
  ((ofText start).pushAll kind (pieces kind t)).trimmed kind

end Draft

end EdgeCompose.Url
