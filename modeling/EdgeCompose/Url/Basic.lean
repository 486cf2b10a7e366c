import EdgeCompose.Text.Percent

/-!
Absolute URLs by their parts, and the one way each is written.
-/

namespace EdgeCompose

/-- Why a text is no URL. -/
inductive UrlError where
  | emptyHost
  | invalidDomain
  | invalidHostCharacter
  | invalidPort
  | invalidIpv4
  | invalidIpv6
  | noBase
  | flatBase
  deriving DecidableEq, Repr

def UrlError.message : UrlError → Text
  | .emptyHost => "empty host".toList
  | .invalidDomain => "invalid international domain name".toList
  | .invalidHostCharacter => "invalid domain character".toList
  | .invalidPort => "invalid port number".toList
  | .invalidIpv4 => "invalid IPv4 address".toList
  | .invalidIpv6 => "invalid IPv6 address".toList
  | .noBase => "relative URL without a base".toList
  | .flatBase => "relative URL with a cannot-be-a-base base".toList

inductive Host where
  | domain (name : Text)
  | ipv4 (address : Nat)
  | ipv6 (pieces : List Nat)
  deriving DecidableEq, Repr

structure Authority where
  username : Text := []
  password : Option Text := none
  host : Option Host := none
  port : Option Nat := none
  deriving DecidableEq, Repr

/-- A path is kept as it is written. A guarded one stands behind `/.`, so that two slashes at
its front do not announce an authority. -/
structure Url where
  scheme : Text
  authority : Option Authority := none
  guarded : Bool := false
  path : Text
  query : Option Text := none
  fragment : Option Text := none
  deriving DecidableEq, Repr

/-- How a scheme treats slashes, hosts and drive letters. -/
inductive SchemeKind where
  | special
  | file
  | other
  deriving DecidableEq, Repr

def SchemeKind.of (scheme : Text) : SchemeKind :=
  if scheme == "file".toList then .file
  else if ["http".toList, "https".toList, "ws".toList, "wss".toList, "ftp".toList].contains scheme
  then .special
  else .other

def SchemeKind.isSpecial : SchemeKind → Bool
  | .other => false
  | _ => true

def defaultPort? (scheme : Text) : Option Nat :=
  if scheme == "http".toList || scheme == "ws".toList then some 80
  else if scheme == "https".toList || scheme == "wss".toList then some 443
  else if scheme == "ftp".toList then some 21
  else none

namespace Host

def ipv4Text (address : Nat) : Text :=
  List.intercalate ['.'] ([16777216, 65536, 256, 1].map fun unit => Text.ofNat (address / unit % 256))

/-- The length of the run of zeros at the front. -/
def zeros (pieces : List Nat) : Nat := (pieces.takeWhile (· == 0)).length

/-- Start and length of the longest run of two or more zeros, the first of equals. -/
def longestZeros (pieces : List Nat) : Option (Nat × Nat) :=
  (List.range pieces.length).foldl (fun best start =>
    let n := zeros (pieces.drop start)
    match best with
    | some (_, m) => if n > m then some (start, n) else best
    | none => if n ≥ 2 then some (start, n) else none) none

def hexPieces (pieces : List Nat) : Text :=
  List.intercalate [':'] (pieces.map (Nat.toDigits 16))

def ipv6Text (pieces : List Nat) : Text :=
  match longestZeros pieces with
  | some (start, n) =>
    hexPieces (pieces.take start) ++ [':', ':'] ++ hexPieces (pieces.drop (start + n))
  | none => hexPieces pieces

def toText : Host → Text
  | .domain name => name
  | .ipv4 address => ipv4Text address
  | .ipv6 pieces => '[' :: ipv6Text pieces ++ [']']

end Host

namespace Authority

def credentials (a : Authority) : Text :=
  match a.username, a.password with
  | [], none => []
  | name, none => name ++ ['@']
  | name, some word => name ++ ':' :: word ++ ['@']

def toText (a : Authority) : Text :=
  a.credentials ++ (a.host.map Host.toText).getD [] ++
    (a.port.map fun n => ':' :: Text.ofNat n).getD []

end Authority

namespace Url

def toText (u : Url) : Text :=
  u.scheme ++ [':'] ++ (u.authority.map fun a => '/' :: '/' :: a.toText).getD [] ++
    (if u.guarded then ['/', '.'] else []) ++ u.path ++
    (u.query.map ('?' :: ·)).getD [] ++ (u.fragment.map ('#' :: ·)).getD []

/-- Whether relative references cannot extend the path: no slash follows the scheme. -/
def isFlat (u : Url) : Bool := u.authority.isNone && !u.guarded && u.path.head? != some '/'

def kind (u : Url) : SchemeKind := .of u.scheme

/-- Scheme, host and port: what two URLs of one server share. -/
def origin (u : Url) : Text × Option Host × Option Nat :=
  (u.scheme, u.authority.bind (·.host), u.authority.bind (·.port))

end Url

end EdgeCompose
