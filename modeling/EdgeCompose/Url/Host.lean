import EdgeCompose.Url.Basic

/-!
Reading hosts: domain names, IPv4 addresses in their four notations, and IPv6 addresses.
Domain names are ASCII: a name with any other character is refused, written or percent-encoded, as
there is no mapping of international names here, and a label that begins with xn-- is kept as it is.
-/

namespace EdgeCompose.Host

open Text

/-- One number of an IPv4 address, with the base its lead announces. Numbers without digits
after the lead are zero. -/
def ipv4Number? (t : Text) : Option Nat :=
  match t with
  | [] => none
  | '0' :: 'x' :: digits | '0' :: 'X' :: digits =>
    digits.foldl (fun n? c => do return 16 * (← n?) + (← hexValue? c)) (some 0)
  | '0' :: d :: digits =>
    (d :: digits).foldl (fun n? c => do
      let n ← n?
      if '0' ≤ c && c ≤ '7' then some (8 * n + digitValue c) else none) (some 0)
  | digits => if digits.all isDigit then some (digitsValue digits) else none

/-- Whether the last label, apart from one empty label at the end, is a number. -/
def endsInNumber (name : Text) : Bool :=
  let last? := match (name.splitOn '.').reverse with
    | [] :: label :: _ => some label
    | [] :: [] => none
    | label :: _ => some label
    | [] => none
  match last? with
  | some label => (!label.isEmpty && label.all isDigit) || (ipv4Number? label).isSome
  | none => false

def parseIpv4 (name : Text) : Except UrlError Host :=
  let labels := name.splitOn '.'
  let labels := if labels.getLast? == some [] then labels.dropLast else labels
  match labels.mapM ipv4Number? with
  | some numbers =>
    match numbers.getLast? with
    | some last =>
      let front := numbers.dropLast
      if numbers.length ≤ 4 && last < Nat.pow 256 (4 - front.length) && front.all (· < 256) then
        let high := front.foldl (fun n x => 256 * n + x) 0
        .ok (.ipv4 (high * Nat.pow 256 (4 - front.length) + last))
      else .error .invalidIpv4
    | none => .error .invalidIpv4
  | none => .error .invalidIpv4

/-- The decimal parts of an IPv4 address inside an IPv6 one: four numbers below 256 without
needless zeros. -/
def embeddedIpv4? (t : Text) : Option (List Nat) :=
  let parts := t.splitOn '.'
  let part? (p : Text) : Option Nat :=
    if !p.isEmpty && p.all isDigit && (p.length == 1 || p.head? != some '0') && digitsValue p < 256
    then some (digitsValue p) else none
  if parts.length == 4 then
    (parts.mapM part?).bind fun
      | [a, b, c, d] => some [256 * a + b, 256 * c + d]
      | _ => none
  else none

def hexPiece? (t : Text) : Option Nat :=
  if t.isEmpty || t.length > 4 then none
  else t.foldl (fun n? c => do return 16 * (← n?) + (← hexValue? c)) (some 0)

/-- Pieces between colons; only the last may be an IPv4 address. -/
def pieces? (t : Text) : Option (List Nat) :=
  if t.isEmpty then some []
  else
    let parts := t.splitOn ':'
    match parts.getLast? with
    | some last =>
      if last.contains '.' then do
        let front ← parts.dropLast.mapM hexPiece?
        return front ++ (← embeddedIpv4? last)
      else parts.mapM hexPiece?
    | none => none

/-- Eight pieces, or fewer around one double colon, which stands for at least one zero. -/
def parseIpv6 (t : Text) : Except UrlError Host :=
  let read? : Option (List Nat) :=
    match cut? [':', ':'] t with
    | none => (pieces? t).bind fun pieces => if pieces.length == 8 then some pieces else none
    | some (front, back) =>
      if front.contains '.' then none
      else do
        let front ← pieces? front
        let back ← pieces? back
        let missing := 8 - (front.length + back.length)
        if missing == 0 then none
        else return front ++ List.replicate missing 0 ++ back
  match read? with
  | some pieces => .ok (.ipv6 pieces)
  | none => .error .invalidIpv6

/-- Characters that no domain name holds. -/
def forbiddenInDomain (c : Char) : Bool :=
  c.toNat ≤ 0x20 || c.toNat ≥ 0x7F || "#/:<>?@[\\]^|%".toList.contains c

def bracketed? (t : Text) : Option Text :=
  match t with
  | '[' :: rest => some rest
  | _ => none

def parseBracketed (rest : Text) : Except UrlError Host :=
  if rest.getLast? == some ']' then parseIpv6 rest.dropLast else .error .invalidIpv6

/-- The host of a special scheme. -/
def parse (t : Text) : Except UrlError Host :=
  match bracketed? t with
  | some rest => parseBracketed rest
  | none =>
    let name := lower (Utf8.decode (Percent.decode (Utf8.encode t)))
    if name.any forbiddenInDomain then .error .invalidDomain
    else if name.isEmpty then .error .emptyHost
    else if endsInNumber name then parseIpv4 name
    else .ok (.domain name)

def forbiddenInFlat (c : Char) : Bool :=
  c == '\x00' || "\t\n\r #/:<>?@[\\]^|".toList.contains c

def isControl (c : Char) : Bool := c.toNat < 0x20 || c.toNat == 0x7F

/-- The host of any other scheme, kept as it is written; an empty one is no host. -/
def parseFlat (t : Text) : Except UrlError (Option Host) :=
  match bracketed? t with
  | some rest => (parseBracketed rest).map some
  | none =>
    if t.any forbiddenInFlat then .error .invalidHostCharacter
    else if t.isEmpty then .ok none
    else .ok (some (.domain (Percent.encode isControl t)))

end EdgeCompose.Host
