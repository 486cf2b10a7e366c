import EdgeCompose.Text.Basic

/-!
Socket addresses: an IPv4 address and a port, or an IPv6 address in brackets, perhaps with a
scope, and a port. Names of hosts are no addresses.
-/

namespace EdgeCompose.SocketAddress

open Text (digitsValue isDigit hexValue?)

/-- Digits at the front that write a number below `bound`. -/
def number? (bound : Nat) (t : Text) : Option Text :=
  let digits := t.takeWhile isDigit
  if digits.isEmpty || digitsValue digits ≥ bound then none else some (t.drop digits.length)

/-- One part of an IPv4 address: up to three digits, no zero before others. -/
def octet? (t : Text) : Option Text :=
  let digits := t.takeWhile isDigit
  if digits.length > 3 || (digits.length > 1 && digits.head? == some '0') then none
  else number? 256 t

/-- One part of an IPv6 address: up to four hexadecimal digits. -/
def piece? (t : Text) : Option Text :=
  let digits := t.takeWhile fun c => (hexValue? c).isSome
  if digits.isEmpty || digits.length > 4 then none else some (t.drop digits.length)

def mark? (c : Char) : Text → Option Text
  | d :: t => if d == c then some t else none
  | [] => none

def ipv4? (t : Text) : Option Text := do
  let t ← octet? t
  let t ← octet? (← mark? '.' t)
  let t ← octet? (← mark? '.' t)
  octet? (← mark? '.' t)

/-- Reads pieces with colons between them as long as there is room for them. The last two may be
written as an IPv4 address. Gives how many pieces were read, whether an IPv4 address was among
them, and the rest. -/
def pieces (isFirst : Bool) : (room : Nat) → Text → Nat × Bool × Text
  | 0, t => (0, false, t)
  | room + 1, t =>
    let next := if isFirst then some t else mark? ':' t
    match (if room == 0 then none else next.bind ipv4?) with
    | some rest => (2, true, rest)
    | none =>
      match next.bind piece? with
      | none => (0, false, t)
      | some rest =>
        let (n, embedded, rest) := pieces false room rest
        (n + 1, embedded, rest)

/-- Eight pieces, or fewer around two colons that stand for zeros. -/
def ipv6? (t : Text) : Option Text :=
  let (n, embedded, rest) := pieces true 8 t
  if n == 8 then some rest
  else if embedded then none
  else do
    let rest ← mark? ':' (← mark? ':' rest)
    some (pieces true (7 - n) rest).2.2

def port? (t : Text) : Option Text := do number? 65536 (← mark? ':' t)

def scope (t : Text) : Text := ((mark? '%' t).bind (number? 4294967296)).getD t

def v4? (t : Text) : Option Text := do port? (← ipv4? t)

def v6? (t : Text) : Option Text := do
  let t ← ipv6? (← mark? '[' t)
  port? (← mark? ']' (scope t))

def isValid (t : Text) : Bool := (v4? t <|> v6? t) == some []

end EdgeCompose.SocketAddress
