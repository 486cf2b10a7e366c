import EdgeCompose.Text.Utf8

/-!
Percent coding of bytes, and the query strings of forms built on it.
-/

namespace EdgeCompose.Percent

def hexDigit (n : Nat) : Char :=
  if n < 10 then Char.ofNat ('0'.toNat + n) else Char.ofNat ('A'.toNat + (n - 10))

def encodeByte (b : UInt8) : Text := ['%', hexDigit (b.toNat / 16), hexDigit (b.toNat % 16)]

/-- Writes every character that `escape` holds of, and all beyond ASCII, as coded bytes. -/
def encodeChar (escape : Char → Bool) (c : Char) : Text :=
  if c.toNat ≥ 0x80 || escape c then (String.utf8EncodeChar c).flatMap encodeByte else [c]

def encode (escape : Char → Bool) (t : Text) : Text := t.flatMap (encodeChar escape)

/-- The byte that three bytes code, if they are a percent sign and two hexadecimal digits. -/
def coded? (b h l : UInt8) : Option UInt8 :=
  if b.toNat == 0x25 then
    match Text.hexValue? (Char.ofNat h.toNat), Text.hexValue? (Char.ofNat l.toNat) with
    | some x, some y => some (UInt8.ofNat (16 * x + y))
    | _, _ => none
  else none

/-- Bytes that code nothing stand for themselves. -/
def decode : Bytes → Bytes
  | b :: h :: l :: tail =>
    match coded? b h l with
    | some x => x :: decode tail
    | none => b :: decode (h :: l :: tail)
  | short => short

end EdgeCompose.Percent

namespace EdgeCompose.Form

/-- A component of a form: plus signs are spaces, then percent coding, then UTF-8. -/
def component (t : Text) : Text :=
  Utf8.decode (Percent.decode (Utf8.encode (t.map fun c => if c == '+' then ' ' else c)))

/-- The name and value of one part; without an equals sign the value is empty. -/
def pair (part : Text) : Text × Text :=
  match Text.splitOnce? '=' part with
  | some (name, value) => (component name, component value)
  | none => (component part, [])

/-- The pairs of a query string, in order; empty parts are none. -/
def pairs (query : Text) : List (Text × Text) :=
  ((query.splitOn '&').filter (! ·.isEmpty)).map pair

end EdgeCompose.Form
