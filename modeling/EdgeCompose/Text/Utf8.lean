import EdgeCompose.Text.Basic

/-!
UTF-8. Writing is total. Reading never fails: each longest start of a sequence that no
character continues reads as one replacement character.
-/

namespace EdgeCompose.Utf8

def encode (t : Text) : Bytes := t.flatMap String.utf8EncodeChar

def replacement : Char := '\uFFFD'

/-- Between characters, or inside one: the bytes still owed, the least and the greatest next
byte, and the bits read so far. -/
inductive State where
  | idle
  | owing (count low high bits : Nat)
  deriving DecidableEq, Repr

/-- Reads the first byte of a character. -/
def first (b : Nat) : Text × State :=
  if b < 0x80 then ([Char.ofNat b], .idle)
  else if b < 0xC2 then ([replacement], .idle)
  else if b < 0xE0 then ([], .owing 1 0x80 0xBF (b - 0xC0))
  else if b == 0xE0 then ([], .owing 2 0xA0 0xBF 0)
  else if b == 0xED then ([], .owing 2 0x80 0x9F 0xD)
  else if b < 0xF0 then ([], .owing 2 0x80 0xBF (b - 0xE0))
  else if b == 0xF0 then ([], .owing 3 0x90 0xBF 0)
  else if b < 0xF4 then ([], .owing 3 0x80 0xBF (b - 0xF0))
  else if b == 0xF4 then ([], .owing 3 0x80 0x8F 4)
  else ([replacement], .idle)

/-- Reads one byte; a byte that cannot continue the open character starts a new one. -/
def step : State → Nat → Text × State
  | .idle, b => first b
  | .owing count low high bits, b =>
    if low ≤ b && b ≤ high then
      let bits := bits * 64 + (b - 0x80)
      if count ≤ 1 then ([Char.ofNat bits], .idle)
      else ([], .owing (count - 1) 0x80 0xBF bits)
    else
      let (out, state) := first b
      (replacement :: out, state)

def run : State → Bytes → Text
  | .idle, [] => []
  | .owing .., [] => [replacement]
  | state, b :: rest =>
    let (out, next) := step state b.toNat
    out ++ run next rest

def decode (bytes : Bytes) : Text := run .idle bytes

end EdgeCompose.Utf8
