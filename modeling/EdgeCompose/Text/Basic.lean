/-!
Text is a list of characters, so that every reader in this library is an induction on its
input. The module holds the cutting, trimming and searching that the readers share, and the
reading of bounded unsigned numbers.
-/

namespace EdgeCompose

abbrev Text := List Char

abbrev Bytes := List UInt8

namespace Text

/-- The characters with the Unicode property White_Space. -/
def isBlank (c : Char) : Bool :=
  let n := c.toNat
  (0x09 ≤ n && n ≤ 0x0D) || n == 0x20 || n == 0x85 || n == 0xA0 || n == 0x1680 ||
    (0x2000 ≤ n && n ≤ 0x200A) || n == 0x2028 || n == 0x2029 || n == 0x202F ||
    n == 0x205F || n == 0x3000

def dropEndWhile (p : Char → Bool) (t : Text) : Text :=
  (t.reverse.dropWhile p).reverse

def trimEnd (t : Text) : Text := dropEndWhile isBlank t

def trim (t : Text) : Text := trimEnd (t.dropWhile isBlank)

/-- Takes one character off both ends as often as it stands there. -/
def trimChar (c : Char) (t : Text) : Text :=
  dropEndWhile (· == c) (t.dropWhile (· == c))

/-- Lower case of the ASCII letters; all other characters stay. -/
def lower (t : Text) : Text := t.map Char.toLower

/-- Equality up to the case of ASCII letters. -/
def equalFold (a b : Text) : Bool := lower a == lower b

/-- What follows `lead`, if the text starts with it. -/
def dropLead? : (lead t : Text) → Option Text
  | [], t => some t
  | _ :: _, [] => none
  | a :: lead, b :: t => if a == b then dropLead? lead t else none

/-- The text before the first occurrence of `mark` and the text after it. -/
def cut? (mark : Text) : Text → Option (Text × Text)
  | [] => (dropLead? mark []).map ([], ·)
  | c :: t =>
    match dropLead? mark (c :: t) with
    | some rest => some ([], rest)
    | none => (cut? mark t).map fun (before, rest) => (c :: before, rest)

/-- The text before the first `sep` and the text after it. -/
def splitOnce? (sep : Char) : Text → Option (Text × Text)
  | [] => none
  | c :: t =>
    if c == sep then some ([], t)
    else (splitOnce? sep t).map fun (before, rest) => (c :: before, rest)

/-- Writes `new` for every occurrence of `old`, from the left, without looking again at what
was written. The first argument counts the characters of an occurrence still to be skipped. -/
def replaceFrom (old new : Text) : Nat → Text → Text
  | _, [] => []
  | k + 1, _ :: t => replaceFrom old new k t
  | 0, c :: t =>
    if (dropLead? old (c :: t)).isSome then new ++ replaceFrom old new (old.length - 1) t
    else c :: replaceFrom old new 0 t

def replaceAll (old new t : Text) : Text := replaceFrom old new 0 t

def isDigit (c : Char) : Bool := '0' ≤ c && c ≤ '9'

def digitValue (c : Char) : Nat := c.toNat - '0'.toNat

/-- The number that a list of decimal digits writes. -/
def digitsValue (t : Text) : Nat := t.foldl (fun n c => 10 * n + digitValue c) 0

/-- A number below `bound` in decimal digits, with an optional plus sign before them. -/
def unsigned? (bound : Nat) (t : Text) : Option Nat :=
  let digits := match t with
    | '+' :: rest => rest
    | _ => t
  if !digits.isEmpty && digits.all isDigit && digitsValue digits < bound then
    some (digitsValue digits)
  else none

/-- Seconds and limits are unsigned numbers of 64 bits. -/
def u64? (t : Text) : Option Nat := unsigned? 18446744073709551616 t

def ofNat (n : Nat) : Text := Nat.toDigits 10 n

def hexValue? (c : Char) : Option Nat :=
  if isDigit c then some (digitValue c)
  else if 'a' ≤ c && c ≤ 'f' then some (c.toNat - 'a'.toNat + 10)
  else if 'A' ≤ c && c ≤ 'F' then some (c.toNat - 'A'.toNat + 10)
  else none

def isAlpha (c : Char) : Bool := ('a' ≤ c && c ≤ 'z') || ('A' ≤ c && c ≤ 'Z')

def isAlphanumeric (c : Char) : Bool := isAlpha c || isDigit c

theorem dropLead?_append (lead t : Text) : dropLead? lead (lead ++ t) = some t := by
  induction lead with
  | nil => rfl
  | cons a lead ih => simp [dropLead?, ih]

theorem eq_append_of_dropLead? {lead t rest : Text} (h : dropLead? lead t = some rest) :
    t = lead ++ rest := by
  induction lead generalizing t with
  | nil => simpa [dropLead?] using h
  | cons a lead ih =>
    cases t with
    | nil => simp [dropLead?] at h
    | cons b t =>
      simp only [dropLead?] at h
      split at h
      · next hab => simp [ih h, beq_iff_eq.mp hab]
      · simp at h

theorem eq_of_splitOnce? {sep : Char} {t before rest : Text}
    (h : splitOnce? sep t = some (before, rest)) : t = before ++ sep :: rest := by
  induction t generalizing before with
  | nil => simp [splitOnce?] at h
  | cons c t ih =>
    simp only [splitOnce?] at h
    split at h
    · next hc => simp_all
    · simp only [Option.map_eq_some_iff, Prod.mk.injEq] at h
      obtain ⟨⟨b, r⟩, hs, rfl, rfl⟩ := h
      simp [ih hs]

end Text

end EdgeCompose
