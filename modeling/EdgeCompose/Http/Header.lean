import EdgeCompose.Text.Utf8

/-!
Header fields: names in lower case, values as bytes, several values to a name. A value reads as
text only if it holds visible ASCII, spaces and tabs and nothing else.
-/

namespace EdgeCompose

abbrev Headers := List (Text × Bytes)

namespace Headers

def isNameChar (c : Char) : Bool := Text.isAlphanumeric c || "!#$%&'*+-.^_`|~".toList.contains c

/-- A name in lower case, if it is one. -/
def name? (t : Text) : Option Text :=
  if !t.isEmpty && t.all isNameChar then some (Text.lower t) else none

def isTextByte (b : UInt8) : Bool := (0x20 ≤ b.toNat && b.toNat < 0x7F) || b.toNat == 0x09

def valueText? (value : Bytes) : Option Text :=
  if value.all isTextByte then some (value.map fun b => Char.ofNat b.toNat) else none

theorem valueText?_eq_some_iff {value : Bytes} {t : Text} : valueText? value = some t ↔
    (∀ b ∈ value, isTextByte b = true) ∧ value.map (fun b => Char.ofNat b.toNat) = t := by
  simp [valueText?, List.all_eq_true]

def getAll (headers : Headers) (name : Text) : List Bytes :=
  (headers.filter (·.1 == name)).map Prod.snd

/-- The first value of a name. -/
def get? (headers : Headers) (name : Text) : Option Bytes := (headers.getAll name).head?

/-- The first value of a name, where that one is text. -/
def text? (headers : Headers) (name : Text) : Option Text := (headers.get? name).bind valueText?

def contains (headers : Headers) (name : Text) : Bool := (headers.get? name).isSome

def append (headers : Headers) (name : Text) (value : Bytes) : Headers :=
  List.append headers [(Text.lower name, value)]

/-- Gives a name one value in place of all it had. -/
def set (headers : Headers) (name : Text) (value : Bytes) : Headers :=
  append (headers.filter (·.1 != Text.lower name)) name value

def ofPairs (pairs : List (Text × Bytes)) : Headers :=
  pairs.foldl (fun headers e => headers.append e.1 e.2) []

end Headers

end EdgeCompose
