import EdgeCompose.Markup.Scan
import EdgeCompose.Table

/-!
Reading one tag: its name, whether it closes itself, and its attributes with their entities
decoded.
-/

namespace EdgeCompose.Markup

open Text

/-- A start tag that ends in a slash, spaces aside, closes itself. -/
def isSelfClosing (tag : Text) : Bool :=
  (trimEnd (dropEndWhile (· == '>') tag)).getLast? == some '/'

def endsName (c : Char) : Bool := isBlank c || c == '/' || c == '>'

/-- The name of a directive tag, without its lead. -/
def tagName (tag : Text) : Text :=
  ((dropLead? endLead tag <|> dropLead? startLead tag).getD tag).takeWhile (! endsName ·)

/-- The entities that attribute values may hold. The ampersand comes last, so that nothing it
gives is decoded again. -/
def entities : List (Text × Char) :=
  [("&lt;".toList, '<'), ("&gt;".toList, '>'), ("&quot;".toList, '"'), ("&apos;".toList, '\''),
    ("&#39;".toList, '\''), ("&amp;".toList, '&')]

def decodeEntities (value : Text) : Text :=
  entities.foldl (fun t e => replaceAll e.1 [e.2] t) value

/-- A value in quotes runs to the same quote or to the end, any other to the next blank. -/
def splitValue (t : Text) : Text × Text :=
  match t with
  | q :: rest =>
    if isQuote q then (rest.takeWhile (· != q), (rest.dropWhile (· != q)).drop 1)
    else (t.takeWhile (! isBlank ·), t.dropWhile (! isBlank ·))
  | [] => ([], [])

theorem length_splitValue (t : Text) : (splitValue t).2.length ≤ t.length := by
  unfold splitValue
  split
  · next q rest =>
    split
    · have := (List.dropWhile_suffix (fun c => c != q) (l := rest)).length_le
      simp only [List.length_drop, List.length_cons]
      omega
    · exact (List.dropWhile_suffix _).length_le
  · simp

def skipBetween (t : Text) : Text := t.dropWhile fun c => isBlank c || c == '/'

def attributeName (t : Text) : Text := t.takeWhile fun c => !isBlank c && c != '='

def afterName (t : Text) : Text := (t.dropWhile fun c => !isBlank c && c != '=').dropWhile isBlank

theorem length_afterName {t : Text} (h : attributeName t ≠ []) :
    (afterName t).length < t.length := by
  have h1 := (List.dropWhile_suffix isBlank
    (l := t.dropWhile fun c => !isBlank c && c != '=')).length_le
  have h2 := congrArg List.length
    (List.takeWhile_append_dropWhile (p := fun c => !isBlank c && c != '=') (l := t))
  have h3 := List.length_pos_iff.mpr h
  simp only [List.length_append] at h2
  unfold attributeName at h3
  unfold afterName
  omega

/-- Names with their values, in order. A name without an equals sign has the empty value; where
no name stands the list ends. -/
def attributeList (t : Text) : List (Text × Text) :=
  let t' := skipBetween t
  if _h : attributeName t' = [] then []
  else
    match _hv : afterName t' with
    | '=' :: rest =>
      (attributeName t', decodeEntities (splitValue (rest.dropWhile isBlank)).1) ::
        attributeList (splitValue (rest.dropWhile isBlank)).2
    | rest => (attributeName t', []) :: attributeList rest
termination_by t.length
decreasing_by
  · have h1 := length_afterName _h
    have h2 := (List.dropWhile_suffix (fun c => isBlank c || c == '/') (l := t)).length_le
    have h3 := (List.dropWhile_suffix isBlank (l := rest)).length_le
    have h4 := length_splitValue (rest.dropWhile isBlank)
    rw [_hv] at h1
    simp only [List.length_cons, t', skipBetween] at h1
    omega
  · have h1 := length_afterName _h
    have h2 := (List.dropWhile_suffix (fun c => isBlank c || c == '/') (l := t)).length_le
    rw [_hv] at h1
    simp only [t', skipBetween] at h1
    omega

/-- What stands between the name of a tag and its end. -/
def attributeText (tag : Text) : Text :=
  (dropEndWhile (· == '/') (dropEndWhile (· == '>') tag)).dropWhile (! isBlank ·)

/-- The attributes of a tag; of two with one name the later counts. -/
def attributes (tag : Text) : Table Text Text := .ofList (attributeList (attributeText tag))

end EdgeCompose.Markup
