import EdgeCompose.Text.Basic

/-!
A page is cut into text, `esi:` tags and dropped markers. The markers of an `<!--esi` comment
are dropped, so that its content is scanned as if it stood outside. A tag that never ends makes
the rest of the page text. No character of the page is lost: `flatten_pieces`.
-/

namespace EdgeCompose.Markup

def startLead : Text := "<esi:".toList

def endLead : Text := "</esi:".toList

def commentOpen : Text := "<!--esi".toList

def commentClose : Text := "-->".toList

inductive Token where
  | text (t : Text)
  | tag (t : Text)
  deriving DecidableEq, Repr

/-- What a page is cut into: tokens, and the comment markers that are dropped. -/
inductive Piece where
  | token (t : Token)
  | dropped (marker : Text)
  deriving DecidableEq, Repr

inductive Marker where
  | tag
  | opening
  | closing
  deriving DecidableEq, Repr

/-- The marker that a text starts with; a comment is closed only where one is open. -/
def markerAt (inComment : Bool) (t : Text) : Option Marker :=
  if startLead.isPrefixOf t || endLead.isPrefixOf t then some .tag
  else if commentOpen.isPrefixOf t then some .opening
  else if inComment && commentClose.isPrefixOf t then some .closing
  else none

def isQuote (c : Char) : Bool := c == '"' || c == '\''

/-- The text through the first `>` outside quotes and what follows it. A `<` outside quotes
says that there is no such tag. -/
def tagRest? (quote : Option Char) : Text → Option (Text × Text)
  | [] => none
  | c :: t =>
    match quote with
    | some q =>
      (tagRest? (if c == q then none else some q) t).map fun (tag, rest) => (c :: tag, rest)
    | none =>
      if c == '>' then some ([c], t)
      else if c == '<' then none
      else
        (tagRest? (if isQuote c then some c else none) t).map fun (tag, rest) => (c :: tag, rest)

/-- Splits off the tag whose first character is the first of the text. -/
def splitTag? : Text → Option (Text × Text)
  | [] => none
  | c :: t => (tagRest? none t).map fun (tag, rest) => (c :: tag, rest)

/-- Splits off the text before the next marker. -/
def splitText (inComment : Bool) : Text → Text × Text
  | [] => ([], [])
  | c :: t =>
    if (markerAt inComment (c :: t)).isSome then ([], c :: t)
    else
      let (text, rest) := splitText inComment t
      (c :: text, rest)

theorem tagRest?_eq {quote : Option Char} {t tag rest : Text}
    (h : tagRest? quote t = some (tag, rest)) : t = tag ++ rest ∧ 0 < tag.length := by
  induction t generalizing quote tag with
  | nil => simp [tagRest?] at h
  | cons c t ih =>
    cases quote with
    | some q =>
      simp only [tagRest?, Option.map_eq_some_iff, Prod.mk.injEq] at h
      obtain ⟨⟨a, b⟩, ha, rfl, rfl⟩ := h
      exact ⟨by simp [(ih ha).1], by simp⟩
    | none =>
      simp only [tagRest?] at h
      split at h
      · next hc =>
        simp only [Option.some.injEq, Prod.mk.injEq] at h
        obtain ⟨rfl, rfl⟩ := h
        exact ⟨rfl, by simp⟩
      · split at h
        · simp at h
        · simp only [Option.map_eq_some_iff, Prod.mk.injEq] at h
          obtain ⟨⟨a, b⟩, ha, rfl, rfl⟩ := h
          exact ⟨by simp [(ih ha).1], by simp⟩

/-- A tag and what follows it are the text, and the tag is not empty. -/
theorem splitTag?_eq {t tag rest : Text} (h : splitTag? t = some (tag, rest)) :
    t = tag ++ rest ∧ 0 < tag.length := by
  cases t with
  | nil => simp [splitTag?] at h
  | cons c t =>
    simp only [splitTag?, Option.map_eq_some_iff, Prod.mk.injEq] at h
    obtain ⟨⟨a, b⟩, ha, rfl, rfl⟩ := h
    exact ⟨by simp [(tagRest?_eq ha).1], by simp⟩

theorem splitText_append (inComment : Bool) (t : Text) :
    (splitText inComment t).1 ++ (splitText inComment t).2 = t := by
  induction t with
  | nil => rfl
  | cons c t ih =>
    unfold splitText
    split
    · rfl
    · simpa using ih

theorem splitText_length (inComment : Bool) (c : Char) (t : Text)
    (h : markerAt inComment (c :: t) = none) :
    (splitText inComment (c :: t)).2.length < (c :: t).length := by
  have ht := congrArg List.length (splitText_append inComment t)
  simp only [List.length_append] at ht
  simp only [splitText, h, Option.isSome_none, Bool.false_eq_true, if_false, List.length_cons]
  omega

theorem splitTag?_length {t tag rest : Text} (h : splitTag? t = some (tag, rest)) :
    rest.length < t.length := by
  obtain ⟨rfl, hpos⟩ := splitTag?_eq h
  simp only [List.length_append]
  omega

theorem length_commentOpen : 0 < commentOpen.length := by decide

theorem length_commentClose : 0 < commentClose.length := by decide

/-- The pieces of a page, from a point inside or outside a dropped comment. -/
def piecesFrom (inComment : Bool) (t : Text) : List Piece :=
  match t with
  | [] => []
  | c :: rest =>
    match _hm : markerAt inComment (c :: rest) with
    | none =>
      .token (.text (splitText inComment (c :: rest)).1) ::
        piecesFrom inComment (splitText inComment (c :: rest)).2
    | some .opening =>
      .dropped commentOpen :: piecesFrom true ((c :: rest).drop commentOpen.length)
    | some .closing =>
      .dropped commentClose :: piecesFrom false ((c :: rest).drop commentClose.length)
    | some .tag =>
      match _ht : splitTag? (c :: rest) with
      | some (tag, after) => .token (.tag tag) :: piecesFrom inComment after
      | none => [.token (.text (c :: rest))]
termination_by t.length
decreasing_by
  · exact splitText_length inComment c rest _hm
  · simpa using Nat.sub_lt (Nat.succ_pos rest.length) length_commentOpen
  · simpa using Nat.sub_lt (Nat.succ_pos rest.length) length_commentClose
  · exact splitTag?_length _ht

def pieces (page : Text) : List Piece := piecesFrom false page

def Piece.token? : Piece → Option Token
  | .token t => some t
  | .dropped _ => none

/-- The tokens of a page, in order. -/
def scan (page : Text) : List Token := (pieces page).filterMap Piece.token?

def Token.toText : Token → Text
  | .text t => t
  | .tag t => t

def Piece.toText : Piece → Text
  | .token t => t.toText
  | .dropped marker => marker

theorem markerAt_opening {inComment : Bool} {t : Text} (h : markerAt inComment t = some .opening) :
    t = commentOpen ++ t.drop commentOpen.length := by
  simp only [markerAt] at h
  split at h
  · simp at h
  · split at h
    · next hp =>
      obtain ⟨r, rfl⟩ := List.isPrefixOf_iff_prefix.mp hp
      simp
    · split at h <;> simp at h

theorem markerAt_closing {inComment : Bool} {t : Text} (h : markerAt inComment t = some .closing) :
    t = commentClose ++ t.drop commentClose.length := by
  simp only [markerAt] at h
  split at h
  · simp at h
  · split at h
    · simp at h
    · split at h
      · next hp =>
        simp only [Bool.and_eq_true] at hp
        obtain ⟨r, rfl⟩ := List.isPrefixOf_iff_prefix.mp hp.2
        simp
      · simp at h

theorem flatten_piecesFrom (inComment : Bool) (t : Text) :
    ((piecesFrom inComment t).map Piece.toText).flatten = t := by
  fun_induction piecesFrom inComment t with
  | case1 => rfl
  | case2 inComment c rest hm ih =>
    simp only [List.map_cons, List.flatten_cons, ih, Piece.toText, Token.toText]
    exact splitText_append inComment (c :: rest)
  | case3 inComment c rest hm ih =>
    simp only [List.map_cons, List.flatten_cons, ih, Piece.toText]
    exact (markerAt_opening hm).symm
  | case4 inComment c rest hm ih =>
    simp only [List.map_cons, List.flatten_cons, ih, Piece.toText]
    exact (markerAt_closing hm).symm
  | case5 inComment c rest hm tag after ht ih =>
    simp only [List.map_cons, List.flatten_cons, ih, Piece.toText, Token.toText]
    exact (splitTag?_eq ht).1.symm
  | case6 => simp [Piece.toText, Token.toText]

/-- The pieces of a page, put together, are the page. -/
theorem flatten_pieces (page : Text) : ((pieces page).map Piece.toText).flatten = page :=
  flatten_piecesFrom false page

end EdgeCompose.Markup
