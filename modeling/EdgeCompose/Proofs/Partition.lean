import EdgeCompose.Markup.Scan

/-!
What the scanner makes of a page. The pieces of a page are the page itself, cut: each piece is
proper at its place (`Piece.Proper`), which says what may be dropped, where a tag ends, and that no
text has a marker in it. Without the marker that opens a comment nothing is dropped at all
(`scan_partitions`).
-/

namespace EdgeCompose.Markup

/-! ## What a piece has to be -/

def quoteAfter (quote : Option Char) (c : Char) : Option Char :=
  match quote with
  | some q => if c = q then none else some q
  | none => if c = '"' ∨ c = '\'' then some c else none

/-- A text that ends in a `>` outside quotes, with no `<` outside quotes after its first
character. -/
def EndsTag (t : Text) : Prop :=
  (∃ body, t = body ++ ['>'] ∧ body.foldl quoteAfter none = none) ∧
    ∀ before after, t = before ++ '<' :: after → before ≠ [] →
      before.foldl quoteAfter none ≠ none

def StartsTag (t : Text) : Prop := "<esi:".toList <+: t ∨ "</esi:".toList <+: t

/-- A text that starts with a marker; the end of a comment is one only where a comment is open. -/
def StartsMarker (inComment : Prop) (t : Text) : Prop :=
  StartsTag t ∨ "<!--esi".toList <+: t ∨ inComment ∧ "-->".toList <+: t

def Piece.dropped? : Piece → Option Text
  | .token _ => none
  | .dropped marker => some marker

/-- Whether the nearest marker that was dropped opened a comment. -/
def InComment (before : List Piece) : Prop :=
  (before.filterMap Piece.dropped?).getLast? = some "<!--esi".toList

def joined (ps : List Piece) : Text := (ps.map Piece.toText).flatten

/-- What a piece is where it stands in a page, between the pieces `before` and `after` it. The
exception for texts is a tag that does not end: it takes the rest of the page with it. -/
def Piece.Proper (before after : List Piece) : Piece → Prop
  | .dropped marker =>
    marker = "<!--esi".toList ∨ marker = "-->".toList ∧ InComment before
  | .token (.tag t) =>
    StartsTag t ∧ EndsTag t ∧ ∀ p, p <+: t ++ joined after → EndsTag p → t.length ≤ p.length
  | .token (.text t) =>
    t ≠ [] ∧
      ((∀ front rest, t = front ++ rest → rest ≠ [] →
          ¬ StartsMarker (InComment before) (rest ++ joined after)) ∨
        after = [] ∧ StartsTag t ∧ ∀ p, p <+: t → ¬ EndsTag p)

/-! ## Tags -/

/-- What is left of a tag behind some of its characters, `quote` being open there. -/
def EndsFrom (quote : Option Char) (t : Text) : Prop :=
  (∃ body, t = body ++ ['>'] ∧ body.foldl quoteAfter quote = none) ∧
    ∀ before after, t = before ++ '<' :: after → before.foldl quoteAfter quote ≠ none

theorem not_endsFrom_nil (quote : Option Char) : ¬ EndsFrom quote [] := by
  rintro ⟨⟨body, hbody, -⟩, -⟩
  simp at hbody

theorem endsFrom_cons {quote : Option Char} {c : Char} {t : Text} :
    EndsFrom quote (c :: t) ↔ (quote = none ∧ c = '>' ∧ t = []) ∨
      ¬ (quote = none ∧ c = '<') ∧ EndsFrom (quoteAfter quote c) t := by
  constructor
  · rintro ⟨⟨body, hbody, hquote⟩, hopen⟩
    cases body with
    | nil =>
      obtain ⟨rfl, rfl⟩ := List.cons_eq_cons.mp hbody
      exact .inl ⟨hquote, rfl, rfl⟩
    | cons first body =>
      obtain ⟨rfl, rfl⟩ := List.cons_eq_cons.mp hbody
      refine .inr ⟨?_, ⟨body, rfl, hquote⟩, ?_⟩
      · rintro ⟨hnone, rfl⟩
        exact hopen [] _ rfl hnone
      · intro before after heq
        exact hopen (c :: before) after (by rw [heq]; rfl)
  · rintro (⟨rfl, rfl, rfl⟩ | ⟨hmark, ⟨body, rfl, hquote⟩, hopen⟩)
    · refine ⟨⟨[], rfl, rfl⟩, ?_⟩
      intro before after heq
      cases before <;> simp at heq
    · refine ⟨⟨c :: body, rfl, hquote⟩, ?_⟩
      intro before after heq
      cases before with
      | nil =>
        obtain ⟨rfl, -⟩ := List.cons_eq_cons.mp heq
        intro hnone
        exact hmark ⟨hnone, rfl⟩
      | cons first before =>
        obtain ⟨rfl, hrest⟩ := List.cons_eq_cons.mp heq
        exact hopen before after hrest

theorem endsTag_cons {t : Text} : EndsTag ('<' :: t) ↔ EndsFrom none t := by
  constructor
  · rintro ⟨⟨body, hbody, hquote⟩, hopen⟩
    cases body with
    | nil => simp at hbody
    | cons first body =>
      obtain ⟨rfl, rfl⟩ := List.cons_eq_cons.mp hbody
      refine ⟨⟨body, rfl, hquote⟩, ?_⟩
      intro before after heq
      exact hopen ('<' :: before) after (by rw [heq]; rfl) (by simp)
  · rintro ⟨⟨body, rfl, hquote⟩, hopen⟩
    refine ⟨⟨'<' :: body, rfl, hquote⟩, ?_⟩
    intro before after heq hne
    cases before with
    | nil => exact absurd rfl hne
    | cons first before =>
      obtain ⟨rfl, hrest⟩ := List.cons_eq_cons.mp heq
      exact hopen before after hrest

/-- One character of a tag, as the search for its end passes over it. -/
theorem tagRest?_cons (quote : Option Char) (c : Char) (t : Text) :
    tagRest? quote (c :: t) =
      if quote = none ∧ c = '>' then some ([c], t)
      else if quote = none ∧ c = '<' then none
      else (tagRest? (quoteAfter quote c) t).map fun (tag, rest) => (c :: tag, rest) := by
  cases quote with
  | some q => simp [tagRest?, quoteAfter]
  | none => simp [tagRest?, quoteAfter, isQuote]

private theorem prefix_of_endsFrom {quote : Option Char} {c : Char} {t p : Text} (hp : p <+: c :: t)
    (hends : EndsFrom quote p) : ∃ p', p = c :: p' ∧ p' <+: t := by
  rcases List.prefix_cons_iff.mp hp with rfl | hcons
  · exact absurd hends (not_endsFrom_nil quote)
  · exact hcons

/-- What the search for the end of a tag finds is the shortest text that ends as a tag. -/
theorem tagRest?_some {quote : Option Char} {t tag rest : Text}
    (h : tagRest? quote t = some (tag, rest)) :
    EndsFrom quote tag ∧ ∀ p, p <+: t → EndsFrom quote p → tag.length ≤ p.length := by
  induction t generalizing quote tag with
  | nil => cases h
  | cons c t ih =>
    rw [tagRest?_cons] at h
    split at h
    · next hend =>
      obtain ⟨rfl, rfl⟩ := Prod.mk.inj (Option.some.inj h)
      refine ⟨endsFrom_cons.mpr (.inl ⟨hend.1, hend.2, rfl⟩), ?_⟩
      intro p hp hends
      obtain ⟨p', rfl, -⟩ := prefix_of_endsFrom hp hends
      simp
    next hend =>
    split at h
    · cases h
    next hmark =>
    simp only [Option.map_eq_some_iff, Prod.mk.injEq] at h
    obtain ⟨⟨tag', rest'⟩, hfound, rfl, rfl⟩ := h
    obtain ⟨htag, hshortest⟩ := ih hfound
    refine ⟨endsFrom_cons.mpr (.inr ⟨hmark, htag⟩), ?_⟩
    intro p hp hends
    obtain ⟨p', rfl, hp'⟩ := prefix_of_endsFrom hp hends
    rcases endsFrom_cons.mp hends with ⟨hquote, hc, -⟩ | ⟨-, hrest⟩
    · exact absurd ⟨hquote, hc⟩ hend
    · exact Nat.succ_le_succ (hshortest p' hp' hrest)

theorem tagRest?_none {quote : Option Char} {t : Text} (h : tagRest? quote t = none) :
    ∀ p, p <+: t → ¬ EndsFrom quote p := by
  induction t generalizing quote with
  | nil =>
    intro p hp
    rw [List.prefix_nil.mp hp]
    exact not_endsFrom_nil quote
  | cons c t ih =>
    intro p hp hends
    obtain ⟨p', rfl, hp'⟩ := prefix_of_endsFrom hp hends
    rw [tagRest?_cons] at h
    split at h
    · cases h
    next hend =>
    rcases endsFrom_cons.mp hends with ⟨hquote, hc, -⟩ | ⟨hmark, hrest⟩
    · exact hend ⟨hquote, hc⟩
    rw [if_neg hmark, Option.map_eq_none_iff] at h
    exact ih h p' hp' hrest

theorem head_of_startsTag {c : Char} {t : Text} (h : StartsTag (c :: t)) : c = '<' := by
  rcases h with ⟨rest, hrest⟩ | ⟨rest, hrest⟩
  · exact (List.cons_eq_cons.mp hrest).1.symm
  · exact (List.cons_eq_cons.mp hrest).1.symm

theorem splitTag?_shortest {t tag rest : Text} (hstart : StartsTag t)
    (h : splitTag? t = some (tag, rest)) :
    EndsTag tag ∧ ∀ p, p <+: t → EndsTag p → tag.length ≤ p.length := by
  cases t with
  | nil => cases h
  | cons c t =>
    obtain rfl := head_of_startsTag hstart
    simp only [splitTag?, Option.map_eq_some_iff, Prod.mk.injEq] at h
    obtain ⟨⟨tag', rest'⟩, hfound, rfl, rfl⟩ := h
    obtain ⟨htag, hshortest⟩ := tagRest?_some hfound
    refine ⟨endsTag_cons.mpr htag, ?_⟩
    intro p hp hends
    rcases List.prefix_cons_iff.mp hp with rfl | ⟨p', rfl, hp'⟩
    · obtain ⟨⟨body, hbody, -⟩, -⟩ := hends
      simp at hbody
    · exact Nat.succ_le_succ (hshortest p' hp' (endsTag_cons.mp hends))

theorem splitTag?_none {t : Text} (hstart : StartsTag t) (h : splitTag? t = none) :
    ∀ p, p <+: t → ¬ EndsTag p := by
  cases t with
  | nil =>
    rcases hstart with hstart | hstart <;> cases List.prefix_nil.mp hstart
  | cons c t =>
    obtain rfl := head_of_startsTag hstart
    rw [splitTag?, Option.map_eq_none_iff] at h
    intro p hp hends
    rcases List.prefix_cons_iff.mp hp with rfl | ⟨p', rfl, hp'⟩
    · obtain ⟨⟨body, hbody, -⟩, -⟩ := hends
      simp at hbody
    · exact tagRest?_none h p' hp' (endsTag_cons.mp hends)

/-- A tag is not over before its lead is. -/
theorem startsTag_of_endsTag {tag rest : Text} (hstart : StartsTag (tag ++ rest))
    (hends : EndsTag tag) : StartsTag tag := by
  obtain ⟨⟨body, rfl, -⟩, -⟩ := hends
  have hlead {lead : Text} (hlead : lead <+: body ++ ['>'] ++ rest) (hno : '>' ∉ lead) :
      lead <+: body ++ ['>'] := by
    rcases List.prefix_or_prefix_of_prefix hlead (List.prefix_append _ _) with h | h
    · exact h
    · exact absurd (h.subset (by simp)) hno
  rcases hstart with h | h
  · exact .inl (hlead h (by decide))
  · exact .inr (hlead h (by decide))

/-! ## Texts -/

theorem markerAt_cases (inComment : Bool) (t : Text) :
    (markerAt inComment t = some .tag ∧ StartsTag t) ∨
      (markerAt inComment t = some .opening ∧ "<!--esi".toList <+: t) ∨
      (markerAt inComment t = some .closing ∧ inComment = true ∧ "-->".toList <+: t) ∨
      markerAt inComment t = none ∧ ¬ StartsMarker (inComment = true) t := by
  unfold markerAt
  split
  · next htag =>
    simp only [Bool.or_eq_true, List.isPrefixOf_iff_prefix] at htag
    exact .inl ⟨rfl, htag⟩
  next htag =>
  split
  · next hopening => exact .inr (.inl ⟨rfl, List.isPrefixOf_iff_prefix.mp hopening⟩)
  next hopening =>
  split
  · next hclosing =>
    simp only [Bool.and_eq_true, List.isPrefixOf_iff_prefix] at hclosing
    exact .inr (.inr (.inl ⟨rfl, hclosing⟩))
  next hclosing =>
  refine .inr (.inr (.inr ⟨rfl, ?_⟩))
  simp only [Bool.or_eq_true, Bool.and_eq_true, List.isPrefixOf_iff_prefix]
    at htag hopening hclosing
  rintro (hstarts | hstarts | hstarts)
  · exact htag hstarts
  · exact hopening hstarts
  · exact hclosing hstarts

/-- No marker starts in a text that is split off. -/
theorem splitText_plain (inComment : Bool) (t : Text) {front rest : Text}
    (h : (splitText inComment t).1 = front ++ rest) (hne : rest ≠ []) :
    ¬ StartsMarker (inComment = true) (rest ++ (splitText inComment t).2) := by
  induction t generalizing front with
  | nil => simp_all [splitText]
  | cons c t ih =>
    unfold splitText at h ⊢
    split at h
    · simp_all
    next hmarker =>
    rw [if_neg hmarker]
    simp only at h ⊢
    cases front with
    | nil =>
      rw [List.nil_append] at h
      rw [← h, List.cons_append, splitText_append]
      rcases markerAt_cases inComment (c :: t) with ⟨heq, -⟩ | ⟨heq, -⟩ | ⟨heq, -⟩ | ⟨-, hplain⟩
      · simp [heq] at hmarker
      · simp [heq] at hmarker
      · simp [heq] at hmarker
      · exact hplain
    | cons first front => exact ih (List.cons_eq_cons.mp h).2

/-! ## Comments -/

theorem inComment_snoc_token {before : List Piece} (t : Token) :
    InComment (before ++ [.token t]) ↔ InComment before := by
  simp [InComment, Piece.dropped?]

theorem inComment_snoc_dropped {before : List Piece} (marker : Text) :
    InComment (before ++ [.dropped marker]) ↔ marker = "<!--esi".toList := by
  simp [InComment, Piece.dropped?]

theorem not_inComment_nil : ¬ InComment [] := by
  simp [InComment]

theorem inComment_of_closing {inComment : Bool} {t : Text}
    (h : markerAt inComment t = some .closing) : inComment = true := by
  rcases markerAt_cases inComment t with ⟨heq, -⟩ | ⟨heq, -⟩ | ⟨-, hopen, -⟩ | ⟨heq, -⟩
  · simp [heq] at h
  · simp [heq] at h
  · exact hopen
  · simp [heq] at h

theorem startsTag_of_marker {inComment : Bool} {t : Text} (h : markerAt inComment t = some .tag) :
    StartsTag t := by
  rcases markerAt_cases inComment t with ⟨-, htag⟩ | ⟨heq, -⟩ | ⟨heq, -⟩ | ⟨heq, -⟩
  · exact htag
  · simp [heq] at h
  · simp [heq] at h
  · simp [heq] at h

/-! ## Pieces -/

def AllProper (before ps : List Piece) : Prop :=
  ∀ front p after, ps = front ++ p :: after → p.Proper (before ++ front) after

theorem allProper_nil (before : List Piece) : AllProper before [] := by
  intro front p after heq
  simp at heq

theorem AllProper.cons {before ps : List Piece} {p : Piece} (hhead : p.Proper before ps)
    (hrest : AllProper (before ++ [p]) ps) : AllProper before (p :: ps) := by
  intro front q after heq
  cases front with
  | nil =>
    obtain ⟨rfl, rfl⟩ := List.cons_eq_cons.mp heq
    simpa using hhead
  | cons first front =>
    obtain ⟨rfl, hps⟩ := List.cons_eq_cons.mp heq
    simpa using hrest front q after hps

/-- The pieces of what is left of a page, where the scanner's flag is right about the pieces before
them. -/
theorem allProper_piecesFrom (inComment : Bool) (t : Text) {before : List Piece}
    (hflag : InComment before ↔ inComment = true) : AllProper before (piecesFrom inComment t) := by
  fun_induction piecesFrom inComment t generalizing before with
  | case1 => exact allProper_nil before
  | case2 inComment c rest hm ih =>
    refine .cons ⟨?_, .inl ?_⟩ (ih ((inComment_snoc_token _).trans hflag))
    · simp [splitText, hm]
    · intro front rest' hsplit hne hmarker
      rw [joined, flatten_piecesFrom, hflag] at hmarker
      exact splitText_plain inComment (c :: rest) hsplit hne hmarker
  | case3 inComment c rest hm ih =>
    exact .cons (.inl rfl) (ih ((inComment_snoc_dropped _).trans (by decide)))
  | case4 inComment c rest hm ih =>
    have hopen : InComment before := hflag.mpr (inComment_of_closing hm)
    exact .cons (.inr ⟨rfl, hopen⟩)
      (ih ((inComment_snoc_dropped _).trans (by decide)))
  | case5 inComment c rest hm tag after ht ih =>
    have hstart := startsTag_of_marker hm
    have hcut := (splitTag?_eq ht).1
    obtain ⟨hends, hshortest⟩ := splitTag?_shortest hstart ht
    refine .cons ⟨?_, hends, ?_⟩ (ih ((inComment_snoc_token _).trans hflag))
    · rw [hcut] at hstart
      exact startsTag_of_endsTag hstart hends
    · rwa [joined, flatten_piecesFrom, ← hcut]
  | case6 inComment c rest hm ht =>
    -- A tag that does not end takes the rest of the page, so nothing follows it.
    have hstart := startsTag_of_marker hm
    exact .cons ⟨by simp, .inr ⟨rfl, hstart, splitTag?_none hstart ht⟩⟩ (allProper_nil _)

theorem Piece.Proper.length_pos {before after : List Piece} {p : Piece}
    (h : p.Proper before after) : 0 < p.toText.length := by
  cases p with
  | dropped marker =>
    rcases h with rfl | ⟨rfl, -⟩
    · decide
    · decide
  | token t =>
    cases t with
    | text t => exact List.length_pos_iff.mpr h.1
    | tag t =>
      obtain ⟨-, ⟨⟨body, rfl, -⟩, -⟩, -⟩ := h
      simp [Piece.toText, Token.toText]

/-- There are no more pieces than characters in them. -/
theorem AllProper.length_le {before ps : List Piece} (h : AllProper before ps) :
    ps.length ≤ (joined ps).length := by
  induction ps generalizing before with
  | nil => exact Nat.zero_le _
  | cons p ps ih =>
    have hpos := (h [] p ps rfl).length_pos
    have hrest : AllProper (before ++ [p]) ps := by
      intro front q after heq
      simpa using h (p :: front) q after (by rw [heq]; rfl)
    have hle := ih hrest
    simp only [joined, List.map_cons, List.flatten_cons, List.length_cons,
      List.length_append] at hle ⊢
    omega

theorem mem_of_inComment {before : List Piece} (h : InComment before) :
    .dropped "<!--esi".toList ∈ before := by
  obtain ⟨p, hp, hdropped⟩ := List.mem_filterMap.mp (List.mem_of_getLast? h)
  cases p with
  | token t => cases hdropped
  | dropped marker => rwa [← Option.some.inj hdropped]

/-- Only behind the opening of a comment is anything dropped. -/
theorem AllProper.token_of_mem {ps : List Piece} (h : AllProper [] ps)
    (hno : .dropped "<!--esi".toList ∉ ps) : ∀ p ∈ ps, ∃ t, p = .token t := by
  intro p hp
  cases p with
  | token t => exact ⟨t, rfl⟩
  | dropped marker =>
    obtain ⟨front, after, rfl⟩ := List.append_of_mem hp
    rcases h front _ after rfl with rfl | ⟨-, hopen⟩
    · exact absurd hp hno
    · exact absurd (List.mem_append_left _ (mem_of_inComment hopen)) hno

theorem flatten_tokens {ps : List Piece} (h : ∀ p ∈ ps, ∃ t, p = .token t) :
    ((ps.filterMap Piece.token?).map Token.toText).flatten = joined ps := by
  induction ps with
  | nil => rfl
  | cons p ps ih =>
    obtain ⟨t, rfl⟩ := h p (by simp)
    have hrest := ih fun q hq => h q (List.mem_cons_of_mem _ hq)
    simp only [joined, List.map_cons, List.flatten_cons, Piece.toText] at hrest ⊢
    rw [← hrest]
    rfl

theorem infix_joined {ps : List Piece} {p : Piece} (h : p ∈ ps) : p.toText <:+: joined ps :=
  List.infix_of_mem_flatten (List.mem_map_of_mem h)

/-- The scanner partitions a page. The tokens are the pieces less those that are dropped; the
pieces are finitely many, put together they are the page, and each is proper at its place. In a page
that opens no comment nothing is dropped. -/
theorem scan_partitions (page : Text) :
    scan page = (pieces page).filterMap Piece.token? ∧
      (pieces page).length ≤ page.length ∧
      joined (pieces page) = page ∧
      (∀ before p after, pieces page = before ++ p :: after → p.Proper before after) ∧
      (¬ "<!--esi".toList <:+: page → ((scan page).map Token.toText).flatten = page) := by
  have hproper : AllProper [] (pieces page) :=
    allProper_piecesFrom false page (by simp [not_inComment_nil])
  have hjoined : joined (pieces page) = page := flatten_pieces page
  refine ⟨rfl, ?_, hjoined, hproper, ?_⟩
  · have hle := hproper.length_le
    rwa [hjoined] at hle
  · intro hplain
    have hno : .dropped "<!--esi".toList ∉ pieces page := by
      intro hopen
      have hpart := infix_joined hopen
      rw [hjoined] at hpart
      exact hplain hpart
    exact (flatten_tokens (hproper.token_of_mem hno)).trans hjoined

end EdgeCompose.Markup
