import EdgeCompose.Proofs.Nesting
import EdgeCompose.Proofs.Partition

/-!
Pages that are put together from parts. The scanner looks ahead only for a marker and for the end of
a tag, and in no marker does a `<` stand but at its beginning. So a part without an unterminated tag
is cut as it would be cut alone, whatever page with a tag at its beginning follows it; the part that
follows is cut as it would be alone, too, unless a comment is still open in front of it
(`pieces_append`). A text that is one tag is cut off whole, whatever follows it (`piecesFrom_tag`).
-/

namespace EdgeCompose.Markup

/-! ## Markers -/

/-- What a part of a page may be followed by, not to be cut otherwise: nothing, or a marker's
beginning. -/
def Breaks (rest : Text) : Prop := rest = [] ∨ rest.head? = some '<'

theorem isPrefixOf_append_of_breaks {lead rest : Text} (hlead : '<' ∉ lead) (hrest : Breaks rest)
    (t : Text) : lead.isPrefixOf (t ++ rest) = lead.isPrefixOf t := by
  induction lead generalizing t with
  | nil => rfl
  | cons a lead ih =>
    rw [List.mem_cons, not_or] at hlead
    cases t with
    | cons c t =>
      rw [List.cons_append, List.isPrefixOf_cons_cons, List.isPrefixOf_cons_cons, ih hlead.2 t]
    | nil =>
      rcases hrest with rfl | hhead
      · rfl
      · obtain ⟨rest, rfl⟩ := List.head?_eq_some_iff.mp hhead
        have hne : (a == '<') = false := by simpa using Ne.symm hlead.1
        rw [List.nil_append, List.isPrefixOf_cons_cons, hne]
        rfl

/-- No marker goes on into what follows, but for one that has begun there. -/
theorem markerAt_append {rest : Text} (hrest : Breaks rest) (inComment : Bool) (c : Char) (t : Text) :
    markerAt inComment (c :: (t ++ rest)) = markerAt inComment (c :: t) := by
  have hlead {first : Char} {lead : Text} (h : '<' ∉ lead) :
      (first :: lead).isPrefixOf (c :: (t ++ rest)) = (first :: lead).isPrefixOf (c :: t) := by
    rw [List.isPrefixOf_cons_cons, List.isPrefixOf_cons_cons, isPrefixOf_append_of_breaks h hrest]
  have hstart : startLead = '<' :: "esi:".toList := rfl
  have hend : endLead = '<' :: "/esi:".toList := rfl
  have hopen : commentOpen = '<' :: "!--esi".toList := rfl
  have hclose : commentClose = '-' :: "->".toList := rfl
  unfold markerAt
  rw [hstart, hend, hopen, hclose, hlead (by decide), hlead (by decide), hlead (by decide),
    hlead (by decide)]

theorem StartsTag.append {t : Text} (h : StartsTag t) (rest : Text) : StartsTag (t ++ rest) := by
  rcases h with h | h
  · exact .inl (h.trans (List.prefix_append _ _))
  · exact .inr (h.trans (List.prefix_append _ _))

theorem StartsTag.markerAt {t : Text} (h : StartsTag t) (inComment : Bool) :
    markerAt inComment t = some .tag := by
  have hlead : (startLead.isPrefixOf t || endLead.isPrefixOf t) = true := by
    rw [Bool.or_eq_true, List.isPrefixOf_iff_prefix, List.isPrefixOf_iff_prefix]
    exact h
  rw [Markup.markerAt, if_pos hlead]

theorem breaks_of_startsTag {rest : Text} (h : rest = [] ∨ StartsTag rest) : Breaks rest := by
  rcases h with rfl | ⟨after, rfl⟩ | ⟨after, rfl⟩
  · exact .inl rfl
  · exact .inr rfl
  · exact .inr rfl

/-! ## Texts and tags -/

/-- Text before a marker is split off in the same way, whatever page follows the marker. -/
theorem splitText_append_right {rest : Text} (hrest : rest = [] ∨ StartsTag rest) (inComment : Bool)
    (t : Text) : splitText inComment (t ++ rest) =
      ((splitText inComment t).1, (splitText inComment t).2 ++ rest) := by
  have hbreaks := breaks_of_startsTag hrest
  induction t with
  | nil =>
    cases rest with
    | nil => rfl
    | cons c rest =>
      have htag := (hrest.resolve_left (by simp)).markerAt inComment
      simp [splitText, htag]
  | cons c t ih =>
    rw [List.cons_append, splitText, splitText, markerAt_append hbreaks]
    split
    · rfl
    · rw [ih]

theorem tagRest?_append {quote : Option Char} {t tag after : Text}
    (h : tagRest? quote t = some (tag, after)) (rest : Text) :
    tagRest? quote (t ++ rest) = some (tag, after ++ rest) := by
  induction t generalizing quote tag with
  | nil => cases h
  | cons c t ih =>
    rw [tagRest?_cons] at h
    rw [List.cons_append, tagRest?_cons]
    split at h
    · next hend =>
      obtain ⟨rfl, rfl⟩ := Prod.mk.inj (Option.some.inj h)
      rw [if_pos hend]
    next hend =>
    split at h
    · cases h
    next hmark =>
    obtain ⟨⟨tag', after'⟩, hfound, heq⟩ := Option.map_eq_some_iff.mp h
    obtain ⟨rfl, rfl⟩ := Prod.mk.inj heq
    rw [if_neg hend, if_neg hmark, ih hfound]
    rfl

theorem splitTag?_append {t tag after : Text} (h : splitTag? t = some (tag, after)) (rest : Text) :
    splitTag? (t ++ rest) = some (tag, after ++ rest) := by
  cases t with
  | nil => cases h
  | cons c t =>
    obtain ⟨⟨tag', after'⟩, hfound, heq⟩ := Option.map_eq_some_iff.mp h
    obtain ⟨rfl, rfl⟩ := Prod.mk.inj heq
    rw [List.cons_append, splitTag?, tagRest?_append hfound]
    rfl

/-! ## Pieces -/

/-- Whether a comment is open behind some pieces, if one is, or is not, in front of them. -/
def commentAfter (inComment : Bool) : List Piece → Bool
  | [] => inComment
  | .token _ :: ps => commentAfter inComment ps
  | .dropped marker :: ps => commentAfter (marker == commentOpen) ps

theorem commentAfter_eq (inComment : Bool) (ps : List Piece) : commentAfter inComment ps =
    ((ps.filterMap Piece.dropped?).getLast?.map (· == commentOpen)).getD inComment := by
  induction ps generalizing inComment with
  | nil => rfl
  | cons p ps ih =>
    cases p with
    | token t => exact ih inComment
    | dropped marker =>
      have hdropped : (Piece.dropped marker :: ps).filterMap Piece.dropped? =
          marker :: ps.filterMap Piece.dropped? := rfl
      rw [commentAfter, ih, hdropped, List.getLast?_cons]
      cases (ps.filterMap Piece.dropped?).getLast? <;> rfl

theorem commentAfter_eq_false_iff {ps : List Piece} :
    commentAfter false ps = false ↔ ¬ InComment ps := by
  have hopen : commentOpen = "<!--esi".toList := rfl
  rw [commentAfter_eq, InComment, ← hopen]
  cases (ps.filterMap Piece.dropped?).getLast? with
  | none => simp
  | some marker => simp

instance (t : Text) : Decidable (StartsTag t) := inferInstanceAs (Decidable (_ ∨ _))

/-- A piece that is not what a tag without an end makes of the rest of a page. -/
def Piece.Whole : Piece → Prop
  | .token (.text t) => ¬ StartsTag t
  | _ => True

instance : (p : Piece) → Decidable p.Whole
  | .token (.text t) => inferInstanceAs (Decidable (¬ StartsTag t))
  | .token (.tag _) => inferInstanceAs (Decidable True)
  | .dropped _ => inferInstanceAs (Decidable True)

def Terminated (ps : List Piece) : Prop := ∀ p ∈ ps, p.Whole

instance (ps : List Piece) : Decidable (Terminated ps) := inferInstanceAs (Decidable (∀ p ∈ ps, p.Whole))

theorem Terminated.tail {p : Piece} {ps : List Piece} (h : Terminated (p :: ps)) : Terminated ps :=
  fun q hmem => h q (List.mem_cons_of_mem _ hmem)

theorem piecesFrom_nil (inComment : Bool) : piecesFrom inComment [] = [] := by
  rw [piecesFrom]

theorem piecesFrom_text {inComment : Bool} {c : Char} {t : Text}
    (h : markerAt inComment (c :: t) = none) : piecesFrom inComment (c :: t) =
      .token (.text (splitText inComment (c :: t)).1) ::
        piecesFrom inComment (splitText inComment (c :: t)).2 := by
  rw [piecesFrom]
  split <;> simp_all

theorem piecesFrom_opening {inComment : Bool} {c : Char} {t : Text}
    (h : markerAt inComment (c :: t) = some .opening) : piecesFrom inComment (c :: t) =
      .dropped commentOpen :: piecesFrom true ((c :: t).drop commentOpen.length) := by
  rw [piecesFrom]
  split <;> simp_all

theorem piecesFrom_closing {inComment : Bool} {c : Char} {t : Text}
    (h : markerAt inComment (c :: t) = some .closing) : piecesFrom inComment (c :: t) =
      .dropped commentClose :: piecesFrom false ((c :: t).drop commentClose.length) := by
  rw [piecesFrom]
  split <;> simp_all

theorem piecesFrom_split {inComment : Bool} {t tag after : Text} (hstart : StartsTag t)
    (h : splitTag? t = some (tag, after)) :
    piecesFrom inComment t = .token (.tag tag) :: piecesFrom inComment after := by
  have hmarker := hstart.markerAt inComment
  cases t with
  | nil => cases h
  | cons c t =>
    rw [piecesFrom]
    split <;> simp_all
    split <;> simp_all

/-- A text that is one tag is one token, whatever follows it. -/
theorem piecesFrom_tag {tag : Text} (hstart : StartsTag tag) (h : splitTag? tag = some (tag, []))
    (inComment : Bool) (rest : Text) :
    piecesFrom inComment (tag ++ rest) = .token (.tag tag) :: piecesFrom inComment rest :=
  piecesFrom_split (hstart.append rest) (splitTag?_append h rest)

/-- The pieces of a part are the same at the beginning of a longer page, and the rest is cut as it
stands, where comments are concerned. -/
theorem piecesFrom_append {inComment : Bool} {t rest : Text}
    (ht : Terminated (piecesFrom inComment t)) (hrest : rest = [] ∨ StartsTag rest) :
    piecesFrom inComment (t ++ rest) = piecesFrom inComment t ++
      piecesFrom (commentAfter inComment (piecesFrom inComment t)) rest := by
  have hbreaks := breaks_of_startsTag hrest
  fun_induction piecesFrom inComment t with
  | case1 => rfl
  | case2 inComment c t hm ih =>
    have hmarker : markerAt inComment (c :: (t ++ rest)) = none := by
      rw [markerAt_append hbreaks, hm]
    have hsplit := splitText_append_right hrest inComment (c :: t)
    rw [List.cons_append] at hsplit ⊢
    rw [piecesFrom_text hmarker, hsplit, ih ht.tail]
    rfl
  | case3 inComment c t hm ih =>
    have hmarker : markerAt inComment (c :: (t ++ rest)) = some .opening := by
      rw [markerAt_append hbreaks, hm]
    have hlength : commentOpen.length ≤ (c :: t).length := by
      rw [markerAt_opening hm, List.length_append]
      omega
    rw [List.cons_append, piecesFrom_opening hmarker, ← List.cons_append,
      List.drop_append_of_le_length hlength, ih ht.tail]
    rfl
  | case4 inComment c t hm ih =>
    have hmarker : markerAt inComment (c :: (t ++ rest)) = some .closing := by
      rw [markerAt_append hbreaks, hm]
    have hlength : commentClose.length ≤ (c :: t).length := by
      rw [markerAt_closing hm, List.length_append]
      omega
    rw [List.cons_append, piecesFrom_closing hmarker, ← List.cons_append,
      List.drop_append_of_le_length hlength, ih ht.tail]
    rfl
  | case5 inComment c t hm tag after hs ih =>
    have hstart := (startsTag_of_marker hm).append rest
    rw [piecesFrom_split hstart (splitTag?_append hs rest), ih ht.tail]
    rfl
  | case6 inComment c t hm hs =>
    exact absurd (startsTag_of_marker hm) (ht _ List.mem_cons_self)

/-- A text that is cut as it would be alone, and leaves what follows it to be cut alone. -/
structure Sealed (t : Text) : Prop where
  terminated : Terminated (pieces t)
  outside : ¬ InComment (pieces t)

theorem sealed_nil : Sealed [] := by
  have hnil : pieces [] = [] := piecesFrom_nil false
  constructor
  · rw [hnil]
    exact nofun
  · rw [hnil]
    exact not_inComment_nil

theorem pieces_append {t rest : Text} (ht : Sealed t) (hrest : rest = [] ∨ StartsTag rest) :
    pieces (t ++ rest) = pieces t ++ pieces rest := by
  obtain ⟨hterminated, hopen⟩ := ht
  unfold pieces at hterminated hopen ⊢
  rw [piecesFrom_append hterminated hrest, commentAfter_eq_false_iff.mpr hopen]

theorem scan_append {t rest : Text} (ht : Sealed t) (hrest : rest = [] ∨ StartsTag rest) :
    scan (t ++ rest) = scan t ++ scan rest := by
  unfold scan
  rw [pieces_append ht hrest, List.filterMap_append]

theorem scan_tag {tag : Text} (hstart : StartsTag tag) (h : splitTag? tag = some (tag, []))
    (rest : Text) : scan (tag ++ rest) = .tag tag :: scan rest := by
  unfold scan pieces
  rw [piecesFrom_tag hstart h]
  rfl

/-- A text that opens no comment leaves none open. -/
theorem sealed_of_plain {t : Text} (h : Terminated (pieces t)) (hplain : ¬ "<!--esi".toList <:+: t) :
    Sealed t := by
  refine ⟨h, fun hopen => hplain ?_⟩
  have hpart := infix_joined (mem_of_inComment hopen)
  rwa [joined, flatten_pieces] at hpart

/-- A tag that a directive knows starts as one. -/
theorem startsTag_of_lookup? {tag : Text} {role : TagRole} (h : lookup? tag = some role) :
    StartsTag tag := by
  cases role with
  | starts d =>
    obtain ⟨rest, rfl, -⟩ := Directive.leads_name (lookup?_starts.mp h)
    exact .inl ⟨rest, rfl⟩
  | ends d =>
    obtain ⟨rest, rfl, -⟩ := Directive.leads_name (lookup?_ends.mp h)
    exact .inr ⟨rest, rfl⟩

end EdgeCompose.Markup
