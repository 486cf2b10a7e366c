import EdgeCompose.Markup.Directive
import EdgeCompose.Proofs.Entities

/-!
Start tags that are written by a rule are read back. The value of an attribute stands in quotes, with
the ampersand and that quote written as entities; so any text can be a value. The search for the
end of a tag, the reader of attributes and the one of names then agree on what was written
(`piecesFrom_write`, `attributes_write`, `tagName_write`, `isSelfClosing_write`, `lookup?_write_iff`).
-/

namespace EdgeCompose.Markup

open Text

/-! ## Attributes -/

def isTagChar (c : Char) : Bool := !isBlank c && !"/<>\"'".toList.contains c

def isAttributeChar (c : Char) : Bool := isTagChar c && c != '='

/-- An attribute as it is written, with blanks before it and around its equals sign. -/
structure Attribute where
  name : Text
  value : List Coded
  quote : Char := '"'
  before : Text := [' ']
  left : Text := []
  right : Text := []
  name_ne_nil : name ≠ []
  name_chars : ∀ c ∈ name, isAttributeChar c = true
  quote_mark : isQuote quote = true
  value_free : ∀ c ∈ value, quote ∉ c.code
  before_ne_nil : before ≠ [] := by decide
  before_blank : ∀ c ∈ before, isBlank c = true := by exact List.all_eq_true.mp rfl
  left_blank : ∀ c ∈ left, isBlank c = true := by exact List.all_eq_true.mp rfl
  right_blank : ∀ c ∈ right, isBlank c = true := by exact List.all_eq_true.mp rfl

namespace Attribute

def text (a : Attribute) : Text := a.value.map Coded.char

def code (a : Attribute) : Text := a.value.flatMap Coded.code

def ofText (name value : Text) (hne : name ≠ []) (hchars : ∀ c ∈ name, isAttributeChar c = true) :
    Attribute where
  name := name
  value := value.map Coded.ofChar
  name_ne_nil := hne
  name_chars := hchars
  quote_mark := rfl
  value_free := by
    intro coded hmem
    obtain ⟨c, -, rfl⟩ := List.mem_map.mp hmem
    exact Coded.quote_not_mem_ofChar c

@[simp] theorem text_ofText {name value : Text} {hne : name ≠ []}
    {hchars : ∀ c ∈ name, isAttributeChar c = true} :
    (ofText name value hne hchars).text = value :=
  map_char_ofChar value

def toText (a : Attribute) : Text :=
  a.before ++ (a.name ++ (a.left ++ '=' :: (a.right ++ a.quote :: (a.code ++ [a.quote]))))

end Attribute

/-- A run of characters of a kind, where none of that kind follows. -/
theorem takeWhile_run {p : Char → Bool} {l t : Text} (hl : ∀ c ∈ l, p c = true)
    (ht : ∀ c, t.head? = some c → p c = false) :
    (l ++ t).takeWhile p = l ∧ (l ++ t).dropWhile p = t := by
  induction l with
  | nil =>
    cases t with
    | nil => exact ⟨rfl, rfl⟩
    | cons c t =>
      have hc := ht c rfl
      simp [hc]
  | cons c l ih =>
    have hc := hl c List.mem_cons_self
    obtain ⟨htake, hdrop⟩ := ih fun c hmem => hl c (List.mem_cons_of_mem _ hmem)
    simp [hc, htake, hdrop]

private theorem isTagChar_of_isAttributeChar {c : Char} (h : isAttributeChar c = true) :
    isTagChar c = true ∧ c ≠ '=' := by
  unfold isAttributeChar at h
  rw [Bool.and_eq_true, bne_iff_ne] at h
  exact h

theorem isTagChar_eq_true {c : Char} (h : isTagChar c = true) :
    isBlank c = false ∧ c ∉ "/<>\"'".toList := by
  unfold isTagChar at h
  rw [Bool.and_eq_true, Bool.not_eq_true', Bool.not_eq_true'] at h
  refine ⟨h.1, fun hmem => ?_⟩
  rw [List.contains_iff_mem.mpr hmem] at h
  cases h.2

private theorem isQuote_cases {c : Char} (h : isQuote c = true) : c = '"' ∨ c = '\'' := by
  unfold isQuote at h
  simpa using h

/-- The reader of values finds the quoted one. -/
private theorem splitValue_quoted {q : Char} {l t : Text} (hq : isQuote q = true) (hl : q ∉ l) :
    splitValue (q :: (l ++ q :: t)) = (l, t) := by
  have hrun := takeWhile_run (p := fun c => c != q) (l := l) (t := q :: t)
    (fun c hmem => by
      rw [bne_iff_ne]
      rintro rfl
      exact hl hmem)
    (fun c hc => by
      cases hc
      simp)
  unfold splitValue
  simp only [hq, if_true, hrun]
  rfl

namespace Attribute

theorem quote_not_mem_code (a : Attribute) : a.quote ∉ a.code := by
  intro hmem
  obtain ⟨c, hc, hin⟩ := List.mem_flatMap.mp hmem
  exact a.value_free c hc hin

private def rest (a : Attribute) (t : Text) : Text :=
  a.name ++ (a.left ++ '=' :: (a.right ++ a.quote :: (a.code ++ a.quote :: t)))

private theorem toText_append (a : Attribute) (t : Text) :
    a.toText ++ t = a.before ++ a.rest t := by
  simp [toText, rest]

private theorem name_head (a : Attribute) : ∃ c rest, a.name = c :: rest ∧
    isAttributeChar c = true := by
  obtain ⟨c, rest, hname⟩ := List.exists_cons_of_ne_nil a.name_ne_nil
  exact ⟨c, rest, hname, a.name_chars c (hname ▸ List.mem_cons_self)⟩

private theorem skipBetween_write (a : Attribute) (t : Text) :
    skipBetween (a.toText ++ t) = a.rest t := by
  rw [toText_append]
  obtain ⟨c, rest, hname, hc⟩ := a.name_head
  obtain ⟨hblank, hmark⟩ := isTagChar_eq_true (isTagChar_of_isAttributeChar hc).1
  refine (takeWhile_run (fun d hd => ?_) (fun d hd => ?_)).2
  · rw [a.before_blank d hd]
    rfl
  · have hd : (a.rest t).head? = some d := hd
    unfold Attribute.rest at hd
    rw [hname, List.cons_append] at hd
    cases hd
    have hslash : c ≠ '/' := by
      rintro rfl
      exact hmark (by decide)
    simp [hblank, hslash]

/-- The name ends where blanks or the equals sign begin. -/
private theorem name_run (a : Attribute) (t : Text) :
    attributeName (a.rest t) = a.name ∧
      (a.rest t).dropWhile (fun c => !isBlank c && c != '=') =
        a.left ++ '=' :: (a.right ++ a.quote :: (a.code ++ a.quote :: t)) := by
  refine takeWhile_run (fun c hc => ?_) (fun c hc => ?_)
  · obtain ⟨htag, hne⟩ := isTagChar_of_isAttributeChar (a.name_chars c hc)
    simp [(isTagChar_eq_true htag).1, hne]
  · cases hleft : a.left with
    | nil =>
      rw [hleft] at hc
      cases hc
      decide
    | cons d rest =>
      rw [hleft] at hc
      cases hc
      have hblank := a.left_blank c (hleft ▸ List.mem_cons_self)
      simp [hblank]

private theorem afterName_write (a : Attribute) (t : Text) :
    afterName (a.rest t) = '=' :: (a.right ++ a.quote :: (a.code ++ a.quote :: t)) := by
  unfold afterName
  rw [(a.name_run t).2]
  refine (takeWhile_run a.left_blank fun c hc => ?_).2
  cases hc
  decide

private theorem value_write (a : Attribute) (t : Text) :
    splitValue ((a.right ++ a.quote :: (a.code ++ a.quote :: t)).dropWhile isBlank) =
      (a.code, t) := by
  have hrun := takeWhile_run (t := a.quote :: (a.code ++ a.quote :: t)) a.right_blank fun c hc => by
    cases hc
    rcases isQuote_cases a.quote_mark with hq | hq
    · rw [hq]
      decide
    · rw [hq]
      decide
  rw [hrun.2]
  exact splitValue_quoted a.quote_mark a.quote_not_mem_code

end Attribute

/-- An attribute is read as it was written, whatever follows it. -/
theorem attributeList_write (a : Attribute) (t : Text) :
    attributeList (a.toText ++ t) = (a.name, a.text) :: attributeList t := by
  have hskip := a.skipBetween_write t
  have hname := (a.name_run t).1
  have hafter := a.afterName_write t
  rw [← hskip] at hname hafter
  rw [attributeList]
  split
  · next hnil => exact (a.name_ne_nil (hname.symm.trans hnil)).elim
  · split
    · next rest hrest =>
      cases hafter.symm.trans hrest
      rw [a.value_write t, hname]
      exact congrArg (fun value => (a.name, value) :: attributeList t) (decodeEntities_code a.value)
    · next hne => exact (hne _ hafter).elim

theorem attributeList_nil : attributeList [] = [] := by
  rw [attributeList]
  rfl

theorem attributeList_written (as : List Attribute) :
    attributeList (as.flatMap Attribute.toText) = as.map fun a => (a.name, a.text) := by
  induction as with
  | nil => exact attributeList_nil
  | cons a as ih =>
    rw [List.flatMap_cons, attributeList_write, ih]
    rfl

/-! ## Tags -/

/-- A start tag as it is written; it may close itself. -/
structure StartTag where
  name : Text
  attributes : List Attribute := []
  closes : Bool := true
  name_ne_nil : name ≠ []
  name_chars : ∀ c ∈ name, isTagChar c = true

namespace StartTag

def attributeCode (t : StartTag) : Text := t.attributes.flatMap Attribute.toText

def body (t : StartTag) : Text := startLead ++ t.name ++ t.attributeCode

def ending (t : StartTag) : Text := if t.closes then "/>".toList else ">".toList

def toText (t : StartTag) : Text := t.body ++ t.ending

def pairs (t : StartTag) : List (Text × Text) := t.attributes.map fun a => (a.name, a.text)

end StartTag

/-- The search for the end of a tag passes over text without marks. -/
theorem tagRest?_plain {l t : Text} (hl : ∀ c ∈ l, c ∉ "<>\"'".toList) :
    tagRest? none (l ++ t) = (tagRest? none t).map fun found => (l ++ found.1, found.2) := by
  induction l with
  | nil =>
    cases h : tagRest? none t <;> simp [h]
  | cons c l ih =>
    have hc := hl c List.mem_cons_self
    have hright : (c == '>') = false := by
      rw [beq_eq_false_iff_ne]
      rintro rfl
      exact hc (by decide)
    have hleft : (c == '<') = false := by
      rw [beq_eq_false_iff_ne]
      rintro rfl
      exact hc (by decide)
    have hquote : isQuote c = false := by
      rw [Bool.eq_false_iff]
      intro hq
      rcases isQuote_cases hq with rfl | rfl
      · exact hc (by decide)
      · exact hc (by decide)
    rw [List.cons_append, tagRest?]
    simp only [hright, hleft, hquote, Bool.false_eq_true, if_false]
    rw [ih fun c hmem => hl c (List.mem_cons_of_mem _ hmem)]
    cases tagRest? none t <;> rfl

/-- It passes over what is in quotes. -/
theorem tagRest?_quoted {q : Char} {l t : Text} (hl : q ∉ l) :
    tagRest? (some q) (l ++ q :: t) =
      (tagRest? none t).map fun found => (l ++ q :: found.1, found.2) := by
  induction l with
  | nil =>
    rw [List.nil_append, tagRest?]
    simp
  | cons c l ih =>
    have hc : (c == q) = false := by
      rw [beq_eq_false_iff_ne]
      rintro rfl
      exact hl List.mem_cons_self
    rw [List.cons_append, tagRest?]
    simp only [hc, Bool.false_eq_true, if_false]
    rw [ih fun hmem => hl (List.mem_cons_of_mem _ hmem)]
    cases tagRest? none t <;> rfl

private theorem not_mark_of_blank {c : Char} (h : isBlank c = true) : c ∉ "<>\"'".toList := by
  intro hmem
  have hmarks : "<>\"'".toList.all (! isBlank ·) = true := by decide
  have hblank := List.all_eq_true.mp hmarks c hmem
  rw [h] at hblank
  cases hblank

private theorem not_mark_of_isTagChar {c : Char} (h : isTagChar c = true) :
    c ∉ "<>\"'".toList := by
  intro hmem
  have hmarks : "<>\"'".toList.all (! isTagChar ·) = true := by decide
  have hchar := List.all_eq_true.mp hmarks c hmem
  rw [h] at hchar
  cases hchar

theorem Attribute.tagRest?_write (a : Attribute) (t : Text) :
    tagRest? none (a.toText ++ t) =
      (tagRest? none t).map fun found => (a.toText ++ found.1, found.2) := by
  have hblank {l : Text} (hl : ∀ c ∈ l, isBlank c = true) : ∀ c ∈ l, c ∉ "<>\"'".toList :=
    fun c hc => not_mark_of_blank (hl c hc)
  have hname : ∀ c ∈ a.name, c ∉ "<>\"'".toList := fun c hc =>
    not_mark_of_isTagChar (isTagChar_of_isAttributeChar (a.name_chars c hc)).1
  have hequals : ∀ c ∈ ['='], c ∉ "<>\"'".toList := by simp
  have hopen (after : Text) : tagRest? none (a.quote :: after) =
      (tagRest? (some a.quote) after).map fun found => (a.quote :: found.1, found.2) := by
    rcases isQuote_cases a.quote_mark with hq | hq
    · rw [hq, tagRest?]
      rfl
    · rw [hq, tagRest?]
      rfl
  have hcode := tagRest?_quoted (t := t) a.quote_not_mem_code
  have hwritten : a.toText ++ t =
      a.before ++ (a.name ++ (a.left ++ (['='] ++ (a.right ++ a.quote :: (a.code ++ a.quote :: t))))) := by
    simp [toText]
  rw [hwritten, tagRest?_plain (hblank a.before_blank), tagRest?_plain hname,
    tagRest?_plain (hblank a.left_blank), tagRest?_plain hequals,
    tagRest?_plain (hblank a.right_blank), hopen, hcode]
  cases tagRest? none t <;> simp [toText]

theorem tagRest?_attributes (as : List Attribute) (t : Text) :
    tagRest? none (as.flatMap Attribute.toText ++ t) =
      (tagRest? none t).map fun found => (as.flatMap Attribute.toText ++ found.1, found.2) := by
  induction as with
  | nil => cases h : tagRest? none t <;> simp [h]
  | cons a as ih =>
    rw [List.flatMap_cons, List.append_assoc, a.tagRest?_write, ih]
    cases tagRest? none t <;> simp

theorem scan_nil : scan [] = [] := by
  unfold scan pieces
  rw [piecesFrom]
  rfl

private theorem startLead_eq : startLead = '<' :: "esi:".toList := by
  decide

private theorem endLead_eq : endLead = '<' :: '/' :: "esi:".toList := by
  decide

namespace StartTag

theorem splitTag?_write (tag : StartTag) (t : Text) :
    splitTag? (tag.toText ++ t) = some (tag.toText, t) := by
  have hwritten : tag.toText ++ t =
      '<' :: ("esi:".toList ++ (tag.name ++ (tag.attributeCode ++ (tag.ending ++ t)))) := by
    simp [toText, body, startLead_eq]
  have hname : ∀ c ∈ tag.name, c ∉ "<>\"'".toList := fun c hc =>
    not_mark_of_isTagChar (tag.name_chars c hc)
  have hlead : ∀ c ∈ "esi:".toList, c ∉ "<>\"'".toList := by simp
  have hending : tagRest? none (tag.ending ++ t) = some (tag.ending, t) := by
    unfold ending
    cases tag.closes <;> rfl
  have hattributes := tagRest?_attributes tag.attributes (tag.ending ++ t)
  rw [hwritten, splitTag?, tagRest?_plain hlead, tagRest?_plain hname]
  unfold attributeCode
  rw [hattributes, hending]
  simp [toText, body, startLead_eq, attributeCode]

theorem markerAt_write (tag : StartTag) (inComment : Bool) (t : Text) :
    markerAt inComment (tag.toText ++ t) = some .tag := by
  have hlead : startLead.isPrefixOf (tag.toText ++ t) = true := by
    rw [List.isPrefixOf_iff_prefix]
    exact ⟨tag.name ++ tag.attributeCode ++ tag.ending ++ t, by simp [toText, body]⟩
  unfold markerAt
  rw [hlead]
  rfl

/-- A written tag is one token, whatever follows it. -/
theorem piecesFrom_write (tag : StartTag) (inComment : Bool) (t : Text) :
    piecesFrom inComment (tag.toText ++ t) =
      .token (.tag tag.toText) :: piecesFrom inComment t := by
  have hmarker := tag.markerAt_write inComment t
  have hsplit := tag.splitTag?_write t
  obtain ⟨c, rest, hcons⟩ : ∃ c rest, tag.toText ++ t = c :: rest :=
    ⟨'<', "esi:".toList ++ tag.name ++ tag.attributeCode ++ tag.ending ++ t, by
      simp [toText, body, startLead_eq]⟩
  rw [hcons] at hmarker hsplit ⊢
  rw [piecesFrom]
  split
  · next hnone => cases hmarker.symm.trans hnone
  · next hopening => cases hmarker.symm.trans hopening
  · next hclosing => cases hmarker.symm.trans hclosing
  · split
    · next found after hfound =>
      cases hsplit.symm.trans hfound
      rfl
    · next hnone => cases hsplit.symm.trans hnone

theorem scan_write (tag : StartTag) (t : Text) :
    scan (tag.toText ++ t) = .tag tag.toText :: scan t := by
  unfold scan pieces
  rw [tag.piecesFrom_write]
  rfl

/-! ## Reading a tag -/

private theorem dropEndWhile_pos {p : Char → Bool} {l : Text} {c : Char} (h : p c = true) :
    dropEndWhile p (l ++ [c]) = dropEndWhile p l := by
  simp [dropEndWhile, h]

private theorem dropEndWhile_neg {p : Char → Bool} {l : Text} {c : Char} (h : p c = false) :
    dropEndWhile p (l ++ [c]) = l ++ [c] := by
  simp [dropEndWhile, h]

/-- What stands before the end of a tag is part of a name or a quote. -/
private theorem body_last (tag : StartTag) :
    ∃ l c, tag.body = l ++ [c] ∧ isBlank c = false ∧ c ∉ "/>".toList := by
  have hquote (a : Attribute) : isBlank a.quote = false ∧ a.quote ∉ "/>".toList := by
    rcases isQuote_cases a.quote_mark with hq | hq
    · rw [hq]
      decide
    · rw [hq]
      decide
  unfold body attributeCode
  rcases List.eq_nil_or_concat tag.attributes with hnil | ⟨as, a, hlast⟩
  · rcases List.eq_nil_or_concat tag.name with hname | ⟨l, c, hname⟩
    · exact (tag.name_ne_nil hname).elim
    · have hc := isTagChar_eq_true (tag.name_chars c (by simp [hname]))
      refine ⟨startLead ++ l, c, by simp [hnil, hname], hc.1, fun hmem => hc.2 ?_⟩
      have hmarks : "/>".toList ⊆ "/<>\"'".toList := by simp
      exact hmarks hmem
  · refine ⟨startLead ++ tag.name ++ as.flatMap Attribute.toText ++
      (a.before ++ (a.name ++ (a.left ++ '=' :: (a.right ++ a.quote :: a.code)))), a.quote, ?_,
      hquote a⟩
    simp [hlast, Attribute.toText]

private theorem dropEndWhile_write (tag : StartTag) :
    dropEndWhile (· == '>') tag.toText = if tag.closes then tag.body ++ ['/'] else tag.body := by
  obtain ⟨l, c, hbody, -, hmark⟩ := tag.body_last
  have hc : (c == '>') = false := by
    rw [beq_eq_false_iff_ne]
    rintro rfl
    exact hmark (by decide)
  unfold toText ending
  cases tag.closes with
  | true =>
    have hend : tag.body ++ "/>".toList = (tag.body ++ ['/']) ++ ['>'] := by simp
    simp only [if_true]
    rw [hend, dropEndWhile_pos rfl, dropEndWhile_neg rfl]
  | false =>
    have hend : tag.body ++ ">".toList = tag.body ++ ['>'] := rfl
    simp only [Bool.false_eq_true, if_false]
    rw [hend, dropEndWhile_pos rfl, hbody]
    exact dropEndWhile_neg hc

theorem isSelfClosing_write (tag : StartTag) : isSelfClosing tag.toText = tag.closes := by
  unfold isSelfClosing trimEnd
  rw [tag.dropEndWhile_write]
  cases tag.closes with
  | true =>
    simp only [if_true]
    rw [dropEndWhile_neg (by decide)]
    simp
  | false =>
    obtain ⟨l, c, hbody, hblank, hmark⟩ := tag.body_last
    have hc : c ≠ '/' := by
      rintro rfl
      exact hmark (by decide)
    simp only [Bool.false_eq_true, if_false]
    rw [hbody, dropEndWhile_neg hblank]
    simpa using hc

theorem attributeText_write (tag : StartTag) : attributeText tag.toText = tag.attributeCode := by
  have hbare : dropEndWhile (· == '/') (dropEndWhile (· == '>') tag.toText) = tag.body := by
    obtain ⟨l, c, hbody, -, hmark⟩ := tag.body_last
    have hc : (c == '/') = false := by
      rw [beq_eq_false_iff_ne]
      rintro rfl
      exact hmark (by decide)
    rw [tag.dropEndWhile_write]
    cases tag.closes with
    | true =>
      simp only [if_true]
      rw [dropEndWhile_pos rfl, hbody]
      exact dropEndWhile_neg hc
    | false =>
      simp only [Bool.false_eq_true, if_false]
      rw [hbody]
      exact dropEndWhile_neg hc
  unfold attributeText
  rw [hbare]
  refine (takeWhile_run (l := startLead ++ tag.name) (fun d hd => ?_) fun d hd => ?_).2
  · rw [Bool.not_eq_true']
    rcases List.mem_append.mp hd with hlead | hname
    · have hall : startLead.all (! isBlank ·) = true := by decide
      simpa using List.all_eq_true.mp hall d hlead
    · exact (isTagChar_eq_true (tag.name_chars d hname)).1
  · unfold attributeCode at hd
    cases has : tag.attributes with
    | nil =>
      rw [has] at hd
      cases hd
    | cons a as =>
      obtain ⟨e, rest, hbefore⟩ := List.exists_cons_of_ne_nil a.before_ne_nil
      have he := a.before_blank e (hbefore ▸ List.mem_cons_self)
      rw [has] at hd
      simp only [List.flatMap_cons, Attribute.toText, hbefore, List.cons_append,
        List.head?_cons, Option.some.injEq] at hd
      rw [← hd, he]
      rfl

/-- The attributes are read as they were written; of two with one name the later counts. -/
theorem attributes_write (tag : StartTag) :
    Markup.attributes tag.toText = .ofList tag.pairs := by
  unfold Markup.attributes
  rw [tag.attributeText_write]
  exact congrArg Table.ofList (attributeList_written tag.attributes)

/-! ## Finding the directive -/

private theorem dropLead?_both (l x y : Text) : dropLead? (l ++ x) (l ++ y) = dropLead? x y := by
  induction l with
  | nil => rfl
  | cons c l ih => simpa [dropLead?] using ih

/-- What follows the name of a tag ends the name. -/
private theorem name_end (tag : StartTag) :
    ∃ c rest, tag.attributeCode ++ tag.ending = c :: rest ∧ endsName c = true := by
  unfold attributeCode
  cases tag.attributes with
  | nil =>
    unfold ending
    cases tag.closes with
    | true => exact ⟨'/', ['>'], rfl, rfl⟩
    | false => exact ⟨'>', [], rfl, rfl⟩
  | cons a as =>
    obtain ⟨c, rest, hbefore⟩ := List.exists_cons_of_ne_nil a.before_ne_nil
    have hblank := a.before_blank c (hbefore ▸ List.mem_cons_self)
    have hcode : (a :: as).flatMap Attribute.toText ++ tag.ending =
        c :: (rest ++ (a.name ++ (a.left ++ '=' :: (a.right ++ a.quote :: (a.code ++ [a.quote])))) ++
          as.flatMap Attribute.toText ++ tag.ending) := by
      simp [Attribute.toText, hbefore]
    exact ⟨c, _, hcode, by simp [endsName, hblank]⟩

private theorem endsName_of_isTagChar {c : Char} (h : isTagChar c = true) : endsName c = false := by
  obtain ⟨hblank, hmark⟩ := isTagChar_eq_true h
  have hslash : c ≠ '/' := by
    rintro rfl
    exact hmark (by decide)
  have hright : c ≠ '>' := by
    rintro rfl
    exact hmark (by decide)
  simp [endsName, hblank, hslash, hright]

/-- The name of a tag is read as it was written. -/
theorem tagName_write (tag : StartTag) : tagName tag.toText = tag.name := by
  obtain ⟨c, rest, hend, hc⟩ := tag.name_end
  have hwritten : tag.toText = startLead ++ (tag.name ++ (c :: rest)) := by
    rw [← hend]
    simp [toText, body]
  have hend : dropLead? endLead tag.toText = none := by
    simp [hwritten, startLead_eq, endLead_eq, dropLead?]
  unfold tagName
  rw [hend, hwritten, dropLead?_append]
  refine (takeWhile_run (fun d hd => ?_) (fun d hd => ?_)).1
  · rw [endsName_of_isTagChar (tag.name_chars d hd)]
    rfl
  · cases hd
    rw [hc]
    rfl

theorem leads_write (tag : StartTag) {name : Text} (hname : ∀ c ∈ name, isTagChar c = true) :
    Directive.leads (startLead ++ name) tag.toText = decide (tag.name = name) := by
  obtain ⟨c, rest, hend, hc⟩ := tag.name_end
  have hwritten : tag.toText = startLead ++ (tag.name ++ (c :: rest)) := by
    rw [← hend]
    simp [toText, body]
  unfold Directive.leads
  rw [hwritten, dropLead?_both]
  by_cases heq : tag.name = name
  · rw [heq, dropLead?_append]
    simpa using hc
  · rw [decide_eq_false heq]
    cases h : dropLead? name (tag.name ++ c :: rest) with
    | none => rfl
    | some after =>
      have happend := eq_append_of_dropLead? h
      rcases List.append_eq_append_iff.mp happend with ⟨more, hmore, hafter⟩ | ⟨more, hmore, hafter⟩
      · cases more with
        | nil => exact (heq (by simpa using hmore.symm)).elim
        | cons d more =>
          cases hafter
          rw [endsName_of_isTagChar (hname c (by simp [hmore]))] at hc
          cases hc
      · cases more with
        | nil => exact (heq (by simpa using hmore)).elim
        | cons d more =>
          rw [hafter]
          exact endsName_of_isTagChar (tag.name_chars d (by simp [hmore]))

theorem role?_write (tag : StartTag) (d : Directive) :
    role? d tag.toText = if tag.name = d.name then some (.starts d) else none := by
  have hname : ∀ c ∈ d.name, isTagChar c = true := by
    cases d <;> exact List.all_eq_true.mp rfl
  have hend : d.isEndTag tag.toText = false := by
    unfold Directive.isEndTag Directive.leads
    simp [toText, body, startLead_eq, endLead_eq, dropLead?]
  have hstart : d.isStartTag tag.toText = decide (tag.name = d.name) := tag.leads_write hname
  unfold role?
  rw [hstart, hend]
  simp

/-- A tag belongs to the directive that it is named after. -/
theorem lookup?_write (tag : StartTag) {d : Directive} (h : tag.name = d.name) :
    lookup? tag.toText = some (.starts d) := by
  unfold lookup?
  have hrole : (role? · tag.toText) = fun d' => if d.name = d'.name then some (.starts d') else none :=
    funext fun d' => by rw [tag.role?_write, h]
  rw [hrole]
  cases d <;> rfl

/-- A tag starts an element of the directive that it is named after, and plays no other part. -/
theorem lookup?_write_iff (tag : StartTag) {role : TagRole} :
    lookup? tag.toText = some role ↔ ∃ d : Directive, d.name = tag.name ∧ role = .starts d := by
  constructor
  · intro h
    obtain ⟨d, -, hd⟩ := List.exists_of_findSome?_eq_some h
    rw [tag.role?_write] at hd
    split at hd
    · next hname =>
      cases hd
      exact ⟨d, hname.symm, rfl⟩
    · cases hd
  · rintro ⟨d, hname, rfl⟩
    exact tag.lookup?_write hname.symm

end StartTag

end EdgeCompose.Markup
