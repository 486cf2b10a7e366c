import EdgeCompose.Proofs.Tags
import EdgeCompose.Template.Substitution

/-!
Templates as they are written: text without dollar signs, dollar signs that begin no reference, and
references in their three forms. The reader finds a reference exactly where one of the forms stands
(`partAt?_eq_some_iff`), so the parts of a template are those of its segments (`parts_written`). Then
each reference gives way to its value once, whatever the value looks like, and the first unknown
provider is the error (`substitute_written`). Every text is written in segments (`exists_written`).
-/

namespace EdgeCompose.Template

open Text

/-! ## References as they are written -/

/-- What can stand in the parentheses of a reference as a name. -/
def IsName (t : Text) : Prop := t ≠ [] ∧ ∀ c ∈ t, isNameChar c = true

/-- The forms of a reference: a name, a name with a key, and a provider by its own form. -/
inductive Form where
  | whole (name : Text) (proper : IsName name)
  | keyed (name key : Text) (proper : IsName name) (closed : '\x7d' ∉ key)
  | provider (name : Text) (closed : ¬ providerEnd <:+: name)

namespace Form

def toText : Form → Text
  | .whole name _ => '$' :: '(' :: (name ++ [')'])
  | .keyed name key _ _ => '$' :: '(' :: (name ++ '\x7b' :: (key ++ ['\x7d', ')']))
  | .provider name _ => providerLead ++ (name ++ providerEnd)

def reference : Form → Reference
  | .whole name _ => { name, key := none }
  | .keyed name key _ _ => { name, key := some key }
  | .provider name _ => { name := Variables.provider, key := some name }

end Form

private theorem providerLead_eq : providerLead = '$' :: 'P' :: "ROVIDER(\x7b".toList := by
  decide

private theorem providerEnd_eq : providerEnd = ['\x7d', ')'] := by
  decide

variable {t rest : Text} {r : Reference}

/-- A mark is cut at where it stands first. -/
theorem cut?_eq_some {mark before : Text} (hmark : mark ≠ [])
    (h : cut? mark t = some (before, rest)) :
    t = before ++ (mark ++ rest) ∧ ¬ mark <:+: before := by
  induction t generalizing before with
  | nil =>
    obtain ⟨a, mark, rfl⟩ := List.exists_cons_of_ne_nil hmark
    simp [cut?, dropLead?] at h
  | cons c t ih =>
    unfold cut? at h
    cases hlead : dropLead? mark (c :: t) with
    | some after =>
      rw [hlead] at h
      cases h
      refine ⟨by simpa using eq_append_of_dropLead? hlead, by simpa using hmark⟩
    | none =>
      rw [hlead] at h
      obtain ⟨⟨front, rest'⟩, hcut, heq⟩ := Option.map_eq_some_iff.mp h
      cases heq
      obtain ⟨rfl, hfree⟩ := ih hcut
      refine ⟨rfl, fun hwithin => ?_⟩
      rcases List.infix_cons_iff.mp hwithin with ⟨more, hmore⟩ | hwithin
      · rw [← List.cons_append, ← hmore, List.append_assoc, dropLead?_append] at hlead
        cases hlead
      · exact hfree hwithin

/-- The end of a provider's name is found behind the whole name, as it overlaps with no other. -/
theorem cut?_providerEnd {name : Text} (h : ¬ providerEnd <:+: name) (rest : Text) :
    cut? providerEnd (name ++ (providerEnd ++ rest)) = some (name, rest) := by
  induction name with
  | nil => rfl
  | cons c name ih =>
    have hname : ¬ providerEnd <:+: name := fun hwithin =>
      h (hwithin.trans (List.suffix_cons c name).isInfix)
    have hlead : dropLead? providerEnd (c :: (name ++ (providerEnd ++ rest))) = none := by
      cases hdrop : dropLead? providerEnd (c :: (name ++ (providerEnd ++ rest))) with
      | none => rfl
      | some after =>
        have heq := eq_append_of_dropLead? hdrop
        cases name with
        | nil => simp [providerEnd_eq] at heq
        | cons d name =>
          obtain ⟨rfl, rfl, -⟩ : c = '\x7d' ∧ d = ')' ∧ _ := by
            simpa [providerEnd_eq] using heq
          exact (h ⟨[], name, rfl⟩).elim
    rw [List.cons_append, cut?, hlead]
    simp only [ih hname, Option.map_some]

private def endsReferenceName (c : Char) : Bool := c == '\x7b' || c == ')'

private theorem not_endsReferenceName {c : Char} (h : isNameChar c = true) :
    endsReferenceName c = false := by
  rw [Bool.eq_false_iff]
  intro hends
  have hmarks : ['\x7b', ')'].all (! isNameChar ·) = true := by decide
  have hmark := List.all_eq_true.mp hmarks c (by simpa [endsReferenceName] using hends)
  rw [h] at hmark
  cases hmark

private theorem name_run {name : Text} (hname : IsName name) {c : Char} (hc : endsReferenceName c = true)
    (rest : Text) : (name ++ c :: rest).takeWhile (! endsReferenceName ·) = name ∧
      (name ++ c :: rest).dropWhile (! endsReferenceName ·) = c :: rest := by
  refine Markup.takeWhile_run (fun d hd => ?_) (fun d hd => ?_)
  · rw [not_endsReferenceName (hname.2 d hd)]
    rfl
  · cases hd
    rw [hc]
    rfl

private theorem isName_iff {name : Text} :
    (name.isEmpty || !name.all isNameChar) = false ↔ IsName name := by
  cases name <;> simp [IsName]

private theorem key_run {key : Text} (h : '\x7d' ∉ key) (rest : Text) :
    (key ++ '\x7d' :: rest).takeWhile (· != '\x7d') = key ∧
      (key ++ '\x7d' :: rest).dropWhile (· != '\x7d') = '\x7d' :: rest := by
  refine Markup.takeWhile_run (fun d hd => ?_) (fun d hd => ?_)
  · rw [bne_iff_ne]
    rintro rfl
    exact h hd
  · cases hd
    rfl

/-- The text that a run stops at begins with a character that is not of its kind. -/
private theorem head_dropWhile {p : Char → Bool} {c : Char} (h : t.dropWhile p = c :: rest) :
    t = t.takeWhile p ++ c :: rest ∧ p c = false := by
  refine ⟨?_, ?_⟩
  · rw [← h, List.takeWhile_append_dropWhile]
  · have hhead := List.head?_dropWhile_not p t
    rw [h] at hhead
    simpa using hhead

private def ended? (name : Text) : Text → Option (Reference × Text)
  | ')' :: rest => some ({ name, key := none }, rest)
  | _ :: keyed =>
    match keyed.dropWhile (· != '\x7d') with
    | _ :: ')' :: rest => some ({ name, key := some (keyed.takeWhile (· != '\x7d')) }, rest)
    | _ => none
  | [] => none

private theorem referenceBody?_eq (t : Text) : referenceBody? t =
    if (t.takeWhile (! endsReferenceName ·)).isEmpty ||
        !(t.takeWhile (! endsReferenceName ·)).all isNameChar then none
    else ended? (t.takeWhile (! endsReferenceName ·)) (t.dropWhile (! endsReferenceName ·)) := rfl

private theorem ended?_brace (name keyed : Text) : ended? name ('\x7b' :: keyed) =
    match keyed.dropWhile (· != '\x7d') with
    | _ :: ')' :: rest => some ({ name, key := some (keyed.takeWhile (· != '\x7d')) }, rest)
    | _ => none := by
  simp [ended?]

private theorem ended?_keyed {key : Text} (h : '\x7d' ∉ key) (name rest : Text) :
    ended? name ('\x7b' :: (key ++ '\x7d' :: ')' :: rest)) =
      some ({ name, key := some key }, rest) := by
  have hrun := key_run h (')' :: rest)
  rw [ended?_brace, hrun.1, hrun.2]
  rfl

private theorem ended?_eq_some {name : Text} (hname : IsName name) {c : Char}
    (hc : endsReferenceName c = true) (h : ended? name (c :: t) = some (r, rest)) :
    ∃ f : Form, f.reference = r ∧ '$' :: '(' :: (name ++ c :: t) = f.toText ++ rest := by
  have hmark : c = ')' ∨ c = '\x7b' := by
    rw [or_comm]
    simpa [endsReferenceName] using hc
  rcases hmark with rfl | rfl
  · cases h
    exact ⟨.whole name hname, rfl, by simp [Form.toText]⟩
  · rw [ended?_brace] at h
    split at h
    · next d after hkey =>
      cases h
      obtain ⟨hkeyed, hd⟩ := head_dropWhile hkey
      obtain rfl : d = '\x7d' := by simpa using hd
      have closed : '\x7d' ∉ t.takeWhile (· != '\x7d') := by
        intro hmem
        have hkind := List.all_eq_true.mp List.all_takeWhile _ hmem
        simp at hkind
      refine ⟨.keyed name _ hname closed, rfl, ?_⟩
      simpa [Form.toText] using hkeyed
    · cases h

theorem referenceBody?_eq_some_iff : referenceBody? t = some (r, rest) ↔
    ∃ f : Form, f.reference = r ∧ '$' :: '(' :: t = f.toText ++ rest := by
  rw [referenceBody?_eq]
  constructor
  · intro h
    split at h
    · cases h
    · next hname =>
      have proper := isName_iff.mp (Bool.eq_false_iff.mpr hname)
      cases hdrop : t.dropWhile (! endsReferenceName ·) with
      | nil =>
        rw [hdrop] at h
        cases h
      | cons c after =>
        rw [hdrop] at h
        obtain ⟨ht, hends⟩ := head_dropWhile hdrop
        obtain ⟨f, hf, hwritten⟩ := ended?_eq_some proper (by simpa using hends) h
        exact ⟨f, hf, by rw [← hwritten, ← ht]⟩
  · rintro ⟨f, rfl, h⟩
    cases f with
    | whole name proper =>
      obtain rfl : t = name ++ ')' :: rest := by simpa [Form.toText] using h
      have hrun := name_run proper (c := ')') rfl rest
      rw [hrun.1, hrun.2, isName_iff.mpr proper]
      rfl
    | keyed name key proper closed =>
      obtain rfl : t = name ++ '\x7b' :: (key ++ '\x7d' :: ')' :: rest) := by
        simpa [Form.toText] using h
      have hrun := name_run proper (c := '\x7b') rfl (key ++ '\x7d' :: ')' :: rest)
      rw [hrun.1, hrun.2, isName_iff.mpr proper, ended?_keyed closed]
      rfl
    | provider name closed => simp [Form.toText, providerLead_eq] at h

/-- A reference is read exactly where one is written. -/
theorem partAt?_eq_some_iff : partAt? t = some (r, rest) ↔
    ∃ f : Form, f.reference = r ∧ t = f.toText ++ rest := by
  unfold partAt?
  cases hlead : dropLead? providerLead t with
  | some body =>
    have ht := eq_append_of_dropLead? hlead
    simp only [Option.map_eq_some_iff]
    constructor
    · rintro ⟨⟨name, after⟩, hcut, heq⟩
      cases heq
      obtain ⟨rfl, closed⟩ := cut?_eq_some (by decide) hcut
      exact ⟨.provider name closed, rfl, by simp [Form.toText, ht]⟩
    · rintro ⟨f, rfl, hf⟩
      cases f with
      | provider name closed =>
        have hbody : body = name ++ (providerEnd ++ rest) := by
          simpa [Form.toText, ht] using hf
        exact ⟨(name, rest), hbody ▸ cut?_providerEnd closed rest, rfl⟩
      | _ => simp [Form.toText, ht, providerLead_eq] at hf
  | none =>
    have hprovider (name : Text) (closed : ¬ providerEnd <:+: name) (rest : Text) :
        t ≠ (Form.provider name closed).toText ++ rest := by
      rintro rfl
      rw [Form.toText, List.append_assoc, dropLead?_append] at hlead
      cases hlead
    simp only [reference?]
    split
    · next body => exact referenceBody?_eq_some_iff
    · next hopen =>
      constructor
      · intro h
        cases h
      · rintro ⟨f, rfl, rfl⟩
        cases f with
        | provider name closed => exact (hprovider name closed rest rfl).elim
        | _ => exact (hopen _ rfl).elim

/-- No reference is read where none is written. -/
theorem partAt?_eq_none_iff : partAt? t = none ↔ ∀ f : Form, ¬ f.toText <+: t := by
  rw [Option.eq_none_iff_forall_ne_some]
  constructor
  · rintro h f ⟨rest, rfl⟩
    exact h (f.reference, rest) (partAt?_eq_some_iff.mpr ⟨f, rfl, rfl⟩)
  · rintro h ⟨r, rest⟩ hpart
    obtain ⟨f, -, rfl⟩ := partAt?_eq_some_iff.mp hpart
    exact h f (List.prefix_append _ _)

/-! ## Segments -/

/-- A piece of a template as it is written. -/
inductive Segment where
  | literal (t : Text) (plain : '$' ∉ t)
  | dollar
  | reference (form : Form)

namespace Segment

def toText : Segment → Text
  | .literal t _ => t
  | .dollar => ['$']
  | .reference form => form.toText

def parts : Segment → List Part
  | .literal t _ => t.map .literal
  | .dollar => [.literal '$']
  | .reference form => [.reference form.reference]

end Segment

def written (segments : List Segment) : Text := segments.flatMap Segment.toText

/-- No dollar sign that stands for itself begins a reference with what is written after it. -/
def Proper (segments : List Segment) : Prop :=
  ∀ before after, segments = before ++ .dollar :: after →
    ∀ f : Form, ¬ f.toText <+: '$' :: written after

theorem Proper.tail {s : Segment} {segments : List Segment} (h : Proper (s :: segments)) :
    Proper segments := by
  rintro before after rfl
  exact h (s :: before) after rfl

theorem Proper.cons {s : Segment} {segments : List Segment} (h : Proper segments)
    (hs : s = .dollar → ∀ f : Form, ¬ f.toText <+: '$' :: written segments) :
    Proper (s :: segments) := by
  intro before after heq
  cases before with
  | nil =>
    cases heq
    exact hs rfl
  | cons s' before =>
    cases heq
    exact h before after rfl

theorem parts_of_partAt? (h : partAt? t = some (r, rest)) : parts t = .reference r :: parts rest := by
  cases t with
  | nil => cases h
  | cons c t =>
    rw [parts]
    split
    · next hfound =>
      cases h.symm.trans hfound
      rfl
    · next hnone => cases h.symm.trans hnone

theorem parts_of_none {c : Char} (h : partAt? (c :: t) = none) :
    parts (c :: t) = .literal c :: parts t := by
  rw [parts]
  split
  · next hfound => cases h.symm.trans hfound
  · rfl

theorem Form.head?_toText (f : Form) : f.toText.head? = some '$' := by
  cases f <;> rfl

/-- A reference begins with a dollar sign. -/
theorem Form.not_prefix (f : Form) {c : Char} (hc : c ≠ '$') : ¬ f.toText <+: c :: t := by
  rintro ⟨rest, h⟩
  have hhead := congrArg List.head? h
  rw [List.head?_append, f.head?_toText] at hhead
  cases hhead
  exact hc rfl

theorem parts_plain {l : Text} (h : '$' ∉ l) (t : Text) :
    parts (l ++ t) = l.map .literal ++ parts t := by
  induction l with
  | nil => rfl
  | cons c l ih =>
    obtain ⟨hc, hl⟩ := List.ne_and_not_mem_of_not_mem_cons h
    have hnone : partAt? (c :: (l ++ t)) = none :=
      partAt?_eq_none_iff.mpr fun f => f.not_prefix (Ne.symm hc)
    rw [List.cons_append, parts_of_none hnone, ih hl]
    rfl

/-- The parts of a template are those of its segments. -/
theorem parts_written {segments : List Segment} (h : Proper segments) :
    parts (written segments) = segments.flatMap Segment.parts := by
  induction segments with
  | nil => rw [written, List.flatMap_nil, parts, List.flatMap_nil]
  | cons s segments ih =>
    have hrest := ih h.tail
    have hwritten : written (s :: segments) = s.toText ++ written segments := rfl
    rw [hwritten, List.flatMap_cons, ← hrest]
    cases s with
    | literal t plain => exact parts_plain plain _
    | dollar => exact parts_of_none (partAt?_eq_none_iff.mpr (h [] segments rfl))
    | reference f => exact parts_of_partAt? (partAt?_eq_some_iff.mpr ⟨f, rfl, rfl⟩)

/-- Every text is written in segments, whatever dollar signs are in it. -/
theorem exists_written (t : Text) : ∃ segments, Proper segments ∧ written segments = t := by
  fun_induction parts t with
  | case1 => exact ⟨[], by simp [Proper], rfl⟩
  | case2 c t r rest hpart ih =>
    obtain ⟨segments, hproper, rfl⟩ := ih
    obtain ⟨f, -, hf⟩ := partAt?_eq_some_iff.mp hpart
    exact ⟨.reference f :: segments, hproper.cons nofun, hf.symm⟩
  | case3 c t hpart ih =>
    obtain ⟨segments, hproper, rfl⟩ := ih
    by_cases hc : c = '$'
    · subst hc
      exact ⟨.dollar :: segments, hproper.cons fun _ => partAt?_eq_none_iff.mp hpart, rfl⟩
    · exact ⟨.literal [c] (by simpa using Ne.symm hc) :: segments, hproper.cons nofun, rfl⟩

/-! ## Values -/

def Reference.provider? (r : Reference) : Option Text :=
  if r.name = Variables.provider then r.key else none

/-- The provider that a reference names, if there is none of its name. -/
def Reference.unknown? (v : Variables) (r : Reference) : Option Text :=
  r.provider?.filter fun name => (v.backends.get? name).isNone

def Reference.value (v : Variables) (r : Reference) : Text :=
  (v.lookup r.name r.key).toOption.getD []

/-- A reference has a value unless it names a provider that is not known. -/
theorem lookup_eq (v : Variables) (r : Reference) : v.lookup r.name r.key =
    match r.unknown? v with
    | some name => .error (.unknownProvider name)
    | none => .ok (r.value v) := by
  obtain ⟨name, key⟩ := r
  unfold Reference.value
  cases key with
  | none => simp [Reference.unknown?, Reference.provider?, Variables.lookup, Except.toOption]
  | some key =>
    by_cases hname : name = Variables.provider
    · cases hbase : v.backends.get? key with
      | none =>
        simp [Reference.unknown?, Reference.provider?, Variables.lookup, Variables.keyed,
          Backends.templateBase?, Option.filter, hname, hbase]
      | some url =>
        simp [Reference.unknown?, Reference.provider?, Variables.lookup, Variables.keyed,
          Backends.templateBase?, Option.filter, hname, hbase, Except.toOption]
    · have hnone : Reference.unknown? v { name, key := some key } = none := by
        simp [Reference.unknown?, Reference.provider?, hname]
      have hok : ∃ t, v.keyed name key = .ok t := by
        unfold Variables.keyed
        simp only [beq_iff_eq, hname, if_false]
        split
        · exact ⟨_, rfl⟩
        · split
          · exact ⟨_, rfl⟩
          · split <;> exact ⟨_, rfl⟩
      obtain ⟨t, ht⟩ := hok
      simp [hnone, Variables.lookup, ht, Except.toOption]

namespace Segment

/-- The provider that a segment names, if there is none of its name. -/
def unknown? (v : Variables) : Segment → Option Text
  | .reference form => form.reference.unknown? v
  | _ => none

def value (v : Variables) : Segment → Text
  | .reference form => form.reference.value v
  | s => s.toText

end Segment

def joined (v : Variables) (ps : List Part) : Except ComposeError Text :=
  (ps.mapM (Part.value v)).map List.flatten

theorem joined_append (v : Variables) (ps qs : List Part) : joined v (ps ++ qs) =
    (joined v ps).bind fun t => (joined v qs).map (t ++ ·) := by
  unfold joined
  rw [List.mapM_append]
  cases ps.mapM (Part.value v) with
  | error e => rfl
  | ok ts =>
    cases qs.mapM (Part.value v) with
    | error e => rfl
    | ok us => simp [bind, Except.bind, pure, Except.pure, Except.map]

theorem joined_literal (v : Variables) (t : Text) : joined v (t.map .literal) = .ok t := by
  induction t with
  | nil => rfl
  | cons c t ih =>
    have hsplit : (c :: t).map Part.literal = [.literal c] ++ t.map .literal := rfl
    rw [hsplit, joined_append, ih]
    rfl

theorem joined_segment (v : Variables) (s : Segment) : joined v s.parts =
    match s.unknown? v with
    | some name => .error (.unknownProvider name)
    | none => .ok (s.value v) := by
  cases s with
  | literal t plain => exact joined_literal v t
  | dollar => rfl
  | reference f =>
    have hvalue := lookup_eq v f.reference
    simp only [Segment.parts, Segment.unknown?, Segment.value, joined, List.mapM_cons, List.mapM_nil,
      Part.value, hvalue]
    cases f.reference.unknown? v with
    | none => simp [bind, Except.bind, pure, Except.pure, Except.map]
    | some name => rfl

/-- A template gives way to the values of its segments, which are not read again; the first provider
that is not known is the error. -/
theorem substitute_written (v : Variables) {segments : List Segment} (h : Proper segments) :
    substitute v (written segments) =
      match segments.findSome? (Segment.unknown? v) with
      | some name => .error (.unknownProvider name)
      | none => .ok (segments.flatMap (Segment.value v)) := by
  have hparts : substitute v (written segments) = joined v (segments.flatMap Segment.parts) := by
    rw [← parts_written h]
    rfl
  rw [hparts]
  clear h hparts
  induction segments with
  | nil => rfl
  | cons s segments ih =>
    rw [List.flatMap_cons, joined_append, joined_segment, ih, List.findSome?_cons]
    cases s.unknown? v with
    | some name => rfl
    | none =>
      cases segments.findSome? (Segment.unknown? v) <;> rfl

/-! ## A cookie that looks like a reference -/

/-- A client with a cookie in which references seem to stand, and one backend. -/
def cookieVariables : Variables where
  backends := .ofValidPairs none [("shop".toList, "http://shop.local/base/".toList)]
  request :=
    { headers := [("cookie".toList, Utf8.encode "q=$(HTTP_HOST)$PROVIDER(\x7bx\x7d); r=2".toList),
        ("host".toList, Utf8.encode "shop".toList)] }

def cookieName : Text := "HTTP_COOKIE".toList

private theorem isName_cookieName : IsName cookieName := by
  refine ⟨by decide, List.all_eq_true.mp (by decide)⟩

/-- Dollar signs on their own, a cookie, and a backend. -/
def cookieSegments : List Segment :=
  [.dollar, .literal "5 ".toList (by decide), .dollar, .literal "(a b) ".toList (by decide),
    .reference (.keyed cookieName ['q'] isName_cookieName (by decide)),
    .literal " ".toList (by decide), .reference (.provider "shop".toList (by decide)),
    .literal "/\x7d)".toList (by decide)]

/-- The same with two providers that are not known. -/
def strangeSegments : List Segment :=
  cookieSegments ++ [.reference (.provider "\x7d".toList (by decide)),
    .reference (.keyed Variables.provider "other".toList
      ⟨by decide, List.all_eq_true.mp (by decide)⟩ (by decide))]

private theorem proper_dollars {segments : List Segment} (hsegments : Proper segments)
    (h : partAt? ('$' :: "(a b) ".toList ++ written segments) = none)
    (h' : partAt? ('$' :: "5 $(a b) ".toList ++ written segments) = none) :
    Proper (.dollar :: .literal "5 ".toList (by decide) :: .dollar ::
      .literal "(a b) ".toList (by decide) :: segments) := by
  refine .cons (.cons (.cons (.cons hsegments nofun) fun _ => ?_) nofun) fun _ => ?_
  · exact partAt?_eq_none_iff.mp h
  · exact partAt?_eq_none_iff.mp h'

private theorem proper_of_noDollar {segments : List Segment} (h : .dollar ∉ segments) :
    Proper segments := by
  rintro before after rfl
  simp at h

theorem substitute_written_cookie :
    Proper cookieSegments ∧
      substitute cookieVariables "$5 $(a b) $(HTTP_COOKIE\x7bq\x7d) $PROVIDER(\x7bshop\x7d)/\x7d)".toList =
        .ok "$5 $(a b) $(HTTP_HOST)$PROVIDER(\x7bx\x7d) http://shop.local/base/\x7d)".toList ∧
      substitute cookieVariables (written strangeSegments) =
        .error (.unknownProvider "\x7d".toList) := by
  have hproper : Proper cookieSegments :=
    proper_dollars (proper_of_noDollar (by simp)) (by decide +kernel) (by decide +kernel)
  have hstrange : Proper strangeSegments :=
    proper_dollars (proper_of_noDollar (by simp)) (by decide +kernel) (by decide +kernel)
  have hknown : cookieSegments.findSome? (Segment.unknown? cookieVariables) = none := by
    decide +kernel
  have hunknown : strangeSegments.findSome? (Segment.unknown? cookieVariables) =
      some "\x7d".toList := by
    decide +kernel
  have hvalues : cookieSegments.flatMap (Segment.value cookieVariables) =
      "$5 $(a b) $(HTTP_HOST)$PROVIDER(\x7bx\x7d) http://shop.local/base/\x7d)".toList := by
    decide +kernel
  refine ⟨hproper, ?_, ?_⟩
  · rw [← hvalues]
    have hresult := substitute_written cookieVariables hproper
    rwa [hknown] at hresult
  · have hresult := substitute_written cookieVariables hstrange
    rwa [hunknown] at hresult

end EdgeCompose.Template
