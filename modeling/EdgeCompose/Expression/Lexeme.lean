import EdgeCompose.Expression.Value
import EdgeCompose.Markup.Scan
import EdgeCompose.Template.Substitution

/-!
Test expressions as lexemes. Variables are replaced by their values as they are met, so that an
unknown provider is reported before any fault that stands behind it.
-/

namespace EdgeCompose.Expression

inductive Symbol where
  | opening
  | closing
  | not
  | and
  | or
  | compare (c : Comparison)
  deriving DecidableEq, Repr

inductive Lexeme where
  | symbol (s : Symbol)
  | value (v : Value)
  deriving DecidableEq, Repr

/-- Why a text is no expression. -/
inductive Fault where
  | unterminatedText
  | malformedVariable
  | badNumber (t : Text)
  | unexpectedCharacter (c : Char)
  | empty
  | trailing
  | tooDeep
  | unclosed
  | unexpected (s : Symbol)
  | unexpectedEnd
  deriving DecidableEq, Repr

def Comparison.name : Comparison → Text
  | .eq => "Eq".toList
  | .ne => "Ne".toList
  | .lt => "Lt".toList
  | .le => "Le".toList
  | .gt => "Gt".toList
  | .ge => "Ge".toList

def Symbol.name : Symbol → Text
  | .opening => "LParen".toList
  | .closing => "RParen".toList
  | .not => "Not".toList
  | .and => "And".toList
  | .or => "Or".toList
  | .compare c => "Compare(".toList ++ c.name ++ [')']

def Fault.message : Fault → Text
  | .unterminatedText => "unterminated string".toList
  | .malformedVariable => "malformed variable".toList
  | .badNumber t => "bad number '".toList ++ t ++ "'".toList
  | .unexpectedCharacter c => "unexpected character '".toList ++ [c, '\'']
  | .empty => "empty expression".toList
  | .trailing => "unexpected trailing input".toList
  | .tooDeep => "nesting too deep".toList
  | .unclosed => "missing ')'".toList
  | .unexpected s => "unexpected ".toList ++ s.name
  | .unexpectedEnd => "unexpected end of expression".toList

/-- The lexemes with one spelling; the longer of two spellings comes first. -/
def fixed : List (Text × Lexeme) :=
  [("(".toList, .symbol .opening), (")".toList, .symbol .closing),
    ("!=".toList, .symbol (.compare .ne)), ("!".toList, .symbol .not),
    ("&&".toList, .symbol .and), ("&".toList, .symbol .and),
    ("||".toList, .symbol .or), ("|".toList, .symbol .or),
    ("==".toList, .symbol (.compare .eq)),
    ("<=".toList, .symbol (.compare .le)), ("<".toList, .symbol (.compare .lt)),
    (">=".toList, .symbol (.compare .ge)), (">".toList, .symbol (.compare .gt)),
    ("true".toList, .value (.truth true)), ("false".toList, .value (.truth false))]

/-- A lexeme, or a variable that stands for one. -/
inductive Spelling where
  | lexeme (l : Lexeme)
  | variable (r : Template.Reference)
  deriving DecidableEq, Repr

def isNumeral (c : Char) : Bool := Text.isDigit c || c == '.'

/-- Texts in quotes, variables and numbers, each known by its first character. -/
def openSpelling (c : Char) (t : Text) : Except Fault (Spelling × Text) :=
  if Markup.isQuote c then
    match Text.splitOnce? c t with
    | some (body, rest) => .ok (.lexeme (.value (.text body)), rest)
    | none => .error .unterminatedText
  else if c == '$' then
    match Template.reference? (c :: t) with
    | some (r, rest) => .ok (.variable r, rest)
    | none => .error .malformedVariable
  else if isNumeral c || c == '-' then
    match Decimal.read? (c :: t.takeWhile isNumeral) with
    | some n => .ok (.lexeme (.value (.number n)), t.dropWhile isNumeral)
    | none => .error (.badNumber (c :: t.takeWhile isNumeral))
  else .error (.unexpectedCharacter c)

/-- What a text that begins with `c` spells first, and what follows it. -/
def spelling (c : Char) (t : Text) : Except Fault (Spelling × Text) :=
  match fixed.findSome? fun e => (Text.dropLead? e.1 (c :: t)).map (e.2, ·) with
  | some (lexeme, rest) => .ok (.lexeme lexeme, rest)
  | none => openSpelling c t

theorem length_reference? {t rest : Text} {r : Template.Reference}
    (h : Template.reference? t = some (r, rest)) : rest.length < t.length := by
  unfold Template.reference? at h
  split at h
  · have := Template.length_referenceBody? h
    simp only [List.length_cons]
    omega
  · simp at h

theorem length_openSpelling {c : Char} {t rest : Text} {s : Spelling}
    (h : openSpelling c t = .ok (s, rest)) : rest.length ≤ t.length := by
  unfold openSpelling at h
  split at h
  · split at h
    · next body after hs =>
      simp only [Except.ok.injEq, Prod.mk.injEq] at h
      have := congrArg List.length (Text.eq_of_splitOnce? hs)
      simp only [List.length_append, List.length_cons] at this
      rw [← h.2]
      omega
    · simp at h
  · split at h
    · split at h
      · next r after hs =>
        simp only [Except.ok.injEq, Prod.mk.injEq] at h
        have := length_reference? hs
        simp only [List.length_cons] at this
        rw [← h.2]
        omega
      · simp at h
    · split at h
      · split at h
        · simp only [Except.ok.injEq, Prod.mk.injEq] at h
          rw [← h.2]
          exact (List.dropWhile_suffix _).length_le
        · simp at h
      · simp at h

theorem fixed_ne_nil : ∀ e ∈ fixed, e.1 ≠ [] := by decide

theorem length_spelling {c : Char} {t rest : Text} {s : Spelling}
    (h : spelling c t = .ok (s, rest)) : rest.length ≤ t.length := by
  unfold spelling at h
  split at h
  · next lexeme after hf =>
    simp only [Except.ok.injEq, Prod.mk.injEq] at h
    obtain ⟨e, he, hd⟩ := List.exists_of_findSome?_eq_some hf
    simp only [Option.map_eq_some_iff, Prod.mk.injEq] at hd
    obtain ⟨r, hr, _, rfl⟩ := hd
    have hlen := congrArg List.length (Text.eq_append_of_dropLead? hr)
    have hpos := List.length_pos_iff.mpr (fixed_ne_nil e he)
    simp only [List.length_append, List.length_cons] at hlen
    rw [← h.2]
    omega
  · exact length_openSpelling h

def Spelling.read (v : Variables) : Spelling → Except ComposeError Lexeme
  | .lexeme l => .ok l
  | .variable r => (v.lookup r.name r.key).map fun t => .value (.text t)

/-- The lexemes of a text, without the blanks between them. -/
def lexemes (v : Variables) (expression : Text) (t : Text) : Except ComposeError (List Lexeme) :=
  match t with
  | [] => .ok []
  | c :: rest =>
    if Text.isBlank c then lexemes v expression rest
    else
      match _h : spelling c rest with
      | .error f => .error (.invalidExpression expression f.message)
      | .ok (s, after) =>
        match s.read v with
        | .error e => .error e
        | .ok l => (lexemes v expression after).map (l :: ·)
termination_by t.length
decreasing_by
  · simp
  · exact Nat.lt_succ_of_le (length_spelling _h)

/-- The lexemes of a text from its first character on. -/
theorem lexemes_cons (v : Variables) (expression : Text) (c : Char) (rest : Text) :
    lexemes v expression (c :: rest) =
      if Text.isBlank c then lexemes v expression rest
      else
        match spelling c rest with
        | .error f => .error (.invalidExpression expression f.message)
        | .ok (s, after) =>
          match s.read v with
          | .error e => .error e
          | .ok l => (lexemes v expression after).map (l :: ·) := by
  rw [lexemes.eq_def]
  simp only
  split
  · rfl
  · split
    · next hs => rw [hs]
    · next s after hs => cases hread : s.read v <;> simp only [hs, hread]

end EdgeCompose.Expression
