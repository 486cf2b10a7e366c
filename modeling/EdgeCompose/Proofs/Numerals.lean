import EdgeCompose.Number.Decimal
import EdgeCompose.Proofs.Trimming

/-!
Which texts write a number: a sign or none, and then digits with at most one point among them and
an exponent or none, or a word for infinity, or the word for no number. The reader takes exactly
these (`read?_isSome_iff`), and only the last word is read as what compares with nothing
(`read?_eq_nan_iff`).
-/

namespace EdgeCompose

namespace Double

theorem compare_eq_none_iff {x y : Double} : x.compare y = none ↔ x = .nan ∨ y = .nan := by
  cases x <;> cases y <;> simp [compare]

theorem compare_self {x : Double} (h : x ≠ .nan) : x.compare x = some .eq := by
  cases x with
  | nan => exact absurd rfl h
  | infinite negative => simp [compare]
  | finite negative mantissa exponent => simp [compare, Std.ReflOrd.compare_self]

theorem ofQuotient_ne_nan (negative : Bool) (num den : Nat) : ofQuotient negative num den ≠ .nan := by
  unfold ofQuotient
  split
  · simp [zero]
  · generalize scaledQuotient num den _ = q
    dsimp only
    split <;> (dsimp only; split <;> simp)

end Double

namespace Decimal

open Text

/-! ## The grammar of numerals -/

def IsSign (t : Text) : Prop := t = [] ∨ t = ['-'] ∨ t = ['+']

def IsDigits (t : Text) : Prop := ∀ c ∈ t, isDigit c = true

/-- Digits with at most one point among them, and at least one digit in all. -/
inductive Significand : Text → Prop
  | whole {digits : Text} : IsDigits digits → digits ≠ [] → Significand digits
  | pointed {digits fraction : Text} : IsDigits digits → IsDigits fraction →
    digits ++ fraction ≠ [] → Significand (digits ++ '.' :: fraction)

inductive Exponent : Text → Prop
  | absent : Exponent []
  | power {mark : Char} {sign digits : Text} : mark = 'e' ∨ mark = 'E' → IsSign sign →
    IsDigits digits → digits ≠ [] → Exponent (mark :: (sign ++ digits))

inductive Unsigned : Text → Prop
  | infinite {word : Text} : lower word = "inf".toList ∨ lower word = "infinity".toList →
    Unsigned word
  | nan {word : Text} : lower word = "nan".toList → Unsigned word
  | decimal {significand exponent : Text} : Significand significand → Exponent exponent →
    Unsigned (significand ++ exponent)

def Numeral (t : Text) : Prop := ∃ sign body, IsSign sign ∧ Unsigned body ∧ t = sign ++ body

def NanNumeral (t : Text) : Prop :=
  ∃ sign word, IsSign sign ∧ lower word = "nan".toList ∧ t = sign ++ word

/-! ## The reader -/

variable {t : Text}

theorem sign_eq (t : Text) : ∃ s, IsSign s ∧ t = s ++ (sign t).2 := by
  unfold sign
  split
  · exact ⟨['-'], .inr (.inl rfl), rfl⟩
  · exact ⟨['+'], .inr (.inr rfl), rfl⟩
  · exact ⟨[], .inl rfl, rfl⟩

theorem sign_append {s body : Text} (hs : IsSign s)
    (hbody : ∀ c, body.head? = some c → c ≠ '-' ∧ c ≠ '+') : (sign (s ++ body)).2 = body := by
  rcases hs with rfl | rfl | rfl
  · rw [List.nil_append]
    unfold sign
    split
    · exact absurd rfl (hbody _ rfl).1
    · exact absurd rfl (hbody _ rfl).2
    · rfl
  · rfl
  · rfl

theorem not_sign_of_isDigit {c : Char} (h : isDigit c = true) : c ≠ '-' ∧ c ≠ '+' := by
  constructor
  · rintro rfl
    cases h
  · rintro rfl
    cases h

/-- A word without signs in lower case begins with none. -/
theorem not_sign_of_lower {word : Text} (h : '-' ∉ lower word ∧ '+' ∉ lower word) {c : Char}
    (hc : word.head? = some c) : c ≠ '-' ∧ c ≠ '+' := by
  obtain ⟨rest, rfl⟩ := List.head?_eq_some_iff.mp hc
  constructor
  · rintro rfl
    exact h.1 List.mem_cons_self
  · rintro rfl
    exact h.2 List.mem_cons_self

theorem isDigits_head {digits : Text} (h : IsDigits digits) {c : Char}
    (hc : digits.head? = some c) : isDigit c = true :=
  h c (List.mem_of_head? hc)

theorem exponentPart?_cons (c : Char) (t : Text) : (exponentPart? (c :: t)).isSome = true ↔
    (c = 'e' ∨ c = 'E') ∧ IsDigits (sign t).2 ∧ (sign t).2 ≠ [] := by
  have hdigits : (!(sign t).2.isEmpty && (sign t).2.all isDigit) = true ↔
      IsDigits (sign t).2 ∧ (sign t).2 ≠ [] := by
    simp [IsDigits, and_comm]
  have hmark : (c == 'e' || c == 'E') = true ↔ c = 'e' ∨ c = 'E' := by simp
  rw [← hdigits, ← hmark]
  unfold exponentPart?
  dsimp only
  split
  · next he =>
    rw [he]
    split
    · next hall => simp [hall]
    · next hall => simp [hall]
  · next he => simp [he]

theorem exponentPart?_isSome_iff : (exponentPart? t).isSome = true ↔ Exponent t := by
  constructor
  · intro h
    cases t with
    | nil => exact .absent
    | cons c t =>
      obtain ⟨hmark, hdigits, hne⟩ := (exponentPart?_cons c t).mp h
      obtain ⟨s, hs, ht⟩ := sign_eq t
      rw [ht]
      exact .power hmark hs hdigits hne
  · intro h
    cases h with
    | absent => rfl
    | @power mark s digits hmark hs hdigits hne =>
      have hsign := sign_append hs fun c hc => not_sign_of_isDigit (isDigits_head hdigits hc)
      rw [exponentPart?_cons, hsign]
      exact ⟨hmark, hdigits, hne⟩

theorem Exponent.head {e : Text} (h : Exponent e) {c : Char} (hc : e.head? = some c) :
    isDigit c = false ∧ c ≠ '.' := by
  cases h with
  | absent => cases hc
  | power hmark =>
    cases hc
    rcases hmark with rfl | rfl <;> decide

def afterPoint : Text → Text × Text
  | '.' :: more => (more.takeWhile isDigit, more.dropWhile isDigit)
  | t => ([], t)

theorem afterPoint_eq (t : Text) :
    (∃ more, t = '.' :: more ∧ afterPoint t = (more.takeWhile isDigit, more.dropWhile isDigit)) ∨
      afterPoint t = ([], t) := by
  unfold afterPoint
  split
  · next more => exact .inl ⟨more, rfl, rfl⟩
  · exact .inr rfl

theorem unsigned?_isSome (negative : Bool) (t : Text) : (unsigned? negative t).isSome = true ↔
    t.takeWhile isDigit ++ (afterPoint (t.dropWhile isDigit)).1 ≠ [] ∧
      Exponent (afterPoint (t.dropWhile isDigit)).2 := by
  rw [← exponentPart?_isSome_iff]
  have hread : (unsigned? negative t).isSome = true ↔
      ((t.takeWhile isDigit).isEmpty && (afterPoint (t.dropWhile isDigit)).1.isEmpty) = false ∧
        (exponentPart? (afterPoint (t.dropWhile isDigit)).2).isSome = true := by
    unfold unsigned? afterPoint
    dsimp only
    split <;> (dsimp only; split <;> simp_all)
  rw [hread]
  simp [← List.isEmpty_eq_false_iff]

theorem isDigits_takeWhile (t : Text) : IsDigits (t.takeWhile isDigit) := fun _ hc =>
  List.mem_takeWhile_imp hc

theorem unsigned?_isSome_iff {negative : Bool} : (unsigned? negative t).isSome = true ↔
    ∃ significand exponent, Significand significand ∧ Exponent exponent ∧
      t = significand ++ exponent := by
  rw [unsigned?_isSome]
  constructor
  · rintro ⟨hne, hexponent⟩
    have ht : t = t.takeWhile isDigit ++ t.dropWhile isDigit :=
      List.takeWhile_append_dropWhile.symm
    rcases afterPoint_eq (t.dropWhile isDigit) with ⟨more, hmore, heq⟩ | heq
    · rw [heq] at hne hexponent
      refine ⟨_, _, .pointed (isDigits_takeWhile t) (isDigits_takeWhile more) hne, hexponent, ?_⟩
      rw [List.append_assoc, List.cons_append, List.takeWhile_append_dropWhile, ← hmore]
      exact ht
    · rw [heq] at hne hexponent
      exact ⟨_, _, .whole (isDigits_takeWhile t) (by simpa using hne), hexponent, ht⟩
  · rintro ⟨significand, exponent, hsignificand, hexponent, rfl⟩
    cases hsignificand with
    | whole hdigits hne =>
      have hrun := Markup.takeWhile_run hdigits fun c hc => (hexponent.head hc).1
      have hnone : afterPoint exponent = ([], exponent) := by
        unfold afterPoint
        split
        · exact absurd rfl (hexponent.head rfl).2
        · rfl
      rw [hrun.1, hrun.2, hnone]
      exact ⟨by simpa using hne, hexponent⟩
    | @pointed digits fraction hdigits hfraction hne =>
      have hrun := Markup.takeWhile_run (t := '.' :: (fraction ++ exponent)) hdigits fun c hc => by
        cases hc
        rfl
      have hmore := Markup.takeWhile_run hfraction fun c hc => (hexponent.head hc).1
      rw [List.append_assoc, List.cons_append, hrun.1, hrun.2]
      simp only [afterPoint, hmore.1, hmore.2]
      exact ⟨hne, hexponent⟩

theorem unsigned?_ne_nan (negative : Bool) (t : Text) : unsigned? negative t ≠ some .nan := by
  have hdouble (negative : Bool) (digits : Nat) (exponent : Int) :
      toDouble negative digits exponent ≠ .nan := by
    unfold toDouble
    dsimp only
    split
    · simp [Double.zero]
    · split
      · simp
      · split
        · simp [Double.zero]
        · exact Double.ofQuotient_ne_nan _ _ _
  intro h
  unfold unsigned? at h
  dsimp only at h
  split at h <;> (dsimp only at h; split at h)
  · cases h
  · obtain ⟨e, -, he⟩ := Option.map_eq_some_iff.mp h
    exact hdouble _ _ _ he
  · cases h
  · obtain ⟨e, -, he⟩ := Option.map_eq_some_iff.mp h
    exact hdouble _ _ _ he

theorem Significand.head {m : Text} (h : Significand m) :
    ∃ c rest, m = c :: rest ∧ (isDigit c = true ∨ c = '.') := by
  cases h with
  | whole hdigits hne =>
    obtain ⟨c, rest, rfl⟩ := List.exists_cons_of_ne_nil hne
    exact ⟨c, rest, rfl, .inl (hdigits c List.mem_cons_self)⟩
  | @pointed digits fraction hdigits =>
    cases digits with
    | nil => exact ⟨'.', fraction, rfl, .inr rfl⟩
    | cons c digits => exact ⟨c, _, rfl, .inl (hdigits c List.mem_cons_self)⟩

/-- A sign is no part of what follows it. -/
theorem Unsigned.not_sign {body : Text} (h : Unsigned body) {c : Char} (hc : body.head? = some c) :
    c ≠ '-' ∧ c ≠ '+' := by
  cases h with
  | infinite hword =>
    refine not_sign_of_lower ?_ hc
    rcases hword with hword | hword <;> (rw [hword]; decide)
  | nan hword =>
    refine not_sign_of_lower ?_ hc
    rw [hword]
    decide
  | decimal hsignificand =>
    obtain ⟨d, rest, rfl, hd⟩ := hsignificand.head
    cases hc
    rcases hd with hd | rfl
    · exact not_sign_of_isDigit hd
    · decide

theorem read?_isSome_iff : (read? t).isSome = true ↔ Numeral t := by
  constructor
  · intro h
    obtain ⟨s, hs, ht⟩ := sign_eq t
    refine ⟨s, (sign t).2, hs, ?_, ht⟩
    unfold read? at h
    dsimp only at h
    split at h
    · next hword => exact .infinite (by simpa using hword)
    · split at h
      · next hword => exact .nan (by simpa using hword)
      · obtain ⟨m, e, hm, he, heq⟩ := unsigned?_isSome_iff.mp h
        rw [heq]
        exact .decimal hm he
  · rintro ⟨s, body, hs, hbody, rfl⟩
    have hsign := sign_append hs fun c => hbody.not_sign
    unfold read?
    dsimp only
    rw [hsign]
    split
    · rfl
    · next hinfinite =>
      split
      · rfl
      · next hnan =>
        cases hbody with
        | infinite hword => exact absurd (by simpa using hword) hinfinite
        | nan hword => exact absurd (by simpa using hword) hnan
        | decimal hm he => exact unsigned?_isSome_iff.mpr ⟨_, _, hm, he, rfl⟩

theorem read?_eq_nan_iff : read? t = some .nan ↔ NanNumeral t := by
  constructor
  · intro h
    obtain ⟨s, hs, ht⟩ := sign_eq t
    refine ⟨s, (sign t).2, hs, ?_, ht⟩
    unfold read? at h
    dsimp only at h
    split at h
    · cases h
    · split at h
      · next hword => simpa using hword
      · exact absurd h (unsigned?_ne_nan _ _)
  · rintro ⟨s, word, hs, hword, rfl⟩
    have hsign := sign_append hs fun c => (Unsigned.nan hword).not_sign
    unfold read?
    dsimp only
    rw [hsign, hword]
    rfl

end Decimal

end EdgeCompose
