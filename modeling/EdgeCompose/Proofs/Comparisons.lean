import Mathlib.Logic.ExistsUnique
import EdgeCompose.Proofs.Grammar
import EdgeCompose.Proofs.Numerals
import EdgeCompose.Proofs.Segments

/-!
Comparisons of two texts, each in quotes or the value of a variable. Exactly one of "less", "equal"
and "greater" holds of them, unless both write a number and one of the two is the numeral for no
number; then none of the three does (`comparisons_trichotomous`).
-/

namespace EdgeCompose.Expression

open Template (Form)

/-! ## Comparisons as they are written -/

/-- A text in quotes, or a variable in parentheses. -/
inductive Operand where
  | quoted (t : Text) (free : '\'' ∉ t)
  | reference (form : Form) (parenthesized : "$(".toList <+: form.toText)

namespace Operand

def code : Operand → Text
  | .quoted t _ => '\'' :: (t ++ ['\''])
  | .reference form _ => form.toText

def text (v : Variables) : Operand → Except ComposeError Text
  | .quoted t _ => .ok t
  | .reference form _ => v.lookup form.reference.name form.reference.key

end Operand

def Comparison.code : Comparison → Text
  | .eq => "==".toList
  | .ne => "!=".toList
  | .lt => "<".toList
  | .le => "<=".toList
  | .gt => ">".toList
  | .ge => ">=".toList

def comparing (c : Comparison) (a b : Operand) : Text := a.code ++ ' ' :: (c.code ++ ' ' :: b.code)

variable {v : Variables} {a b : Operand} {s t : Text}

theorem lexemes_space (expression t : Text) :
    lexemes v expression (' ' :: t) = lexemes v expression t := by
  rw [lexemes_cons, if_pos (by decide)]

theorem lexemes_comparison (expression : Text) (c : Comparison) (t : Text) :
    lexemes v expression (c.code ++ ' ' :: t) =
      (lexemes v expression t).map (.symbol (.compare c) :: ·) := by
  rw [← lexemes_space expression t]
  cases c <;> exact lexemes_cons v expression _ _

theorem spelling_quote (t rest : Text) (h : '\'' ∉ t) :
    spelling '\'' (t ++ '\'' :: rest) = .ok (.lexeme (.value (.text t)), rest) := by
  have hcut : Text.splitOnce? '\'' (t ++ '\'' :: rest) = some (t, rest) :=
    Text.splitOnce?_eq_some_iff.mpr ⟨rfl, h⟩
  have hopen : openSpelling '\'' (t ++ '\'' :: rest) = .ok (.lexeme (.value (.text t)), rest) := by
    unfold openSpelling
    rw [if_pos (by decide), hcut]
  exact hopen

theorem spelling_variable {form : Form} {body rest : Text} (h : '$' :: body = form.toText ++ rest)
    (hform : "$(".toList <+: form.toText) :
    spelling '$' body = .ok (.variable form.reference, rest) := by
  have hread : Template.reference? ('$' :: body) = some (form.reference, rest) := by
    obtain ⟨more, hmore⟩ := hform
    rw [← hmore] at h
    cases h
    exact Template.referenceBody?_eq_some_iff.mpr ⟨form, rfl, by rw [← hmore]; rfl⟩
  have hopen : openSpelling '$' body = .ok (.variable form.reference, rest) := by
    unfold openSpelling
    rw [if_neg (by decide), if_pos (by decide), hread]
  exact hopen

theorem lexemes_operand (ha : a.text v = .ok s) (expression rest : Text) :
    lexemes v expression (a.code ++ rest) =
      (lexemes v expression rest).map (.value (.text s) :: ·) := by
  cases a with
  | quoted t free =>
    cases ha
    rw [Operand.code, List.cons_append, List.append_assoc, List.singleton_append, lexemes_cons,
      if_neg (by decide), spelling_quote s rest free]
    rfl
  | reference form parenthesized =>
    obtain ⟨body, hbody⟩ : ∃ body, '$' :: body = form.toText ++ rest := by
      obtain ⟨more, hmore⟩ := parenthesized
      exact ⟨_, congrArg (· ++ rest) hmore⟩
    have hread : (Spelling.variable form.reference).read v = .ok (.value (.text s)) := by
      have hlookup : v.lookup form.reference.name form.reference.key = .ok s := ha
      simp only [Spelling.read, hlookup]
      rfl
    rw [Operand.code, ← hbody, lexemes_cons, if_neg (by decide),
      spelling_variable hbody parenthesized]
    simp only [hread]

theorem evaluate_comparing (c : Comparison) (ha : a.text v = .ok s) (hb : b.text v = .ok t) :
    evaluate v (comparing c a b) = .ok (c.holds (.text s) (.text t)) := by
  have hright := lexemes_operand hb (comparing c a b) []
  have hlexemes : lexemes v (comparing c a b) (comparing c a b) =
      .ok [.value (.text s), .symbol (.compare c), .value (.text t)] := by
    calc lexemes v (comparing c a b) (comparing c a b)
      _ = (lexemes v (comparing c a b) (' ' :: (c.code ++ ' ' :: b.code))).map
            (.value (.text s) :: ·) := lexemes_operand ha _ _
      _ = ((lexemes v (comparing c a b) b.code).map (.symbol (.compare c) :: ·)).map
            (.value (.text s) :: ·) := by rw [lexemes_space, lexemes_comparison]
      _ = .ok [.value (.text s), .symbol (.compare c), .value (.text t)] := by
        rw [List.append_nil] at hright
        rw [hright, lexemes.eq_def]
        rfl
  have hparse : parse [.value (.text s), .symbol (.compare c), .value (.text t)] =
      .ok (.comparison c (.literal (.text s)) (.literal (.text t))) :=
    parse_eq_ok.mpr ⟨.disjunct (.conjunct (.plain (.compared (.literal _) (.literal _)))),
      Nat.zero_le _⟩
  rw [evaluate_of_lexemes hlexemes, hparse]
  rfl

/-! ## Orders -/

/-- Both texts write numbers, blanks around them aside, and one of the two numbers is none. -/
def Unordered (s t : Text) : Prop :=
  Decimal.Numeral (Text.trim s) ∧ Decimal.Numeral (Text.trim t) ∧
    (Decimal.NanNumeral (Text.trim s) ∨ Decimal.NanNumeral (Text.trim t))

theorem order?_of_numbers {x y : Double} (hx : Decimal.read? (Text.trim s) = some x)
    (hy : Decimal.read? (Text.trim t) = some y) :
    (Value.text s).order? (.text t) = x.compare y := by
  simp only [Value.order?, Value.number?, hx, hy]

theorem order?_of_texts
    (h : Decimal.read? (Text.trim s) = none ∨ Decimal.read? (Text.trim t) = none) :
    (Value.text s).order? (.text t) = some (compare s t) := by
  unfold Value.order?
  split
  · next x y hx hy =>
    rcases h with h | h
    · cases h.symm.trans hx
    · cases h.symm.trans hy
  · rfl

theorem order?_eq_none_iff : (Value.text s).order? (.text t) = none ↔ Unordered s t := by
  unfold Unordered
  rw [← Decimal.read?_isSome_iff, ← Decimal.read?_isSome_iff, ← Decimal.read?_eq_nan_iff,
    ← Decimal.read?_eq_nan_iff]
  cases hx : Decimal.read? (Text.trim s) with
  | none => simp [order?_of_texts (.inl hx)]
  | some x =>
    cases hy : Decimal.read? (Text.trim t) with
    | none => simp [order?_of_texts (.inr hy)]
    | some y => simp [order?_of_numbers hx hy, Double.compare_eq_none_iff]

theorem unordered_self_iff : Unordered s s ↔ Decimal.NanNumeral (Text.trim s) := by
  constructor
  · rintro ⟨-, -, h | h⟩
    · exact h
    · exact h
  · rintro ⟨sign, word, hsign, hword, h⟩
    have hnumeral : Decimal.Numeral (Text.trim s) := ⟨sign, word, hsign, .nan hword, h⟩
    exact ⟨hnumeral, hnumeral, .inl ⟨sign, word, hsign, hword, h⟩⟩

/-- A text is in order with itself only as an equal. -/
theorem order?_self (h : ¬ Unordered s s) : (Value.text s).order? (.text s) = some .eq := by
  cases hread : Decimal.read? (Text.trim s) with
  | none => rw [order?_of_texts (.inl hread), Std.ReflOrd.compare_self]
  | some x =>
    rw [order?_of_numbers hread hread]
    refine Double.compare_self ?_
    rintro rfl
    exact h (unordered_self_iff.mpr (Decimal.read?_eq_nan_iff.mp hread))

/-- The comparisons that tell the three orders apart. -/
def orders : List Comparison := [.lt, .eq, .gt]

theorem existsUnique_accepts (o : Ordering) : ∃! c, c ∈ orders ∧ Comparison.accepts c (some o) = true := by
  cases o with
  | lt => exact ⟨.lt, by decide, by rintro c ⟨hc, h⟩; revert c; decide⟩
  | eq => exact ⟨.eq, by decide, by rintro c ⟨hc, h⟩; revert c; decide⟩
  | gt => exact ⟨.gt, by decide, by rintro c ⟨hc, h⟩; revert c; decide⟩

theorem not_accepts_none : ∀ c ∈ orders, Comparison.accepts c none = false := by
  decide

/-- Of two texts, each written in quotes or as a variable, exactly one is found by "less", "equal"
and "greater", unless both write numbers and one of the two is the numeral for no number. Then all
three comparisons are false. A text is equal to itself exactly if it is not that numeral. -/
theorem comparisons_trichotomous (ha : a.text v = .ok s) (hb : b.text v = .ok t) :
    ((∃! c, c ∈ orders ∧ evaluate v (comparing c a b) = .ok true) ↔ ¬ Unordered s t) ∧
    (Unordered s t → ∀ c ∈ orders, evaluate v (comparing c a b) = .ok false) ∧
    (s = t → (evaluate v (comparing .eq a b) = .ok true ↔ ¬ Decimal.NanNumeral (Text.trim s))) := by
  have heval (c : Comparison) : evaluate v (comparing c a b) =
      .ok (c.accepts ((Value.text s).order? (.text t))) := evaluate_comparing c ha hb
  have hfalse (h : Unordered s t) : ∀ c ∈ orders, evaluate v (comparing c a b) = .ok false := by
    intro c hc
    rw [heval, order?_eq_none_iff.mpr h, not_accepts_none c hc]
  refine ⟨⟨?_, fun h => ?_⟩, hfalse, ?_⟩
  · rintro ⟨c, ⟨hc, htrue⟩, -⟩ h
    cases htrue.symm.trans (hfalse h c hc)
  · obtain ⟨o, ho⟩ := Option.ne_none_iff_exists'.mp (mt order?_eq_none_iff.mp h)
    simpa only [heval, ho, Except.ok.injEq] using existsUnique_accepts o
  · rintro rfl
    rw [← unordered_self_iff]
    constructor
    · intro htrue h
      cases htrue.symm.trans (hfalse h .eq (by decide))
    · intro h
      rw [heval, order?_self h]
      rfl

/-- The number in the query is less than the one in quotes, though its text comes later. -/
theorem comparisons_trichotomous_query :
    let v : Variables := ⟨{}, { target := { path := ['/'], query := some "x=9".toList } }⟩
    let x : Operand := .reference
      (.keyed "QUERY_STRING".toList "x".toList ⟨by decide, List.all_eq_true.mp (by decide)⟩
        (by decide)) (by decide)
    let ten : Operand := .quoted "10".toList (by decide)
    x.text v = .ok "9".toList ∧ ten.text v = .ok "10".toList ∧
      ¬ Unordered "9".toList "10".toList ∧
      ∃! c, c ∈ orders ∧ evaluate v (comparing c x ten) = .ok true := by
  intro v x ten
  have hx : x.text v = .ok "9".toList := by decide +kernel
  have hordered : ¬ Unordered "9".toList "10".toList := by
    rw [← order?_eq_none_iff]
    decide +kernel
  exact ⟨hx, rfl, hordered, (comparisons_trichotomous hx rfl).1.mpr hordered⟩

/-- The numeral for no number is neither less than itself, nor equal to itself, nor greater. -/
theorem nan_unordered : evaluate ⟨{}, {}⟩ "'nan' < 'nan'".toList = .ok false ∧
    evaluate ⟨{}, {}⟩ "'nan' == 'nan'".toList = .ok false ∧
    evaluate ⟨{}, {}⟩ "'nan' > 'nan'".toList = .ok false := by
  decide +kernel

end EdgeCompose.Expression
