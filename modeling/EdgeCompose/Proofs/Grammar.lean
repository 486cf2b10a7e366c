import Mathlib.Control.Monad.Basic
import EdgeCompose.Expression.Parse

/-!
The grammar of test expressions. Its phrases derive lists of lexemes, and the expression that comes
with a list is the derivation (`Derives`). The readers take whatever a phrase derives within their
levels (`Derives.completes`) and nothing else (`unary_sound` and the lemmas before it). So a list of
lexemes has one derivation at most, and an expression is evaluated exactly if it has one
(`evaluate_grammar`).
-/

namespace EdgeCompose.Expression

/-- How many groups and negations stand in one another. -/
def Expr.levels : Expr → Nat
  | .literal _ => 0
  | .group e | .negation e => e.levels + 1
  | .comparison _ left right | .conjunction left right | .disjunction left right =>
    max left.levels right.levels

/-! ## The grammar -/

inductive Phrase where
  | operand
  | comparison
  | unary
  | conjunction
  | disjunction
  deriving DecidableEq, Repr

/-- The lexemes that a phrase derives, with the expression that is read off the derivation. Rows of
"and" and of "or" join to the left. -/
inductive Derives : Phrase → Expr → List Lexeme → Prop
  | literal (v : Value) : Derives .operand (.literal v) [.value v]
  | group {e : Expr} {s : List Lexeme} : Derives .disjunction e s →
    Derives .operand (.group e) (.symbol .opening :: (s ++ [.symbol .closing]))
  | single {e : Expr} {s : List Lexeme} : Derives .operand e s → Derives .comparison e s
  | compared {c : Comparison} {left right : Expr} {s t : List Lexeme} : Derives .operand left s →
    Derives .operand right t →
    Derives .comparison (.comparison c left right) (s ++ .symbol (.compare c) :: t)
  | plain {e : Expr} {s : List Lexeme} : Derives .comparison e s → Derives .unary e s
  | negated {e : Expr} {s : List Lexeme} : Derives .unary e s →
    Derives .unary (.negation e) (.symbol .not :: s)
  | conjunct {e : Expr} {s : List Lexeme} : Derives .unary e s → Derives .conjunction e s
  | conjoined {left right : Expr} {s t : List Lexeme} : Derives .conjunction left s →
    Derives .unary right t → Derives .conjunction (.conjunction left right) (s ++ .symbol .and :: t)
  | disjunct {e : Expr} {s : List Lexeme} : Derives .conjunction e s → Derives .disjunction e s
  | disjoined {left right : Expr} {s t : List Lexeme} : Derives .disjunction left s →
    Derives .conjunction right t →
    Derives .disjunction (.disjunction left right) (s ++ .symbol .or :: t)

/-- Operands and comparisons do not begin with a negation. -/
theorem Derives.head_ne_not {p : Phrase} {e : Expr} {s : List Lexeme} (h : Derives p e s)
    (hp : p = .operand ∨ p = .comparison) (rest t : List Lexeme) :
    s ++ rest ≠ .symbol .not :: t := by
  induction h generalizing rest with
  | literal v => simp
  | group => simp
  | single _ ih => exact ih (.inl rfl) rest
  | compared _ _ ih => simpa using ih (.inl rfl) _
  | _ => simp at hp

theorem Derives.ne_nil {p : Phrase} {e : Expr} {s : List Lexeme} (h : Derives p e s) : s ≠ [] := by
  induction h with
  | single _ ih => exact ih
  | plain _ ih => exact ih
  | conjunct _ ih => exact ih
  | disjunct _ ih => exact ih
  | _ => simp

/-! ## What the readers do -/

/-- What has been read is `e`, and `rest` is left. -/
def Read.Is {s : List Lexeme} (e : Expr) (rest : List Lexeme) (found : Except Fault (Read s)) :
    Prop :=
  ∃ r, found = .ok r ∧ r.expr = e ∧ r.rest = rest

variable {joint : Symbol} {join : Expr → Expr → Expr} {next inner : Reader}
  {s rest : List Lexeme} {e : Expr}

@[simp] theorem Read.is_error (fault : Fault) :
    ¬ Read.Is e rest (.error fault : Except Fault (Read s)) := by
  rintro ⟨_, h, -⟩
  cases h

@[simp] theorem Read.is_ok (r : Read s) : Read.Is e rest (.ok r) ↔ r.expr = e ∧ r.rest = rest := by
  constructor
  · rintro ⟨_, ⟨⟩, h⟩
    exact h
  · intro h
    exact ⟨r, rfl, h⟩

/-- The reader takes `e` off the front of the lexemes, and leaves `rest`. -/
def Reads (reader : Reader) (s : List Lexeme) (e : Expr) (rest : List Lexeme) : Prop :=
  Read.Is e rest (reader s)

theorem Reads.unique {reader : Reader} {e' : Expr} {rest' : List Lexeme}
    (h : Reads reader s e rest) (h' : Reads reader s e' rest') : e = e' ∧ rest = rest' := by
  obtain ⟨r, hr, rfl, rfl⟩ := h
  obtain ⟨r', hr', rfl, rfl⟩ := h'
  cases hr.symm.trans hr'
  exact ⟨rfl, rfl⟩

/-- A row of parts that `joint` stands between is read to its end, and the parts are joined to what
has been read before. -/
inductive Chains (joint : Symbol) (join : Expr → Expr → Expr) (next : Reader) :
    Expr → List Lexeme → Expr → List Lexeme → Prop
  | ends {e : Expr} {rest : List Lexeme} : (∀ t, rest ≠ .symbol joint :: t) →
    Chains joint join next e rest e rest
  | joins {left right e : Expr} {s between rest : List Lexeme} : Reads next s right between →
    Chains joint join next (join left right) between e rest →
    Chains joint join next left (.symbol joint :: s) e rest

theorem chains_joined {left : Expr} : Chains joint join next left (.symbol joint :: s) e rest ↔
    ∃ right between, Reads next s right between ∧
      Chains joint join next (join left right) between e rest := by
  constructor
  · intro h
    cases h with
    | ends hends => exact absurd rfl (hends s)
    | joins hread hrest => exact ⟨_, _, hread, hrest⟩
  · rintro ⟨right, between, hread, hrest⟩
    exact .joins hread hrest

theorem chains_ended {left : Expr} (hends : ∀ t, s ≠ .symbol joint :: t) :
    Chains joint join next left s e rest ↔ left = e ∧ s = rest := by
  constructor
  · intro h
    cases h with
    | ends => exact ⟨rfl, rfl⟩
    | joins => exact absurd rfl (hends _)
  · rintro ⟨rfl, rfl⟩
    exact .ends hends

theorem chain_iff (left : Read s) : Read.Is e rest (chain joint join next left) ↔
    Chains joint join next left.expr left.rest e rest := by
  fun_induction chain joint join next left with
  | case1 left t fault hnext hleft =>
    simp [hleft, chains_joined, Reads, hnext]
  | case2 left t right hnext hleft ih =>
    rw [ih, hleft, chains_joined]
    simp [Reads, hnext, and_assoc]
  | case3 left m t hleft hne =>
    rw [chains_ended (by simpa [hleft] using hne)]
    exact Read.is_ok left
  | case4 left hends =>
    rw [chains_ended fun t ht => hends joint t ht]
    exact Read.is_ok left

/-- Reading a row is reading its first part and then the others. -/
theorem reads_chain {first : Reader} :
    Reads (fun s => first s >>= chain joint join next) s e rest ↔
      ∃ left between, Reads first s left between ∧ Chains joint join next left between e rest := by
  unfold Reads
  cases hfirst : first s with
  | error fault => simp [hfirst, bind, Except.bind]
  | ok left => simp [hfirst, bind, Except.bind, chain_iff, and_assoc]

theorem reads_operand : Reads (operand inner) s e rest ↔
    (∃ v, s = .value v :: rest ∧ .literal v = e) ∨
      ∃ t content, s = .symbol .opening :: t ∧
        Reads (disjunctions inner) t content (.symbol .closing :: rest) ∧ .group content = e := by
  unfold Reads
  match s with
  | [] => simp [operand]
  | .value v :: t => simp [operand, and_comm, and_assoc]
  | .symbol .opening :: t =>
    simp only [operand]
    cases hread : disjunctions inner t with
    | error fault => simp [hread]
    | ok content =>
      dsimp only
      split
      · next after hafter => simp [hread, hafter, and_comm, and_assoc]
      · next hne =>
        have hopen : content.rest ≠ .symbol .closing :: rest := hne rest
        simp [hread, hopen]
  | .symbol .closing :: t => simp [operand]
  | .symbol .not :: t => simp [operand]
  | .symbol .and :: t => simp [operand]
  | .symbol .or :: t => simp [operand]
  | .symbol (.compare c) :: t => simp [operand]

def Uncompared (rest : List Lexeme) : Prop := ∀ c t, rest ≠ .symbol (.compare c) :: t

theorem reads_compared : Reads (compared inner) s e rest ↔
    (∃ c left t right, Reads (operand inner) s left (.symbol (.compare c) :: t) ∧
        Reads (operand inner) t right rest ∧ .comparison c left right = e) ∨
      Reads (operand inner) s e rest ∧ Uncompared rest := by
  unfold Reads compared
  cases operand inner s with
  | error fault => simp
  | ok left =>
    dsimp only
    split
    · next c t hrest =>
      have hlone : ¬ ((left.expr = e ∧ .symbol (.compare c) :: t = rest) ∧ Uncompared rest) := by
        rintro ⟨⟨-, rfl⟩, hne⟩
        exact hne c t rfl
      cases hright : operand inner t with
      | error fault =>
        simp only [Read.is_error, Read.is_ok, hrest, hlone, or_false, false_iff]
        rintro ⟨c', left', t', right', ⟨-, ⟨⟩⟩, hread, -⟩
        simp [hright] at hread
      | ok right =>
        simp only [Read.is_ok, hrest, hlone, or_false]
        constructor
        · rintro ⟨he, rfl⟩
          exact ⟨c, left.expr, t, right.expr, ⟨rfl, rfl⟩, by simp [hright], he⟩
        · rintro ⟨c', left', t', right', ⟨rfl, ⟨⟩⟩, hread, rfl⟩
          simpa [hright] using hread
    · next hne =>
      have hcompared : ∀ c t, left.rest ≠ .symbol (.compare c) :: t := hne
      simp only [Read.is_ok, hcompared, and_false, false_and, exists_false, false_or]
      exact (and_iff_left_of_imp fun h => h.2 ▸ hcompared).symm

theorem reads_unaryOver : Reads (unaryOver inner) s e rest ↔
    (∃ t content, s = .symbol .not :: t ∧ Reads inner t content rest ∧ .negation content = e) ∨
      (∀ t, s ≠ .symbol .not :: t) ∧ Reads (compared inner) s e rest := by
  unfold Reads unaryOver
  split
  · next t =>
    cases hread : inner t with
    | error fault => simp [hread, Except.map]
    | ok r => simp [hread, Except.map, and_comm, and_assoc]
  · next hne =>
    have hplain : ∀ t, s ≠ .symbol .not :: t := hne
    simp [hplain]

/-! ## Soundness -/

/-- What the reader takes is derived by the phrase, with fewer than `n` levels. -/
def Sound (p : Phrase) (n : Nat) (reader : Reader) : Prop :=
  ∀ ⦃s e rest⦄, Reads reader s e rest → e.levels < n ∧ ∃ t, Derives p e t ∧ t ++ rest = s

variable {p q : Phrase} {n : Nat}

/-- A row of parts is sound where its parts are, if joining derives what is joined. -/
theorem Sound.chain (hnext : Sound q n next)
    (hlevels : ∀ left right, (join left right).levels = max left.levels right.levels)
    (hjoin : ∀ {left right s t}, Derives p left s → Derives q right t →
      Derives p (join left right) (s ++ .symbol joint :: t))
    {left : Expr} {u : List Lexeme} (h : Chains joint join next left s e rest)
    (hleft : left.levels < n) (hu : Derives p left u) :
    e.levels < n ∧ ∃ t, Derives p e t ∧ t ++ rest = u ++ s := by
  induction h generalizing u with
  | ends => exact ⟨hleft, u, hu, rfl⟩
  | joins hread _ ih =>
    obtain ⟨hright, t, ht, rfl⟩ := hnext hread
    obtain ⟨he, t', ht', heq⟩ := ih (hlevels _ _ ▸ Nat.max_lt.2 ⟨hleft, hright⟩) (hjoin hu ht)
    exact ⟨he, t', ht', by simpa using heq⟩

theorem Sound.conjunctions (h : Sound .unary n inner) :
    Sound .conjunction n (conjunctions inner) := by
  intro s e rest hread
  obtain ⟨left, between, hfirst, hrest⟩ := reads_chain.1 hread
  obtain ⟨hleft, u, hu, rfl⟩ := h hfirst
  exact h.chain (fun _ _ => rfl) .conjoined hrest hleft (.conjunct hu)

theorem Sound.disjunctions (h : Sound .unary n inner) :
    Sound .disjunction n (disjunctions inner) := by
  intro s e rest hread
  obtain ⟨left, between, hfirst, hrest⟩ := reads_chain.1 hread
  obtain ⟨hleft, u, hu, rfl⟩ := h.conjunctions hfirst
  exact h.conjunctions.chain (fun _ _ => rfl) .disjoined hrest hleft (.disjunct hu)

theorem Sound.operand (h : Sound .unary n inner) : Sound .operand (n + 1) (operand inner) := by
  intro s e rest hread
  obtain ⟨v, rfl, rfl⟩ | ⟨t, content, rfl, hcontent, rfl⟩ := reads_operand.1 hread
  · exact ⟨Nat.succ_pos n, _, .literal v, rfl⟩
  · obtain ⟨hlevels, t, ht, rfl⟩ := h.disjunctions hcontent
    exact ⟨Nat.succ_lt_succ hlevels, _, .group ht, by simp⟩

theorem Sound.compared (h : Sound .unary n inner) : Sound .comparison (n + 1) (compared inner) := by
  intro s e rest hread
  obtain ⟨c, left, t, right, hleft, hright, rfl⟩ | ⟨hsingle, -⟩ := reads_compared.1 hread
  · obtain ⟨hl, u, hu, rfl⟩ := h.operand hleft
    obtain ⟨hr, v, hv, rfl⟩ := h.operand hright
    exact ⟨Nat.max_lt.2 ⟨hl, hr⟩, _, .compared hu hv, by simp⟩
  · obtain ⟨hlevels, t, ht, rfl⟩ := h.operand hsingle
    exact ⟨hlevels, t, .single ht, rfl⟩

theorem Sound.unaryOver (h : Sound .unary n inner) : Sound .unary (n + 1) (unaryOver inner) := by
  intro s e rest hread
  obtain ⟨t, content, rfl, hcontent, rfl⟩ | ⟨-, hplain⟩ := reads_unaryOver.1 hread
  · obtain ⟨hlevels, t, ht, rfl⟩ := h hcontent
    exact ⟨Nat.succ_lt_succ hlevels, _, .negated ht, rfl⟩
  · obtain ⟨hlevels, t, ht, rfl⟩ := h.compared hplain
    exact ⟨hlevels, t, .plain ht, rfl⟩

/-- The reader that groups and negations leave their content to, with `n` levels for themselves. -/
def below : Nat → Reader
  | 0 => fun _ => .error .tooDeep
  | n + 1 => unary n

theorem unary_eq (n : Nat) : unary n = unaryOver (below n) := by
  cases n <;> rfl

theorem below_sound (n : Nat) : Sound .unary n (below n) := by
  induction n with
  | zero =>
    intro s e rest hread
    exact absurd hread (Read.is_error _)
  | succ n ih =>
    show Sound .unary (n + 1) (unary n)
    rw [unary_eq]
    exact ih.unaryOver

/-! ## Completeness -/

theorem uncompared_symbol {m : Symbol} {t : List Lexeme} (h : ∀ c, m ≠ .compare c) :
    Uncompared (.symbol m :: t) := by
  intro c t' heq
  cases heq
  exact h c rfl

/-- The readers with `n` levels take the lexemes off the front of others that cannot go on with
the phrase. Where they can, as a row of parts can go on with one more, what is taken is said of the
whole row. -/
def Completes (n : Nat) : Phrase → Expr → List Lexeme → Prop
  | .operand, e, s => ∀ rest, Reads (operand (below n)) (s ++ rest) e rest
  | .comparison, e, s =>
    ∀ rest, Uncompared rest → Reads (compared (below n)) (s ++ rest) e rest
  | .unary, e, s => ∀ rest, Uncompared rest → Reads (unary n) (s ++ rest) e rest
  | .conjunction, e, s =>
    ∀ rest e' rest', Uncompared rest → Chains .and .conjunction (unary n) e rest e' rest' →
      Reads (conjunctions (unary n)) (s ++ rest) e' rest'
  | .disjunction, e, s =>
    ∀ rest e' rest', Uncompared rest → (∀ t, rest ≠ .symbol .and :: t) →
      Chains .or .disjunction (conjunctions (unary n)) e rest e' rest' →
      Reads (disjunctions (unary n)) (s ++ rest) e' rest'

theorem exists_level {m n : Nat} (h : m + 1 ≤ n) : ∃ k, n = k + 1 :=
  Nat.exists_eq_succ_of_ne_zero (Nat.ne_zero_of_lt h)

theorem Derives.completes {p : Phrase} {e : Expr} {s : List Lexeme} (h : Derives p e s) {n : Nat}
    (hn : e.levels ≤ n) : Completes n p e s := by
  induction h generalizing n with
  | literal v =>
    intro rest
    exact reads_operand.2 (.inl ⟨v, rfl, rfl⟩)
  | @group e s _ ih =>
    intro rest
    obtain ⟨m, rfl⟩ := exists_level hn
    refine reads_operand.2 (.inr ⟨s ++ .symbol .closing :: rest, e, by simp, ?_, rfl⟩)
    exact ih (Nat.le_of_succ_le_succ hn) _ _ _ (uncompared_symbol (by simp)) (by simp) (.ends (by simp))
  | single _ ih =>
    intro rest hrest
    exact reads_compared.2 (.inr ⟨ih hn rest, hrest⟩)
  | compared _ _ ihl ihr =>
    intro rest hrest
    refine reads_compared.2 (.inl ⟨_, _, _, _, ?_, ihr (Nat.max_le.1 hn).2 rest, rfl⟩)
    simpa using ihl (Nat.max_le.1 hn).1 _
  | plain h ih =>
    intro rest hrest
    rw [unary_eq]
    exact reads_unaryOver.2 (.inr ⟨h.head_ne_not (.inr rfl) rest, ih hn rest hrest⟩)
  | negated _ ih =>
    intro rest hrest
    obtain ⟨m, rfl⟩ := exists_level hn
    exact reads_unaryOver.2 (.inl ⟨_, _, rfl, ih (Nat.le_of_succ_le_succ hn) rest hrest, rfl⟩)
  | conjunct _ ih =>
    intro rest e' rest' hrest hchain
    exact reads_chain.2 ⟨_, _, ih hn rest hrest, hchain⟩
  | conjoined _ _ ihl ihr =>
    intro rest e' rest' hrest hchain
    have hright := ihr (Nat.max_le.1 hn).2 rest hrest
    simpa using ihl (Nat.max_le.1 hn).1 _ _ _ (uncompared_symbol (by simp)) (.joins hright hchain)
  | disjunct _ ih =>
    intro rest e' rest' hrest hand hchain
    exact reads_chain.2 ⟨_, _, ih hn _ _ _ hrest (.ends hand), hchain⟩
  | disjoined _ _ ihl ihr =>
    intro rest e' rest' hrest hand hchain
    have hright := ihr (Nat.max_le.1 hn).2 _ _ _ hrest (.ends hand)
    simpa using ihl (Nat.max_le.1 hn).1 _ _ _ (uncompared_symbol (by simp)) (by simp) (.joins hright hchain)

theorem Derives.reads {e : Expr} {s : List Lexeme} (h : Derives .disjunction e s) {n : Nat}
    (hn : e.levels ≤ n) : Reads (disjunctions (unary n)) s e [] := by
  simpa using h.completes hn [] e [] (by simp [Uncompared]) (by simp) (.ends (by simp))

/-- A list of lexemes has one derivation at most. -/
theorem Derives.unique {e e' : Expr} {s : List Lexeme} (h : Derives .disjunction e s)
    (h' : Derives .disjunction e' s) : e = e' :=
  ((h.reads (Nat.le_max_left _ e'.levels)).unique (h'.reads (Nat.le_max_right e.levels _))).1

theorem parse_eq_ok {s : List Lexeme} {e : Expr} :
    parse s = .ok e ↔ Derives .disjunction e s ∧ e.levels ≤ maxLevels := by
  have hreads : parse s = .ok e ↔ s ≠ [] ∧ Reads (disjunctions (unary maxLevels)) s e [] := by
    unfold parse Reads
    cases s with
    | nil => simp
    | cons l t =>
      cases disjunctions (unary maxLevels) (l :: t) with
      | error fault => simp
      | ok r => by_cases hr : r.rest = [] <;> simp [hr]
  rw [hreads]
  constructor
  · rintro ⟨-, hread⟩
    obtain ⟨hlevels, t, ht, rfl⟩ := (below_sound (maxLevels + 1)).disjunctions hread
    exact ⟨by simpa using ht, Nat.le_of_lt_succ hlevels⟩
  · rintro ⟨h, hlevels⟩
    exact ⟨h.ne_nil, h.reads hlevels⟩

inductive Means : Expr → Value → Prop
  | literal (v : Value) : Means (.literal v) v
  | group {e : Expr} {v : Value} : Means e v → Means (.group e) v
  | negation {e : Expr} {v : Value} : Means e v → Means (.negation e) (.truth (!v.truthy))
  | comparison {c : Comparison} {left right : Expr} {v w : Value} : Means left v → Means right w →
    Means (.comparison c left right) (.truth (c.holds v w))
  | conjunction {left right : Expr} {v w : Value} : Means left v → Means right w →
    Means (.conjunction left right) (.truth (v.truthy && w.truthy))
  | disjunction {left right : Expr} {v w : Value} : Means left v → Means right w →
    Means (.disjunction left right) (.truth (v.truthy || w.truthy))

theorem means_value (e : Expr) : Means e e.value := by
  induction e with
  | literal v => exact .literal v
  | group e ih => exact .group ih
  | negation e ih => exact .negation ih
  | comparison c left right ihl ihr => exact .comparison ihl ihr
  | conjunction left right ihl ihr => exact .conjunction ihl ihr
  | disjunction left right ihl ihr => exact .disjunction ihl ihr

theorem means_iff {e : Expr} {v : Value} : Means e v ↔ e.value = v := by
  constructor
  · intro h
    induction h with
    | literal => rfl
    | group _ ih => exact ih
    | negation _ ih => rw [Expr.value, ih]
    | comparison _ _ ihl ihr => rw [Expr.value, ihl, ihr]
    | conjunction _ _ ihl ihr => rw [Expr.value, ihl, ihr]
    | disjunction _ _ ihl ihr => rw [Expr.value, ihl, ihr]
  · rintro rfl
    exact means_value e

/-- Sixty-four negations are read; with one more there are too many levels. -/
example : (parse (List.replicate 64 (.symbol .not) ++ [.value (.truth true)])).isOk ∧
    parse (List.replicate 65 (.symbol .not) ++ [.value (.truth true)]) = .error .tooDeep := by
  decide +kernel

theorem evaluate_of_lexemes {v : Variables} {expression : Text} {s : List Lexeme}
    (h : lexemes v expression expression = .ok s) :
    evaluate v expression = match parse s with
      | .ok e => .ok e.value.truthy
      | .error f => .error (.invalidExpression expression f.message) := by
  simp only [evaluate, h, bind, Except.bind]
  cases parse s <;> rfl

/-- A test expression has a truth value exactly if its lexemes have a derivation whose groups and
negations stand in one another no more than 64 deep; the derivation is the only one, and the truth
value is that of what it is worth. All other lexemes, and none, are reported as no expression. -/
theorem evaluate_grammar {v : Variables} {expression : Text} {s : List Lexeme}
    (h : lexemes v expression expression = .ok s) :
    (∀ b, evaluate v expression = .ok b ↔ ∃ e value,
      Derives .disjunction e s ∧ e.levels ≤ 64 ∧ Means e value ∧ value.truthy = b) ∧
    (∀ e e', Derives .disjunction e s → Derives .disjunction e' s → e = e') ∧
    ((s = [] ∨ ∀ e, Derives .disjunction e s → 64 < e.levels) →
      ∃ reason, evaluate v expression = .error (.invalidExpression expression reason)) := by
  rw [evaluate_of_lexemes h]
  refine ⟨fun b => ?_, fun e e' => Derives.unique, fun hnone => ?_⟩
  · cases hparse : parse s with
    | ok e =>
      obtain ⟨hderives, hlevels⟩ := parse_eq_ok.1 hparse
      constructor
      · rintro ⟨⟩
        exact ⟨e, e.value, hderives, hlevels, means_value e, rfl⟩
      · rintro ⟨e', value, hderives', -, hmeans, rfl⟩
        cases hderives.unique hderives'
        cases means_iff.1 hmeans
        rfl
    | error f =>
      simp only [reduceCtorEq, false_iff]
      rintro ⟨e, -, hderives, hlevels, -⟩
      cases hparse.symm.trans (parse_eq_ok.2 ⟨hderives, hlevels⟩)
  · cases hparse : parse s with
    | ok e =>
      obtain ⟨hderives, hlevels⟩ := parse_eq_ok.1 hparse
      obtain hs | hdeep := hnone
      · exact absurd hs hderives.ne_nil
      · exact absurd hlevels (Nat.not_le.2 (hdeep e hderives))
    | error f => exact ⟨f.message, rfl⟩

/-- In `!('a' == 'b') & true | false` the negation takes the group, and the "and" comes before the
"or". -/
theorem evaluate_negated_group :
    lexemes ⟨{}, {}⟩ "!('a' == 'b') & true | false".toList "!('a' == 'b') & true | false".toList =
      .ok [.symbol .not, .symbol .opening, .value (.text ['a']), .symbol (.compare .eq),
        .value (.text ['b']), .symbol .closing, .symbol .and, .value (.truth true), .symbol .or,
        .value (.truth false)] ∧
    evaluate ⟨{}, {}⟩ "!('a' == 'b') & true | false".toList = .ok true := by
  have hlexemes : lexemes ⟨{}, {}⟩ "!('a' == 'b') & true | false".toList
      "!('a' == 'b') & true | false".toList =
        .ok [.symbol .not, .symbol .opening, .value (.text ['a']), .symbol (.compare .eq),
          .value (.text ['b']), .symbol .closing, .symbol .and, .value (.truth true), .symbol .or,
          .value (.truth false)] := by decide +kernel
  have hgroup : Derives .unary (.negation (.group (.comparison .eq (.literal (.text ['a']))
      (.literal (.text ['b']))))) [.symbol .not, .symbol .opening, .value (.text ['a']),
        .symbol (.compare .eq), .value (.text ['b']), .symbol .closing] :=
    .negated (.plain (.single (.group (.disjunct (.conjunct (.plain
      (.compared (.literal _) (.literal _))))))))
  have hderives := Derives.disjoined (.disjunct (.conjoined (.conjunct hgroup)
    (.plain (.single (.literal (.truth true)))))) (.conjunct (.plain (.single
      (.literal (.truth false)))))
  exact ⟨hlexemes, ((evaluate_grammar hlexemes).1 true).2
    ⟨_, _, hderives, by decide, means_value _, by decide +kernel⟩⟩

end EdgeCompose.Expression
