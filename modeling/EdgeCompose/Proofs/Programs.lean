import EdgeCompose.Effect.Run

/-!
What can be said of a program without saying how its surroundings answer: which results it may
come to, that another program does the same as it for as long as it goes on, and that it keeps to
a protocol as long as the answers do. Each notion follows the tree, and each has a rule for
programs in sequence.
-/

namespace EdgeCompose.Program

variable {α β γ : Type}

@[simp] theorem pure_eq_done (a : α) : (pure a : Program α) = .done a := rfl

@[simp] theorem bind_eq_bind (p : Program α) (f : α → Program β) : p >>= f = p.bind f := rfl

@[simp] theorem done_bind (a : α) (f : α → Program β) : (Program.done a).bind f = f a := rfl

@[simp] theorem ask_bind (c : Command) (next : c.Answer → Program α) (f : α → Program β) :
    (Program.ask c next).bind f = .ask c fun answer => (next answer).bind f := rfl

@[simp] theorem perform_eq_ask (c : Command) : perform c = .ask c .done := rfl

/-! ## Results -/

/-- A result that the program may come to by some answers. -/
inductive Yields : Program α → α → Prop
  | done (a : α) : Yields (.done a) a
  | ask {c : Command} {next : c.Answer → Program α} {a : α} (answer : c.Answer) :
    Yields (next answer) a → Yields (.ask c next) a

theorem yields_done {a b : α} : (Program.done a).Yields b ↔ b = a := by
  constructor
  · intro h
    cases h
    rfl
  · rintro rfl
    exact .done _

theorem yields_ask {c : Command} {next : c.Answer → Program α} {a : α} :
    (Program.ask c next).Yields a ↔ ∃ answer, (next answer).Yields a := by
  constructor
  · intro h
    cases h with
    | ask answer h => exact ⟨answer, h⟩
  · rintro ⟨answer, h⟩
    exact .ask answer h

theorem yields_bind {p : Program α} {f : α → Program β} {b : β} :
    (p.bind f).Yields b ↔ ∃ a, p.Yields a ∧ (f a).Yields b := by
  induction p with
  | done a =>
    constructor
    · intro h
      exact ⟨a, .done a, h⟩
    · rintro ⟨a', ha, h⟩
      cases ha
      exact h
  | ask c next ih =>
    simp only [ask_bind, yields_ask, ih]
    constructor
    · rintro ⟨answer, a, ha, h⟩
      exact ⟨a, ⟨answer, ha⟩, h⟩
    · rintro ⟨a, ⟨answer, ha⟩, h⟩
      exact ⟨answer, a, ha, h⟩

theorem yields_of_run {p : Program α} {w w' : World} {a : α}
    (h : p.run w = (.finished a, w')) : p.Yields a := by
  induction p generalizing w with
  | done b =>
    cases h
    exact .done _
  | ask c next ih =>
    unfold run at h
    split at h
    · exact .ask _ (ih _ h)
    · cases h
    · cases h

/-! ## Doing the same -/

/-- The second program asks what the first one asks, until the first is done; what is left of the
second then is as `leaf` says of the first one's result. -/
inductive Shadows (leaf : α → Program β → Prop) : Program α → Program β → Prop
  | done {a : α} {q : Program β} : leaf a q → Shadows leaf (.done a) q
  | ask {c : Command} {next : c.Answer → Program α} {next' : c.Answer → Program β} :
    (∀ answer, Shadows leaf (next answer) (next' answer)) → Shadows leaf (.ask c next) (.ask c next')

namespace Shadows

theorem refl {leaf : α → Program α → Prop} (h : ∀ a, leaf a (.done a)) (p : Program α) :
    Shadows leaf p p := by
  induction p with
  | done a => exact .done (h a)
  | ask c next ih => exact .ask ih

theorem bind {leaf : α → Program β → Prop} {leaf' : γ → Program β → Prop} {p : Program α}
    {q : Program β} {f : α → Program γ} (h : Shadows leaf p q)
    (hf : ∀ a q, leaf a q → Shadows leaf' (f a) q) : Shadows leaf' (p.bind f) q := by
  induction h with
  | done ha => exact hf _ _ ha
  | ask _ ih => exact .ask ih

theorem bind_both {δ : Type} {leaf : α → Program β → Prop} {leaf' : γ → Program δ → Prop}
    {p : Program α} {q : Program β} {f : α → Program γ} {g : β → Program δ} (h : Shadows leaf p q)
    (hf : ∀ a q, leaf a q → Shadows leaf' (f a) (q.bind g)) :
    Shadows leaf' (p.bind f) (q.bind g) := by
  induction h with
  | done ha => exact hf _ _ ha
  | ask _ ih => exact .ask ih

/-- In one world the two programs come to the same world by the time the first is done. -/
theorem run_eq {leaf : α → Program β → Prop} {p : Program α} {q : Program β}
    (h : Shadows leaf p q) {w w' : World} {a : α} (hrun : p.run w = (.finished a, w')) :
    ∃ rest, leaf a rest ∧ q.run w = rest.run w' := by
  induction h generalizing w with
  | done ha =>
    cases hrun
    exact ⟨_, ha, rfl⟩
  | @ask c next next' _ ih =>
    simp only [run] at hrun ⊢
    generalize w.reply 0 c = found at hrun ⊢
    obtain ⟨reply, w₁⟩ := found
    cases reply with
    | answer answer => exact ih answer hrun
    | wait => cases hrun
    | overflow => cases hrun

end Shadows

/-! ## What is left of a program -/

/-- What may be left of a program after some answers, and be it none. -/
inductive Leads : Program α → Program α → Prop
  | refl (p : Program α) : Leads p p
  | ask {c : Command} {next : c.Answer → Program α} {rest : Program α} (answer : c.Answer) :
    Leads (next answer) rest → Leads (.ask c next) rest

namespace Leads

theorem trans {p q r : Program α} (h : Leads p q) (h' : Leads q r) : Leads p r := by
  induction h with
  | refl p => exact h'
  | ask answer _ ih => exact .ask answer (ih h')

theorem next {p : Program α} {c : Command} {next : c.Answer → Program α}
    (h : Leads p (.ask c next)) (answer : c.Answer) : Leads p (next answer) :=
  h.trans (.ask answer (.refl _))

/-- What is left of programs in sequence is left of the first or of the second. -/
theorem of_bind {p : Program α} {f : α → Program β} {rest : Program β} (h : Leads (p.bind f) rest) :
    (∃ q, Leads p q ∧ rest = q.bind f) ∨ ∃ a, p.Yields a ∧ Leads (f a) rest := by
  induction p with
  | done a => exact .inr ⟨a, .done a, h⟩
  | ask c next ih =>
    cases h with
    | refl => exact .inl ⟨.ask c next, .refl _, rfl⟩
    | ask answer h =>
      rcases ih answer h with ⟨q, hq, rfl⟩ | ⟨a, ha, hrest⟩
      · exact .inl ⟨q, .ask answer hq, rfl⟩
      · exact .inr ⟨a, .ask answer ha, hrest⟩

end Leads

/-! ## Protocols -/

/-- A protocol with modes: the commands that may be given in a mode, the answers that may come
then, and the mode after an answer. -/
structure Protocol (μ : Type) where
  allows : μ → Command → Prop
  gives : μ → (c : Command) → c.Answer → Prop
  next : μ → (c : Command) → c.Answer → μ

/-- From a mode on the program keeps to the protocol for as long as the answers do, and in the end
`post` holds of the mode and the result. -/
def Obeys {μ : Type} (P : Protocol μ) (post : μ → α → Prop) : μ → Program α → Prop
  | m, .done a => post m a
  | m, .ask c next =>
    P.allows m c ∧ ∀ answer, P.gives m c answer → (next answer).Obeys P post (P.next m c answer)

namespace Obeys

variable {μ : Type} {P : Protocol μ} {m : μ}

theorem bind {post : μ → α → Prop} {post' : μ → β → Prop} {p : Program α} {f : α → Program β}
    (h : p.Obeys P post m) (hf : ∀ m a, p.Yields a → post m a → (f a).Obeys P post' m) :
    (p.bind f).Obeys P post' m := by
  induction p generalizing m with
  | done a => exact hf m a (.done a) h
  | ask c next ih =>
    refine ⟨h.1, fun answer ha => ih answer (h.2 answer ha) ?_⟩
    intro m a hyields
    exact hf m a (.ask answer hyields)

theorem mono {post post' : μ → α → Prop} {p : Program α} (h : p.Obeys P post m)
    (hpost : ∀ m a, post m a → post' m a) : p.Obeys P post' m := by
  induction p generalizing m with
  | done a => exact hpost m a h
  | ask c next ih => exact ⟨h.1, fun answer ha => ih answer (h.2 answer ha)⟩

end Obeys

/-! ## Sequences -/

/-- A property that all programs have that ask for nothing, and that sequences keep. -/
structure Sequential (Φ : ∀ α : Type, Program α → Prop) : Prop where
  done : ∀ {α : Type} (a : α), Φ α (.done a)
  bind : ∀ {α β : Type} {p : Program α} {f : α → Program β}, Φ α p → (∀ a, Φ β (f a)) →
    Φ β (p.bind f)

/-! ## Fixed answers -/

/-- The result of a program whose commands all have fixed answers. -/
def answered (answers : (c : Command) → c.Answer) : Program α → α
  | .done a => a
  | .ask c next => (next (answers c)).answered answers

@[simp] theorem answered_bind (answers : (c : Command) → c.Answer) (p : Program α)
    (f : α → Program β) :
    (p.bind f).answered answers = (f (p.answered answers)).answered answers := by
  induction p with
  | done a => rfl
  | ask c next ih => exact ih (answers c)

theorem yields_answered (p : Program α) (answers : (c : Command) → c.Answer) :
    p.Yields (p.answered answers) := by
  induction p with
  | done a => exact .done a
  | ask c next ih => exact .ask (answers c) (ih (answers c))

end EdgeCompose.Program
