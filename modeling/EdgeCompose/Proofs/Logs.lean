import EdgeCompose.Proofs.Interleaving

/-!
What a program has been answered so far. A log is a list of commands, each with the answer that it
got; with these answers the program has one way to go (`Program.Performs`), which may lead it into
another program that it is made of (`Program.Enters`). In a run every program goes the way of its
own log, whatever others do in between (`System.performs_log`).
-/

namespace EdgeCompose

structure Answered where
  command : Command
  answer : command.Answer

namespace Program

variable {α β γ : Type}

/-- With the answers of the log, the program comes to what is left. -/
inductive Performs : Program α → List Answered → Program α → Prop
  | nil (p : Program α) : Performs p [] p
  | cons {c : Command} {next : c.Answer → Program α} {log : List Answered} {rest : Program α}
    (answer : c.Answer) : Performs (next answer) log rest →
    Performs (.ask c next) (⟨c, answer⟩ :: log) rest

namespace Performs

variable {p q rest : Program α} {log log' : List Answered}

theorem append (h : Performs p log q) (h' : Performs q log' rest) :
    Performs p (log ++ log') rest := by
  induction h with
  | nil => exact h'
  | cons answer _ ih => exact .cons answer (ih h')

theorem bind (h : Performs p log q) (f : α → Program β) :
    Performs (p.bind f) log (q.bind f) := by
  induction h with
  | nil => exact .nil _
  | cons answer _ ih => exact .cons answer ih

theorem of_done {a : α} (h : Performs (.done a) log rest) : log = [] ∧ rest = .done a := by
  cases h
  exact ⟨rfl, rfl⟩

/-- Programs in sequence come to a command of the first of them, or into the second. -/
theorem of_bind {p : Program α} {f : α → Program β} {rest : Program β}
    (h : Performs (p.bind f) log rest) :
    (∃ c next, Performs p log (.ask c next) ∧ rest = (Program.ask c next).bind f) ∨
      ∃ log₁ log₂ a, log = log₁ ++ log₂ ∧ Performs p log₁ (.done a) ∧
        Performs (f a) log₂ rest := by
  induction p generalizing log with
  | done a => exact .inr ⟨[], log, a, rfl, .nil _, h⟩
  | ask c next ih =>
    cases h with
    | nil => exact .inl ⟨c, next, .nil _, rfl⟩
    | cons answer h =>
      rcases ih answer h with
        ⟨c', next', hfirst, rfl⟩ | ⟨log₁, log₂, a, rfl, hfirst, hsecond⟩
      · exact .inl ⟨c', next', .cons answer hfirst, rfl⟩
      · exact .inr ⟨_ :: log₁, log₂, a, rfl, .cons answer hfirst, hsecond⟩

theorem ask_of_bind {p : Program α} {f : α → Program β} {c : Command}
    {next : c.Answer → Program β} (h : Performs (p.bind f) log (.ask c next)) :
    (∃ next', Performs p log (.ask c next')) ∨
      ∃ log₁ log₂ a, log = log₁ ++ log₂ ∧ Performs p log₁ (.done a) ∧
        Performs (f a) log₂ (.ask c next) := by
  rcases h.of_bind with ⟨c', next', hfirst, heq⟩ | hsecond
  · cases heq
    exact .inl ⟨next', hfirst⟩
  · exact .inr hsecond

theorem done_of_bind {p : Program α} {f : α → Program β} {b : β}
    (h : Performs (p.bind f) log (.done b)) :
    ∃ log₁ log₂ a, log = log₁ ++ log₂ ∧ Performs p log₁ (.done a) ∧
      Performs (f a) log₂ (.done b) := by
  rcases h.of_bind with ⟨c, next, -, heq⟩ | hsecond
  · cases heq
  · exact hsecond

end Performs

theorem performs_nil_iff {p q : Program α} : Performs p [] q ↔ p = q := by
  constructor
  · intro h
    cases h
    rfl
  · rintro rfl
    exact .nil p

theorem performs_done_iff {a b : α} {log : List Answered} :
    Performs (.done a) log (.done b) ↔ log = [] ∧ b = a := by
  constructor
  · intro h
    obtain ⟨hlog, heq⟩ := h.of_done
    exact ⟨hlog, Program.done.inj heq⟩
  · rintro ⟨rfl, rfl⟩
    exact .nil _

/-- The program that another one shadows shows the way of that one. -/
theorem Shadows.performs {leaf : α → Program β → Prop} {p : Program α} {q : Program β}
    (h : Shadows leaf p q) {log : List Answered} {a : α} (hp : Performs p log (.done a)) :
    ∃ rest, leaf a rest ∧ Performs q log rest := by
  induction h generalizing log with
  | done ha =>
    obtain ⟨rfl, heq⟩ := hp.of_done
    cases heq
    exact ⟨_, ha, .nil _⟩
  | ask _ ih =>
    cases hp with
    | cons answer hp =>
      obtain ⟨rest, hleaf, hrest⟩ := ih answer hp
      exact ⟨rest, hleaf, .cons answer hrest⟩

/-- The result that the program comes to with the answers of the log, if they are answers to all of
its commands. -/
def replay? : Program α → List Answered → Option α
  | .done a, [] => some a
  | .ask c next, ⟨c', answer⟩ :: log =>
    if h : c' = c then (next (h ▸ answer)).replay? log else none
  | _, _ => none

theorem performs_of_replay? {p : Program α} {log : List Answered} {a : α}
    (h : p.replay? log = some a) : Performs p log (.done a) := by
  fun_induction replay? p log with
  | case1 =>
    cases h
    exact .nil _
  | case2 c answer log next ih => exact .cons answer (ih h)
  | case3 => cases h
  | case4 => cases h

/-- A run that is finished has gone the way of some log. -/
theorem performs_of_run {p : Program α} {w w' : World} {a : α}
    (h : p.run w = (.finished a, w')) : ∃ log, Performs p log (.done a) := by
  induction p generalizing w with
  | done b =>
    cases h
    exact ⟨[], .nil _⟩
  | ask c next ih =>
    unfold run at h
    split at h
    · next answer w₁ _ =>
      obtain ⟨log, hlog⟩ := ih answer h
      exact ⟨_, .cons answer hlog⟩
    · cases h
    · cases h

/-- With the answers of the log, the program comes to begin with another one. -/
def Enters (p : Program α) (log : List Answered) (q : Program β) : Prop :=
  ∃ k : β → Program α, Performs p log (q.bind k)

namespace Enters

variable {p : Program α} {q : Program β} {log log' : List Answered}

theorem refl (p : Program α) : p.Enters [] p := ⟨.done, by rw [bind_done]; exact .nil p⟩

theorem trans {r : Program γ} (h : p.Enters log q) (h' : q.Enters log' r) :
    p.Enters (log ++ log') r := by
  obtain ⟨k, hk⟩ := h
  obtain ⟨k', hk'⟩ := h'
  refine ⟨fun c => (k' c).bind k, hk.append ?_⟩
  rw [← bind_bind]
  exact hk'.bind k

theorem bind (h : p.Enters log q) (f : α → Program γ) : (p.bind f).Enters log q := by
  obtain ⟨k, hk⟩ := h
  refine ⟨fun b => (k b).bind f, ?_⟩
  rw [← bind_bind]
  exact hk.bind f

/-- The second of two programs in sequence begins when the first is done. -/
theorem second {a : α} {f : α → Program β} {r : Program γ} (h : Performs p log (.done a))
    (h' : (f a).Enters log' r) : (p.bind f).Enters (log ++ log') r := by
  obtain ⟨k, hk⟩ := h'
  exact ⟨k, (h.bind f).append hk⟩

end Enters

end Program

/-! ## Logs of a program alone -/

/-- The world answers the commands of a log, one after the other, to a program that runs alone, and
another world is left. -/
inductive World.Gives : World → List Answered → World → Prop
  | nil (w : World) : Gives w [] w
  | cons {w w₁ w' : World} {c : Command} {answer : c.Answer} {log : List Answered} :
    w.reply 0 c = (.answer answer, w₁) → Gives w₁ log w' → Gives w (⟨c, answer⟩ :: log) w'

theorem World.Gives.append {w w₁ w' : World} {log log' : List Answered} (h : w.Gives log w₁)
    (h' : w₁.Gives log' w') : w.Gives (log ++ log') w' := by
  induction h with
  | nil => exact h'
  | cons hreply _ ih => exact .cons hreply (ih h')

namespace Program

variable {α : Type} {p : Program α} {w w' : World}

/-- A run comes to what the log of its answers leads to. -/
theorem run_of_performs {log : List Answered} {rest : Program α} (hgives : w.Gives log w')
    (h : p.Performs log rest) : p.run w = rest.run w' := by
  induction hgives generalizing p with
  | nil w =>
    rw [performs_nil_iff.mp h]
  | cons hreply _ ih =>
    cases h with
    | cons answer h =>
      simp only [run, hreply]
      exact ih h

theorem run_eq_finished_iff {a : α} :
    p.run w = (.finished a, w') ↔ ∃ log, w.Gives log w' ∧ p.Performs log (.done a) := by
  constructor
  · intro h
    induction p generalizing w with
    | done b =>
      cases h
      exact ⟨[], .nil _, .nil _⟩
    | ask c next ih =>
      unfold run at h
      split at h
      · next answer w₁ hreply =>
        obtain ⟨log, hgives, hlog⟩ := ih answer h
        exact ⟨_, .cons hreply hgives, .cons answer hlog⟩
      · cases h
      · cases h
  · rintro ⟨log, hgives, hlog⟩
    rw [run_of_performs hgives hlog]
    rfl

/-- A run overflows at the first command whose expiry cannot be represented. -/
theorem run_overflows_iff : (p.run w).1 = .overflowed ↔ ∃ log w₁ c next, w.Gives log w₁ ∧
    p.Performs log (.ask c next) ∧ (w₁.reply 0 c).1 = .overflow := by
  constructor
  · intro h
    induction p generalizing w with
    | done a => cases h
    | ask c next ih =>
      unfold run at h
      split at h
      · next answer w₁ hreply =>
        obtain ⟨log, w₂, c', next', hgives, hlog, hover⟩ := ih answer h
        exact ⟨_, w₂, c', next', .cons hreply hgives, .cons answer hlog, hover⟩
      · cases h
      · next w₁ hreply => exact ⟨[], w, c, next, .nil _, .nil _, congrArg Prod.fst hreply⟩
  · rintro ⟨log, w₁, c, next, hgives, hlog, hover⟩
    rw [run_of_performs hgives hlog, run]
    split
    · next hreply => rw [hreply] at hover; cases hover
    · next hreply => rw [hreply] at hover; cases hover
    · rfl

end Program

/-! ## Logs of a run -/

namespace System

open Program

variable {α : Type} {s : System α}

/-- The command that a program gives next, with its answer if it gets one. -/
def nextAnswered (s : System α) (who : Nat) : List Answered :=
  match s.rest? who with
  | some (.ask c _) =>
    match (s.world.reply who c).1 with
    | .answer answer => [⟨c, answer⟩]
    | _ => []
  | _ => []

/-- What one act adds to the log of a program. -/
def answered (s : System α) (who : Nat) (act : Act) : List Answered :=
  if act = .advance who then s.nextAnswered who else []

def log (s : System α) (who : Nat) : List Act → List Answered
  | [] => []
  | act :: acts => s.answered who act ++ (s.step act).log who acts

theorem log_append (s : System α) (who : Nat) (acts more : List Act) :
    s.log who (acts ++ more) = s.log who acts ++ (s.run acts).log who more := by
  induction acts generalizing s with
  | nil => rfl
  | cons act acts ih => simp only [List.cons_append, log, run_cons, ih, List.append_assoc]

theorem nextAnswered_of_reply {who : Nat} {c : Command} {next : c.Answer → Program α}
    {answer : c.Answer} {w : World} (hrest : s.rest? who = some (.ask c next))
    (hreply : s.world.reply who c = (.answer answer, w)) :
    s.nextAnswered who = [⟨c, answer⟩] := by
  simp only [nextAnswered, hrest, hreply]

theorem performs_answered {act : Act} {who : Nat} {rest : Program α}
    (h : (s.step act).rest? who = some rest) :
    ∃ earlier, s.rest? who = some earlier ∧ Performs earlier (s.answered who act) rest := by
  unfold answered
  by_cases hact : act = .advance who
  · subst hact
    rw [if_pos rfl]
    have hstepped := stepped s (.advance who)
    generalize s.step (.advance who) = s' at hstepped h
    cases hstepped with
    | still hdone =>
      have hnone : s.nextAnswered who = [] := by
        unfold nextAnswered
        split
        · next hrest => exact (hdone _ _ hrest).elim
        · rfl
      exact ⟨rest, h, hnone ▸ .nil rest⟩
    | answered hrest hreply =>
      rw [rest?_put_self hrest] at h
      cases h
      rw [nextAnswered_of_reply hrest hreply]
      exact ⟨_, hrest, .cons _ (.nil _)⟩
    | waited hrest hreply =>
      have hsame : s.rest? who = some rest := h
      have hnone : s.nextAnswered who = [] := by simp only [nextAnswered, hrest, hreply]
      exact ⟨rest, hsame, hnone ▸ .nil rest⟩
    | overflowed =>
      rw [rest?_giveUp_self] at h
      cases h
  · rw [if_neg hact]
    exact ⟨rest, rest?_step_other hact h, .nil rest⟩

/-- A program goes the way of its log. -/
theorem performs_log {acts : List Act} {who : Nat} {rest : Program α}
    (h : (s.run acts).rest? who = some rest) :
    ∃ earlier, s.rest? who = some earlier ∧ Performs earlier (s.log who acts) rest := by
  induction acts generalizing s with
  | nil => exact ⟨rest, h, .nil rest⟩
  | cons act acts ih =>
    obtain ⟨between, hbetween, hrest⟩ := ih h
    obtain ⟨earlier, hearlier, hstep⟩ := performs_answered hbetween
    exact ⟨earlier, hearlier, hstep.append hrest⟩

end System

end EdgeCompose
