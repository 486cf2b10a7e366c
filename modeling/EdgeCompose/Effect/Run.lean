import EdgeCompose.Effect.World

/-!
Running programs. A program alone runs to its end. Several programs take turns: a turn lasts
until the program waits for a lock, has sent a request, or is done. A crew of programs goes
around until all are done; it comes to an end because every program is a finite tree.
-/

namespace EdgeCompose

inductive Outcome (α : Type) where
  | finished (a : α)
  | overflowed
  | stuck
  deriving DecidableEq, Repr

def Outcome.map {α β : Type} (f : α → β) : Outcome α → Outcome β
  | .finished a => .finished (f a)
  | .overflowed => .overflowed
  | .stuck => .stuck

/-- Runs a program with nothing else running. -/
def Program.run {α : Type} (w : World) : Program α → Outcome α × World
  | .done a => (.finished a, w)
  | .ask c next =>
    match w.reply 0 c with
    | (.answer answer, w) => (next answer).run w
    | (.wait, w) => (.stuck, w)
    | (.overflow, w) => (.overflowed, w.abandoned)

/-- How a turn of a program ends. -/
inductive Turn {α : Type} (p : Program α) where
  | finished (a : α)
  | paused (rest : Program α) (h : Program.Below rest p)
  | waiting
  | overflowed

/-- A turn that continues one which began with an answer. -/
def Turn.after {α : Type} {c : Command} {next : c.Answer → Program α} {answer : c.Answer} :
    Turn (next answer) → Turn (.ask c next)
  | .finished a => .finished a
  | .paused rest h => .paused rest (h.trans (.next c next answer))
  | .waiting => .paused (next answer) (.next c next answer)
  | .overflowed => .overflowed

/-- One turn of the program `who`. -/
def Program.turn {α : Type} (who : Nat) (w : World) : (p : Program α) → Turn p × World
  | .done a => (.finished a, w)
  | .ask c next =>
    match w.reply who c with
    | (.answer answer, w) =>
      if c.yields then (.paused (next answer) (.next c next answer), w)
      else
        let (rest, w) := (next answer).turn who w
        (rest.after, w)
    | (.wait, w) => (.waiting, w)
    | (.overflow, w) => (.overflowed, w)

inductive Task (α : Type) where
  | running (p : Program α)
  | finished (a : α)

def Task.result? {α : Type} : Task α → Option α
  | .running _ => none
  | .finished a => some a

/-- A task advances to one with less left to do. -/
inductive Task.Below {α : Type} : Task α → Task α → Prop
  | running {p q : Program α} (h : Program.Below p q) : Below (.running p) (.running q)
  | finished (a : α) (p : Program α) : Below (.finished a) (.running p)

theorem Task.acc_below {α : Type} (t : Task α) : Acc Below t := by
  have hdone : ∀ a : α, Acc Below (.finished a) := fun a => .intro _ fun s h => by cases h
  cases t with
  | finished a => exact hdone a
  | running p =>
    induction Program.acc_below p with
    | intro p _ ih =>
      refine .intro _ fun s h => ?_
      cases h with
      | running hb => exact ih _ hb
      | finished a => exact hdone a

/-- Programs that run together; each is known by its place. -/
structure Crew (α : Type) where
  tasks : List (Task α)

namespace Crew

variable {α : Type}

/-- No task of the list has more to do than the one in its place. -/
inductive Level : List (Task α) → List (Task α) → Prop
  | nil : Level [] []
  | same (t : Task α) {s r : List (Task α)} : Level s r → Level (t :: s) (t :: r)
  | less {t u : Task α} {s r : List (Task α)} : t.Below u → Level s r → Level (t :: s) (u :: r)

/-- No task has more to do than the one in its place, and some task has less. -/
inductive Ahead : List (Task α) → List (Task α) → Prop
  | here {t u : Task α} {s r : List (Task α)} : t.Below u → Level s r → Ahead (t :: s) (u :: r)
  | there (t : Task α) {s r : List (Task α)} : Ahead s r → Ahead (t :: s) (t :: r)

theorem Level.refl : (s : List (Task α)) → Level s s
  | [] => .nil
  | t :: s => .same t (Level.refl s)

theorem Ahead.level {s r : List (Task α)} (h : Ahead s r) : Level s r := by
  induction h with
  | here hb hl => exact .less hb hl
  | there t _ ih => exact .same t ih

theorem Level.length_eq {s r : List (Task α)} (h : Level s r) : s.length = r.length := by
  induction h with
  | nil => rfl
  | same _ _ ih => simp [ih]
  | less _ _ ih => simp [ih]

theorem acc_ahead (n : Nat) : ∀ s : List (Task α), s.length = n → Acc Ahead s := by
  induction n with
  | zero =>
    intro s hs
    rw [List.length_eq_zero_iff.mp hs]
    exact .intro _ fun r h => by cases h
  | succ n ihn =>
    intro s hs
    obtain ⟨t, s, rfl⟩ := List.exists_cons_of_length_eq_add_one hs
    replace hs : s.length = n := by simpa using hs
    induction Task.acc_below t generalizing s with
    | intro t _ iht =>
      induction ihn s hs with
      | intro s _ ihs =>
        refine .intro _ fun r h => ?_
        cases h with
        | here hb hl => exact iht _ hb _ (hl.length_eq.trans hs)
        | there _ ha => exact ihs _ ha (ha.level.length_eq.trans hs)

instance : WellFoundedRelation (Crew α) where
  rel a b := Ahead a.tasks b.tasks
  wf := InvImage.wf Crew.tasks ⟨fun s => acc_ahead s.length s rfl⟩

/-- How a round of turns ends. -/
inductive Round (s : List (Task α)) where
  | still
  | moved (rest : List (Task α)) (h : Ahead rest s)
  | overflowed

/-- A round in which the first task did not move. -/
def Round.keep (t : Task α) {s : List (Task α)} : Round s → Round (t :: s)
  | .still => .still
  | .moved rest h => .moved (t :: rest) (.there t h)
  | .overflowed => .overflowed

/-- A round in which the first task moved. -/
def Round.move {t u : Task α} (h : t.Below u) {s : List (Task α)} : Round s → Round (u :: s)
  | .still => .moved (t :: s) (.here h (.refl s))
  | .moved rest ha => .moved (t :: rest) (.here h ha.level)
  | .overflowed => .overflowed

/-- Every unfinished task takes a turn; the first of them has the number `who`. -/
def round (who : Nat) (w : World) : (s : List (Task α)) → Round s × World
  | [] => (.still, w)
  | .finished a :: s =>
    let (rest, w) := round (who + 1) w s
    (rest.keep (.finished a), w)
  | .running p :: s =>
    match p.turn who w with
    | (.finished a, w) =>
      let (rest, w) := round (who + 1) w s
      (rest.move (.finished a p), w)
    | (.paused _ h, w) =>
      let (rest, w) := round (who + 1) w s
      (rest.move (.running h), w)
    | (.waiting, w) =>
      let (rest, w) := round (who + 1) w s
      (rest.keep (.running p), w)
    | (.overflowed, w) => (.overflowed, w)

/-- The results of all tasks, if all are finished. -/
def results? (c : Crew α) : Option (List α) := c.tasks.mapM Task.result?

/-- Goes around until all tasks are finished. -/
def run (w : World) (c : Crew α) : Outcome (List α) × World :=
  match c.results? with
  | some results => (.finished results, w)
  | none =>
    match round 0 w c.tasks with
    | (.moved rest _h, w) => run w { tasks := rest }
    | (.still, w) => (.stuck, w)
    | (.overflowed, w) => (.overflowed, w.abandoned)
termination_by c

end Crew

/-- Runs programs together. -/
def Program.runAll {α : Type} (w : World) (programs : List (Program α)) :
    Outcome (List α) × World :=
  Crew.run w { tasks := programs.map .running }

end EdgeCompose
