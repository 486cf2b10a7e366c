import EdgeCompose.Proofs.Programs

/-!
Programs that run side by side in one world. A step is one command of one program, and any program
may take the next step; a program may also be given up, time may pass, and entries may be
invalidated. A run is a list of such acts, so that a statement about all lists is one about all
interleavings. Turns and rounds of a crew are runs of this kind (`round_run`, `crew_run`).
-/

namespace EdgeCompose

def Locks.dismiss (l : Locks) (who : Nat) : Locks := l.keys.foldl (fun l k => l.leave k who) l

namespace World

def dismiss (w : World) (who : Nat) : World := { w with locks := w.locks.dismiss who }

def pass (w : World) (seconds : Nat) : World := { w with clock := w.clock.advance seconds }

def invalidate (w : World) (k : FragmentKey) : World :=
  { w with fragments := (FragmentStore.invalidate w.fragments k).2 }

end World

inductive Act where
  | advance (who : Nat)
  | giveUp (who : Nat)
  | pass (seconds : Nat)
  | invalidate (key : FragmentKey)
  deriving DecidableEq, Repr

/-- Programs in a world; each is known by its place, and one that was given up is gone. -/
structure System (α : Type) where
  world : World
  programs : List (Option (Program α))

namespace System

variable {α : Type}

def start (w : World) (programs : List (Program α)) : System α where
  world := w
  programs := programs.map some

/-- What is left of a program that has not been given up. -/
def rest? (s : System α) (who : Nat) : Option (Program α) := s.programs[who]?.join

/-- The system in which a program has come to `rest` and the world to `w`. -/
def put (s : System α) (who : Nat) (rest : Option (Program α)) (w : World) : System α where
  world := w
  programs := s.programs.set who rest

/-- A program that is given up leaves all queues, as one does that runs into an overflow. -/
def giveUp (s : System α) (who : Nat) : System α := s.put who none (s.world.dismiss who)

/-- What a reply makes of a program; one that has to wait comes to its command again later. -/
def resume (s : System α) (who : Nat) {c : Command} (next : c.Answer → Program α) :
    Reply c.Answer × World → System α
  | (.answer answer, w) => s.put who (some (next answer)) w
  | (.wait, w) => { s with world := w }
  | (.overflow, w) => { s with world := w }.giveUp who

def advance (s : System α) (who : Nat) : System α :=
  match s.rest? who with
  | some (.ask c next) => s.resume who next (s.world.reply who c)
  | _ => s

def step (s : System α) : Act → System α
  | .advance who => s.advance who
  | .giveUp who => s.giveUp who
  | .pass seconds => { s with world := s.world.pass seconds }
  | .invalidate key => { s with world := s.world.invalidate key }

def run (s : System α) (acts : List Act) : System α := acts.foldl step s

@[simp] theorem run_nil (s : System α) : s.run [] = s := rfl

@[simp] theorem run_cons (s : System α) (act : Act) (acts : List Act) :
    s.run (act :: acts) = (s.step act).run acts := rfl

@[simp] theorem run_append (s : System α) (acts more : List Act) :
    s.run (acts ++ more) = (s.run acts).run more := List.foldl_append

theorem rest?_start (w : World) (programs : List (Program α)) (who : Nat) :
    (start w programs).rest? who = programs[who]? := by
  unfold rest? start
  rw [List.getElem?_map]
  cases programs[who]? <;> rfl

theorem rest?_put_self {s : System α} {who : Nat} {p : Program α} (h : s.rest? who = some p)
    (rest : Option (Program α)) (w : World) : (s.put who rest w).rest? who = rest := by
  unfold rest? at h
  have hlt : who < s.programs.length := by
    rcases Nat.lt_or_ge who s.programs.length with hlt | hge
    · exact hlt
    · rw [List.getElem?_eq_none hge] at h
      cases h
  simp [rest?, put, List.getElem?_set_self hlt]

theorem rest?_put_ne {s : System α} {who other : Nat} (h : other ≠ who)
    (rest : Option (Program α)) (w : World) :
    (s.put who rest w).rest? other = s.rest? other := by
  simp [rest?, put, List.getElem?_set_ne h.symm]

theorem rest?_giveUp_self (s : System α) (who : Nat) : (s.giveUp who).rest? who = none := by
  simp only [giveUp, rest?, put, List.getElem?_set, if_true]
  split <;> rfl

@[simp] theorem resume_answer (s : System α) (who : Nat) {c : Command}
    (next : c.Answer → Program α) (answer : c.Answer) (w : World) :
    s.resume who next (.answer answer, w) = s.put who (some (next answer)) w := rfl

theorem step_advance {s : System α} {who : Nat} {c : Command} {next : c.Answer → Program α}
    (h : s.rest? who = some (.ask c next)) :
    s.step (.advance who) = s.resume who next (s.world.reply who c) := by
  simp only [step, advance, h]

/-- All that a step can do. -/
inductive Stepped (s : System α) : Act → System α → Prop
  | still {who : Nat} : (∀ c next, s.rest? who ≠ some (.ask c next)) → Stepped s (.advance who) s
  | answered {who : Nat} {c : Command} {next : c.Answer → Program α} {answer : c.Answer}
    {w : World} : s.rest? who = some (.ask c next) → s.world.reply who c = (.answer answer, w) →
    Stepped s (.advance who) (s.put who (some (next answer)) w)
  | waited {who : Nat} {c : Command} {next : c.Answer → Program α} {w : World} :
    s.rest? who = some (.ask c next) → s.world.reply who c = (.wait, w) →
    Stepped s (.advance who) { s with world := w }
  | overflowed {who : Nat} {c : Command} {next : c.Answer → Program α} {w : World} :
    s.rest? who = some (.ask c next) → s.world.reply who c = (.overflow, w) →
    Stepped s (.advance who) ({ s with world := w }.giveUp who)
  | gaveUp {who : Nat} : Stepped s (.giveUp who) (s.giveUp who)
  | passed {seconds : Nat} :
    Stepped s (.pass seconds) { s with world := s.world.pass seconds }
  | invalidated {key : FragmentKey} :
    Stepped s (.invalidate key) { s with world := s.world.invalidate key }

theorem stepped (s : System α) (act : Act) : Stepped s act (s.step act) := by
  cases act with
  | advance who =>
    simp only [step, advance]
    split
    · next c next hrest =>
      rcases hreply : s.world.reply who c with ⟨_ | _ | _, w⟩
      · exact .answered hrest hreply
      · exact .waited hrest hreply
      · exact .overflowed hrest hreply
    · next hdone => exact .still hdone
  | giveUp who => exact .gaveUp
  | pass seconds => exact .passed
  | invalidate key => exact .invalidated

/-- Acts of others leave a program where it is, unless they give it up. -/
theorem rest?_step_other {s : System α} {act : Act} {who : Nat} {rest : Program α}
    (hact : act ≠ .advance who) (h : (s.step act).rest? who = some rest) :
    s.rest? who = some rest := by
  have hstepped := stepped s act
  generalize s.step act = s' at hstepped h
  cases hstepped with
  | answered =>
    have hne : who ≠ _ := fun heq => hact (congrArg Act.advance heq.symm)
    rwa [rest?_put_ne hne] at h
  | overflowed =>
    have hne : who ≠ _ := fun heq => hact (congrArg Act.advance heq.symm)
    rw [giveUp, rest?_put_ne hne] at h
    exact h
  | @gaveUp other =>
    by_cases hne : who = other
    · subst hne
      rw [rest?_giveUp_self] at h
      cases h
    · rwa [giveUp, rest?_put_ne hne] at h
  | _ => exact h

/-- What a step keeps, a run keeps. -/
theorem run_induction (inv : System α → Prop) (hstep : ∀ s act, inv s → inv (s.step act))
    {s : System α} (hs : inv s) (acts : List Act) : inv (s.run acts) := by
  induction acts generalizing s with
  | nil => exact hs
  | cons act acts ih => exact ih (hstep s act hs)

/-- A program goes on with what was left of it. -/
theorem rest?_step {s : System α} {act : Act} {who : Nat} {rest : Program α}
    (h : (s.step act).rest? who = some rest) :
    ∃ earlier, s.rest? who = some earlier ∧ Program.Leads earlier rest := by
  by_cases hact : act = .advance who
  · subst hact
    have hstepped := stepped s (.advance who)
    generalize s.step (.advance who) = s' at hstepped h
    cases hstepped with
    | answered hwho =>
      rw [rest?_put_self hwho] at h
      cases h
      exact ⟨_, hwho, .ask _ (.refl _)⟩
    | overflowed =>
      rw [rest?_giveUp_self] at h
      cases h
    | still => exact ⟨rest, h, .refl _⟩
    | waited => exact ⟨rest, h, .refl _⟩
  · exact ⟨rest, rest?_step_other hact h, .refl _⟩

theorem rest?_run {s : System α} {acts : List Act} {who : Nat} {rest : Program α}
    (h : (s.run acts).rest? who = some rest) :
    ∃ earlier, s.rest? who = some earlier ∧ Program.Leads earlier rest := by
  induction acts generalizing s with
  | nil => exact ⟨rest, h, .refl _⟩
  | cons act acts ih =>
    obtain ⟨between, hbetween, hrest⟩ := ih h
    obtain ⟨earlier, hearlier, hstep⟩ := rest?_step hbetween
    exact ⟨earlier, hearlier, hstep.trans hrest⟩

theorem rest?_run_other {s : System α} {acts : List Act} {who : Nat} {rest : Program α}
    (hacts : ∀ act ∈ acts, act ≠ .advance who) (h : (s.run acts).rest? who = some rest) :
    s.rest? who = some rest := by
  induction acts generalizing s with
  | nil => exact h
  | cons act acts ih =>
    have hlater := ih (fun act hact => hacts act (List.mem_cons_of_mem _ hact)) h
    exact rest?_step_other (hacts act List.mem_cons_self) hlater

/-! ## Crews -/

def ofTask : Task α → Program α
  | .running p => p
  | .finished a => .done a

def afterTurn {p : Program α} (s : System α) (who : Nat) (w : World) : Turn p → System α
  | .finished a => s.put who (some (.done a)) w
  | .paused rest _ => s.put who (some rest) w
  | .waiting => { s with world := w }
  | .overflowed => { s with world := w }.giveUp who

private theorem afterTurn_after {c : Command} {next : c.Answer → Program α} {answer : c.Answer}
    (s : System α) (who : Nat) (w w' : World) (t : Turn (next answer)) :
    (s.put who (some (next answer)) w).afterTurn who w' t =
      s.afterTurn (p := .ask c next) who w' t.after := by
  cases t <;> simp [afterTurn, Turn.after, put, giveUp]

private theorem put_rest {s : System α} {who : Nat} {p : Program α} (h : s.rest? who = some p)
    (w : World) : s.put who (some p) w = { s with world := w } := by
  unfold rest? at h
  have hset : s.programs.set who (some p) = s.programs := by
    apply List.ext_getElem?
    intro i
    rcases Nat.lt_trichotomy who i with hi | rfl | hi
    · rw [List.getElem?_set_ne (by omega)]
    · cases hp : s.programs[who]? with
      | none => simp [hp] at h
      | some q =>
        simp only [hp, Option.join_some] at h
        subst h
        rw [List.getElem?_set_self (List.getElem?_eq_some_iff.mp hp).1]
    · rw [List.getElem?_set_ne (by omega)]
  simp [put, hset]

/-- A turn of a program is a run of its own steps. -/
theorem turn_run {s : System α} {who : Nat} {p : Program α} (h : s.rest? who = some p) :
    ∃ acts, s.run acts = s.afterTurn who (p.turn who s.world).2 (p.turn who s.world).1 := by
  induction p generalizing s with
  | done a => exact ⟨[], (put_rest h s.world).symm⟩
  | ask c next ih =>
    have hadvance := step_advance h
    unfold Program.turn
    generalize s.world.reply who c = found at hadvance ⊢
    obtain ⟨reply, w⟩ := found
    cases reply with
    | answer answer =>
      by_cases hyields : c.yields = true
      · simp only [hyields, if_true]
        exact ⟨[.advance who], hadvance⟩
      · simp only [hyields, Bool.false_eq_true, if_false]
        have hrest := rest?_put_self h (some (next answer)) w
        obtain ⟨acts, hacts⟩ := ih answer hrest
        refine ⟨.advance who :: acts, ?_⟩
        rw [run_cons, hadvance, resume_answer, hacts]
        exact afterTurn_after s who w _ _
    | wait => exact ⟨[.advance who], hadvance⟩
    | overflow => exact ⟨[.advance who], hadvance⟩

/-- The tasks after a round that met no overflow. -/
def tasksAfter? {tasks : List (Task α)} : Crew.Round tasks → Option (List (Task α))
  | .still => some tasks
  | .moved rest _ => some rest
  | .overflowed => none

def ofTasks (w : World) (front : List (Option (Program α))) (tasks : List (Task α)) :
    System α where
  world := w
  programs := front ++ tasks.map fun t => some (ofTask t)

private theorem ofTasks_cons (w : World) (front : List (Option (Program α))) (t : Task α)
    (tasks : List (Task α)) :
    ofTasks w front (t :: tasks) = ofTasks w (front ++ [some (ofTask t)]) tasks := by
  simp [ofTasks]

private theorem put_ofTasks (w w' : World) (front : List (Option (Program α))) (t u : Task α)
    (tasks : List (Task α)) :
    (ofTasks w front (t :: tasks)).put front.length (some (ofTask u)) w' =
      ofTasks w' front (u :: tasks) := by
  simp [ofTasks, put]

private theorem tasksAfter?_keep {t : Task α} {tasks rest : List (Task α)}
    {r : Crew.Round tasks} (h : tasksAfter? (r.keep t) = some rest) :
    ∃ rest', tasksAfter? r = some rest' ∧ rest = t :: rest' := by
  cases r with
  | still =>
    cases h
    exact ⟨tasks, rfl, rfl⟩
  | moved left ahead =>
    cases h
    exact ⟨left, rfl, rfl⟩
  | overflowed => cases h

private theorem tasksAfter?_move {t u : Task α} (hb : t.Below u) {tasks rest : List (Task α)}
    {r : Crew.Round tasks} (h : tasksAfter? (r.move hb) = some rest) :
    ∃ rest', tasksAfter? r = some rest' ∧ rest = t :: rest' := by
  cases r with
  | still =>
    cases h
    exact ⟨tasks, rfl, rfl⟩
  | moved left ahead =>
    cases h
    exact ⟨left, rfl, rfl⟩
  | overflowed => cases h

private theorem mapM_result? {tasks : List (Task α)} {results : List α}
    (h : tasks.mapM Task.result? = some results) : tasks = results.map .finished := by
  induction tasks generalizing results with
  | nil =>
    cases h
    rfl
  | cons t tasks ih =>
    simp only [List.mapM_cons, Option.bind_eq_bind, Option.bind_eq_some_iff] at h
    obtain ⟨a, ha, rest, hrest, hr⟩ := h
    cases hr
    cases t with
    | running p => cases ha
    | finished b =>
      cases ha
      rw [ih hrest]
      rfl

/-- A round of turns is a run. -/
theorem round_run {tasks rest : List (Task α)} {front : List (Option (Program α))} {w : World}
    (h : tasksAfter? (Crew.round front.length w tasks).1 = some rest) :
    ∃ acts, (ofTasks w front tasks).run acts =
      ofTasks (Crew.round front.length w tasks).2 front rest := by
  induction tasks generalizing front w rest with
  | nil =>
    cases h
    exact ⟨[], rfl⟩
  | cons t tasks ih =>
    -- The turns of the tasks behind are a run of the system that has `t` in front of them.
    have hbehind (u : Task α) (w : World) {rest : List (Task α)}
        (h : tasksAfter? (Crew.round (front.length + 1) w tasks).1 = some rest) :
        ∃ acts, (ofTasks w front (u :: tasks)).run acts =
          ofTasks (Crew.round (front.length + 1) w tasks).2 front (u :: rest) := by
      have hlength : (front ++ [some (ofTask u)]).length = front.length + 1 := by simp
      rw [← hlength] at h ⊢
      rw [ofTasks_cons, ofTasks_cons]
      exact ih h
    cases t with
    | finished a =>
      simp only [Crew.round] at h ⊢
      obtain ⟨rest', hrest, rfl⟩ := tasksAfter?_keep h
      exact hbehind _ w hrest
    | running p =>
      have hfirst : (ofTasks w front (.running p :: tasks)).rest? front.length = some p := by
        simp [ofTasks, rest?, ofTask]
      obtain ⟨turns, hturn⟩ := turn_run hfirst
      simp only [Crew.round] at h ⊢
      have hworld : (ofTasks w front (.running p :: tasks)).world = w := rfl
      simp only [hworld] at hturn
      generalize p.turn front.length w = found at h hturn ⊢
      obtain ⟨turn, w'⟩ := found
      cases turn with
      | finished a =>
        obtain ⟨rest', hrest, rfl⟩ := tasksAfter?_move (.finished a p) h
        obtain ⟨acts, hacts⟩ := hbehind (.finished a) w' hrest
        refine ⟨turns ++ acts, ?_⟩
        rw [run_append, hturn, ← hacts]
        exact congrArg (run · acts) (put_ofTasks w w' front (.running p) (.finished a) tasks)
      | paused left hbelow =>
        obtain ⟨rest', hrest, rfl⟩ := tasksAfter?_move (.running hbelow) h
        obtain ⟨acts, hacts⟩ := hbehind (.running left) w' hrest
        refine ⟨turns ++ acts, ?_⟩
        rw [run_append, hturn, ← hacts]
        exact congrArg (run · acts) (put_ofTasks w w' front (.running p) (.running left) tasks)
      | waiting =>
        obtain ⟨rest', hrest, rfl⟩ := tasksAfter?_keep h
        obtain ⟨acts, hacts⟩ := hbehind (.running p) w' hrest
        refine ⟨turns ++ acts, ?_⟩
        rw [run_append, hturn, ← hacts]
        rfl
      | overflowed => cases h

/-- Running programs together until all are finished is a run. -/
theorem crew_run {w w' : World} {c : Crew α} {results : List α}
    (h : Crew.run w c = (.finished results, w')) :
    ∃ acts, (ofTasks w [] c.tasks).run acts =
      ⟨w', results.map fun a => some (.done a)⟩ := by
  fun_induction Crew.run w c with
  | case1 w c results' hresults =>
    cases h
    refine ⟨[], ?_⟩
    have htasks := mapM_result? hresults
    simp [ofTasks, htasks, ofTask]
  | case2 w c hnone rest hahead w₁ hround ih =>
    have hrest : tasksAfter? (Crew.round ([] : List (Option (Program α))).length w c.tasks).1 =
        some rest := by
      rw [List.length_nil, hround]
      rfl
    obtain ⟨acts, hacts⟩ := round_run hrest
    obtain ⟨more, hmore⟩ := ih h
    refine ⟨acts ++ more, ?_⟩
    rw [List.length_nil, hround] at hacts
    rw [run_append, hacts]
    exact hmore
  | case3 => cases h
  | case4 => cases h

end System

end EdgeCompose
