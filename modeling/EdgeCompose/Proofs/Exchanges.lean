import EdgeCompose.Proofs.SoloRuns

/-!
What a fetch does, whoever listens. The first listeners are called in order, then the stored answers
or the backend are asked unless a listener said to skip that, then the second listeners are called,
and the fetch ends in the answer that they leave (`Conducted`). Only an answer that is to be stored
for longer than the clock can tell keeps a fetch from its end (`Fetch.fetch_run`).
-/

namespace EdgeCompose

open Program

/-! ## Listeners -/

/-- The event after listeners, each called with what the one before it left. -/
def through (ls : List Listener) (e : FetchEvent) : FetchEvent :=
  ls.foldl (fun e l => (l.react e).1) e

def hearings (phase : Phase) (ls : List Listener) (e : FetchEvent) : List Heard :=
  ls.mapIdx fun i l => { listener := l.name, phase, event := through (ls.take i) e }

/-- Listeners from the front of the list were called. None of them stopped the event before the
next one, and the last of them did if any listeners are left. -/
def Announced (phase : Phase) (ls : List Listener) (e e' : FetchEvent) (heard : List Heard) :
    Prop :=
  ∃ called rest, ls = called ++ rest ∧ e' = through called e ∧ heard = hearings phase called e ∧
    (∀ front l back, called = front ++ l :: back → back ≠ [] →
      (l.react (through front e)).2 = true) ∧
    (rest ≠ [] → ∃ front l, called = front ++ [l] ∧ (l.react (through front e)).2 = false)

theorem hearings_cons (phase : Phase) (l : Listener) (ls : List Listener) (e : FetchEvent) :
    hearings phase (l :: ls) e =
      { listener := l.name, phase, event := e } :: hearings phase ls (l.react e).1 := by
  simp [hearings, List.mapIdx_cons, through]

theorem announced_nil {phase : Phase} {e e' : FetchEvent} {heard : List Heard} :
    Announced phase [] e e' heard ↔ e' = e ∧ heard = [] := by
  constructor
  · rintro ⟨called, rest, hls, rfl, rfl, -, -⟩
    obtain ⟨rfl, rfl⟩ := List.append_eq_nil_iff.mp hls.symm
    exact ⟨rfl, rfl⟩
  · rintro ⟨rfl, rfl⟩
    refine ⟨[], [], rfl, rfl, rfl, ?_, fun h => absurd rfl h⟩
    intro front l back heq
    simp at heq

/-- A listener that lets the event pass. -/
theorem announced_passed {phase : Phase} {l : Listener} {ls : List Listener} {e e' : FetchEvent}
    {heard : List Heard} (hpass : (l.react e).2 = true) :
    Announced phase (l :: ls) e e' heard ↔ ∃ more,
      heard = { listener := l.name, phase, event := e } :: more ∧
        Announced phase ls (l.react e).1 e' more := by
  constructor
  · rintro ⟨called, rest, hls, rfl, rfl, hpassed, hstopped⟩
    cases called with
    | nil =>
      obtain ⟨front, l', heq, -⟩ := hstopped (by rw [← List.nil_append rest, ← hls]; simp)
      simp at heq
    | cons first called =>
      obtain ⟨rfl, rfl⟩ := List.cons_eq_cons.mp hls
      refine ⟨_, hearings_cons phase l called e, called, rest, rfl, rfl, rfl, ?_, ?_⟩
      · intro front l' back heq
        exact hpassed (l :: front) l' back (by rw [heq]; rfl)
      · intro hrest
        obtain ⟨front, l', heq, hstop⟩ := hstopped hrest
        cases front with
        | nil =>
          obtain ⟨rfl, rfl⟩ := List.cons_eq_cons.mp heq
          simp [through, hpass] at hstop
        | cons first front =>
          obtain ⟨rfl, rfl⟩ := List.cons_eq_cons.mp heq
          exact ⟨front, l', rfl, hstop⟩
  · rintro ⟨more, rfl, called, rest, rfl, rfl, rfl, hpassed, hstopped⟩
    refine ⟨l :: called, rest, rfl, rfl, (hearings_cons phase l called e).symm, ?_, ?_⟩
    · intro front l' back heq hback
      cases front with
      | nil =>
        obtain ⟨rfl, -⟩ := List.cons_eq_cons.mp heq
        exact hpass
      | cons first front =>
        obtain ⟨rfl, hcalled⟩ := List.cons_eq_cons.mp heq
        exact hpassed front l' back hcalled hback
    · intro hrest
      obtain ⟨front, l', rfl, hstop⟩ := hstopped hrest
      exact ⟨l :: front, l', rfl, hstop⟩

/-- A listener that stops the event. -/
theorem announced_stopped {phase : Phase} {l : Listener} {ls : List Listener} {e e' : FetchEvent}
    {heard : List Heard} (hstop : (l.react e).2 = false) :
    Announced phase (l :: ls) e e' heard ↔
      e' = (l.react e).1 ∧ heard = [{ listener := l.name, phase, event := e }] := by
  constructor
  · rintro ⟨called, rest, hls, rfl, rfl, hpassed, hstopped⟩
    cases called with
    | nil =>
      obtain ⟨front, l', heq, -⟩ := hstopped (by rw [← List.nil_append rest, ← hls]; simp)
      simp at heq
    | cons first called =>
      obtain ⟨rfl, rfl⟩ := List.cons_eq_cons.mp hls
      have hlast : called = [] := by
        rw [← Decidable.not_not (p := called = [])]
        intro hcalled
        have hpass := hpassed [] l called rfl hcalled
        simp [through, hstop] at hpass
      subst hlast
      exact ⟨rfl, rfl⟩
  · rintro ⟨rfl, rfl⟩
    refine ⟨[l], ls, rfl, rfl, rfl, ?_, fun _ => ⟨[], l, rfl, hstop⟩⟩
    intro front l' back heq hback
    cases front with
    | nil => exact absurd (List.cons_eq_cons.mp heq).2.symm hback
    | cons first front =>
      obtain ⟨-, hnil⟩ := List.cons_eq_cons.mp heq
      simp at hnil

theorem announce_cons (phase : Phase) (l : Listener) (ls : List Listener) (e : FetchEvent) :
    announce phase (l :: ls) e =
      if (l.react e).2 then
        ((announce phase ls (l.react e).1).1,
          { listener := l.name, phase, event := e } :: (announce phase ls (l.react e).1).2)
      else ((l.react e).1, [{ listener := l.name, phase, event := e }]) := by
  unfold announce
  generalize l.react e = reaction
  obtain ⟨e₁, goesOn⟩ := reaction
  cases goesOn with
  | true => cases ls <;> rfl
  | false => rfl

/-- An announcement calls who is to be called. -/
theorem announced_iff {phase : Phase} {ls : List Listener} {e e' : FetchEvent}
    {heard : List Heard} :
    Announced phase ls e e' heard ↔ (e', heard) = announce phase ls e := by
  induction ls generalizing e heard with
  | nil => rw [announced_nil, announce, Prod.mk.injEq]
  | cons l ls ih =>
    rw [announce_cons]
    cases hgoes : (l.react e).2 with
    | true =>
      rw [announced_passed hgoes, if_pos rfl, Prod.mk.injEq]
      simp only [ih, Prod.ext_iff]
      constructor
      · rintro ⟨more, rfl, rfl, rfl⟩
        exact ⟨rfl, rfl⟩
      · rintro ⟨rfl, rfl⟩
        exact ⟨_, rfl, rfl, rfl⟩
    | false => rw [announced_stopped hgoes, if_neg Bool.false_ne_true, Prod.mk.injEq]

/-! ## Between the listeners -/

/-- The answer to a fetch that the backend's answer makes; a failure makes one, too. -/
def answerOf : Except TransportFailure Response → Response
  | .ok response => response
  | .error failure => .ofFailure failure

/-- What a fetch comes to between the listeners: its answer, the requests that are sent, the stored
answers afterwards, and what is counted. -/
structure Middle where
  answer : Response
  sent : List FetchRequest := []
  responses : Option ResponseStore
  samples : List Sample := []

namespace World

/-- What a fetch gets from the backend if it sends a request now. -/
def transported (w : World) (r : FetchRequest) : Response := answerOf (w.backend w.journal.sent r)

/-- The backend is asked, there is room for its answer, and the answer is to be stored for longer
than the clock can tell. -/
def Overlong (w : World) (r : FetchRequest) : Prop :=
  ∃ s s' found lifetime names, w.responses = some s ∧ s.lookup w.clock.steady r = (found, s') ∧
    found.response? = none ∧
    ResponseStore.storable? r (w.transported r) = some (lifetime, names) ∧
    (s'.makeRoom w.clock.steady r.key).isFullFor r.key = false ∧
    Clock.last < w.clock.steady + lifetime

/-- The world after a fetch, in which nothing else is changed. -/
def exchanged (w : World) (m : Middle) (heard : List Heard) : World :=
  { w with
    responses := m.responses
    journal :=
      { sent := w.journal.sent ++ m.sent
        heard := w.journal.heard ++ heard
        samples := w.journal.samples ++ m.samples } }

end World

/-- A stored answer, or else that of the backend, which is asked once and whose answer is offered to
the stored ones, if answers are stored at all. -/
inductive Answers (w : World) (r : FetchRequest) : Middle → Prop
  | remembered {s s' : ResponseStore} {response : Response} :
    w.responses = some s → s.lookup w.clock.steady r = (.hit response, s') →
    Answers w r
      { answer := response, responses := some s', samples := [.responseLookup (.hit response)] }
  | asked {s s' s'' : ResponseStore} {found : Lookup} {stored : Bool} :
    w.responses = some s → s.lookup w.clock.steady r = (found, s') → found.response? = none →
    s'.store w.clock.steady r (w.transported r) = (.ok stored, s'') →
    Answers w r
      { answer := w.transported r, sent := [r], responses := some s''
        samples := [.responseLookup found, .fetched (w.transported r).status] }
  | unstored : w.responses = none →
    Answers w r
      { answer := w.transported r, sent := [r], responses := none
        samples := [.fetched (w.transported r).status] }

/-- Storing an answer overflows if there is room for it but not for its lifetime. -/
theorem ResponseStore.store_overflows {s : ResponseStore} {now : Int} {r : FetchRequest}
    {response : Response} :
    (∃ overflow, (s.store now r response).1 = .error overflow) ↔
      ∃ lifetime names, storable? r response = some (lifetime, names) ∧
        (s.makeRoom now r.key).isFullFor r.key = false ∧ Clock.last < now + lifetime := by
  unfold store
  cases hstorable : storable? r response with
  | none => simp
  | some found =>
    obtain ⟨lifetime, names⟩ := found
    cases hfull : (s.makeRoom now r.key).isFullFor r.key with
    | true => simp [hfull]
    | false =>
      by_cases hlast : now + lifetime > Clock.last
      · have hoverflow : ∃ overflow : Overflow, overflow = .expiry := ⟨.expiry, rfl⟩
        simpa [Clock.after?, hfull, hlast] using hoverflow.imp fun _ _ => trivial
      · simp [Clock.after?, hfull, hlast]

namespace Program

variable {α β : Type}

theorem run_bind_overflowed {p : Program α} {f : α → Program β} {w : World}
    (h : (p.run w).1 = .overflowed) : ((p.bind f).run w).1 = .overflowed := by
  induction p generalizing w with
  | done a => cases h
  | ask c next ih =>
    simp only [ask_bind, run] at h ⊢
    split at h
    · exact ih _ h
    · cases h
    · rfl

end Program

namespace Fetch

theorem transmit_run (w : World) (r : FetchRequest) :
    (transmit r).run w = (.finished (w.transported r),
      w.exchanged
        { answer := w.transported r, sent := [r], responses := w.responses
          samples := [.fetched (w.transported r).status] } []) := by
  unfold transmit World.exchanged World.transported
  simp only [perform_eq_ask, bind_eq_bind, ask_bind, done_bind, pure_eq_done, Program.run,
    World.reply, World.send, World.count, List.append_nil]
  cases w.backend w.journal.sent r with
  | ok response => rfl
  | error failure => rfl

def Settles (w : World) (r : FetchRequest) (result : Outcome Response × World) : Prop :=
  (¬ w.Overlong r ∧ ∃ m, Answers w r m ∧ result = (.finished m.answer, w.exchanged m [])) ∨
    (w.Overlong r ∧ result.1 = .overflowed)

/-- What a fetch does when nothing that is stored answers it. -/
def transmitAndOffer (r : FetchRequest) : Program Response := do
  let response ← transmit r
  perform (.offer r response)
  return response

def lookedUp (w : World) (s : ResponseStore) (found : Lookup) : World :=
  ({ w with responses := some s } : World).count (.responseLookup found)

theorem answer_run_stored {w : World} {r : FetchRequest} {s s' : ResponseStore} {found : Lookup}
    (hstored : w.responses = some s) (hlookup : s.lookup w.clock.steady r = (found, s')) :
    (answer r).run w = (match found.response? with
      | some response => .done response
      | none => transmitAndOffer r : Program Response).run (lookedUp w s' found) := by
  have hconsult : w.reply 0 (.consult r) =
      (.answer (some found), { w with responses := some s' }) := by
    simp [World.reply, World.consult, hstored, hlookup]
  exact (run_answer hconsult).trans (run_answer rfl)

private theorem offer_run {w : World} {r : FetchRequest} {response : Response}
    {s s' : ResponseStore} {stored : Bool} (hs : w.responses = some s)
    (hstore : s.store w.clock.steady r response = (.ok stored, s')) :
    (ask (.offer r response) fun _ => .done response).run w =
      (.finished response, { w with responses := some s' }) := by
  simp [Program.run, World.reply, World.offer, hs, hstore, Except.map]

private theorem offer_run_overflowed {w : World} {r : FetchRequest} {response : Response}
    {s s' : ResponseStore} {overflow : Overflow} (hs : w.responses = some s)
    (hstore : s.store w.clock.steady r response = (.error overflow, s')) :
    ((ask (.offer r response) fun _ => Program.done response).run w).1 = .overflowed := by
  simp [Program.run, World.reply, World.offer, hs, hstore, Except.map]

private theorem transmitAndOffer_settles {w : World} {r : FetchRequest} {s s' : ResponseStore}
    {found : Lookup} (hstored : w.responses = some s)
    (hlookup : s.lookup w.clock.steady r = (found, s')) (hnone : found.response? = none) :
    Settles w r ((transmitAndOffer r).run (lookedUp w s' found)) := by
  -- Alone, the fetch finds the store and the time as its look-up left them.
  have hoverlong : w.Overlong r ↔
      ∃ overflow, (s'.store w.clock.steady r (w.transported r)).1 = .error overflow := by
    rw [ResponseStore.store_overflows]
    constructor
    · rintro ⟨s₁, s₂, found', lifetime, names, hs, hfound, -, hrest⟩
      obtain rfl := Option.some.inj (hstored.symm.trans hs)
      obtain ⟨rfl, rfl⟩ := Prod.mk.inj (hlookup.symm.trans hfound)
      exact ⟨lifetime, names, hrest⟩
    · rintro ⟨lifetime, names, hrest⟩
      exact ⟨s, s', found, lifetime, names, hstored, hlookup, hnone, hrest⟩
  unfold transmitAndOffer
  rw [bind_eq_bind, run_bind (transmit_run _ r)]
  cases hstore : s'.store w.clock.steady r (w.transported r) with
  | mk stored s'' =>
    rw [hstore] at hoverlong
    cases stored with
    | ok stored =>
      refine .inl ⟨?_, _, .asked hstored hlookup hnone hstore, ?_⟩
      · rw [hoverlong]
        rintro ⟨overflow, herror⟩
        cases herror
      · refine Eq.trans (offer_run rfl hstore) ?_
        have hsame : (lookedUp w s' found).transported r = w.transported r := rfl
        simp only [hsame]
        simp [World.exchanged, lookedUp, World.count]
    | error overflow =>
      exact .inr ⟨hoverlong.mpr ⟨overflow, rfl⟩, offer_run_overflowed rfl hstore⟩

theorem answer_settles (w : World) (r : FetchRequest) : Settles w r ((answer r).run w) := by
  cases hstored : w.responses with
  | none =>
    have hconsult : w.reply 0 (.consult r) = (.answer none, w) := by
      simp [World.reply, World.consult, hstored]
    have hrun : (answer r).run w = (transmit r).run w := run_answer hconsult
    refine .inl ⟨?_, _, .unstored hstored, ?_⟩
    · rintro ⟨s, _, _, _, _, hs, -⟩
      rw [hstored] at hs
      cases hs
    · rw [hrun, transmit_run, hstored]
  | some s =>
    obtain ⟨found, s', hlookup⟩ : ∃ found s', s.lookup w.clock.steady r = (found, s') := ⟨_, _, rfl⟩
    rw [answer_run_stored hstored hlookup]
    cases found with
    | hit response =>
      refine .inl ⟨?_, _, .remembered hstored hlookup, ?_⟩
      · rintro ⟨_, _, found, _, _, hs, hfound, hnone, -⟩
        obtain rfl := Option.some.inj (hstored.symm.trans hs)
        obtain ⟨rfl, -⟩ := Prod.mk.inj (hlookup.symm.trans hfound)
        cases hnone
      · simp [Program.run, World.exchanged, lookedUp, World.count, Lookup.response?]
    | miss => exact transmitAndOffer_settles hstored hlookup rfl
    | bypass => exact transmitAndOffer_settles hstored hlookup rfl

end Fetch

/-! ## Whole fetches -/

/-- A fetch as it went: the event that the first listeners left, what it came to then, and the event
that the second listeners left. -/
structure Exchange where
  before : FetchEvent
  heardBefore : List Heard
  middle : Middle
  after : FetchEvent
  heardAfter : List Heard

def Exchange.result (x : Exchange) : Response := x.after.response.getD .abandoned

structure Conducted (w : World) (r : FetchRequest) (context : FetchContext) (x : Exchange) :
    Prop where
  before : Announced .before w.before { request := r, context } x.before x.heardBefore
  skipped : x.before.skip = true → x.middle =
    { answer := x.before.response.getD .abandoned, responses := w.responses }
  answered : x.before.skip = false → Answers w x.before.request x.middle
  after : Announced .after w.after { x.before with response := some x.middle.answer } x.after
    x.heardAfter

/-- The first listeners let a request through whose answer is to be stored for too long. -/
def Overflows (w : World) (r : FetchRequest) (context : FetchContext) : Prop :=
  ∃ e heard, Announced .before w.before { request := r, context } e heard ∧ e.skip = false ∧
    w.Overlong e.request

namespace Fetch

private def heardBy (w : World) (heard : List Heard) : World :=
  { w with journal := { w.journal with heard := w.journal.heard ++ heard } }

private theorem answers_heardBy {w : World} {r : FetchRequest} {heard : List Heard} {m : Middle}
    (h : Answers (heardBy w heard) r m) : Answers w r m := by
  cases h with
  | remembered hs hlookup => exact .remembered hs hlookup
  | asked hs hlookup hnone hstore => exact .asked hs hlookup hnone hstore
  | unstored hs => exact .unstored hs

private def rest (e : FetchEvent) (response : Response) : Program Response := do
  let e ← perform (.announce .after { e with response := some response })
  return e.response.getD .abandoned

private theorem rest_run {w : World} {m : Middle} {e e' : FetchEvent} {heard heard' : List Heard}
    (h : Announced .after w.after { e with response := some m.answer } e' heard') :
    (rest e m.answer).run ((heardBy w heard).exchanged m []) =
      (.finished (e'.response.getD .abandoned), w.exchanged m (heard ++ heard')) := by
  rw [announced_iff] at h
  simp [rest, Program.run, World.reply, World.announce, World.listeners, World.exchanged, heardBy,
    ← h]

theorem fetch_run (w : World) (r : FetchRequest) (context : FetchContext) :
    (¬ Overflows w r context ∧ ∃ x, Conducted w r context x ∧
      (fetch r context).run w =
        (.finished x.result, w.exchanged x.middle (x.heardBefore ++ x.heardAfter))) ∨
    (Overflows w r context ∧ ((fetch r context).run w).1 = .overflowed) := by
  obtain ⟨e, heard, he⟩ : ∃ e heard, Announced .before w.before { request := r, context } e heard :=
    ⟨_, _, announced_iff.mpr rfl⟩
  obtain ⟨called, hcalled⟩ : ∃ called : Response → FetchEvent × List Heard, ∀ answer,
      Announced .after w.after { e with response := some answer } (called answer).1
        (called answer).2 :=
    ⟨_, fun _ => announced_iff.mpr rfl⟩
  have honly {e' : FetchEvent} {heard' : List Heard}
      (h : Announced .before w.before { request := r, context } e' heard') : e' = e :=
    (Prod.mk.inj ((announced_iff.mp h).trans (announced_iff.mp he).symm)).1
  have hreply : w.reply 0 (.announce .before { request := r, context }) =
      (.answer e, heardBy w heard) := by
    simp [World.reply, World.announce, World.listeners, heardBy, ← announced_iff.mp he]
  have hrun : (fetch r context).run w = (if e.skip then rest e (e.response.getD .abandoned)
      else (answer e.request).bind (rest e)).run (heardBy w heard) := by
    refine (run_answer hreply).trans ?_
    simp only [done_bind]
    split <;> rfl
  rw [hrun]
  cases hskip : e.skip with
  | true =>
    refine .inl ⟨?_, ⟨e, heard, { answer := e.response.getD .abandoned, responses := w.responses },
      (called _).1, (called _).2⟩, ⟨he, fun _ => rfl, ?_, hcalled _⟩, ?_⟩
    · rintro ⟨e', heard', he', hskip', -⟩
      rw [honly he', hskip] at hskip'
      cases hskip'
    · intro hskip'
      rw [hskip] at hskip'
      cases hskip'
    · have hworld : heardBy w heard = (heardBy w heard).exchanged
          { answer := e.response.getD .abandoned, responses := w.responses } [] := by
        simp [heardBy, World.exchanged]
      rw [hworld]
      exact rest_run (hcalled _)
  | false =>
    rcases answer_settles (heardBy w heard) e.request with
      ⟨hshort, m, hm, hanswer⟩ | ⟨hlong, hanswer⟩
    · refine .inl ⟨?_, ⟨e, heard, m, (called m.answer).1, (called m.answer).2⟩,
        ⟨he, ?_, fun _ => answers_heardBy hm, hcalled m.answer⟩, ?_⟩
      · rintro ⟨e', heard', he', -, hlong⟩
        rw [honly he'] at hlong
        exact hshort hlong
      · intro hskip'
        rw [hskip] at hskip'
        cases hskip'
      · exact (run_bind hanswer).trans (rest_run (hcalled _))
    · exact .inr ⟨⟨e, heard, he, hskip, hlong⟩, run_bind_overflowed hanswer⟩

end Fetch

end EdgeCompose
