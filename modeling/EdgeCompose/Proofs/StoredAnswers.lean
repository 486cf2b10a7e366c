import EdgeCompose.Gateway.Handler
import EdgeCompose.Proofs.Exchanges
import EdgeCompose.Proofs.Invariants

/-!
Where stored answers come from. A program offers to the store only what the backend answered it
last, under the request that it had sent; all that a server does keeps to that
(`Demand.offersAnswers`). So in every interleaving each stored answer is one that the backend gave
to a request of its key (`World.StoresAnswers.run`), and no listener can put another there.
-/

namespace EdgeCompose

open Program

/-! ## The protocol of offers -/

/-- The mode is the last request that was sent, with what came of it. -/
def offerProtocol : Protocol (Option (FetchRequest × Except TransportFailure Response)) where
  allows
    | m, .offer r response => ∃ outcome, m = some (r, outcome) ∧ response = answerOf outcome
    | _, _ => True
  gives _ _ _ := True
  next
    | _, .send r, outcome => some (r, outcome)
    | m, _, _ => m

/-- Whatever was sent before, the program offers nothing but the answers to what it sends. -/
def Program.OffersAnswers {α : Type} (p : Program α) : Prop :=
  ∀ m, p.Obeys offerProtocol (fun _ _ => True) m

namespace Program

variable {α β : Type}

theorem OffersAnswers.done (a : α) : (Program.done a).OffersAnswers := fun _ => trivial

theorem OffersAnswers.bind {p : Program α} {f : α → Program β} (hp : p.OffersAnswers)
    (hf : ∀ a, (f a).OffersAnswers) : (p.bind f).OffersAnswers :=
  fun m => Obeys.bind (hp m) fun m a _ _ => hf a m

theorem offersAnswers_sequential : Sequential fun _ p => p.OffersAnswers where
  done := .done
  bind hp hf := hp.bind hf

/-- A program that offers nothing first. -/
theorem OffersAnswers.ask {c : Command} {next : c.Answer → Program α}
    (hc : ∀ m, offerProtocol.allows m c) (hnext : ∀ answer, (next answer).OffersAnswers) :
    (Program.ask c next).OffersAnswers :=
  fun m => ⟨hc m, fun answer _ => hnext answer _⟩

end Program

namespace Fetch

/-- An answer is on offer once the backend has given it. -/
theorem transmit_offers (r : FetchRequest)
    (m : Option (FetchRequest × Except TransportFailure Response)) :
    (transmit r).Obeys offerProtocol
      (fun m response => ∃ outcome, m = some (r, outcome) ∧ response = answerOf outcome) m := by
  refine ⟨trivial, fun outcome _ => ?_⟩
  cases outcome with
  | ok response => exact ⟨trivial, fun _ _ => ⟨_, rfl, rfl⟩⟩
  | error failure => exact ⟨trivial, fun _ _ => ⟨_, rfl, rfl⟩⟩

theorem transmitAndOffer_offersAnswers (r : FetchRequest) : (transmitAndOffer r).OffersAnswers := by
  intro m
  refine Obeys.bind (transmit_offers r m) ?_
  intro m response _ hanswer
  exact ⟨hanswer, fun _ _ => trivial⟩

theorem answer_offersAnswers (r : FetchRequest) : (answer r).OffersAnswers := by
  refine .ask (fun _ => trivial) fun found => ?_
  cases found with
  | none => exact fun m => (transmit_offers r m).mono fun _ _ _ => trivial
  | some lookup =>
    refine .ask (fun _ => trivial) fun _ => ?_
    cases lookup with
    | hit response => exact .done response
    | miss => exact transmitAndOffer_offersAnswers r
    | bypass => exact transmitAndOffer_offersAnswers r

theorem fetch_offersAnswers (r : FetchRequest) (context : FetchContext) :
    (fetch r context).OffersAnswers :=
  offersAnswers_sequential.fetch (fun _ _ => .ask (fun _ => trivial) .done) answer_offersAnswers r
    context

end Fetch

namespace Page

theorem follow_offersAnswers (p : Page) (left : Nat) (url : Url) :
    (p.follow left url).OffersAnswers :=
  offersAnswers_sequential.follow Fetch.fetch_offersAnswers p left url

theorem document_offersAnswers (p : Page) (url : Url) (lifetime : Option Nat) :
    (p.document url lifetime).OffersAnswers := by
  rw [document_eq]
  refine .ask (fun _ => trivial) fun found => ?_
  cases found with
  | some content => exact .ask (fun _ => trivial) fun _ => .done _
  | none =>
    refine .ask (fun _ => trivial) fun _ => .ask (fun _ => trivial) fun _ =>
      .ask (fun _ => trivial) fun found => ?_
    cases found with
    | some content => exact .ask (fun _ => trivial) fun _ => .done _
    | none =>
      refine (p.follow_offersAnswers _ url).bind fun result => ?_
      cases result with
      | error e => exact .ask (fun _ => trivial) fun _ => .done _
      | ok found =>
        exact .ask (fun _ => trivial) fun _ => .ask (fun _ => trivial) fun _ => .done _

end Page

theorem compositional_offersAnswers :
    Compositional (fun _ p => p.OffersAnswers) (fun _ => True) (fun _ => True) fun _ => True where
  done a := .done a
  bind {α β p f} hp hf := by
    intro m
    refine Obeys.bind (hp m) ?_
    intro m a hyields _
    exact hf a hyields m
  nested _ _ := trivial
  content {r i} template _ _ hinner := by
    unfold Page.content
    split
    · exact .done _
    · refine (r.page.document_offersAnswers _ _).bind ?_
      rintro (e | found)
      · exact .done _
      · exact hinner _ _ _ trivial
  register key body _ := .ask (fun _ => trivial) fun _ => .done _
  opens _ _ _ := trivial

/-! ## Demands -/

/-- What a server can be asked to do. -/
inductive Demand where
  | page (g : Gateway) (request : ClientRequest) (body : Bytes)
  | render (r : Renderer) (document : Text)
  | extract (r : Renderer) (document name : Text)
  | document (p : Page) (url : Url)
  | fetch (r : FetchRequest) (context : FetchContext)

namespace Demand

def program : Demand → Program Unit
  | .page g request body => (g.handlePage request body).bind fun _ => .done ()
  | .render r text => (r.render text).bind fun _ => .done ()
  | .extract r text name => (r.extract text name).bind fun _ => .done ()
  | .document p url => (p.fetchDocument url).bind fun _ => .done ()
  | .fetch r context => (Fetch.fetch r context).bind fun _ => .done ()

end Demand

/-- What holds of all that renders are made of, of fetches, and of counting a page, holds of all
that a server can be asked to do. -/
theorem Compositional.demand {Φ : ∀ α : Type, Program α → Prop}
    (h : Compositional Φ (fun _ => True) (fun _ => True) fun _ => True)
    (hfetch : ∀ r context, Φ _ (Fetch.fetch r context))
    (hpage : ∀ outcome status, Φ _ (perform (.count (.page outcome status)))) (d : Demand) :
    Φ _ d.program := by
  have hsequential : Sequential Φ := ⟨h.done, fun hp hf => h.bind hp fun a _ => hf a⟩
  have hcompose (r : Renderer) (wanted : Option Text) (document : Text) :
      Φ _ (r.page.compose r.levels wanted document) := h.compose trivial wanted trivial
  cases d with
  | page g request body =>
    refine hsequential.bind ?_ fun _ => h.done ()
    have hcounted (outcome : PageOutcome) (status : Status) (response : Response) :
        Φ _ (perform (.count (.page outcome status)) >>= fun _ => pure response) :=
      hsequential.bind (hpage outcome status) fun _ => h.done _
    unfold Gateway.handlePage
    split
    · exact hcounted _ _ _
    split
    · exact hcounted _ _ _
    refine hsequential.bind (hfetch _ _) fun origin => ?_
    split
    · refine hsequential.bind (hcompose _ none _) fun result => ?_
      cases result with
      | ok t => exact hcounted _ _ _
      | error e => exact hcounted _ _ _
    · exact hcounted _ _ _
  | render r text => exact hsequential.bind (hcompose r none text) fun _ => h.done ()
  | extract r text name => exact hsequential.bind (hcompose r (some name) text) fun _ => h.done ()
  | document p url => exact hsequential.bind (hsequential.follow hfetch p _ url) fun _ => h.done ()
  | fetch r context => exact hsequential.bind (hfetch r context) fun _ => h.done ()

theorem Demand.offersAnswers (d : Demand) : d.program.OffersAnswers :=
  compositional_offersAnswers.demand Fetch.fetch_offersAnswers
    (fun _ _ => .ask (fun _ => trivial) fun _ => .done _) d

/-! ## What is stored -/

namespace ResponseStore

theorem storable?_ofFailure (r : FetchRequest) (failure : TransportFailure) :
    storable? r (.ofFailure failure) = none := by
  have hstatus : cacheableStatuses.contains (Response.ofFailure failure).status = false := by
    cases failure <;> rfl
  unfold storable?
  simp only [hstatus, Bool.not_false, Bool.or_true, if_true]

/-- A failure leaves the store as it is. -/
theorem store_ofFailure (s : ResponseStore) (now : Int) (r : FetchRequest)
    (failure : TransportFailure) : s.store now r (.ofFailure failure) = (.ok false, s) := by
  simp only [store, storable?_ofFailure]

end ResponseStore

namespace World

def CameOf (w : World) (r : FetchRequest) (outcome : Except TransportFailure Response) : Prop :=
  ∃ earlier later, w.journal.sent = earlier ++ r :: later ∧ w.backend earlier r = outcome

/-- Every stored answer is one that the backend gave to a request of its key. -/
def StoresAnswers (w : World) : Prop :=
  ∀ s key e, w.responses = some s → s.entries.get? key = some e →
    ∃ r, r.key = key ∧ w.CameOf r (.ok e.response)

variable {w w' : World}

/-- No command takes back what was sent. -/
theorem CameOf.remains {who : Nat} {c : Command} {reply : Reply c.Answer} {r : FetchRequest}
    {outcome : Except TransportFailure Response} (h : w.CameOf r outcome)
    (hreply : Replied w who c reply w') : w'.CameOf r outcome := by
  obtain ⟨earlier, later, hsent, houtcome⟩ := h
  cases hreply with
  | @sent r' =>
    refine ⟨earlier, later ++ [r'], ?_, houtcome⟩
    simp only [hsent, List.append_assoc, List.cons_append]
  | _ => exact ⟨earlier, later, hsent, houtcome⟩

theorem CameOf.stays {r : FetchRequest} {outcome : Except TransportFailure Response}
    (h : w.CameOf r outcome) (hdisturbed : w.Disturbed w') : w'.CameOf r outcome := by
  cases hdisturbed <;> exact h

theorem cameOf_sent (r : FetchRequest) : (w.send r).2.CameOf r (w.send r).1 :=
  ⟨w.journal.sent, [], rfl, rfl⟩

/-- The backend's answer to a request may be stored under its key. -/
private theorem StoresAnswers.offered (h : w.StoresAnswers) {s : ResponseStore} {r : FetchRequest}
    {outcome : Except TransportFailure Response} (hs : w.responses = some s)
    (hcame : w.CameOf r outcome) :
    StoresAnswers
      { w with responses := some (s.store w.clock.steady r (answerOf outcome)).2 } := by
  rintro _ key e ⟨⟩ he
  -- What stands in for a failure is an answer, but no status of it may be stored.
  cases outcome with
  | error failure =>
    rw [answerOf, ResponseStore.store_ofFailure] at he
    exact h s key e hs he
  | ok response =>
    rcases ResponseStore.get?_of_store he with hold | ⟨rfl, rfl⟩
    · exact h s key e hs hold
    · exact ⟨r, rfl, hcame⟩

/-- What a program may do leaves only the backend's answers in the store. -/
theorem StoresAnswers.replied {who : Nat} {c : Command} {reply : Reply c.Answer}
    {m : Option (FetchRequest × Except TransportFailure Response)} (h : w.StoresAnswers)
    (hm : ∀ r outcome, m = some (r, outcome) → w.CameOf r outcome)
    (hallowed : offerProtocol.allows m c) (hreply : Replied w who c reply w') :
    w'.StoresAnswers := by
  cases hreply with
  | @consulted r s s' found hs hlookup =>
    obtain ⟨rfl, rfl⟩ := Prod.mk.inj hlookup
    rintro _ key e ⟨⟩ he
    exact h s key e hs (ResponseStore.get?_of_lookup he)
  | @sent r =>
    intro s key e hs he
    obtain ⟨r', hkey, hcame⟩ := h s key e hs he
    have hsent : Replied w who (.send r) (.answer (w.send r).1) (w.send r).2 := .sent
    exact ⟨r', hkey, hcame.remains hsent⟩
  | @offered r response s s' stored hs hstored =>
    obtain ⟨outcome, hmode, rfl⟩ := hallowed
    obtain ⟨-, rfl⟩ := Prod.mk.inj hstored
    exact h.offered hs (hm r outcome hmode)
  | @offerTooLong r response s s' overflow hs hstored =>
    obtain ⟨outcome, hmode, rfl⟩ := hallowed
    obtain ⟨-, rfl⟩ := Prod.mk.inj hstored
    exact h.offered hs (hm r outcome hmode)
  | _ => exact h

/-- What a mode of the protocol says of the world: its request was sent, and its outcome came of
that. -/
def Recalls (w : World) (m : Option (FetchRequest × Except TransportFailure Response)) : Prop :=
  ∀ r outcome, m = some (r, outcome) → w.CameOf r outcome

theorem Recalls.next {who : Nat} {c : Command} {answer : c.Answer}
    {m : Option (FetchRequest × Except TransportFailure Response)} (h : w.Recalls m)
    (hreply : Replied w who c (.answer answer) w') :
    w'.Recalls (offerProtocol.next m c answer) := by
  have hremains : w'.Recalls m := fun r outcome heq => (h r outcome heq).remains hreply
  cases hreply with
  | @sent r =>
    rintro _ _ ⟨⟩
    exact cameOf_sent r
  | _ => exact hremains

end World

theorem offerProtocol_upholds : Upholds offerProtocol World.StoresAnswers World.Recalls where
  replied {w w' who c reply m} h hm hallowed hreply := by
    refine ⟨h.replied hm hallowed hreply, ?_⟩
    rintro answer rfl
    exact ⟨trivial, hm.next hreply⟩
  disturbed {w w'} h hdisturbed := by
    intro s key e hs he
    cases hdisturbed <;> exact h s key e hs he
  remains hm hreply := fun r outcome heq => (hm r outcome heq).remains hreply
  stays hm hdisturbed := fun r outcome heq => (hm r outcome heq).stays hdisturbed

/-- However the demands on a server are interleaved, its store holds the backend's answers only. -/
theorem World.StoresAnswers.run {w : World} (h : w.StoresAnswers) (demands : List Demand)
    (acts : List Act) :
    ((System.start w (demands.map Demand.program)).run acts).world.StoresAnswers := by
  have hstart : System.Kept offerProtocol World.StoresAnswers World.Recalls
      (System.start w (demands.map Demand.program)) := by
    refine .start h ?_
    intro p hp
    obtain ⟨d, -, rfl⟩ := List.mem_map.mp hp
    exact ⟨none, nofun, d.offersAnswers none⟩
  exact (hstart.run offerProtocol_upholds acts).world

namespace Fetch

/-- A fetch goes as it has to and ends in the answer that the listeners leave, unless the backend's
answer is to be stored for longer than the clock can tell, which aborts the fetch. And in every
interleaving of demands on a server whose store was empty, each stored answer is one that the
backend gave to a request of its key. -/
theorem fetch_exact (w : World) (r : FetchRequest) (context : FetchContext) (demands : List Demand)
    (acts : List Act) :
    ((∃ x, Conducted w r context x ∧
        (fetch r context).run w =
          (.finished x.result, w.exchanged x.middle (x.heardBefore ++ x.heardAfter))) ↔
      ¬ Overflows w r context) ∧
    (Overflows w r context → ((fetch r context).run w).1 = .overflowed) ∧
    ((∀ s, w.responses = some s → s.entries = .empty) →
      ((System.start w (demands.map Demand.program)).run acts).world.StoresAnswers) := by
  have hstored (hempty : ∀ s, w.responses = some s → s.entries = .empty) : w.StoresAnswers := by
    intro s key e hs he
    rw [hempty s hs] at he
    cases he
  rcases fetch_run w r context with ⟨hshort, hgoes⟩ | ⟨hlong, hrun⟩
  · exact ⟨⟨fun _ => hshort, fun _ => hgoes⟩, fun hlong => absurd hlong hshort,
      fun hempty => (hstored hempty).run demands acts⟩
  · refine ⟨⟨?_, fun hshort => absurd hlong hshort⟩, fun _ => hrun,
      fun hempty => (hstored hempty).run demands acts⟩
    rintro ⟨x, -, hgoes⟩
    rw [hgoes] at hrun
    cases hrun

def storedFor (maxAge : String) : World where
  responses := some { capacity := 10 }
  backend _ _ := .ok
    { status := 200
      headers := [("cache-control".toList, Utf8.encode ("max-age=" ++ maxAge).toList)] }

def someRequest : FetchRequest :=
  { url :=
      { scheme := "http".toList
        authority := some { host := some (.domain "mock.local".toList) }
        path := "/a".toList } }

theorem fetch_exact_minute :
    (∃ x, Conducted (storedFor "60") someRequest {} x ∧
      (fetch someRequest {}).run (storedFor "60") = (.finished x.result,
        (storedFor "60").exchanged x.middle (x.heardBefore ++ x.heardAfter))) ∧
    ((System.start (storedFor "60") ([.fetch someRequest {}].map Demand.program)).run
      (List.replicate 8 (.advance 0))).world.StoresAnswers := by
  have hfinished : ((fetch someRequest {}).run (storedFor "60")).1 ≠ .overflowed := by
    decide +kernel
  obtain ⟨hgoes, haborts, hstores⟩ := fetch_exact (storedFor "60") someRequest {}
    [.fetch someRequest {}] (List.replicate 8 (.advance 0))
  refine ⟨hgoes.mpr fun hlong => hfinished (haborts hlong), hstores ?_⟩
  rintro _ ⟨⟩
  rfl

/-- An answer may ask to be stored for longer than the clock can tell. -/
theorem fetch_aborted :
    ¬ ∀ (w : World) (r : FetchRequest) (context : FetchContext), ∃ x, Conducted w r context x ∧
      (fetch r context).run w =
        (.finished x.result, w.exchanged x.middle (x.heardBefore ++ x.heardAfter)) := by
  intro h
  obtain ⟨x, -, hrun⟩ := h (storedFor "18446744073709551615") someRequest {}
  have haborted : ((fetch someRequest {}).run (storedFor "18446744073709551615")).1 =
      .overflowed := by
    decide +kernel
  rw [hrun] at haborted
  cases haborted

end Fetch

end EdgeCompose
