import EdgeCompose.Proofs.LockDiscipline
import EdgeCompose.Proofs.Stores

/-!
Sites whose answers depend on nothing but the URL. What a program comes to when such a site is asked
for everything anew is the measure for what it comes to when the stores answer for the site
(`uncached`). The stores of a world are honest when all that is in them came from the site; the
commands of a render keep them so (`Honest.replied`), and so do all runs of renders.
-/

namespace EdgeCompose

open Program

theorem Renderer.nested_kept {r n : Renderer} {base : Url} (h : r.nested base = .ok n) :
    n.page.settings = r.page.settings ∧ r.levels = n.levels + 1 := by
  obtain ⟨p, levels⟩ := r
  cases levels with
  | zero => cases h
  | succ levels =>
    cases h
    exact ⟨rfl, rfl⟩

theorem Page.fragmentRequest_url (p : Page) (url : Url) : (p.fragmentRequest url).url = url := by
  unfold Page.fragmentRequest
  split <;> rfl

/-- What renders of one server share: limits, backends, and the answers behind them. -/
structure Site where
  settings : RenderSettings
  backends : Backends
  origin : Text → Except TransportFailure Response

namespace Site

/-- A failure to answer has an answer, too. -/
def response (s : Site) (url : Text) : Response :=
  match s.origin url with
  | .ok response => response
  | .error failure => .ofFailure failure

def backend (s : Site) : Backend := fun _ r => s.origin r.url.toText

def uncached (s : Site) : (c : Command) → c.Answer
  | .find _ => none
  | .announce _ e => e
  | .consult _ => none
  | .send r => s.origin r.url.toText
  | .register .. | .keep .. | .acquire _ | .release _ | .offer .. | .count _ => ()

/-- The renderers of a site, for any request and any base: those for pages, and those nested in
them. -/
inductive Has (s : Site) : Renderer → Prop
  | outer {p : Page} : p.settings = s.settings → p.backends = s.backends → Has s (.ofPage p)
  | nested {r n : Renderer} {base : Url} : Has s r → r.nested base = .ok n → Has s n

/-- A fetch of a URL of the key, as an include can name it, comes to the content. -/
def Serves (s : Site) (key : FragmentKey) (content : Text) : Prop :=
  ∃ (r : Renderer) (template : Text) (url final : Url), s.Has r ∧
    r.page.resolveTemplate template = .ok url ∧ Page.documentKey url = key ∧
    (r.page.fetchDocument url).answered s.uncached = .ok (final, content)

variable {s : Site} {fits : Nat → Prop}

theorem Has.settings {r : Renderer} (h : s.Has r) : r.page.settings = s.settings := by
  induction h with
  | outer hsettings _ => exact hsettings
  | nested _ hn ih => exact (Renderer.nested_kept hn).1.trans ih

/-! ## What programs do with honest answers -/

/-- Programs keep only what the site serves, for lifetimes that fit, and register nothing. What
they find and what is stored for them came from the site. -/
def honest (s : Site) (fits : Nat → Prop) : Protocol Unit where
  allows _
    | .keep key content lifetime => s.Serves key content ∧ ∀ l, lifetime = some l → fits l
    | .offer r response => response = s.response r.url.toText
    | .register .. => False
    | _ => True
  gives _
    | .find key, found => ∀ content, found = some content → s.Serves key content
    | .announce _ e, e' => e' = e
    | .consult r, found => ∀ response, found = some (.hit response) →
      response = s.response r.url.toText
    | .send r, answer => answer = s.origin r.url.toText
    | _, _ => True
  next _ _ _ := ()

/-- With honest answers the program comes to what it comes to where nothing is stored. -/
def Faithful {α : Type} (s : Site) (fits : Nat → Prop) (p : Program α) : Prop :=
  p.Obeys (s.honest fits) (fun _ a => a = p.answered s.uncached) ()

theorem Faithful.done {α : Type} (a : α) : s.Faithful fits (Program.done a) := rfl

theorem Faithful.bind {α β : Type} {p : Program α} {f : α → Program β} (hp : s.Faithful fits p)
    (hf : s.Faithful fits (f (p.answered s.uncached))) : s.Faithful fits (p.bind f) := by
  refine Obeys.bind hp ?_
  rintro _ a - rfl
  unfold Faithful at hf
  rwa [answered_bind]

theorem faithful_sequential : Sequential fun _ p => s.Faithful fits p where
  done := .done
  bind hp hf := hp.bind (hf _)

private theorem response_ok {url : Text} {response : Response} (h : s.origin url = .ok response) :
    response = s.response url := by
  simp only [Site.response, h]

private theorem response_error {url : Text} {failure : TransportFailure}
    (h : s.origin url = .error failure) : .ofFailure failure = s.response url := by
  simp only [Site.response, h]

theorem transmit_answered (r : FetchRequest) :
    (Fetch.transmit r).answered s.uncached = s.response r.url.toText := by
  unfold Fetch.transmit
  simp only [perform_eq_ask, bind_eq_bind, ask_bind, done_bind, pure_eq_done, answered, uncached]
  cases h : s.origin r.url.toText with
  | ok response => exact response_ok h
  | error failure => exact response_error h

theorem fetch_answered (r : FetchRequest) (context : FetchContext) :
    (Fetch.fetch r context).answered s.uncached = s.response r.url.toText :=
  transmit_answered r

theorem transmit_faithful (r : FetchRequest) : s.Faithful fits (Fetch.transmit r) := by
  refine ⟨trivial, fun answer hanswer => ?_⟩
  have horigin : answer = s.origin r.url.toText := hanswer
  rw [transmit_answered]
  cases answer with
  | ok response => exact ⟨trivial, fun _ _ => response_ok horigin.symm⟩
  | error failure => exact ⟨trivial, fun _ _ => response_error horigin.symm⟩

theorem answer_faithful (r : FetchRequest) : s.Faithful fits (Fetch.answer r) := by
  have hanswered : (Fetch.answer r).answered s.uncached = s.response r.url.toText :=
    transmit_answered r
  have hoffer : ((Fetch.transmit r).bind fun response =>
      (perform (.offer r response)).bind fun _ => .done response).Obeys (s.honest fits)
        (fun _ response => response = s.response r.url.toText) () := by
    refine Obeys.bind (transmit_faithful r) ?_
    rintro _ response - rfl
    exact ⟨transmit_answered r, fun _ _ => transmit_answered r⟩
  unfold Faithful
  rw [hanswered]
  refine ⟨trivial, fun found hfound => ?_⟩
  cases found with
  | none =>
    have htransmit : s.Faithful fits (Fetch.transmit r) := transmit_faithful r
    unfold Faithful at htransmit
    rwa [transmit_answered] at htransmit
  | some lookup =>
    refine ⟨trivial, fun _ _ => ?_⟩
    cases lookup with
    | hit response => exact hfound response rfl
    | miss => exact hoffer
    | bypass => exact hoffer

theorem fetch_faithful (r : FetchRequest) (context : FetchContext) :
    s.Faithful fits (Fetch.fetch r context) := by
  refine ⟨trivial, ?_⟩
  rintro _ rfl
  refine (answer_faithful r).bind ⟨trivial, ?_⟩
  rintro _ rfl
  rfl

theorem follow_faithful (p : Page) (left : Nat) (url : Url) :
    s.Faithful fits (p.follow left url) :=
  faithful_sequential.follow fetch_faithful p left url

theorem fetchDocument_faithful (p : Page) (url : Url) : s.Faithful fits (p.fetchDocument url) :=
  follow_faithful p _ url

/-- With honest answers a look-up of a document comes to what the site serves for its key at the
URL asked for, or else to what a fetch comes to. -/
theorem document_obeys {r : Renderer} (hr : s.Has r) {template : Text} {url : Url}
    (hurl : r.page.resolveTemplate template = .ok url) {lifetime : Option Nat}
    (hfits : ∀ l, (lifetime <|> s.settings.lifetime) = some l → fits l) :
    (r.page.document url lifetime).Obeys (s.honest fits) (fun _ found =>
      found = (r.page.fetchDocument url).answered s.uncached ∨
        ∃ content, s.Serves (Page.documentKey url) content ∧ found = .ok (url, content)) () := by
  rw [Page.document_eq]
  refine ⟨trivial, fun found hfound => ?_⟩
  cases found with
  | some content => exact ⟨trivial, fun _ _ => .inr ⟨content, hfound content rfl, rfl⟩⟩
  | none =>
    refine ⟨trivial, fun _ _ => ⟨trivial, fun _ _ => ⟨trivial, fun found hfound => ?_⟩⟩⟩
    cases found with
    | some content => exact ⟨trivial, fun _ _ => .inr ⟨content, hfound content rfl, rfl⟩⟩
    | none =>
      have hfetch : s.Faithful fits (r.page.fetchDocument url) := fetchDocument_faithful _ _
      unfold Faithful at hfetch
      refine hfetch.bind ?_
      rintro _ found - hfetched
      cases found with
      | error e => exact ⟨trivial, fun _ _ => .inl hfetched⟩
      | ok document =>
        obtain ⟨final, content⟩ := document
        have hserves : s.Serves (Page.documentKey url) content :=
          ⟨r, template, url, final, hr, hurl, rfl, hfetched.symm⟩
        have hlasts : ∀ l, (lifetime <|> r.page.settings.lifetime) = some l → fits l := by
          rw [hr.settings]
          exact hfits
        exact ⟨⟨hserves, hlasts⟩, fun _ _ => ⟨trivial, fun _ _ => .inl hfetched⟩⟩

/-! ## Honest stores -/

variable {w w' : World}

/-- All that is stored in a world came from the site, and nobody listens there. -/
structure Honest (s : Site) (w : World) : Prop where
  backend : w.backend = s.backend
  before : w.before = []
  after : w.after = []
  fragments : ∀ key e, w.fragments.get? key = some e → s.Serves key e.content
  responses : ∀ store, w.responses = some store →
    ∀ key e, store.entries.get? key = some e → e.response = s.response key.url

private theorem Honest.offered (h : s.Honest w) {store : ResponseStore} {now : Int}
    {r : FetchRequest} {response : Response} (hstore : w.responses = some store)
    (hresponse : response = s.response r.url.toText) :
    s.Honest { w with responses := some (store.store now r response).2 } := by
  refine { h with responses := ?_ }
  rintro _ ⟨⟩ key e he
  rcases ResponseStore.get?_of_store he with he | ⟨rfl, rfl⟩
  · exact h.responses store hstore key e he
  · exact hresponse

/-- What a site allows a program to do leaves the stores honest, and the answer is honest, too. -/
theorem Honest.replied {who : Nat} {c : Command} {r : Reply c.Answer} (h : s.Honest w)
    (hreply : World.Replied w who c r w') (hallowed : (s.honest fits).allows () c) :
    s.Honest w' ∧ ∀ answer, r = .answer answer → (s.honest fits).gives () c answer := by
  cases hreply with
  | @found k content fragments hfind =>
    obtain ⟨rfl, rfl⟩ := Prod.mk.inj hfind
    constructor
    · exact { h with fragments := fun key e he => h.fragments key e (FragmentStore.get?_of_find he) }
    · rintro _ ⟨⟩ content hcontent
      obtain ⟨e, he, rfl⟩ := FragmentStore.get?_of_content hcontent
      exact h.fragments k e he
  | registered => exact hallowed.elim
  | @kept k content lifetime expires hexpiry =>
    refine ⟨{ h with fragments := fun key e he => ?_ }, fun _ _ => trivial⟩
    rcases FragmentStore.get?_of_storeFetched he with he | ⟨rfl, rfl⟩
    · exact h.fragments key e he
    · exact hallowed.1
  | tooLong => exact ⟨h, fun _ _ => trivial⟩
  | granted => exact ⟨{ h with }, fun _ _ => trivial⟩
  | queued => exact ⟨{ h with }, fun _ _ => trivial⟩
  | released => exact ⟨{ h with }, fun _ _ => trivial⟩
  | @announced phase e e' heard hannounce =>
    have hnobody : w.listeners phase = [] := by
      cases phase with
      | before => exact h.before
      | after => exact h.after
    rw [hnobody] at hannounce
    obtain ⟨rfl, -⟩ := Prod.mk.inj hannounce
    refine ⟨{ h with }, ?_⟩
    rintro _ ⟨⟩
    rfl
  | unstored =>
    refine ⟨h, ?_⟩
    rintro _ ⟨⟩ response hresponse
    cases hresponse
  | @consulted r store store' found hstore hlookup =>
    obtain ⟨rfl, rfl⟩ := Prod.mk.inj hlookup
    constructor
    · refine { h with responses := ?_ }
      rintro _ ⟨⟩ key e he
      exact h.responses store hstore key e (ResponseStore.get?_of_lookup he)
    · rintro _ ⟨⟩ response hresponse
      obtain ⟨e, he, rfl⟩ := ResponseStore.get?_of_hit (Option.some.inj hresponse)
      exact h.responses store hstore r.key e he
  | sent =>
    refine ⟨{ h with }, ?_⟩
    rintro _ ⟨⟩
    exact congrFun (congrFun h.backend _) _
  | declined => exact ⟨h, fun _ _ => trivial⟩
  | @offered r response store store' stored hstore hstored =>
    obtain ⟨-, rfl⟩ := Prod.mk.inj hstored
    exact ⟨h.offered hstore hallowed, fun _ _ => trivial⟩
  | @offerTooLong r response store store' e hstore hstored =>
    obtain ⟨-, rfl⟩ := Prod.mk.inj hstored
    exact ⟨h.offered hstore hallowed, fun _ _ => trivial⟩
  | counted => exact ⟨{ h with }, fun _ _ => trivial⟩

def empty (s : Site) (clock : Clock) (capacity : Option Nat) : World where
  clock := clock
  responses := capacity.map fun capacity => { capacity }
  backend := s.backend

theorem empty_honest (clock : Clock) (capacity : Option Nat) :
    s.Honest (s.empty clock capacity) where
  backend := rfl
  before := rfl
  after := rfl
  fragments key e he := by cases he
  responses := by
    intro store hstore key e he
    obtain ⟨capacity, -, rfl⟩ := Option.map_eq_some_iff.mp hstore
    cases he

/-- The programs of a system keep to what the site allows, and its world is honest. -/
structure HonestSystem {α : Type} (s : Site) (fits : Nat → Prop) (system : System α) : Prop where
  world : s.Honest system.world
  programs : ∀ who rest, system.rest? who = some rest →
    rest.Obeys (s.honest fits) (fun _ _ => True) ()

namespace HonestSystem

variable {α : Type} {system : System α}

theorem start (h : s.Honest w) {programs : List (Program α)}
    (hp : ∀ p ∈ programs, p.Obeys (s.honest fits) (fun _ _ => True) ()) :
    s.HonestSystem fits (System.start w programs) where
  world := h
  programs := by
    intro who rest hrest
    rw [System.rest?_start] at hrest
    exact hp rest (List.mem_of_getElem? hrest)

private theorem giveUp (h : s.HonestSystem fits system) (who : Nat) :
    s.HonestSystem fits (system.giveUp who) where
  world := { h.world with }
  programs := by
    intro other rest hrest
    by_cases hne : other = who
    · subst hne
      rw [System.rest?_giveUp_self] at hrest
      cases hrest
    · rw [System.giveUp, System.rest?_put_ne hne] at hrest
      exact h.programs other rest hrest

theorem step (h : s.HonestSystem fits system) (act : Act) :
    s.HonestSystem fits (system.step act) := by
  have hstepped := System.stepped system act
  generalize system.step act = after at hstepped ⊢
  cases hstepped with
  | still => exact h
  | @answered who c next answer w hwho hreply =>
    have hobeys := h.programs who _ hwho
    have hreplied := h.world.replied (World.Replied.of_reply hreply) hobeys.1
    refine ⟨hreplied.1, ?_⟩
    intro other rest hrest
    by_cases hne : other = who
    · subst hne
      rw [System.rest?_put_self hwho] at hrest
      cases hrest
      exact hobeys.2 answer (hreplied.2 answer rfl)
    · rw [System.rest?_put_ne hne] at hrest
      exact h.programs other rest hrest
  | @waited who c next w hwho hreply =>
    have hobeys := h.programs who _ hwho
    exact ⟨(h.world.replied (World.Replied.of_reply hreply) hobeys.1).1, h.programs⟩
  | @overflowed who c next w hwho hreply =>
    have hobeys := h.programs who _ hwho
    have hreplied := h.world.replied (World.Replied.of_reply hreply) hobeys.1
    have hwaiting : s.HonestSystem fits { system with world := w } := ⟨hreplied.1, h.programs⟩
    exact hwaiting.giveUp who
  | gaveUp => exact h.giveUp _
  | passed => exact ⟨{ h.world with }, h.programs⟩
  | @invalidated key =>
    refine ⟨{ h.world with fragments := ?_ }, h.programs⟩
    intro k e he
    have herased : (system.world.fragments.erase key).get? k = some e := he
    rw [Table.get?_erase] at herased
    split at herased
    · cases herased
    · exact h.world.fragments k e herased

theorem run (h : s.HonestSystem fits system) (acts : List Act) :
    s.HonestSystem fits (system.run acts) :=
  System.run_induction (s.HonestSystem fits) (fun _ act h => h.step act) h acts

end HonestSystem

end Site

end EdgeCompose
