import EdgeCompose.Proofs.Logs
import EdgeCompose.Proofs.SingleFlight
import EdgeCompose.Proofs.Site

/-!
Where the entries of the fragment store come from. Only two commands of a render put an entry there:
one registers the body of an inline element that has come to its end, the other keeps what a fetch
has brought. What a render did up to such a command is known from its log, so that an entry can be
traced back to the element or to the responses that it was made of.
-/

namespace EdgeCompose

open Program

def Command.stores : Command → Bool
  | .register .. | .keep .. => true
  | _ => false

theorem Command.stores_of_isFetch {c : Command} (h : c.isFetch = true) : c.stores = false := by
  cases c with
  | register k content fetchable => cases h
  | keep k content lifetime => cases h
  | _ => rfl

theorem Program.FetchOnly.performs {α : Type} {p rest : Program α} {log : List Answered}
    (h : p.FetchOnly) (hperforms : Performs p log rest) :
    (∀ a ∈ log, a.command.isFetch = true) ∧ rest.FetchOnly := by
  induction hperforms with
  | nil => exact ⟨fun a ha => (List.not_mem_nil ha).elim, h⟩
  | cons answer _ ih =>
    obtain ⟨hlog, hrest⟩ := ih (h.2 answer trivial)
    refine ⟨fun a ha => ?_, hrest⟩
    rcases List.mem_cons.mp ha with rfl | ha
    · exact h.1
    · exact hlog a ha

/-- Nothing has been stored by the commands of the log, and the next command stores nothing. -/
def Program.Harmless {α : Type} (log : List Answered) (rest : Program α) : Prop :=
  (∀ a ∈ log, a.command.stores = false) ∧ ∀ c, rest.command? = some c → c.stores = false

namespace Program.Harmless

variable {α : Type} {log log' : List Answered} {rest : Program α}

theorem done (a : α) : Harmless [] (.done a) :=
  ⟨fun _ ha => (List.not_mem_nil ha).elim, fun _ hc => by cases hc⟩

theorem ask {c : Command} {next : c.Answer → Program α} (hc : c.stores = false) :
    Harmless [] (.ask c next) := by
  refine ⟨fun _ ha => (List.not_mem_nil ha).elim, fun c' hc' => ?_⟩
  obtain rfl : c = c' := Option.some.inj hc'
  exact hc

theorem append (h : Harmless log rest) (hlog : ∀ a ∈ log', a.command.stores = false) :
    Harmless (log' ++ log) rest :=
  ⟨fun a ha => (List.mem_append.mp ha).elim (hlog a) (h.1 a), h.2⟩

theorem cons (h : Harmless log rest) {a : Answered} (ha : a.command.stores = false) :
    Harmless (a :: log) rest :=
  h.append fun a' ha' => by rwa [List.mem_singleton.mp ha']

end Program.Harmless

/-! ## Documents -/

namespace Page

variable {p : Page}

/-- The responses to the requests for a document, each of which but the last redirects to the URL of
the next. -/
inductive Redirected (p : Page) : Nat → Url → List Answered → Url → Response → Prop
  | arrived {url : Url} {log : List Answered} {response : Response} :
    Performs (Fetch.fetch (p.fragmentRequest url) p.fragmentContext) log (.done response) →
    response.location? = none → Redirected p 0 url log url response
  | onwards {redirects : Nat} {url next final : Url} {log log' : List Answered}
    {response last : Response} {location : Text} :
    Performs (Fetch.fetch (p.fragmentRequest url) p.fragmentContext) log (.done response) →
    response.location? = some location → url.join location = .ok next →
    Redirected p redirects next log' final last →
    Redirected p (redirects + 1) url (log ++ log') final last

private theorem arrived_of_rest {response : Response} {url final : Url} {log : List Answered}
    {content : Text} {e : ComposeError}
    (h : Performs (if response.isSuccess then
        .done (.ok (url, response.bodyText) : Except ComposeError (Url × Text))
      else .done (.error e)) log (.done (.ok (final, content)))) :
    log = [] ∧ response.isSuccess = true ∧ url = final ∧ response.bodyText = content := by
  split at h
  · next hsuccess =>
    obtain ⟨hlog, heq⟩ := h.of_done
    cases heq
    exact ⟨hlog, hsuccess, rfl, rfl⟩
  · cases h.of_done.2

/-- A document that has been fetched is the body of the last response of a chain of redirects. -/
theorem redirected_of_follow {left : Nat} {url final : Url} {log : List Answered} {content : Text}
    (h : Performs (p.follow left url) log (.done (.ok (final, content)))) :
    ∃ redirects last, redirects ≤ left ∧ p.Redirected redirects url log final last ∧
      last.isSuccess = true ∧ last.bodyText = content := by
  induction left generalizing url log with
  | zero =>
    unfold follow at h
    obtain ⟨log₁, log₂, response, rfl, hfetch, hrest⟩ := Performs.done_of_bind h
    split at hrest
    · cases hrest.of_done.2
    · next hlocation =>
      obtain ⟨rfl, hsuccess, rfl, hbody⟩ := arrived_of_rest hrest
      rw [List.append_nil]
      exact ⟨0, response, Nat.le_refl _, .arrived hfetch hlocation, hsuccess, hbody⟩
  | succ left ih =>
    unfold follow at h
    obtain ⟨log₁, log₂, response, rfl, hfetch, hrest⟩ := Performs.done_of_bind h
    split at hrest
    · next location hlocation =>
      simp only at hrest
      split at hrest
      · cases hrest.of_done.2
      · next next hjoin =>
        obtain ⟨redirects, last, hle, hchain, hsuccess, hbody⟩ := ih hrest
        exact ⟨redirects + 1, last, Nat.succ_le_succ hle,
          .onwards hfetch hlocation hjoin hchain, hsuccess, hbody⟩
    · next hlocation =>
      obtain ⟨rfl, hsuccess, rfl, hbody⟩ := arrived_of_rest hrest
      rw [List.append_nil]
      exact ⟨0, response, Nat.zero_le _, .arrived hfetch hlocation, hsuccess, hbody⟩

/-- A program stores nothing but a document of a URL that it has fetched. -/
def StoresFetched (p : Page) (url : Url) (lifetime : Option Nat)
    (q : Program (Except ComposeError (Url × Text))) : Prop :=
  ∀ log rest, Performs q log rest → Harmless log rest ∨
    ∃ earlier own more final content, log = earlier ++ own ++ more ∧
      q.Enters earlier (p.fetchDocument url) ∧
      Performs (p.fetchDocument url) own (.done (.ok (final, content))) ∧
      Performs (p.settleFetch url lifetime (.ok (final, content))) more rest

variable {url : Url} {lifetime : Option Nat}

namespace StoresFetched

theorem done (a : Except ComposeError (Url × Text)) : p.StoresFetched url lifetime (.done a) := by
  intro log rest h
  obtain ⟨rfl, rfl⟩ := h.of_done
  exact .inl (.done a)

theorem ask {c : Command} {next : c.Answer → Program (Except ComposeError (Url × Text))}
    (hc : c.stores = false) (hnext : ∀ answer, p.StoresFetched url lifetime (next answer)) :
    p.StoresFetched url lifetime (.ask c next) := by
  intro log rest h
  cases h with
  | nil => exact .inl (.ask hc)
  | cons answer h =>
    rcases hnext answer _ _ h with
      hharmless | ⟨earlier, own, more, final, content, rfl, ⟨k, hk⟩, h⟩
    · exact .inl (hharmless.cons hc)
    · exact .inr ⟨_ :: earlier, own, more, final, content, rfl, ⟨k, .cons answer hk⟩, h⟩

theorem fetched : p.StoresFetched url lifetime
    ((p.fetchDocument url).bind (p.settleFetch url lifetime)) := by
  intro log rest h
  have honly := p.fetchDocument_fetchOnly url
  rcases h.of_bind with
    ⟨c, next, hfetch, rfl⟩ | ⟨log₁, log₂, found, rfl, hfetch, hsettle⟩
  · obtain ⟨hlog, hrest⟩ := honly.performs hfetch
    refine .inl ⟨fun a ha => Command.stores_of_isFetch (hlog a ha), ?_⟩
    exact (Harmless.ask (Command.stores_of_isFetch hrest.1)).2
  · cases found with
    | ok found =>
      exact .inr ⟨[], log₁, log₂, found.1, found.2, rfl, ⟨_, .nil _⟩, hfetch, hsettle⟩
    | error e =>
      obtain ⟨hlog, -⟩ := honly.performs hfetch
      have hfetched (a : Answered) (ha : a ∈ log₁) := Command.stores_of_isFetch (hlog a ha)
      have hreleased : Harmless log₂ rest := by
        cases hsettle with
        | nil => exact .ask rfl
        | cons answer h =>
          obtain ⟨rfl, rfl⟩ := h.of_done
          exact (Harmless.done _).cons rfl
      exact .inl (hreleased.append hfetched)

end StoresFetched

theorem document_storesFetched (p : Page) (url : Url) (lifetime : Option Nat) :
    p.StoresFetched url lifetime (p.document url lifetime) := by
  rw [document_eq]
  refine .ask rfl fun found => ?_
  cases found with
  | some content => exact .ask rfl fun _ => .done _
  | none =>
    refine .ask rfl fun _ => .ask rfl fun _ => .ask rfl fun found => ?_
    cases found with
    | some content => exact .ask rfl fun _ => .done _
    | none => exact .fetched

/-- What an include keeps is the document that it has just fetched. -/
theorem document_keeps {log : List Answered} {c : Command}
    {next : c.Answer → Program (Except ComposeError (Url × Text))}
    (h : Performs (p.document url lifetime) log (.ask c next)) (hc : c.stores = true) :
    ∃ earlier own final content, log = earlier ++ own ∧
      (p.document url lifetime).Enters earlier (p.fetchDocument url) ∧
      Performs (p.fetchDocument url) own (.done (.ok (final, content))) ∧
      c = .keep (documentKey url) content (lifetime <|> p.settings.lifetime) := by
  rcases document_storesFetched p url lifetime log _ h with
    hharmless | ⟨earlier, own, more, final, content, rfl, henters, hfetch, hsettle⟩
  · rw [hharmless.2 c rfl] at hc
    cases hc
  · cases hsettle with
    | nil => exact ⟨earlier, own, final, content, by rw [List.append_nil], henters, hfetch, rfl⟩
    | cons _ h =>
      cases h with
      | nil => cases hc
      | cons _ h => cases h.of_done.2

/-- An include whose document cannot be fetched stores nothing. -/
theorem document_failed {log : List Answered} {e : ComposeError}
    (h : Performs (p.document url lifetime) log (.done (.error e))) :
    ∀ a ∈ log, a.command.stores = false := by
  rcases document_storesFetched p url lifetime log _ h with
    hharmless | ⟨earlier, own, more, final, content, rfl, henters, hfetch, hsettle⟩
  · exact hharmless.1
  · cases hsettle with
    | cons _ h =>
      cases h with
      | cons _ h => cases h.of_done.2

/-! ## What elements ask for when they end -/

variable {inner : Composer} {c c₀ c₁ : Composition} {tag : Text} {e : Element}
  {log : List Answered}

/-- The tokens of a document come to ask for something when one of them ends an element. -/
theorem takeAll_asks {ts : List Markup.Token} {command : Command}
    {next : command.Answer → Program (Composition × Except ComposeError Unit)}
    (h : Performs (p.takeAll inner c ts) log (.ask command next)) :
    ∃ before tag after own log' c₀ e c₁ next', ts = before ++ .tag tag :: after ∧
      log = own ++ log' ∧ Performs (p.takeAll inner c before) own (.done (c₀, .ok ())) ∧
      p.ended? c₀ tag = some (e, c₁) ∧
      Performs (p.close inner c₁ e) log' (.ask command next') := by
  induction ts generalizing c log with
  | nil => cases h.of_done.2
  | cons t ts ih =>
    rcases h.ask_of_bind with
      ⟨next', htake⟩ | ⟨log₁, log₂, ⟨c', result⟩, rfl, htake, hrest⟩
    · cases t with
      | text t => cases htake.of_done.2
      | tag tag =>
        have hended := takeTag_ended p inner c tag
        cases hc : p.ended? c tag with
        | none =>
          rw [hc] at hended
          obtain ⟨found, hfound⟩ := hended
          rw [take, hfound] at htake
          cases htake.of_done.2
        | some found =>
          rw [take, takeTag_of_ended hc] at htake
          exact ⟨[], tag, ts, [], log, c, found.1, found.2, next', rfl, rfl, .nil _, hc, htake⟩
    · cases result with
      | error e => cases hrest.of_done.2
      | ok _ =>
        obtain ⟨before, tag, after, own, log', c₀, e, c₁, next', rfl, rfl, htakes, hended,
          hclose⟩ := ih hrest
        refine ⟨t :: before, tag, after, log₁ ++ own, log', c₀, e, c₁, next', rfl,
          (List.append_assoc ..).symm, ?_, hended, hclose⟩
        exact (htake.bind _).append htakes

/-- The end of an element is begun when the tokens before its tag have been taken. -/
theorem takeAll_enters {before after : List Markup.Token}
    (h : Performs (p.takeAll inner c before) log (.done (c₀, .ok ())))
    (hended : p.ended? c₀ tag = some (e, c₁)) :
    (p.takeAll inner c (before ++ .tag tag :: after)).Enters log (p.close inner c₁ e) := by
  have htag : (p.takeAll inner c₀ (.tag tag :: after)).Enters [] (p.close inner c₁ e) := by
    rw [takeAll, take, takeTag_of_ended hended]
    exact (Enters.refl _).bind _
  rw [takeAll_append, ← List.append_nil log]
  exact .second h htag

/-- An include asks for something on account of its source or of its alternate. -/
theorem included_asks {i : Inclusion} {command : Command}
    {next : command.Answer → Program (Except ComposeError Text)}
    (h : Performs (p.included inner i) log (.ask command next)) :
    ∃ template earlier own next', log = earlier ++ own ∧
      (p.included inner i).Enters earlier (p.content inner i template) ∧
      Performs (p.content inner i template) own (.ask command next') := by
  rcases h.ask_of_bind with ⟨next', hsource⟩ | ⟨log₁, log₂, result, rfl, hsource, hrest⟩
  · exact ⟨i.source, [], log, next', rfl, (Enters.refl _).bind _, hsource⟩
  · cases result with
    | ok t => cases hrest.of_done.2
    | error e =>
      cases halternate : i.alternate with
      | none =>
        simp only [halternate] at hrest
        cases hrest.of_done.2
      | some alternate =>
        simp only [halternate] at hrest
        rcases hrest.ask_of_bind with
          ⟨next', hsecond⟩ | ⟨log₃, log₄, result, rfl, -, hend⟩
        · refine ⟨alternate, log₁, log₂, next', rfl, ?_, hsecond⟩
          rw [← List.append_nil log₁]
          refine .second hsource ?_
          simp only [halternate]
          exact (Enters.refl _).bind _
        · cases result with
          | ok t => cases hend.of_done.2
          | error e' => cases hend.of_done.2

/-- A source asks for something on account of its document, or of what is composed of that. -/
theorem content_asks {i : Inclusion} {template : Text} {command : Command}
    {next : command.Answer → Program (Except ComposeError Text)}
    (h : Performs (p.content inner i template) log (.ask command next)) :
    ∃ url, (p.content inner i template).Enters [] (p.document url i.lifetime) ∧
      ((∃ next', Performs (p.document url i.lifetime) log (.ask command next')) ∨
        ∃ earlier own base text, log = earlier ++ own ∧
          (p.content inner i template).Enters earlier (inner base i.fragment text) ∧
          Performs (inner base i.fragment text) own (.ask command next)) := by
  unfold content at h ⊢
  cases hurl : p.resolveTemplate template with
  | error e =>
    simp only [hurl] at h
    cases h.of_done.2
  | ok url =>
    simp only [hurl] at h
    refine ⟨url, (Enters.refl _).bind _, ?_⟩
    rcases h.ask_of_bind with hdocument | ⟨earlier, own, result, rfl, hdocument, hrest⟩
    · exact .inl hdocument
    · cases result with
      | error e => cases hrest.of_done.2
      | ok found =>
        refine .inr ⟨earlier, own, found.1, found.2, rfl, ?_, hrest⟩
        rw [← List.append_nil earlier]
        exact .second hdocument (.refl _)

/-- The end of an element asks to register the body of an inline element, or it asks for something
on account of a source. -/
theorem close_asks {command : Command}
    {next : command.Answer → Program (Composition × Except ComposeError Unit)}
    (h : Performs (p.close inner c e) log (.ask command next)) :
    (∃ name fetchable body url, e = .inline name fetchable body ∧
        p.resolveTemplate name = .ok url ∧ log = [] ∧
        command = .register (documentKey url) body fetchable) ∨
      ∃ i template earlier own next', log = earlier ++ own ∧
        (p.close inner c e).Enters earlier (p.content inner i template) ∧
        Performs (p.content inner i template) own (.ask command next') := by
  cases e with
  | inclusion i =>
    rcases h.ask_of_bind with ⟨next', hincluded⟩ | ⟨log₁, log₂, result, -, -, hrest⟩
    · obtain ⟨template, earlier, own, next'', rfl, henters, hcontent⟩ :=
        included_asks hincluded
      exact .inr ⟨i, template, earlier, own, next'', rfl, henters.bind _, hcontent⟩
    · cases result with
      | ok t => cases hrest.of_done.2
      | error e =>
        simp only at hrest
        split at hrest
        · cases hrest.of_done.2
        · cases hrest.of_done.2
  | inline name fetchable body =>
    simp only [close] at h
    cases hurl : p.resolveTemplate name with
    | error e =>
      simp only [hurl] at h
      cases h.of_done.2
    | ok url =>
      simp only [hurl] at h
      cases h with
      | nil => exact .inl ⟨name, fetchable, body, url, rfl, hurl, rfl, rfl⟩
      | cons _ h => cases h.of_done.2
  | _ => cases h.of_done.2

end Page

/-! ## Renders -/

namespace Renderer

/-- The renderers that are at work in a render: its own, and those of the documents in it. -/
inductive Encloses (r : Renderer) : Renderer → Prop
  | refl : Encloses r r
  | nested {n m : Renderer} {base : Url} : Encloses r n → n.nested base = .ok m → Encloses r m

theorem Encloses.outer {r n m : Renderer} {base : Url} (hn : r.nested base = .ok n)
    (h : n.Encloses m) : r.Encloses m := by
  induction h with
  | refl => exact .nested .refl hn
  | nested _ hm ih => exact .nested ih hm

theorem Encloses.settings {r n : Renderer} (h : r.Encloses n) :
    n.page.settings = r.page.settings := by
  induction h with
  | refl => rfl
  | nested _ hm ih => exact (nested_kept hm).1.trans ih

/-- With the answers of the log, a program comes to the end of an element in a document that a
renderer composes. -/
inductive Closes {α : Type} (n : Renderer) (p : Program α) (log : List Answered)
    (e : Element) : Prop
  | intro {wanted : Option Text} {document tag : Text} {earlier own : List Answered}
    {before after : List Markup.Token} {c c' : Composition} : log = earlier ++ own →
    p.Enters earlier (n.page.compose n.levels wanted document) →
    Markup.scan document = before ++ .tag tag :: after →
    Performs (n.page.takeAll n.inner (.ofWanted wanted) before) own (.done (c, .ok ())) →
    n.page.ended? c tag = some (e, c') → Closes n p log e

/-- What a render asks for it asks for on account of an inline element that ends, or of the document
of an include. -/
inductive Asks {α : Type} (r : Renderer) (p : Program α) (log : List Answered)
    (command : Command) : Prop
  | registers {n : Renderer} {name body : Text} {fetchable : Bool} {url : Url} : r.Encloses n →
    n.Closes p log (.inline name fetchable body) → n.page.resolveTemplate name = .ok url →
    command = .register (Page.documentKey url) body fetchable → Asks r p log command
  | includes {n : Renderer} {url : Url} {lifetime : Option Nat} {earlier own : List Answered}
    {next : command.Answer → Program (Except ComposeError (Url × Text))} : r.Encloses n →
    log = earlier ++ own → p.Enters earlier (n.page.document url lifetime) →
    Performs (n.page.document url lifetime) own (.ask command next) → Asks r p log command

variable {α : Type} {r n : Renderer} {p : Program α} {earlier own : List Answered}

theorem Closes.entered {β : Type} {q : Program β} {e : Element} (h : n.Closes q own e)
    (henters : p.Enters earlier q) : n.Closes p (earlier ++ own) e := by
  obtain ⟨rfl, hcompose, hscan, htakes, hended⟩ := h
  exact .intro (List.append_assoc ..).symm (henters.trans hcompose) hscan htakes hended

theorem Asks.entered {β : Type} {q : Program β} {command : Command} {base : Url}
    (h : n.Asks q own command) (hn : r.nested base = .ok n) (henters : p.Enters earlier q) :
    r.Asks p (earlier ++ own) command := by
  cases h with
  | registers hencloses hcloses hurl hcommand =>
    exact .registers (.outer hn hencloses) (hcloses.entered henters) hurl hcommand
  | includes hencloses hlog hdocument hown =>
    subst hlog
    exact .includes (.outer hn hencloses) (List.append_assoc ..).symm (henters.trans hdocument) hown

/-- A render asks for what its elements ask for, if the renders of the documents in it do. -/
private theorem asks_of_inner {wanted : Option Text} {document : Text} {log : List Answered}
    {command : Command} {next : command.Answer → Program (Except ComposeError Text)}
    (hinner : ∀ (base : Url) (wanted : Option Text) (text : Text) (log : List Answered)
      (next : command.Answer → Program (Except ComposeError Text)),
      Performs (r.inner base wanted text) log (.ask command next) →
      ∃ n, r.nested base = .ok n ∧ n.Asks (r.inner base wanted text) log command)
    (h : Performs (r.page.compose r.levels wanted document) log (.ask command next)) :
    r.Asks (r.page.compose r.levels wanted document) log command := by
  rw [compose_eq] at h
  rcases h.ask_of_bind with ⟨_, htakes⟩ | ⟨_, _, ⟨c, result⟩, -, -, hrest⟩
  · obtain ⟨before, tag, after, log₁, log₂, c₀, e, c₁, _, hscan, rfl, hbefore, hended,
      hclose⟩ := Page.takeAll_asks htakes
    have henters : (r.page.compose r.levels wanted document).Enters log₁
        (r.page.close r.inner c₁ e) := by
      rw [compose_eq, Page.composeWith, hscan]
      exact (Page.takeAll_enters hbefore hended).bind _
    rcases Page.close_asks hclose with ⟨name, fetchable, body, url, rfl, hurl, rfl, hcommand⟩ |
      ⟨i, template, log₃, log₄, _, rfl, hcontent, hasks⟩
    · refine .registers .refl (.intro ?_ (.refl _) hscan hbefore hended) hurl hcommand
      rw [List.append_nil, List.nil_append]
    · obtain ⟨url, hdocument, hown⟩ := Page.content_asks hasks
      rcases hown with ⟨_, hown⟩ | ⟨log₅, log₆, base, text, rfl, hbase, hown⟩
      · refine .includes .refl ?_ (henters.trans (hcontent.trans hdocument)) hown
        rw [List.append_nil, List.append_assoc]
      · obtain ⟨n, hn, hasks⟩ := hinner base _ text _ _ hown
        have hentered := hasks.entered hn (henters.trans (hcontent.trans hbase))
        rwa [List.append_assoc, List.append_assoc] at hentered
  · cases result with
    | error e => cases hrest.of_done.2
    | ok _ => cases hrest.of_done.2

/-- Whatever a render asks for, it asks for on account of an element of a document in it. -/
theorem asks (r : Renderer) {wanted : Option Text} {document : Text} {log : List Answered}
    {command : Command} {next : command.Answer → Program (Except ComposeError Text)}
    (h : Performs (r.page.compose r.levels wanted document) log (.ask command next)) :
    r.Asks (r.page.compose r.levels wanted document) log command := by
  obtain ⟨p, levels⟩ := r
  induction levels generalizing p wanted document log next with
  | zero =>
    refine asks_of_inner (fun base wanted text log next hnone => ?_) h
    cases hnone.of_done.2
  | succ levels ih =>
    refine asks_of_inner (fun base wanted text log next hnested => ?_) h
    exact ⟨_, rfl, ih _ hnested⟩

end Renderer

/-! ## Entries -/

def Command.Puts (key : FragmentKey) (e : FragmentEntry) : Command → Prop
  | .register k content fetchable => k = key ∧ e = { content, fetchable }
  | .keep k content _ => k = key ∧ e.content = content ∧ e.fetchable = true
  | _ => False

theorem Command.Puts.stores {key : FragmentKey} {e : FragmentEntry} {c : Command}
    (h : c.Puts key e) : c.stores = true := by
  cases c with
  | register k content fetchable => rfl
  | keep k content lifetime => rfl
  | _ => exact h.elim

/-- An entry that is there after a command was there before, or the command has put it there. -/
theorem World.Replied.entry {w w' : World} {who : Nat} {c : Command} {r : Reply c.Answer}
    {key : FragmentKey} {e : FragmentEntry} (h : w.Replied who c r w')
    (hentry : w'.fragments.get? key = some e) :
    w.fragments.get? key = some e ∨ c.Puts key e ∧ ∃ answer, r = .answer answer := by
  cases h with
  | @found k _ fragments hfind =>
    obtain rfl : (FragmentStore.find w.fragments w.clock.calendar k).2 = fragments :=
      congrArg Prod.snd hfind
    exact .inl (FragmentStore.get?_of_find hentry)
  | registered =>
    have hput := hentry
    simp only [World.register, FragmentStore.put, Table.get?_insert] at hput
    split at hput
    · next hkey =>
      cases hput
      exact .inr ⟨⟨hkey.symm, rfl⟩, _, rfl⟩
    · exact .inl hput
  | @kept k content _ expires _ =>
    rcases FragmentStore.storeFetched_cases w.fragments w.clock.calendar k content expires with
      ⟨-, hkept⟩ | ⟨-, hstored⟩
    · simp only [hkept] at hentry
      exact .inl hentry
    · simp only [hstored, Table.get?_insert] at hentry
      split at hentry
      · next hkey =>
        cases hentry
        exact .inr ⟨⟨hkey.symm, rfl, rfl⟩, _, rfl⟩
      · exact .inl hentry
  | _ => exact .inl hentry

namespace System

variable {α : Type} {s : System α} {key : FragmentKey} {e : FragmentEntry}

/-- An entry that is there after an act was there before, or it was put there by a command. -/
theorem entry_step {act : Act} (h : (s.step act).world.fragments.get? key = some e) :
    s.world.fragments.get? key = some e ∨
      ∃ who c next answer, act = .advance who ∧ s.rest? who = some (.ask c next) ∧ c.Puts key e ∧
        s.nextAnswered who = [⟨c, answer⟩] := by
  have hstepped := stepped s act
  generalize s.step act = s' at hstepped h
  cases hstepped with
  | @answered who c next answer w hrest hreply =>
    refine ((World.Replied.of_reply hreply).entry h).imp_right fun hput => ?_
    exact ⟨who, c, next, answer, rfl, hrest, hput.1, nextAnswered_of_reply hrest hreply⟩
  | waited _ hreply =>
    refine .inl (((World.Replied.of_reply hreply).entry h).resolve_right ?_)
    rintro ⟨-, _, hanswer⟩
    cases hanswer
  | overflowed _ hreply =>
    refine .inl (((World.Replied.of_reply hreply).entry h).resolve_right ?_)
    rintro ⟨-, _, hanswer⟩
    cases hanswer
  | @invalidated k =>
    have herased : (s.world.fragments.erase k).get? key = some e := h
    rw [Table.get?_erase] at herased
    split at herased
    · cases herased
    · exact .inl herased
  | _ => exact .inl h

/-- An entry that is there after a run was there before, or it was put there by a command in the
run. -/
theorem entry_run {acts : List Act} (h : (s.run acts).world.fragments.get? key = some e) :
    s.world.fragments.get? key = some e ∨
      ∃ before who after c next, acts = before ++ .advance who :: after ∧
        (s.run before).rest? who = some (.ask c next) ∧ c.Puts key e := by
  induction acts generalizing s with
  | nil => exact .inl h
  | cons act acts ih =>
    rcases ih h with hfirst | ⟨before, who, after, c, next, rfl, hrest, hputs⟩
    · rcases entry_step hfirst with hold | ⟨who, c, next, -, rfl, hrest, hputs, -⟩
      · exact .inl hold
      · exact .inr ⟨[], who, acts, c, next, rfl, hrest, hputs⟩
    · exact .inr ⟨act :: before, who, after, c, next, rfl, hrest, hputs⟩

/-- The acts of a program put no entries into the store if its log says so. -/
theorem entry_of_log {first last : List Act} {who : Nat}
    (hlog : ∀ a ∈ s.log who (first ++ .advance who :: last), a.command.stores = false)
    (h : ((s.run first).step (.advance who)).world.fragments.get? key = some e) :
    (s.run first).world.fragments.get? key = some e := by
  refine (entry_step h).resolve_right ?_
  rintro ⟨who, c, next, answer, ⟨⟩, -, hputs, hanswered⟩
  have hmem : ⟨c, answer⟩ ∈ s.log who (first ++ .advance who :: last) := by
    rw [log_append]
    refine List.mem_append_right _ (List.mem_append_left _ ?_)
    simp [answered, hanswered]
  have hharmless : c.stores = false := hlog _ hmem
  cases hharmless.symm.trans hputs.stores

end System

namespace Job

/-- A render has come to the end of an inline element whose name stands for the URL of the key, and
the entry is the body of that. -/
def Inlined (j : Job) (log : List Answered) (key : FragmentKey) (e : FragmentEntry) : Prop :=
  ∃ n name url, j.renderer.Encloses n ∧
    n.Closes j.program log (.inline name e.fetchable e.content) ∧
    n.page.resolveTemplate name = .ok url ∧ key = Page.documentKey url ∧ e.expires = none

/-- A render has fetched the document of the URL of the key, and the entry is the body of the last
response of that. -/
def Fetched (j : Job) (log : List Answered) (key : FragmentKey) (e : FragmentEntry) : Prop :=
  ∃ n url earlier own redirects final last, j.renderer.Encloses n ∧ log = earlier ++ own ∧
    j.program.Enters earlier (n.page.fetchDocument url) ∧
    n.page.Redirected redirects url own final last ∧
    redirects ≤ j.renderer.page.settings.maxRedirects ∧ last.isSuccess = true ∧
    e.content = last.bodyText ∧ key = Page.documentKey url ∧ e.fetchable = true

/-- What a render puts into the store is the body of an inline element or of a response. -/
theorem puts_cases {j : Job} {log : List Answered} {c : Command}
    {next : c.Answer → Program (Except ComposeError Text)} {key : FragmentKey} {e : FragmentEntry}
    (h : Performs j.program log (.ask c next)) (hputs : c.Puts key e) :
    j.Inlined log key e ∨ j.Fetched log key e := by
  cases j.renderer.asks h with
  | @registers n name body fetchable url hencloses hcloses hurl hcommand =>
    subst hcommand
    obtain ⟨rfl, rfl⟩ := hputs
    exact .inl ⟨n, name, url, hencloses, hcloses, hurl, rfl, rfl⟩
  | @includes n url lifetime earlier own _ hencloses hlog henters hown =>
    obtain ⟨earlier', own', final, content, rfl, hfetch, hfetched, rfl⟩ :=
      Page.document_keeps hown hputs.stores
    obtain ⟨rfl, rfl, hfetchable⟩ := hputs
    obtain ⟨redirects, last, hle, hchain, hsuccess, hbody⟩ := Page.redirected_of_follow hfetched
    rw [hencloses.settings] at hle
    refine .inr ⟨n, url, earlier ++ earlier', own', redirects, final, last, hencloses, ?_,
      henters.trans hfetch, hchain, hle, hsuccess, hbody.symm, rfl, hfetchable⟩
    rw [hlog, List.append_assoc]

end Job

namespace System

/-- The acts are those in which an attempt of a program to get a document fails, from its beginning
to its end. -/
def FailsIn {α : Type} (s : System α) (who : Nat) (attempt : List Act) : Prop :=
  ∃ (p : Page) (url : Url) (lifetime : Option Nat)
    (k : Except ComposeError (Url × Text) → Program α) (error : ComposeError),
    s.rest? who = some ((p.document url lifetime).bind k) ∧
      Performs (p.document url lifetime) (s.log who attempt) (.done (.error error))

/-- One of the acts is the step of a render that has put the entry into the store, and that entry is
what the render's log up to there says. -/
def TracedIn (s : System (Except ComposeError Text)) (jobs : List Job) (acts : List Act)
    (key : FragmentKey) (e : FragmentEntry) : Prop :=
  ∃ before who after j, acts = before ++ .advance who :: after ∧ jobs[who]? = some j ∧
    (j.Inlined (s.log who before) key e ∨ j.Fetched (s.log who before) key e)

/-- Every entry of the store is that of a whole document, and it is the body of an inline element
that a render has come to the end of, or of the last response to a fetch. And an attempt to get a
document that fails puts nothing into the store. -/
theorem entries_traced (w : World) (jobs : List Job) (acts : List Act) :
    let s := start { w with fragments := .empty } (jobs.map Job.program)
    (∀ key e, (s.run acts).world.fragments.get? key = some e →
      key.name = none ∧ s.TracedIn jobs acts key e) ∧
    ∀ who first last, (s.run acts).FailsIn who (first ++ .advance who :: last) →
      ∀ key e, (s.run (acts ++ first ++ [.advance who])).world.fragments.get? key = some e →
        (s.run (acts ++ first)).world.fragments.get? key = some e := by
  intro s
  constructor
  · intro key e hentry
    rcases entry_run hentry with hold | ⟨before, who, after, c, next, rfl, hrest, hputs⟩
    · cases hold
    · obtain ⟨p, hp, hperforms⟩ := performs_log hrest
      rw [rest?_start, List.getElem?_map, Option.map_eq_some_iff] at hp
      obtain ⟨j, hj, rfl⟩ := hp
      have hcases := Job.puts_cases hperforms hputs
      refine ⟨?_, before, who, after, j, rfl, hj, hcases⟩
      rcases hcases with ⟨n, name, url, -, -, -, rfl, -⟩ |
        ⟨n, url, earlier, own, redirects, final, last, -, -, -, -, -, -, -, rfl, -⟩
      · rfl
      · rfl
  · rintro who first last ⟨p, url, lifetime, k, error, -, hfailed⟩ key e hentry
    rw [run_append, run_append] at hentry
    rw [run_append]
    exact entry_of_log (Page.document_failed hfailed) hentry

/-! ## A page with a document of its own, and one with a document that is missing -/

def twinPage (document : String) : Job where
  renderer := .ofPage { settings := {}, backends := {}, request := {} }
  document := document.toList

def ownPage : Job :=
  twinPage ("<esi:inline name='http://host/own'>own</esi:inline>" ++
    "<esi:include src='http://host/part'/>")

def missingPage : Job := twinPage "<esi:include src='http://host/none'/>"

def twinUrlOf (path : String) : Url := { twinUrl with path := path.toList }

def ownStart : System (Except ComposeError Text) :=
  start { twinWorld with fragments := .empty } ([ownPage].map Job.program)

def missingStart : System (Except ComposeError Text) :=
  start { twinWorld with fragments := .empty } ([missingPage].map Job.program)

private theorem missingPage_fails : missingStart.FailsIn 0 (List.replicate 10 (.advance 0)) := by
  have hscan : Markup.scan missingPage.document = [.tag missingPage.document] := by decide +kernel
  have hlookup : Markup.lookup? missingPage.document = some (.starts .inclusion) := by
    decide +kernel
  have htag : Inclusion.ofTag missingPage.document =
      .ok { source := (twinUrlOf "/none").toText } := by decide +kernel
  have hself : Markup.isSelfClosing missingPage.document = true := by decide +kernel
  have hurl : missingPage.renderer.page.resolveTemplate (twinUrlOf "/none").toText =
      .ok (twinUrlOf "/none") := by decide +kernel
  obtain ⟨k, hk⟩ := program_of_include missingPage.renderer hscan hlookup htag hself hurl
  have hreplay : (missingPage.renderer.page.document (twinUrlOf "/none") none).replay?
      (missingStart.log 0 (List.replicate 10 (.advance 0))) =
      some (.error (.fragmentUnavailable (twinUrlOf "/none").toText 404 "not found".toList)) := by
    decide +kernel
  refine ⟨_, _, none, k, _, ?_, performs_of_replay? hreplay⟩
  unfold missingStart
  rw [rest?_start]
  exact congrArg some hk

def ownActs : List Act := List.replicate 12 (.advance 0)

/-- Both documents of the one page are traced, and the missing document of the other leaves the
store as it was. -/
theorem entries_traced_pages :
    ownStart.TracedIn [ownPage] ownActs (Page.documentKey (twinUrlOf "/own"))
        { content := "own".toList } ∧
      ownStart.TracedIn [ownPage] ownActs (Page.documentKey (twinUrlOf "/part"))
        { content := "part".toList } ∧
      missingStart.FailsIn 0 (List.replicate 10 (.advance 0)) ∧
      ∀ key e, (missingStart.run (List.replicate 10 (.advance 0))).world.fragments.get? key =
          some e →
        (missingStart.run (List.replicate 9 (.advance 0))).world.fragments.get? key = some e := by
  have hown : (ownStart.run ownActs).world.fragments.get? (Page.documentKey (twinUrlOf "/own")) =
      some { content := "own".toList } := by decide +kernel
  have hpart : (ownStart.run ownActs).world.fragments.get? (Page.documentKey (twinUrlOf "/part")) =
      some { content := "part".toList } := by decide +kernel
  have htraced := (entries_traced twinWorld [ownPage] ownActs).1
  refine ⟨(htraced _ _ hown).2, (htraced _ _ hpart).2, missingPage_fails, ?_⟩
  exact (entries_traced twinWorld [missingPage] []).2 0 (List.replicate 9 (.advance 0)) []
    missingPage_fails

end System

end EdgeCompose
