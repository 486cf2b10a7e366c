import EdgeCompose.Proofs.Logs
import EdgeCompose.Proofs.SoloRuns

/-!
What a fetch that follows redirects comes to. Its log is made of whole fetches, each of the URL that
the answer to the one before redirects to (`Page.Hops`), and of one more, whose answer decides what
becomes of the document (`Page.Verdict`). There is no other way for it to end, and it does end
(`Page.fetchDocument_chain`).
-/

namespace EdgeCompose

open Program

/-! ## Redirects -/

namespace Response

structure RedirectsTo (response : Response) (location : Text) : Prop where
  status : 300 ≤ response.status ∧ response.status < 400
  target : (response.headers.get? locationName).bind Headers.valueText? = some location

theorem location?_eq_some_iff {response : Response} {location : Text} :
    response.location? = some location ↔ response.RedirectsTo location := by
  have hstatus : response.status.isRedirection = true ↔
      300 ≤ response.status ∧ response.status < 400 := by
    simp [Status.isRedirection]
  unfold location?
  split
  · next h => exact ⟨fun htarget => ⟨hstatus.1 h, htarget⟩, fun h => h.target⟩
  · next h => exact ⟨nofun, fun hredirects => absurd (hstatus.2 hredirects.status) h⟩

theorem location?_eq_none_iff {response : Response} :
    response.location? = none ↔ ∀ location, ¬ response.RedirectsTo location := by
  simp only [← location?_eq_some_iff, Option.eq_none_iff_forall_ne_some, ne_eq]

theorem isSuccess_iff {response : Response} :
    response.isSuccess = true ↔ 200 ≤ response.status ∧ response.status < 300 := by
  simp [isSuccess, Status.isSuccess]

end Response

/-! ## The fetches of a log -/

/-- The fetch that begins with a command, as it is announced to the listeners. -/
def Command.begins? : Command → Option FetchEvent
  | .announce .before e => some e
  | _ => none

/-- The fetches that are begun in a log, in order. -/
def Answered.begun (log : List Answered) : List FetchEvent :=
  log.filterMap fun answered => answered.command.begins?

namespace Answered

@[simp] theorem begun_nil : begun [] = [] := rfl

@[simp] theorem begun_append (log log' : List Answered) :
    begun (log ++ log') = begun log ++ begun log' :=
  List.filterMap_append

end Answered

namespace Program

variable {α β : Type}

def BeginsNone (p : Program α) : Prop :=
  ∀ log a, Performs p log (.done a) → Answered.begun log = []

theorem beginsNone_perform {c : Command} (hc : c.begins? = none) : (perform c).BeginsNone := by
  intro log a h
  cases h with
  | cons answer h =>
    obtain ⟨rfl, -⟩ := h.of_done
    simp [Answered.begun, hc]

theorem beginsNone_sequential : Sequential fun _ p => p.BeginsNone where
  done a log b h := by
    obtain ⟨rfl, -⟩ := h.of_done
    rfl
  bind hp hf log b h := by
    obtain ⟨log₁, log₂, a, rfl, hfirst, hsecond⟩ := h.done_of_bind
    rw [Answered.begun_append, hp _ _ hfirst, hf _ _ _ hsecond, List.append_nil]

end Program

namespace Fetch

theorem transmit_beginsNone (r : FetchRequest) : (transmit r).BeginsNone :=
  beginsNone_sequential.bind (beginsNone_perform rfl) fun _ =>
    beginsNone_sequential.bind (beginsNone_perform rfl) fun _ => beginsNone_sequential.done _

theorem answer_beginsNone (r : FetchRequest) : (answer r).BeginsNone := by
  refine beginsNone_sequential.bind (beginsNone_perform rfl) fun found => ?_
  cases found with
  | none => exact transmit_beginsNone r
  | some lookup =>
    refine beginsNone_sequential.bind (beginsNone_perform rfl) fun _ => ?_
    split
    · exact beginsNone_sequential.done _
    · exact beginsNone_sequential.bind (transmit_beginsNone r) fun _ =>
        beginsNone_sequential.bind (beginsNone_perform rfl) fun _ => beginsNone_sequential.done _

/-- A fetch is announced once, as what was asked for. -/
theorem begun_fetch {r : FetchRequest} {context : FetchContext} {log : List Answered}
    {response : Response} (h : Performs (fetch r context) log (.done response)) :
    Answered.begun log = [{ request := r, context }] := by
  obtain ⟨log₁, log₂, e, rfl, hbefore, hrest⟩ := Performs.done_of_bind h
  have hafter (e : FetchEvent) (response : Response) : (perform (.announce .after
      { e with response := some response }) >>= fun e =>
        pure (e.response.getD .abandoned)).BeginsNone :=
    beginsNone_sequential.bind (beginsNone_perform rfl) fun _ => beginsNone_sequential.done _
  have hnone : Answered.begun log₂ = [] := by
    dsimp only at hrest
    split at hrest
    · exact hafter _ _ _ _ hrest
    · exact beginsNone_sequential.bind (answer_beginsNone _) (hafter _) _ _ hrest
  cases hbefore with
  | cons answer hdone =>
    obtain ⟨rfl, -⟩ := hdone.of_done
    rw [Answered.begun_append, hnone]
    rfl

end Fetch

/-! ## Chains of redirects -/

namespace Page

variable {p : Page}

def fetchPart (p : Page) (url : Url) : Program Response :=
  Fetch.fetch (p.fragmentRequest url) p.fragmentContext

/-- The URLs are fetched one after the other, and each is redirected to the next one, the last of
them to `last`. -/
inductive Hops (p : Page) : List Url → Url → List Answered → Url → Prop
  | here (url : Url) : Hops p [] url [] url
  | onwards {urls : List Url} {url next last : Url} {log log' : List Answered}
    {response : Response} {location : Text} : Performs (p.fetchPart url) log (.done response) →
    response.RedirectsTo location → url.join location = .ok next → Hops p urls next log' last →
    Hops p (url :: urls) url (log ++ log') last

/-- What becomes of a document when the fetch after so many redirects is answered. -/
inductive Verdict (p : Page) (redirects : Nat) (last : Url) (response : Response) :
    Except ComposeError (Url × Text) → Prop
  | arrived : (∀ location, ¬ response.RedirectsTo location) →
    200 ≤ response.status ∧ response.status < 300 →
    Verdict p redirects last response (.ok (last, response.bodyText))
  | unavailable : (∀ location, ¬ response.RedirectsTo location) →
    ¬ (200 ≤ response.status ∧ response.status < 300) →
    Verdict p redirects last response
      (.error (.fragmentUnavailable last.toText response.status response.bodyText))
  | unjoinable {location : Text} {e : UrlError} : response.RedirectsTo location →
    redirects < p.settings.maxRedirects → last.join location = .error e →
    Verdict p redirects last response (.error (.invalidUrl location e.message))
  | tooMany {location : Text} : response.RedirectsTo location →
    redirects = p.settings.maxRedirects →
    Verdict p redirects last response
      (.error (.tooManyRedirects last.toText p.settings.maxRedirects))

/-- A request for a part of the page differs from others in its URL only. -/
theorem fragmentRequest_eq_with (p : Page) (url url' : Url) :
    p.fragmentRequest url' = { p.fragmentRequest url with url := url' } := by
  unfold fragmentRequest
  cases p.request.requestId? with
  | none => rfl
  | some id => rfl

/-- The fetches of a chain are those of its URLs. -/
theorem Hops.begun {urls : List Url} {url last : Url} {log : List Answered}
    (h : p.Hops urls url log last) : Answered.begun log =
      urls.map fun u => { request := p.fragmentRequest u, context := p.fragmentContext } := by
  induction h with
  | here url => rfl
  | onwards hfetch _ _ _ ih =>
    rw [Answered.begun_append, Fetch.begun_fetch hfetch, ih]
    rfl

/-- A document of which so many redirects have been followed already comes by its verdict: after a
chain of more redirects and one more fetch. -/
def Settles (p : Page) (redirects : Nat) (url : Url) (log : List Answered)
    (result : Except ComposeError (Url × Text)) : Prop :=
  ∃ urls last log₁ log₂ response, redirects + urls.length ≤ p.settings.maxRedirects ∧
    log = log₁ ++ log₂ ∧ p.Hops urls url log₁ last ∧
    Performs (p.fetchPart last) log₂ (.done response) ∧
    p.Verdict (redirects + urls.length) last response result

variable {redirects left : Nat} {url next : Url} {log log' : List Answered} {response : Response}
  {location : Text} {result : Except ComposeError (Url × Text)}

theorem Settles.here (hle : redirects ≤ p.settings.maxRedirects)
    (hfetch : Performs (p.fetchPart url) log (.done response))
    (h : p.Verdict redirects url response result) : p.Settles redirects url log result :=
  ⟨[], url, [], log, response, hle, rfl, .here url, hfetch, h⟩

theorem Settles.onwards (hfetch : Performs (p.fetchPart url) log (.done response))
    (hredirects : response.RedirectsTo location) (hjoin : url.join location = .ok next)
    (h : p.Settles (redirects + 1) next log' result) :
    p.Settles redirects url (log ++ log') result := by
  obtain ⟨urls, last, log₁, log₂, final, hle, rfl, hchain, hlast, hverdict⟩ := h
  have hlength : redirects + 1 + urls.length = redirects + (url :: urls).length := by
    simp only [List.length_cons]
    omega
  rw [hlength] at hle hverdict
  exact ⟨url :: urls, last, log ++ log₁, log₂, final, hle, (List.append_assoc ..).symm,
    .onwards hfetch hredirects hjoin hchain, hlast, hverdict⟩

def onward (p : Page) (left : Nat) (url : Url) (response : Response) :
    Program (Except ComposeError (Url × Text)) :=
  match response.location?, left with
  | some _, 0 => .done (.error (.tooManyRedirects url.toText p.settings.maxRedirects))
  | some location, left + 1 =>
    match url.join location with
    | .error e => .done (.error (invalid location e))
    | .ok next => p.follow left next
  | none, _ =>
    if response.isSuccess then .done (.ok (url, response.bodyText))
    else .done (.error (.fragmentUnavailable url.toText response.status response.bodyText))

theorem follow_eq (p : Page) (left : Nat) (url : Url) :
    p.follow left url = (p.fetchPart url).bind (p.onward left url) := by
  unfold follow
  refine congrArg (Program.bind _) (funext fun response => ?_)
  unfold onward
  cases response.location? with
  | none => rfl
  | some location =>
    cases left with
    | zero => rfl
    | succ left => rfl

/-- After an answer there is a verdict, or one more redirect is followed. -/
theorem performs_onward_iff (hleft : redirects + left = p.settings.maxRedirects) :
    Performs (p.onward left url response) log (.done result) ↔
      log = [] ∧ p.Verdict redirects url response result ∨
      ∃ left' location next, left = left' + 1 ∧ response.RedirectsTo location ∧
        url.join location = .ok next ∧ Performs (p.follow left' next) log (.done result) := by
  unfold onward
  constructor
  · intro h
    cases hlocation : response.location? with
    | none =>
      have hnone := Response.location?_eq_none_iff.1 hlocation
      simp only [hlocation] at h
      split at h
      · next hsuccess =>
        obtain ⟨rfl, rfl⟩ := performs_done_iff.1 h
        exact .inl ⟨rfl, .arrived hnone (Response.isSuccess_iff.1 hsuccess)⟩
      · next hsuccess =>
        obtain ⟨rfl, rfl⟩ := performs_done_iff.1 h
        exact .inl ⟨rfl, .unavailable hnone (hsuccess ∘ Response.isSuccess_iff.2)⟩
    | some location =>
      have hredirects := Response.location?_eq_some_iff.1 hlocation
      simp only [hlocation] at h
      cases left with
      | zero =>
        obtain ⟨rfl, rfl⟩ := performs_done_iff.1 h
        exact .inl ⟨rfl, .tooMany hredirects hleft⟩
      | succ left =>
        cases hjoin : url.join location with
        | error e =>
          simp only [hjoin] at h
          obtain ⟨rfl, rfl⟩ := performs_done_iff.1 h
          exact .inl ⟨rfl, .unjoinable hredirects (by omega) hjoin⟩
        | ok next =>
          simp only [hjoin] at h
          exact .inr ⟨left, location, next, rfl, hredirects, hjoin, h⟩
  · rintro (⟨rfl, hverdict⟩ | ⟨left, location, next, rfl, hredirects, hjoin, h⟩)
    · cases hverdict with
      | arrived hnone hsuccess =>
        simp only [Response.location?_eq_none_iff.2 hnone, Response.isSuccess_iff.2 hsuccess]
        exact .nil _
      | unavailable hnone hsuccess =>
        simp only [Response.location?_eq_none_iff.2 hnone]
        rw [if_neg (hsuccess ∘ Response.isSuccess_iff.1)]
        exact .nil _
      | unjoinable hredirects hlt hjoin =>
        obtain ⟨left, rfl⟩ : ∃ n, left = n + 1 := ⟨left - 1, by omega⟩
        simp only [Response.location?_eq_some_iff.2 hredirects, hjoin]
        exact .nil _
      | tooMany hredirects hmax =>
        obtain rfl : left = 0 := by omega
        simp only [Response.location?_eq_some_iff.2 hredirects]
        exact .nil _
    · simp only [Response.location?_eq_some_iff.2 hredirects, hjoin]
      exact h

theorem settles_of_follow (hleft : redirects + left = p.settings.maxRedirects)
    (h : Performs (p.follow left url) log (.done result)) : p.Settles redirects url log result := by
  induction left using Nat.strongRecOn generalizing redirects url log with
  | ind left ih =>
    rw [follow_eq] at h
    obtain ⟨log₁, log₂, response, rfl, hfetch, hrest⟩ := h.done_of_bind
    rcases (performs_onward_iff hleft).1 hrest with
      ⟨rfl, hverdict⟩ | ⟨left, location, next, rfl, hredirects, hjoin, hrest⟩
    · rw [List.append_nil]
      exact .here (by omega) hfetch hverdict
    · exact .onwards hfetch hredirects hjoin (ih left left.lt_succ_self (by omega) hrest)

theorem Hops.follow {urls : List Url} {last : Url} (h : p.Hops urls url log last) (redirects : Nat)
    (hleft : redirects + urls.length + left = p.settings.maxRedirects)
    (hrest : Performs (p.follow left last) log' (.done result)) :
    Performs (p.follow (urls.length + left) url) (log ++ log') (.done result) := by
  induction h generalizing redirects with
  | here url => simpa using hrest
  | @onwards urls url next last log _ response location hfetch hredirects hjoin _ ih =>
    rw [List.length_cons] at hleft ⊢
    have hnext := ih (redirects + 1) (by omega) hrest
    have hleft' : redirects + (urls.length + 1 + left) = p.settings.maxRedirects := by omega
    rw [follow_eq, List.append_assoc]
    refine (hfetch.bind _).append ((performs_onward_iff hleft').2 (.inr ?_))
    exact ⟨urls.length + left, location, next, by omega, hredirects, hjoin, hnext⟩

/-- With so many redirects left, a document comes by its verdict, and there is no other way. -/
theorem performs_follow_iff (hleft : redirects + left = p.settings.maxRedirects) :
    Performs (p.follow left url) log (.done result) ↔ p.Settles redirects url log result := by
  refine ⟨settles_of_follow hleft, ?_⟩
  rintro ⟨urls, last, log₁, log₂, response, hle, rfl, hchain, hfetch, hverdict⟩
  obtain ⟨rest, rfl⟩ : ∃ rest, left = urls.length + rest := ⟨left - urls.length, by omega⟩
  refine hchain.follow redirects (by omega) ?_
  rw [follow_eq, ← List.append_nil log₂]
  exact (hfetch.bind _).append ((performs_onward_iff (by omega)).2 (.inl ⟨rfl, hverdict⟩))

/-- A fetch of a document is a chain of fetches, each but the last of which is answered by a redirect
to the next URL, and the last answer decides what becomes of the document; no more redirects are
followed than the settings allow. The fetches are those of the URLs of the chain and are the same in
all else. And a run comes to such an end, unless it runs into an expiry that cannot be
represented. -/
theorem fetchDocument_chain (p : Page) (url : Url) :
    (∀ log result, Performs (p.fetchDocument url) log (.done result) ↔
      ∃ urls last log₁ log₂ response, urls.length ≤ p.settings.maxRedirects ∧
        log = log₁ ++ log₂ ∧ p.Hops urls url log₁ last ∧
        Performs (p.fetchPart last) log₂ (.done response) ∧
        p.Verdict urls.length last response result ∧
        Answered.begun log = (urls ++ [last]).map fun u =>
          { request := { p.fragmentRequest url with url := u }, context := p.fragmentContext }) ∧
      ∀ w, (∃ log result w', Performs (p.fetchDocument url) log (.done result) ∧
        (p.fetchDocument url).run w = (.finished result, w')) ∨
          ((p.fetchDocument url).run w).1 = .overflowed := by
  refine ⟨fun log result => ?_, fun w => ?_⟩
  · have hsettles : Performs (p.fetchDocument url) log (.done result) ↔
        p.Settles 0 url log result := performs_follow_iff (Nat.zero_add _)
    rw [hsettles]
    unfold Settles
    simp only [Nat.zero_add]
    constructor
    · rintro ⟨urls, last, log₁, log₂, response, hle, rfl, hchain, hfetch, hverdict⟩
      refine ⟨urls, last, log₁, log₂, response, hle, rfl, hchain, hfetch, hverdict, ?_⟩
      rw [Answered.begun_append, hchain.begun, Fetch.begun_fetch hfetch, List.map_append]
      simp only [List.map_cons, List.map_nil, ← fragmentRequest_eq_with]
    · rintro ⟨urls, last, log₁, log₂, response, hle, hlog, hchain, hfetch, hverdict, -⟩
      exact ⟨urls, last, log₁, log₂, response, hle, hlog, hchain, hfetch, hverdict⟩
  · refine ((p.fetchDocument_fetchOnly url).run_ends w).imp_left ?_
    rintro ⟨result, w', hrun⟩
    obtain ⟨log, hlog⟩ := performs_of_run hrun
    exact ⟨log, result, w', hlog, hrun⟩

end Page

end EdgeCompose
