import EdgeCompose.Proofs.Interleaving
import EdgeCompose.Proofs.Rendering

/-!
How renders use the locks of documents. A program holds at most one lock at a time; it looks the
document up again once it has the lock, fetches only if there is none, keeps what it fetched, and
gives the lock back whatever the fetch came to. This is a protocol with one mode for each of
these stages (`lockProtocol`), and every render obeys it (`render_obeys`).
-/

namespace EdgeCompose

namespace Locks

@[simp] theorem queue_insert (l : Locks) (k key : FragmentKey) (line : List Nat) :
    queue (l.insert k line) key = if key = k then line else l.queue key := by
  unfold queue
  rw [Table.get?_insert]
  split <;> rfl

@[simp] theorem queue_erase (l : Locks) (k key : FragmentKey) :
    queue (l.erase k) key = if key = k then [] else l.queue key := by
  unfold queue
  rw [Table.get?_erase]
  split <;> rfl

theorem queue_enter (l : Locks) (k key : FragmentKey) (who : Nat) :
    (l.enter k who).queue key =
      if key = k ∧ who ∉ l.queue k then l.queue k ++ [who] else l.queue key := by
  unfold enter
  by_cases hmem : who ∈ l.queue k <;> simp [hmem]

theorem queue_leave (l : Locks) (k key : FragmentKey) (who : Nat) :
    (l.leave k who).queue key = if key = k then (l.queue k).erase who else l.queue key := by
  unfold leave
  split
  · next h => simp [h]
  · simp

/-- Whoever enters a queue gets in line behind its holder. -/
theorem holder?_enter {l : Locks} {key : FragmentKey} {who : Nat} (h : l.holder? key = some who)
    (k : FragmentKey) (other : Nat) : (l.enter k other).holder? key = some who := by
  unfold holder? at h ⊢
  rw [queue_enter]
  split
  · next hk =>
    rw [← hk.1, List.head?_append, h]
    rfl
  · exact h

/-- A holder keeps its lock when another leaves the queue. -/
theorem holder?_leave {l : Locks} {key : FragmentKey} {who other : Nat}
    (h : l.holder? key = some who) (hne : who ≠ other) (k : FragmentKey) :
    (l.leave k other).holder? key = some who := by
  unfold holder? at h ⊢
  rw [queue_leave]
  split
  · next hk =>
    subst hk
    cases hq : l.queue key with
    | nil =>
      rw [hq] at h
      cases h
    | cons first rest =>
      rw [hq] at h
      cases h
      have hfirst : (who == other) = false := by simpa using hne
      simp [hfirst]
  · exact h

theorem holder?_dismiss {l : Locks} {key : FragmentKey} {who other : Nat}
    (h : l.holder? key = some who) (hne : who ≠ other) :
    (l.dismiss other).holder? key = some who := by
  unfold dismiss
  generalize l.keys = keys
  induction keys generalizing l with
  | nil => exact h
  | cons k keys ih => exact ih (holder?_leave h hne k)

end Locks

/-! ## What a command changes -/

def Locks.after (l : Locks) (who : Nat) : Command → Locks
  | .acquire k => l.enter k who
  | .release k => l.leave k who
  | _ => l

namespace World

variable {w w' : World} {who : Nat}

/-- All that a command can do to a world: it changes the fragments, the stored answers, the journal
or the queues, and nothing else. -/
inductive Replied (w : World) (who : Nat) : (c : Command) → Reply c.Answer → World → Prop
  | found {k : FragmentKey} {content : Option Text} {fragments : FragmentStore} :
    FragmentStore.find w.fragments w.clock.calendar k = (content, fragments) →
    Replied w who (.find k) (.answer content) { w with fragments }
  | registered {k : FragmentKey} {content : Text} {fetchable : Bool} :
    Replied w who (.register k content fetchable) (.answer ()) (w.register k content fetchable)
  | kept {k : FragmentKey} {content : Text} {lifetime : Option Nat} {expires : Option Int} :
    w.expiry? lifetime = .ok expires → Replied w who (.keep k content lifetime) (.answer ())
      { w with fragments :=
          (FragmentStore.storeFetched w.fragments w.clock.calendar k content expires).2 }
  | tooLong {k : FragmentKey} {content : Text} {lifetime : Option Nat} {e : Overflow} :
    w.expiry? lifetime = .error e → Replied w who (.keep k content lifetime) .overflow w
  | granted {k : FragmentKey} : (w.locks.enter k who).holder? k = some who →
    Replied w who (.acquire k) (.answer ()) { w with locks := w.locks.enter k who }
  | queued {k : FragmentKey} : (w.locks.enter k who).holder? k ≠ some who →
    Replied w who (.acquire k) .wait { w with locks := w.locks.enter k who }
  | released {k : FragmentKey} :
    Replied w who (.release k) (.answer ()) { w with locks := w.locks.leave k who }
  | announced {phase : Phase} {e e' : FetchEvent} {heard : List Heard} :
    EdgeCompose.announce phase (w.listeners phase) e = (e', heard) →
    Replied w who (.announce phase e) (.answer e')
      { w with journal := { w.journal with heard := w.journal.heard ++ heard } }
  | unstored {r : FetchRequest} : w.responses = none →
    Replied w who (.consult r) (.answer none) w
  | consulted {r : FetchRequest} {s s' : ResponseStore} {found : Lookup} :
    w.responses = some s → s.lookup w.clock.steady r = (found, s') →
    Replied w who (.consult r) (.answer (some found)) { w with responses := some s' }
  | sent {r : FetchRequest} : Replied w who (.send r) (.answer (w.backend w.journal.sent r))
      { w with journal := { w.journal with sent := w.journal.sent ++ [r] } }
  | declined {r : FetchRequest} {response : Response} : w.responses = none →
    Replied w who (.offer r response) (.answer ()) w
  | offered {r : FetchRequest} {response : Response} {s s' : ResponseStore} {stored : Bool} :
    w.responses = some s → s.store w.clock.steady r response = (.ok stored, s') →
    Replied w who (.offer r response) (.answer ()) { w with responses := some s' }
  | offerTooLong {r : FetchRequest} {response : Response} {s s' : ResponseStore} {e : Overflow} :
    w.responses = some s → s.store w.clock.steady r response = (.error e, s') →
    Replied w who (.offer r response) .overflow { w with responses := some s' }
  | counted {s : Sample} : Replied w who (.count s) (.answer ()) (w.count s)

theorem replied (w : World) (who : Nat) (c : Command) :
    Replied w who c (w.reply who c).1 (w.reply who c).2 := by
  cases c with
  | find k => exact .found rfl
  | register k content fetchable => exact .registered
  | keep k content lifetime =>
    simp only [reply, keep]
    cases h : w.expiry? lifetime with
    | ok expires => exact .kept h
    | error e => exact .tooLong h
  | acquire k =>
    simp only [reply, acquire, beq_iff_eq]
    by_cases h : (w.locks.enter k who).holder? k = some who
    · rw [if_pos h]
      exact .granted h
    · rw [if_neg h]
      exact .queued h
  | release k => exact .released
  | announce phase e => exact .announced rfl
  | consult r =>
    simp only [reply, consult]
    cases h : w.responses with
    | none => exact .unstored h
    | some s => exact .consulted h rfl
  | send r => exact .sent
  | offer r response =>
    simp only [reply, offer]
    cases h : w.responses with
    | none => exact .declined h
    | some s =>
      simp only
      cases hs : s.store w.clock.steady r response with
      | mk stored s' =>
        cases stored with
        | ok b => exact .offered h hs
        | error e => exact .offerTooLong h hs
  | count s => exact .counted

namespace Replied

variable {c : Command} {r : Reply c.Answer}

theorem of_reply (h : w.reply who c = (r, w')) : Replied w who c r w' := by
  have hall := replied w who c
  rwa [h] at hall

theorem clock (h : Replied w who c r w') : w'.clock = w.clock := by
  cases h <;> rfl

theorem locks (h : Replied w who c r w') : w'.locks = w.locks.after who c := by
  cases h <;> rfl

/-- A holder keeps its lock while others give commands. -/
theorem holder?_other (h : Replied w who c r w') {key : FragmentKey} {other : Nat}
    (hne : other ≠ who) (hholds : w.locks.holder? key = some other) :
    w'.locks.holder? key = some other := by
  rw [h.locks]
  unfold Locks.after
  split
  · exact Locks.holder?_enter hholds _ _
  · exact Locks.holder?_leave hholds hne _
  · exact hholds

end Replied

end World

/-! ## The protocol of a document -/

def Command.isFetch : Command → Bool
  | .announce .. | .consult _ | .send _ | .offer .. => true
  | .count (.fetched _) | .count (.responseLookup _) => true
  | _ => false

/-- How far a program is with the document of a key: it has no lock, it has the lock and has still
to look again, it fetches, or it has only to give the lock back. -/
inductive Stage where
  | idle
  | granted (key : FragmentKey)
  | fetching (key : FragmentKey)
  | settled (key : FragmentKey)
  deriving DecidableEq, Repr

def Stage.key? : Stage → Option FragmentKey
  | .idle => none
  | .granted key | .fetching key | .settled key => some key

def lockProtocol : Program.Protocol Stage where
  allows
    | .idle, .find _ | .idle, .register .. | .idle, .acquire _
    | .idle, .count (.fragmentLookup _) => True
    | .granted key, .find k | .settled key, .release k => k = key
    | .fetching key, .keep k .. | .fetching key, .release k => k = key
    | .fetching _, c => c.isFetch = true
    | _, _ => False
  gives _ _ _ := True
  next
    | .idle, .acquire k, _ => .granted k
    | .granted k, .find _, some _ => .settled k
    | .granted k, .find _, none => .fetching k
    | .fetching k, .keep .., _ => .settled k
    | .fetching _, .release _, _ | .settled _, .release _, _ => .idle
    | m, _, _ => m

/-- The program keeps to the protocol and holds no lock when it is done. -/
def Program.Disciplined {α : Type} (m : Stage) (p : Program α) : Prop :=
  p.Obeys lockProtocol (fun m _ => m = .idle) m

def fetchProtocol : Program.Protocol Unit where
  allows _ c := c.isFetch = true
  gives _ _ _ := True
  next _ _ _ := ()

def Program.FetchOnly {α : Type} (p : Program α) : Prop :=
  p.Obeys fetchProtocol (fun _ _ => True) ()

namespace Program

variable {α β : Type}

theorem FetchOnly.bind {p : Program α} {f : α → Program β} (h : p.FetchOnly)
    (hf : ∀ a, (f a).FetchOnly) : (p.bind f).FetchOnly :=
  Obeys.bind h fun _ a _ _ => hf a

theorem fetchOnly_sequential : Sequential fun _ p => p.FetchOnly where
  done _ := trivial
  bind hp hf := hp.bind hf

theorem FetchOnly.leads {p rest : Program α} (h : p.FetchOnly) (hrest : Leads p rest) :
    rest.FetchOnly := by
  induction hrest with
  | refl p => exact h
  | ask answer _ ih => exact ih (h.2 answer trivial)

theorem allows_fetching (key : FragmentKey) {c : Command} (h : c.isFetch = true) :
    lockProtocol.allows (.fetching key) c ∧
      ∀ answer, lockProtocol.next (.fetching key) c answer = .fetching key := by
  cases c with
  | announce phase e => exact ⟨rfl, fun _ => rfl⟩
  | consult r => exact ⟨rfl, fun _ => rfl⟩
  | send r => exact ⟨rfl, fun _ => rfl⟩
  | offer r response => exact ⟨rfl, fun _ => rfl⟩
  | count s => exact ⟨h, fun _ => rfl⟩
  | _ => cases h

/-- While it fetches, a program stays in the stage for that. -/
theorem FetchOnly.obeys {p : Program α} (h : p.FetchOnly) (key : FragmentKey) :
    p.Obeys lockProtocol (fun m _ => m = .fetching key) (.fetching key) := by
  induction p with
  | done a => rfl
  | ask c next ih =>
    have hc := allows_fetching key h.1
    refine ⟨hc.1, fun answer _ => ?_⟩
    rw [hc.2 answer]
    exact ih answer (h.2 answer trivial)

end Program

namespace Fetch

open Program

theorem transmit_fetchOnly (r : FetchRequest) : (transmit r).FetchOnly :=
  ⟨rfl, fun _ _ => ⟨rfl, fun _ _ => trivial⟩⟩

theorem answer_fetchOnly (r : FetchRequest) : (answer r).FetchOnly := by
  refine ⟨rfl, fun found _ => ?_⟩
  cases found with
  | none => exact transmit_fetchOnly r
  | some lookup =>
    refine ⟨rfl, fun _ _ => ?_⟩
    cases lookup with
    | hit response => trivial
    | miss => exact (transmit_fetchOnly r).bind fun _ => ⟨rfl, fun _ _ => trivial⟩
    | bypass => exact (transmit_fetchOnly r).bind fun _ => ⟨rfl, fun _ _ => trivial⟩

theorem fetch_fetchOnly (r : FetchRequest) (context : FetchContext) :
    (fetch r context).FetchOnly :=
  fetchOnly_sequential.fetch (fun _ _ => ⟨rfl, fun _ _ => trivial⟩) answer_fetchOnly r context

end Fetch

namespace Page

open Program

theorem follow_fetchOnly (p : Page) (left : Nat) (url : Url) : (p.follow left url).FetchOnly :=
  fetchOnly_sequential.follow Fetch.fetch_fetchOnly p left url

theorem fetchDocument_fetchOnly (p : Page) (url : Url) : (p.fetchDocument url).FetchOnly :=
  p.follow_fetchOnly _ url

/-- What is done with a fetched document before its lock is given back. -/
def settleFetch (p : Page) (url : Url) (lifetime : Option Nat) :
    Except ComposeError (Url × Text) → Program (Except ComposeError (Url × Text))
  | .error e => do
    perform (.release (documentKey url))
    return .error e
  | .ok (final, content) => do
    perform (.keep (documentKey url) content (lifetime <|> p.settings.lifetime))
    perform (.release (documentKey url))
    return .ok (final, content)

/-- What is done once the lock of a document is held. -/
def granted (p : Page) (url : Url) (lifetime : Option Nat) :
    Program (Except ComposeError (Url × Text)) := do
  match ← perform (.find (documentKey url)) with
  | some content =>
    perform (.release (documentKey url))
    return .ok (url, content)
  | none => p.fetchDocument url >>= p.settleFetch url lifetime

def queued (p : Page) (url : Url) (lifetime : Option Nat) :
    Program (Except ComposeError (Url × Text)) := do
  perform (.acquire (documentKey url))
  p.granted url lifetime

def missed (p : Page) (url : Url) (lifetime : Option Nat) :
    Program (Except ComposeError (Url × Text)) := do
  perform (.count (.fragmentLookup false))
  p.queued url lifetime

theorem document_eq (p : Page) (url : Url) (lifetime : Option Nat) :
    p.document url lifetime = (do
      match ← perform (.find (documentKey url)) with
      | some content =>
        perform (.count (.fragmentLookup true))
        return .ok (url, content)
      | none => p.missed url lifetime) := by
  -- Each step shows the next command of both sides and then looks at its answer.
  refine congrArg (Program.ask (.find (documentKey url))) (funext fun found => ?_)
  cases found with
  | some content => rfl
  | none =>
    refine congrArg (Program.ask (.count (.fragmentLookup false))) (funext fun _ => ?_)
    refine congrArg (Program.ask (.acquire (documentKey url))) (funext fun _ => ?_)
    refine congrArg (Program.ask (.find (documentKey url))) (funext fun found => ?_)
    cases found with
    | some content => rfl
    | none =>
      refine congrArg (Program.bind (p.fetchDocument url)) (funext fun result => ?_)
      cases result <;> rfl

/-- The content of a source is that of its document, one level deeper. -/
theorem content_eq_bind {p : Page} {inner : Composer} {i : Inclusion} {template : Text} {url : Url}
    (h : p.resolveTemplate template = .ok url) :
    p.content inner i template = (p.document url i.lifetime).bind fun
      | .error e => .done (.error e)
      | .ok (base, document) => inner base i.fragment document := by
  unfold Page.content
  rw [h]
  rfl

theorem settleFetch_disciplined (p : Page) (url : Url) (lifetime : Option Nat)
    (result : Except ComposeError (Url × Text)) :
    (p.settleFetch url lifetime result).Disciplined (.fetching (documentKey url)) := by
  cases result with
  | error e => exact ⟨rfl, fun _ _ => rfl⟩
  | ok found => exact ⟨rfl, fun _ _ => ⟨rfl, fun _ _ => rfl⟩⟩

theorem document_disciplined (p : Page) (url : Url) (lifetime : Option Nat) :
    (p.document url lifetime).Disciplined .idle := by
  rw [document_eq]
  refine ⟨trivial, fun found _ => ?_⟩
  cases found with
  | some content => exact ⟨trivial, fun _ _ => rfl⟩
  | none =>
    refine ⟨trivial, fun _ _ => ⟨trivial, fun _ _ => ⟨rfl, fun found _ => ?_⟩⟩⟩
    cases found with
    | some content => exact ⟨rfl, fun _ _ => rfl⟩
    | none =>
      refine ((p.fetchDocument_fetchOnly url).obeys (documentKey url)).bind ?_
      rintro m result - rfl
      exact p.settleFetch_disciplined url lifetime result

end Page

/-- Whatever renders are made of, they give back every lock before they ask for the next. -/
theorem compositional_disciplined :
    Compositional (fun _ p => p.Disciplined .idle) (fun _ => True) (fun _ => True)
      fun _ => True where
  done _ := rfl
  bind {α β p f} hp hf := by
    refine Program.Obeys.bind hp ?_
    rintro m a hyields rfl
    exact hf a hyields
  nested _ _ := trivial
  content {r i} template _ _ hinner := by
    unfold Page.content
    split
    · rfl
    · refine (r.page.document_disciplined _ _).bind ?_
      rintro m (e | found) - rfl
      · rfl
      · exact hinner _ _ _ trivial
  register key body _ := ⟨trivial, fun _ _ => rfl⟩
  opens _ _ _ := trivial

/-- Every render obeys the protocol. -/
theorem Renderer.compose_disciplined (r : Renderer) (wanted : Option Text) (document : Text) :
    (r.page.compose r.levels wanted document).Disciplined .idle :=
  compositional_disciplined.compose trivial wanted trivial

end EdgeCompose
