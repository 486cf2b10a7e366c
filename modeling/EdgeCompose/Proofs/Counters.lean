import EdgeCompose.Proofs.SingleFlight
import EdgeCompose.Proofs.StoredAnswers
import EdgeCompose.Proofs.Tallies

/-!
What the counters of a server say of what it does. A fetch that the listeners let through is looked
up and counted, sent if nothing stored answers it, and counted again with its outcome; what a
program has still to do of that is the mode of a protocol, and each mode is a debt that one number
has to another (`Debt.balance`). Each source of an include is counted as found or not found
(`Program.Sourced`). So in every interleaving the counters agree with what happened, but for the
programs that are left, or were given up, between the one and the other (`Journal.Conserves`).
-/

namespace EdgeCompose

open Program

/-! ## What a fetch owes -/

/-- What a program has still to do of a fetch: nothing, look the request up, count what that came
to, send the request, or count its outcome. -/
inductive Owed where
  | nothing
  | lookup
  | mention (found : Lookup)
  | request
  | outcome

/-- What is owed no more when the command is done. -/
def Command.payment : Command → Owed
  | .consult _ => .lookup
  | .count (.responseLookup found) => .mention found
  | .send _ => .request
  | .count (.fetched _) => .outcome
  | _ => .nothing

namespace Answered

/-- What is owed from then on: a look-up if the listeners let a fetch through, and a request if
nothing stored answers it. -/
def owes : Answered → Owed
  | ⟨.announce .before _, e⟩ => if e.skip then .nothing else .lookup
  | ⟨.consult _, found⟩ => found.elim .request .mention
  | ⟨.count (.responseLookup found), _⟩ => if found.response?.isSome then .nothing else .request
  | ⟨.send _, _⟩ => .outcome
  | _ => .nothing

/-- What is so of what is paid and of whether a fetch is let through. -/
def does (f : Owed → Bool → Bool) (a : Answered) : Bool := f a.command.payment a.passes

end Answered

/-- A program pays what it owes before it does anything else. Only where responses are stored
(`cached`) are there look-ups to count. -/
def countingProtocol (cached : Bool) : Protocol Owed where
  allows
    | .mention found, c => cached = true ∧ c.payment = .mention found
    | m, c => c.payment = m
  gives _ c answer := Answered.FromStore cached ⟨c, answer⟩
  next _ c answer := Answered.owes ⟨c, answer⟩

/-- All that can happen to what is owed: what is paid by an answered command, whether it lets a
fetch through, and what is owed from then on. -/
inductive Paid (cached : Bool) : Owed → Bool → Owed → Prop
  | aside : Paid cached .nothing false .nothing
  | passed : Paid cached .nothing true .lookup
  | unstored : cached = false → Paid cached .lookup false .request
  | consulted {found : Lookup} : cached = true → Paid cached .lookup false (.mention found)
  | hit {response : Response} : cached = true → Paid cached (.mention (.hit response)) false .nothing
  | missed : cached = true → Paid cached (.mention .miss) false .request
  | bypassed : cached = true → Paid cached (.mention .bypass) false .request
  | sent : Paid cached .request false .outcome
  | settled : Paid cached .outcome false .nothing

theorem payment_of_allows {cached : Bool} {m : Owed} {c : Command}
    (h : (countingProtocol cached).allows m c) :
    c.payment = m ∧ ∀ found, m = .mention found → cached = true := by
  cases m with
  | mention found => exact ⟨h.2, fun _ _ => h.1⟩
  | _ => exact ⟨h, nofun⟩

theorem paid {cached : Bool} {m : Owed} {c : Command} {answer : c.Answer}
    (hc : (countingProtocol cached).allows m c)
    (hgiven : (countingProtocol cached).gives m c answer) :
    Paid cached m (Answered.passes ⟨c, answer⟩) (Answered.owes ⟨c, answer⟩) := by
  obtain ⟨rfl, hcached⟩ := payment_of_allows hc
  cases c with
  | announce phase e =>
    cases phase with
    | before =>
      simp only [Answered.passes, Answered.owes]
      cases answer.skip with
      | true => exact .aside
      | false => exact .passed
    | after => exact .aside
  | consult r =>
    cases answer with
    | none => exact .unstored hgiven.symm
    | some found => exact .consulted hgiven.symm
  | send r => exact .sent
  | count s =>
    cases s with
    | responseLookup found =>
      cases found with
      | hit response => exact .hit (hcached _ rfl)
      | miss => exact .missed (hcached _ rfl)
      | bypass => exact .bypassed (hcached _ rfl)
    | fetched status => exact .settled
    | _ => exact .aside
  | _ => exact .aside

/-- The program owes nothing when it begins and when it is done. -/
def Program.Counts {α : Type} (cached : Bool) (p : Program α) : Prop :=
  p.Obeys (countingProtocol cached) (fun m _ => m = .nothing) .nothing

namespace Program

variable {α β : Type} {cached : Bool}

theorem Counts.bind {p : Program α} {f : α → Program β} (hp : p.Counts cached)
    (hf : ∀ a, p.Yields a → (f a).Counts cached) : (p.bind f).Counts cached := by
  refine Obeys.bind hp ?_
  rintro m a hyields rfl
  exact hf a hyields

theorem counts_sequential : Sequential fun _ p => p.Counts cached where
  done _ := rfl
  bind hp hf := hp.bind fun a _ => hf a

end Program

namespace Fetch

variable {cached : Bool}

theorem transmit_counts (r : FetchRequest) :
    (transmit r).Obeys (countingProtocol cached) (fun m _ => m = .nothing) .request := by
  refine ⟨rfl, fun outcome _ => ?_⟩
  cases outcome with
  | ok response => exact ⟨rfl, fun _ _ => rfl⟩
  | error failure => exact ⟨rfl, fun _ _ => rfl⟩

theorem answer_counts (r : FetchRequest) :
    (answer r).Obeys (countingProtocol cached) (fun m _ => m = .nothing) .lookup := by
  refine ⟨rfl, fun found hfound => ?_⟩
  have htransmit : (transmit r >>= fun response => do
      perform (.offer r response)
      return response).Obeys (countingProtocol cached) (fun m _ => m = .nothing) .request := by
    refine Obeys.bind (transmit_counts r) ?_
    rintro m response - rfl
    exact ⟨rfl, fun _ _ => rfl⟩
  cases found with
  | none => exact transmit_counts r
  | some lookup =>
    refine ⟨⟨hfound.symm, rfl⟩, fun _ _ => ?_⟩
    cases lookup with
    | hit response => exact rfl
    | miss => exact htransmit
    | bypass => exact htransmit

theorem fetch_counts (r : FetchRequest) (context : FetchContext) :
    (fetch r context).Counts cached := by
  have hafter (e : FetchEvent) : (perform (.announce .after e) >>= fun e =>
      pure (e.response.getD .abandoned)).Counts cached := ⟨rfl, fun _ _ => rfl⟩
  refine ⟨rfl, fun e _ => ?_⟩
  have hmode : (countingProtocol cached).next .nothing (.announce .before { request := r, context })
      e = if e.skip then .nothing else .lookup := rfl
  rw [hmode]
  by_cases hskip : e.skip = true
  · simp only [done_bind, hskip, if_true]
    exact hafter _
  · simp only [done_bind, hskip]
    refine Obeys.bind (answer_counts e.request) ?_
    rintro m response - rfl
    exact hafter _

end Fetch

namespace Page

variable {cached : Bool}

theorem settleFetch_counts (p : Page) (url : Url) (lifetime : Option Nat)
    (result : Except ComposeError (Url × Text)) :
    (p.settleFetch url lifetime result).Counts cached := by
  cases result with
  | error e => exact ⟨rfl, fun _ _ => rfl⟩
  | ok found => exact ⟨rfl, fun _ _ => ⟨rfl, fun _ _ => rfl⟩⟩

theorem document_counts (p : Page) (url : Url) (lifetime : Option Nat) :
    (p.document url lifetime).Counts cached := by
  rw [document_eq]
  refine ⟨rfl, fun found _ => ?_⟩
  cases found with
  | some content => exact ⟨rfl, fun _ _ => rfl⟩
  | none =>
    refine ⟨rfl, fun _ _ => ⟨rfl, fun _ _ => ⟨rfl, fun found _ => ?_⟩⟩⟩
    cases found with
    | some content => exact ⟨rfl, fun _ _ => rfl⟩
    | none =>
      exact (counts_sequential.follow Fetch.fetch_counts p _ url).bind fun result _ =>
        p.settleFetch_counts url lifetime result

end Page

theorem compositional_counts {cached : Bool} :
    Compositional (fun _ p => p.Counts cached) (fun _ => True) (fun _ => True) fun _ => True where
  done _ := rfl
  bind hp hf := hp.bind hf
  nested _ _ := trivial
  content {r i} template _ _ hinner := by
    unfold Page.content
    split
    · exact rfl
    · refine (r.page.document_counts _ _).bind ?_
      rintro (e | found) -
      · exact rfl
      · exact hinner _ _ _ trivial
  register key body _ := ⟨rfl, fun _ _ => rfl⟩
  opens _ _ _ := trivial

theorem Demand.counts (d : Demand) (cached : Bool) : d.program.Counts cached :=
  compositional_counts.demand Fetch.fetch_counts (fun _ _ => ⟨rfl, fun _ _ => rfl⟩) d

/-! ## Debts -/

def Program.waits {α : Type} (kind : Command → Bool) (p : Program α) : Bool := p.command?.any kind

/-- What is counted by `f` is counted by `g` in time; `due` is what is owed meanwhile. -/
structure Debt (cached : Bool) (f g : Owed → Bool → Bool) (due : Owed → Bool) : Prop where
  nothing : due .nothing = false
  paid : ∀ {payment owes : Owed} {passes : Bool}, Paid cached payment passes owes →
    ((if f payment passes then 1 else 0) + if due payment then 1 else 0) =
      (if g payment passes then 1 else 0) + if due owes then 1 else 0

namespace Debt

variable {α : Type} {cached : Bool} {f g : Owed → Bool → Bool} {due : Owed → Bool}
  {p rest : Program α} {log : List Answered}

/-- What is due at first and what is counted by `f` is counted by `g`, or still due. -/
theorem balance_from (hdebt : Debt cached f g due) {m : Owed}
    (hp : p.Obeys (countingProtocol cached) (fun m _ => m = .nothing) m)
    (h : Performs p log rest) (hlog : ∀ a ∈ log, a.FromStore cached) :
    (log.countP (Answered.does f) + if due m then 1 else 0) =
      log.countP (Answered.does g) + if rest.waits (due ·.payment) then 1 else 0 := by
  induction h generalizing m with
  | nil p =>
    cases p with
    | done a =>
      obtain rfl : m = .nothing := hp
      rw [hdebt.nothing]
      rfl
    | ask c next =>
      obtain rfl := (payment_of_allows hp.1).1
      rfl
  | @cons c next log rest answer _ ih =>
    have hgiven : (countingProtocol cached).gives m c answer := hlog _ List.mem_cons_self
    have hrest : (log.countP (Answered.does f) + if due (Answered.owes ⟨c, answer⟩) then 1 else 0) =
        log.countP (Answered.does g) + if rest.waits (due ·.payment) then 1 else 0 :=
      ih (hp.2 answer hgiven) fun a ha => hlog a (List.mem_cons_of_mem _ ha)
    obtain rfl := (payment_of_allows hp.1).1
    have hstep : ((if Answered.does f ⟨c, answer⟩ then 1 else 0) +
        if due c.payment then 1 else 0) = (if Answered.does g ⟨c, answer⟩ then 1 else 0) +
          if due (Answered.owes ⟨c, answer⟩) then 1 else 0 :=
      hdebt.paid (EdgeCompose.paid hp.1 hgiven)
    rw [List.countP_cons, List.countP_cons]
    omega

theorem balance (hdebt : Debt cached f g due) (hp : p.Counts cached) (h : Performs p log rest)
    (hlog : ∀ a ∈ log, a.FromStore cached) :
    log.countP (Answered.does f) =
      log.countP (Answered.does g) + if rest.waits (due ·.payment) then 1 else 0 := by
  have hbalance := hdebt.balance_from hp h hlog
  rwa [hdebt.nothing] at hbalance

end Debt

namespace Sample

def isFragment : Sample → Bool
  | .fragmentLookup _ => true
  | _ => false

end Sample

namespace Owed

def isLookup : Owed → Bool
  | .lookup | .mention _ => true
  | _ => false

def isMention : Owed → Bool
  | .mention _ => true
  | _ => false

def isMiss : Owed → Bool
  | .mention found => !found.response?.isSome
  | _ => false

def isRequest : Owed → Bool
  | .request => true
  | _ => false

def isOutcome : Owed → Bool
  | .outcome => true
  | _ => false

/-- What a fetch owes where nothing is stored. -/
def isUncached : Owed → Bool
  | .lookup | .request | .outcome => true
  | _ => false

end Owed

namespace Debt

open Owed

variable {cached : Bool}

/-- Where responses are stored, every fetch that is let through is looked up. -/
theorem lookups :
    Debt true (fun _ passes => passes) (fun payment _ => isMention payment) isLookup where
  nothing := rfl
  paid h := by
    cases h with
    | unstored h => cases h
    | _ => rfl

/-- A request follows on every look-up that came to nothing. -/
theorem requests :
    Debt true (fun payment _ => isMiss payment) (fun payment _ => isRequest payment) isRequest where
  nothing := rfl
  paid h := by
    cases h with
    | unstored h => cases h
    | _ => rfl

/-- The outcome of every request is counted. -/
theorem outcomes : Debt cached (fun payment _ => isRequest payment)
    (fun payment _ => isOutcome payment) isOutcome where
  nothing := rfl
  paid h := by cases h <;> rfl

/-- Where nothing is stored, the outcome of every fetch that is let through is counted. -/
theorem uncached :
    Debt false (fun _ passes => passes) (fun payment _ => isOutcome payment) isUncached where
  nothing := rfl
  paid h := by
    cases h with
    | consulted h => cases h
    | hit h => cases h
    | missed h => cases h
    | bypassed h => cases h
    | _ => rfl

/-- Where nothing is stored, no look-up is counted. -/
theorem unlooked : Debt false (fun payment _ => isMention payment) (fun _ _ => false)
    fun _ => false where
  nothing := rfl
  paid h := by
    cases h with
    | hit h => cases h
    | missed h => cases h
    | bypassed h => cases h
    | _ => rfl

end Debt

/-! ## Sources of includes -/

def Command.countsFragment : Command → Bool
  | .count (.fragmentLookup _) => true
  | _ => false

namespace Program

variable {α : Type}

/-- With these answers the program has come to the content of a source that can be resolved. -/
def Tries (p : Program α) (log : List Answered) : Prop :=
  ∃ (page : Page) (inner : Composer) (i : Inclusion) (template : Text) (url : Url),
    page.resolveTemplate template = .ok url ∧ p.Enters log (page.content inner i template)

open Classical in
/-- How often a program has come to the content of a source that can be resolved, and went on. -/
noncomputable def tries (p : Program α) (log : List Answered) : Nat :=
  (List.range log.length).countP fun n => decide (p.Tries (log.take n))

theorem tries_cons_iff {c : Command} {next : c.Answer → Program α} {answer : c.Answer}
    {log : List Answered} :
    (ask c next).Tries (⟨c, answer⟩ :: log) ↔ (next answer).Tries log := by
  have henters {β : Type} (q : Program β) :
      (ask c next).Enters (⟨c, answer⟩ :: log) q ↔ (next answer).Enters log q := by
    constructor
    · rintro ⟨k, hk⟩
      cases hk with
      | cons _ hk => exact ⟨k, hk⟩
    · rintro ⟨k, hk⟩
      exact ⟨k, .cons answer hk⟩
  unfold Tries
  simp only [henters]

open Classical in
theorem tries_cons {c : Command} (next : c.Answer → Program α) (answer : c.Answer)
    (log : List Answered) : (ask c next).tries (⟨c, answer⟩ :: log) =
      (next answer).tries log + if (ask c next).Tries [] then 1 else 0 := by
  unfold tries
  rw [List.length_cons, List.range_succ_eq_map, List.countP_cons, List.countP_map]
  simp only [Function.comp_def, List.take_succ_cons, List.take_zero, tries_cons_iff]
  by_cases h : (ask c next).Tries [] <;> simp only [h, decide_true, decide_false, if_true, if_false,
    Bool.false_eq_true]

/-- A source begins with a look for its document, and to have found it is counted at once. -/
theorem find_of_tries {p : Program α} (h : p.Tries []) :
    ∃ (key : FragmentKey) (next : Option Text → Program α), p = ask (.find key) next ∧
      ∀ content, (next (some content)).command? = some (.count (.fragmentLookup true)) := by
  obtain ⟨page, inner, i, template, url, hurl, k, hk⟩ := h
  rw [Page.content_eq_bind hurl, Page.document_eq] at hk
  cases hk
  exact ⟨_, _, rfl, fun _ => rfl⟩

theorem not_tries {c : Command} {next : c.Answer → Program α} (h : ∀ key, c ≠ .find key) :
    ¬ (ask c next).Tries [] := by
  intro htries
  obtain ⟨key, _, heq, -⟩ := find_of_tries htries
  cases heq
  exact h key rfl

/-- The program counts every source that it tries before it does anything else, and no other; one
may still be to count. -/
def Sourced : Program α → Prop → Prop
  | .done _, owes => ¬ owes
  | .ask c next, owes => (c.countsFragment = true ↔ owes) ∧
    ∀ answer, (next answer).Sourced ((ask c next).Tries [])

open Classical in
/-- The sources that a program tries are counted, but for the last one. -/
theorem Sourced.balance {p rest : Program α} {log : List Answered} {owes : Prop}
    (hp : p.Sourced owes) (h : Performs p log rest) :
    (p.tries log + if owes then 1 else 0) =
      log.countP (Answered.samples Sample.isFragment) +
        if rest.waits Command.countsFragment then 1 else 0 := by
  induction h generalizing owes with
  | nil p =>
    cases p with
    | done a => rw [if_neg hp]; rfl
    | ask c next =>
      simp only [← hp.1]
      rfl
  | @cons c next log rest answer _ ih =>
    have hrest := ih (hp.2 answer)
    have hsame : Answered.samples Sample.isFragment ⟨c, answer⟩ = c.countsFragment := by
      cases c with
      | count s => cases s <;> rfl
      | _ => rfl
    rw [tries_cons, List.countP_cons, hsame]
    simp only [← hp.1]
    omega

/-- A source is tried, which is then to count. -/
theorem Sourced.begins {key : FragmentKey} {next : Option Text → Program α}
    (htries : (ask (.find key) next).Tries []) (hnext : ∀ found, (next found).Sourced True) :
    (ask (.find key) next).Sourced False := by
  refine ⟨iff_of_false Bool.false_ne_true id, fun found => ?_⟩
  rw [eq_true htries]
  exact hnext found

theorem Sourced.counted {hit : Bool} {next : Unit → Program α}
    (hnext : ∀ answer, (next answer).Sourced False) :
    (ask (.count (.fragmentLookup hit)) next).Sourced True := by
  refine ⟨iff_of_true rfl trivial, fun answer => ?_⟩
  rw [eq_false (not_tries (by rintro _ ⟨⟩))]
  exact hnext answer

theorem Sourced.aside {c : Command} {next : c.Answer → Program α} (hc : c.countsFragment = false)
    (hnot : ¬ (ask c next).Tries []) (hnext : ∀ answer, (next answer).Sourced False) :
    (ask c next).Sourced False := by
  refine ⟨iff_of_false (Bool.not_eq_true _ ▸ hc) id, fun answer => ?_⟩
  rw [eq_false hnot]
  exact hnext answer

/-- A program whose sources are counted, whatever follows on it. -/
def Sources (p : Program α) : Prop :=
  ∀ k : α → Program Unit, (∀ a, p.Yields a → (k a).Sourced False) → (p.bind k).Sourced False

theorem Sources.bind {β : Type} {p : Program α} {f : α → Program β} (hp : p.Sources)
    (hf : ∀ a, p.Yields a → (f a).Sources) : (p.bind f).Sources := by
  intro k hk
  rw [bind_bind]
  exact hp _ fun a ha => hf a ha k fun b hb => hk b (yields_bind.mpr ⟨a, ha, hb⟩)

theorem Sources.ask {c : Command} {next : c.Answer → Program α} (hc : c.countsFragment = false)
    (hfind : ∀ key, c ≠ .find key) (hnext : ∀ answer, (next answer).Sources) :
    (ask c next).Sources := fun k hk =>
  .aside hc (not_tries hfind) fun answer => hnext answer k fun a ha => hk a (.ask answer ha)

theorem FetchOnly.sources {p : Program α} (h : p.FetchOnly) : p.Sources := by
  induction p with
  | done a => exact fun k hk => hk a (.done a)
  | ask c next ih =>
    refine .ask ?_ ?_ fun answer => ih answer (h.2 answer trivial)
    · have hc : c.isFetch = true := h.1
      cases c with
      | count s => cases s <;> first | rfl | cases hc
      | _ => rfl
    · rintro key rfl
      cases h.1

end Program

namespace Page

open Program

theorem settleFetch_sources (p : Page) (url : Url) (lifetime : Option Nat)
    (result : Except ComposeError (Url × Text)) : (p.settleFetch url lifetime result).Sources := by
  have hrelease : (perform (.release (documentKey url)) >>= fun _ => pure result).Sources :=
    .ask rfl nofun fun _ _ hk => hk _ (.done _)
  cases result with
  | error e => exact hrelease
  | ok found => exact .ask rfl nofun fun _ => hrelease

/-- To look again once the lock is granted is not to try a source. -/
theorem granted_sources (p : Page) (url : Url) (lifetime : Option Nat) :
    (p.granted url lifetime).Sources := by
  intro k hk
  have hnot : ¬ ((p.granted url lifetime).bind k).Tries [] := by
    intro htries
    obtain ⟨key, next, heq, hcount⟩ := find_of_tries htries
    cases heq
    cases hcount []
  refine .aside rfl hnot fun found => ?_
  cases found with
  | some content =>
    exact .aside rfl (not_tries nofun) fun _ => hk _ (.ask (some content) (.ask () (.done _)))
  | none =>
    have hfetch : (p.fetchDocument url >>= p.settleFetch url lifetime).Sources :=
      (p.fetchDocument_fetchOnly url).sources.bind fun result _ =>
        p.settleFetch_sources url lifetime result
    exact hfetch k fun a ha => hk a (.ask none ha)

/-- A source that is tried is counted once, by whether its document was found at first. -/
theorem document_counted {p : Page} {url : Url} {lifetime : Option Nat}
    {k : Except ComposeError (Url × Text) → Program Unit}
    (htries : ((p.document url lifetime).bind k).Tries [])
    (hk : ∀ found, (p.document url lifetime).Yields found → (k found).Sourced False) :
    ((p.document url lifetime).bind k).Sourced False := by
  rw [document_eq] at htries hk ⊢
  refine .begins htries fun found => ?_
  cases found with
  | some content => exact .counted fun _ => hk _ (.ask (some content) (.ask () (.done _)))
  | none =>
    refine .counted fun _ => .aside rfl (not_tries nofun) fun _ => ?_
    refine p.granted_sources url lifetime k fun a ha => ?_
    exact hk a (.ask none (.ask () (.ask () ha)))

end Page

theorem compositional_sources :
    Compositional (fun _ p => p.Sources) (fun _ => True) (fun _ => True) fun _ => True where
  done a k hk := hk a (.done a)
  bind hp hf := hp.bind hf
  nested _ _ := trivial
  content {r i} template _ _ hinner := by
    intro k hk
    cases hurl : r.page.resolveTemplate template with
    | error e =>
      unfold Page.content at hk ⊢
      rw [hurl] at hk ⊢
      exact hk _ (.done _)
    | ok url =>
      have htries : ((r.page.content r.inner i template).bind k).Tries [] :=
        ⟨_, _, _, _, _, hurl, k, .nil _⟩
      rw [Page.content_eq_bind hurl, bind_bind] at htries
      rw [Page.content_eq_bind hurl] at hk ⊢
      rw [bind_bind]
      refine Page.document_counted htries ?_
      rintro (e | ⟨base, document⟩) hfound
      · exact hk _ (yields_bind.mpr ⟨_, hfound, .done _⟩)
      · exact hinner base i.fragment document trivial k fun a ha =>
          hk a (yields_bind.mpr ⟨_, hfound, ha⟩)
  register key body _ := .ask rfl nofun fun _ _ hk => hk _ (.done _)
  opens _ _ _ := trivial

theorem Demand.sources (d : Demand) : d.program.Sources :=
  compositional_sources.demand (fun r context => (Fetch.fetch_fetchOnly r context).sources)
    (fun _ _ => .ask rfl nofun fun _ _ hk => hk _ (.done _)) d

/-! ## Series -/

namespace Journal

def value (j : Journal) (series : Text) : Nat := j.sum (· == series)

def metric (j : Journal) (name : String) : Nat := j.sum (Sample.ofMetric name)

variable (j : Journal)

theorem metric_lookups : j.metric "esi_http_cache_lookups_total" =
    j.samples.countP fun s => (Command.count s).payment.isMention := by
  refine sum_eq_countP (fun s => ?_) j
  cases s <;> simp (disch := decide) [Sample.series, List.countP_cons, Sample.ofMetric_labelled,
    Command.payment, Owed.isMention]

theorem metric_fetches : j.metric "esi_fetches_total" =
    j.samples.countP fun s => (Command.count s).payment.isOutcome := by
  refine sum_eq_countP (fun s => ?_) j
  cases s <;> simp (disch := decide) [Sample.series, List.countP_cons, Sample.ofMetric_labelled,
    Command.payment, Owed.isOutcome]

theorem metric_fragments : j.metric "esi_fragment_cache_lookups_total" =
    j.samples.countP Sample.isFragment := by
  refine sum_eq_countP (fun s => ?_) j
  cases s <;> simp (disch := decide) [Sample.series, List.countP_cons, Sample.ofMetric_labelled,
    Sample.isFragment]

def lookupSeries (result : Text) : Text :=
  Sample.labelled "esi_http_cache_lookups_total" [("result", result)]

theorem value_lookup (result : Text) : j.value (lookupSeries result) = j.samples.countP fun
    | .responseLookup found => found.name == result
    | _ => false := by
  refine sum_eq_countP (fun s => ?_) j
  cases s with
  | responseLookup found =>
    have hsame : (Sample.labelled "esi_http_cache_lookups_total" [("result", found.name)] ==
        lookupSeries result) = (found.name == result) := by
      rw [Bool.eq_iff_iff, beq_iff_eq, beq_iff_eq]
      simp [lookupSeries, Sample.labelled]
    simp only [Sample.series, List.countP_singleton, hsame]
  | fetched status =>
    have hplain : ("esi_fetch_duration_seconds".toList == lookupSeries result) = false := rfl
    have hother : (Sample.labelled "esi_fetches_total" [("status", Text.ofNat status)] ==
        lookupSeries result) = false :=
      beq_false_of_ne (Sample.labelled_ne (by decide) (by decide) (by decide))
    rw [Sample.series, List.countP_cons, List.countP_singleton, hplain, hother]
    rfl
  | _ => simp (disch := decide) [Sample.series, lookupSeries, Sample.labelled_ne]

/-- The look-ups that came to nothing are the misses and those that were bypassed. -/
theorem value_misses : j.value (lookupSeries "miss".toList) + j.value (lookupSeries "bypass".toList) =
    j.samples.countP fun s => (Command.count s).payment.isMiss := by
  rw [value_lookup, value_lookup]
  induction j.samples with
  | nil => rfl
  | cons s samples ih =>
    simp only [List.countP_cons]
    have hs : ((if (match s with
        | .responseLookup found => found.name == "miss".toList
        | _ => false) then 1 else 0) + if (match s with
        | .responseLookup found => found.name == "bypass".toList
        | _ => false) then 1 else 0) = if (Command.count s).payment.isMiss then 1 else 0 := by
      cases s with
      | responseLookup found => cases found <;> rfl
      | _ => rfl
    omega

end Journal

/-! ## Runs -/

namespace Command

/-- Commands that may come to an overflow or have to wait. -/
def mayStop : Command → Bool
  | .keep .. | .offer .. | .acquire _ => true
  | _ => false

end Command

namespace System

variable {α : Type} {s : System α} {acts : List Act}

/-- How many programs are left, or were given up, when a command of a kind came next. -/
def waiting (s : System α) (acts : List Act) (kind : Command → Bool) : Nat :=
  ∑ who ∈ Finset.range s.programs.length,
    if (s.left? who acts).any (·.waits kind) then 1 else 0

/-- How often in a run a source was tried that could be resolved. -/
noncomputable def tries (s : System α) (acts : List Act) : Nat :=
  ∑ who ∈ Finset.range s.programs.length, (s.rest? who).elim 0 (·.tries (s.log who acts))

/-- Every program is left, or was given up, at its end or when a command came that may stop it. -/
def AtRest (s : System α) (acts : List Act) : Prop :=
  ∀ who rest, s.left? who acts = some rest → ∀ c, rest.command? = some c → c.mayStop = true

theorem waiting_of_atRest (h : s.AtRest acts) {kind : Command → Bool}
    (hkind : ∀ c, kind c = true → c.mayStop = false) : s.waiting acts kind = 0 := by
  refine Finset.sum_eq_zero fun who _ => if_neg ?_
  intro hany
  obtain ⟨rest, hrest, hwaits⟩ := Option.any_eq_true _ _ |>.mp hany
  obtain ⟨c, hc, hck⟩ := Option.any_eq_true _ _ |>.mp hwaits
  exact Bool.false_ne_true ((hkind c hck).symm.trans (h who rest hrest c hc))

/-- What is so of every log is so of all. -/
theorem sum_balance {n : Nat → Nat} {g : Answered → Bool} {kind : Command → Bool}
    (h : ∀ who < s.programs.length, ∃ rest, s.left? who acts = some rest ∧
      n who = (s.log who acts).countP g + if rest.waits kind then 1 else 0) :
    ∑ who ∈ Finset.range s.programs.length, n who = s.total acts g + s.waiting acts kind := by
  unfold total waiting
  rw [← Finset.sum_add_distrib]
  refine Finset.sum_congr rfl fun who hwho => ?_
  obtain ⟨rest, hrest, hn⟩ := h who (Finset.mem_range.mp hwho)
  rw [hn, hrest]
  rfl

/-! ### Runs that come to rest -/

theorem mayStop_of_reply {w w' : World} {who : Nat} {c : Command} {reply : Reply c.Answer}
    (h : w.reply who c = (reply, w')) (hnone : ∀ answer, reply ≠ .answer answer) :
    c.mayStop = true := by
  have hreplied := World.Replied.of_reply h
  cases hreplied <;> first | rfl | exact absurd rfl (hnone _)

/-- A program that an act gives up, or leaves as it is, is left where it was. -/
theorem left?_singleton {who : Nat} {act : Act}
    (h : (s.step act).rest? who = none ∨ (s.step act).rest? who = s.rest? who) :
    s.left? who [act] = s.rest? who := by
  unfold left? left?
  rcases h with hgone | hsame
  · rw [hgone]
  · rw [hsame]
    cases s.rest? who <;> rfl

/-- What a program that runs alone comes to, it comes to in a system, and is at rest then. -/
theorem exists_atRest_of_run {p : Program α} (h : s.rest? 0 = some p) :
    ∃ acts, (s.run acts).world.journal = (p.run s.world).2.journal ∧
      ∀ rest, s.left? 0 acts = some rest → ∀ c, rest.command? = some c → c.mayStop = true := by
  induction p generalizing s with
  | done a =>
    refine ⟨[], rfl, fun rest hrest c hc => ?_⟩
    cases h.symm.trans hrest
    cases hc
  | ask c next ih =>
    have hadvance := step_advance h
    unfold Program.run
    cases hreply : s.world.reply 0 c with
    | mk reply w =>
      rw [hreply] at hadvance
      -- A program that is not answered is left where it was.
      have hstops (hnone : ∀ answer, reply ≠ .answer answer)
          (hrest : (s.step (.advance 0)).rest? 0 = none ∨
            (s.step (.advance 0)).rest? 0 = s.rest? 0) :
          ∀ rest, s.left? 0 [.advance 0] = some rest →
            ∀ c, rest.command? = some c → c.mayStop = true := by
        intro rest hleft c' hc'
        cases h.symm.trans ((left?_singleton hrest).symm.trans hleft)
        cases hc'
        exact mayStop_of_reply hreply hnone
      cases reply with
      | answer answer =>
        have hnext : (s.step (.advance 0)).rest? 0 = some (next answer) := by
          rw [hadvance]
          exact rest?_put_self h _ _
        obtain ⟨acts, hjournal, hrest⟩ := ih answer hnext
        refine ⟨.advance 0 :: acts, ?_, fun rest hleft => hrest rest ?_⟩
        · rw [run_cons, hjournal, hadvance]
          rfl
        · unfold left? at hleft
          rwa [hnext] at hleft
      | wait =>
        refine ⟨[.advance 0], ?_, hstops (by rintro _ ⟨⟩) (.inr ?_)⟩
        · rw [run_cons, hadvance]
          rfl
        · rw [hadvance]
          rfl
      | overflow =>
        refine ⟨[.advance 0], ?_, hstops (by rintro _ ⟨⟩) (.inl ?_)⟩
        · rw [run_cons, hadvance]
          rfl
        · rw [hadvance]
          exact rest?_giveUp_self _ _

/-- Programs that run together until all are finished leave nothing behind. -/
theorem exists_atRest_of_runAll {w w' : World} {programs : List (Program α)} {results : List α}
    (h : Program.runAll w programs = (.finished results, w')) :
    ∃ acts, ((start w programs).run acts).world = w' ∧ (start w programs).AtRest acts := by
  have hstart : ofTasks w [] (programs.map Task.running) = start w programs := by
    simp [ofTasks, start, ofTask]
  obtain ⟨acts, hacts⟩ := crew_run h
  rw [hstart] at hacts
  refine ⟨acts, by rw [hacts], fun who rest hleft c hc => ?_⟩
  have hfinal : ((start w programs).run acts).rest? who = results[who]?.map .done := by
    rw [hacts, rest?, List.getElem?_map]
    cases results[who]? <;> rfl
  cases hresult : results[who]? with
  | none =>
    have hlength : programs.length = results.length := by
      have hrun := length_run (start w programs) acts
      rw [hacts] at hrun
      simpa [start] using hrun.symm
    have hgone : (start w programs).rest? who = none := by
      rw [rest?_start]
      exact List.getElem?_eq_none (hlength ▸ List.getElem?_eq_none_iff.mp hresult)
    cases (left?_of_gone hgone acts).symm.trans hleft
  | some result =>
    rw [hresult] at hfinal
    cases (left?_of_rest? hfinal).symm.trans hleft
    cases hc

end System

namespace Answered

theorem sends_eq : sends = does fun payment _ => payment.isRequest := by
  funext a
  obtain ⟨c, answer⟩ := a
  cases c with
  | count s => cases s <;> rfl
  | _ => rfl

/-- What is paid by counting it is a sample. -/
theorem samples_eq {kind : Owed → Bool} (hnothing : kind .nothing = false)
    (hlookup : kind .lookup = false) (hrequest : kind .request = false) :
    samples (fun s => kind (Command.count s).payment) = does fun payment _ => kind payment := by
  funext a
  obtain ⟨c, answer⟩ := a
  cases c with
  | count s => rfl
  | consult r => exact hlookup.symm
  | send r => exact hrequest.symm
  | _ => exact hnothing.symm

end Answered

/-- A journal says the same as what was done: so many fetches let through, so many sources tried,
and for what is not yet done the number of programs `waiting` to do it. -/
structure Journal.Conserves (j : Journal) (cached : Bool) (passed tried : Nat)
    (waiting : (Command → Bool) → Nat) : Prop where
  lookups : cached = true → passed =
    j.metric "esi_http_cache_lookups_total" + waiting (·.payment.isLookup)
  misses : cached = true →
    j.value (lookupSeries "miss".toList) + j.value (lookupSeries "bypass".toList) =
      j.sent.length + waiting (·.payment.isRequest)
  fetches : j.sent.length = j.metric "esi_fetches_total" + waiting (·.payment.isOutcome)
  sources : tried = j.metric "esi_fragment_cache_lookups_total" + waiting Command.countsFragment
  uncached : cached = false → j.metric "esi_http_cache_lookups_total" = 0 ∧
    passed = j.metric "esi_fetches_total" + waiting (·.payment.isUncached)

/-- Without anything to wait for, the journal says exactly what was done. -/
theorem Journal.Conserves.exact {j : Journal} {cached : Bool} {passed tried : Nat}
    {waiting : (Command → Bool) → Nat} (h : j.Conserves cached passed tried waiting)
    (hnone : ∀ kind : Command → Bool, (∀ c, kind c = true → c.mayStop = false) →
      waiting kind = 0) : j.Conserves cached passed tried fun _ => 0 := by
  have hpayment (kind : Owed → Bool) (hnothing : kind .nothing = false) :
      waiting (kind ·.payment) = 0 := by
    refine hnone _ fun c hc => ?_
    cases c with
    | keep | offer | acquire => exact absurd hc (by simp [Command.payment, hnothing])
    | _ => rfl
  have hfragment : waiting Command.countsFragment = 0 := by
    refine hnone _ fun c hc => ?_
    cases c with
    | count s => rfl
    | _ => cases hc
  exact {
    lookups := fun hc => (h.lookups hc).trans (congrArg _ (hpayment _ rfl))
    misses := fun hc => (h.misses hc).trans (congrArg _ (hpayment _ rfl))
    fetches := h.fetches.trans (congrArg _ (hpayment _ rfl))
    sources := h.sources.trans (congrArg _ hfragment)
    uncached := fun hc => (h.uncached hc).imp_right fun hp =>
      hp.trans (congrArg _ (hpayment _ rfl)) }

namespace System

section Demands

variable {s : System Unit}
  (hdemands : ∀ who < s.programs.length, ∃ d : Demand, s.rest? who = some d.program)
include hdemands

theorem total_of_debt {cached : Bool} {f g : Owed → Bool → Bool} {due : Owed → Bool}
    (hcached : s.world.responses.isSome = cached) (hdebt : Debt cached f g due)
    (acts : List Act) :
    s.total acts (Answered.does f) =
      s.total acts (Answered.does g) + s.waiting acts (due ·.payment) := by
  refine sum_balance fun who hwho => ?_
  obtain ⟨d, hd⟩ := hdemands who hwho
  obtain ⟨rest, hleft, hperforms⟩ := performs_left hd acts
  refine ⟨rest, hleft, hdebt.balance (d.counts cached) hperforms fun a ha => ?_⟩
  exact hcached ▸ log_fromStore s acts a ha

theorem tries_eq (acts : List Act) :
    s.tries acts = s.total acts (Answered.samples Sample.isFragment) +
      s.waiting acts Command.countsFragment := by
  refine sum_balance fun who hwho => ?_
  obtain ⟨d, hd⟩ := hdemands who hwho
  obtain ⟨rest, hleft, hperforms⟩ := performs_left hd acts
  refine ⟨rest, hleft, ?_⟩
  have hsourced : d.program.Sourced False := by
    have h := d.sources .done fun _ _ => id
    rwa [bind_done] at h
  have hbalance := hsourced.balance hperforms
  rw [if_neg id] at hbalance
  rw [hd]
  exact hbalance

theorem conserves (hj : s.world.journal = {}) (acts : List Act) :
    (s.run acts).world.journal.Conserves s.world.responses.isSome (s.total acts Answered.passes)
      (s.tries acts) (s.waiting acts) := by
  have hsamples (kind : Sample → Bool) : (s.run acts).world.journal.samples.countP kind =
      s.total acts (Answered.samples kind) := by
    have hrun := Tallies.run (World.tallies_samples kind) s acts
    rw [hj] at hrun
    simpa using hrun
  have hsent : (s.run acts).world.journal.sent.length =
      s.total acts (Answered.does fun payment _ => payment.isRequest) := by
    have hrun := Tallies.run World.tallies_sent s acts
    rw [hj, Answered.sends_eq] at hrun
    simpa using hrun
  have hlookups : (s.run acts).world.journal.metric "esi_http_cache_lookups_total" =
      s.total acts (Answered.does fun payment _ => payment.isMention) := by
    rw [Journal.metric_lookups, hsamples, Answered.samples_eq rfl rfl rfl]
  have hfetches : (s.run acts).world.journal.metric "esi_fetches_total" =
      s.total acts (Answered.does fun payment _ => payment.isOutcome) := by
    rw [Journal.metric_fetches, hsamples, Answered.samples_eq rfl rfl rfl]
  exact {
    lookups := fun hc => hlookups ▸ total_of_debt hdemands hc Debt.lookups acts
    misses := fun hc => by
      rw [Journal.value_misses, hsamples, Answered.samples_eq rfl rfl rfl, hsent]
      exact total_of_debt hdemands hc Debt.requests acts
    fetches := by
      rw [hsent, hfetches]
      exact total_of_debt hdemands rfl Debt.outcomes acts
    sources := by
      rw [Journal.metric_fragments, hsamples]
      exact tries_eq hdemands acts
    uncached := fun hc => by
      rw [hlookups, hfetches]
      refine ⟨?_, total_of_debt hdemands hc Debt.uncached acts⟩
      rw [total_of_debt hdemands hc Debt.unlooked acts]
      simp [total, waiting, Answered.does, Program.waits] }

end Demands

/-- However demands on a server are interleaved, and whichever of them are given up, its counters
say what it did, but for what the programs that are left had come to. If none of them was stopped
between a deed and its count, they say exactly what it did. So it is when programs that run together
all finish, and when a program runs alone, whatever it comes to. -/
theorem counters_conserved (w : World) (demands : List Demand) (acts : List Act) :
    let s := start { w with journal := {} } (demands.map Demand.program)
    let j := (s.run acts).world.journal
    let passed := s.total acts Answered.passes
    j.Conserves w.responses.isSome passed (s.tries acts) (s.waiting acts) ∧
    (s.AtRest acts → j.Conserves w.responses.isSome passed (s.tries acts) fun _ => 0) ∧
    (∀ results w', Program.runAll { w with journal := {} } (demands.map Demand.program) =
      (.finished results, w') → ∃ acts, (s.run acts).world = w' ∧ s.AtRest acts) ∧
    ∀ d, demands = [d] → ∃ acts, s.AtRest acts ∧
      (s.run acts).world.journal = (d.program.run { w with journal := {} }).2.journal := by
  intro s j passed
  have hdemands : ∀ who < s.programs.length, ∃ d : Demand, s.rest? who = some d.program := by
    intro who hwho
    have hlt : who < demands.length := by simpa [s, start] using hwho
    refine ⟨demands[who], ?_⟩
    rw [rest?_start, List.getElem?_map, List.getElem?_eq_getElem hlt]
    rfl
  have hconserves := conserves hdemands rfl acts
  refine ⟨hconserves, fun hrest => hconserves.exact fun _ => waiting_of_atRest hrest,
    fun _ _ => exists_atRest_of_runAll, ?_⟩
  rintro d rfl
  obtain ⟨acts, hjournal, hrest⟩ := exists_atRest_of_run (s := s) (p := d.program) rfl
  refine ⟨acts, ?_, hjournal⟩
  intro who rest hleft
  cases who with
  | zero => exact hrest rest hleft
  | succ who =>
    have hgone : s.rest? (who + 1) = none := rfl
    cases (left?_of_gone hgone acts).symm.trans hleft

end System

/-! ## Two requests at once -/

/-- What a crew comes to if so many rounds are enough. -/
def Crew.runWithin {α : Type} (w : World) (c : Crew α) : Nat → Option (Outcome (List α) × World)
  | 0 => none
  | rounds + 1 =>
    match c.results? with
    | some results => some (.finished results, w)
    | none =>
      match round 0 w c.tasks with
      | (.moved rest _, w) => runWithin w { tasks := rest } rounds
      | (.still, w) => some (.stuck, w)
      | (.overflowed, w) => some (.overflowed, w.abandoned)

theorem Crew.run_of_runWithin {α : Type} {w : World} {c : Crew α} {rounds : Nat}
    {ended : Outcome (List α) × World} (h : c.runWithin w rounds = some ended) :
    c.run w = ended := by
  induction rounds generalizing w c with
  | zero => cases h
  | succ rounds ih =>
    unfold runWithin at h
    unfold run
    cases hresults : c.results? with
    | some results =>
      simp only [hresults] at h ⊢
      exact Option.some.inj h
    | none =>
      simp only [hresults] at h ⊢
      generalize round 0 w c.tasks = found at h ⊢
      obtain ⟨moved, w'⟩ := found
      cases moved with
      | still => exact Option.some.inj h
      | moved rest hahead => exact ih h
      | overflowed => exact Option.some.inj h

namespace System

def plainRenderer : Renderer := .ofPage { settings := {}, backends := {}, request := {} }

def pair : List Demand :=
  [.render plainRenderer "<esi:include src='http://mock.local/a'/>".toList,
    .fetch Fetch.someRequest {}]

/-- Both look the document up before it is stored, so both are misses and are sent. -/
theorem counters_conserved_pair :
    let s := start (Fetch.storedFor "60") (pair.map Demand.program)
    ∃ acts, s.AtRest acts ∧ s.total acts Answered.passes = 2 ∧ s.tries acts = 1 ∧
      (s.run acts).world.journal.sent.length = 2 := by
  have hended : (Crew.runWithin (Fetch.storedFor "60")
      { tasks := (pair.map Demand.program).map .running } 5).any (fun ended =>
        ended.1 = .finished [(), ()] ∧
          ended.2.journal.metric "esi_http_cache_lookups_total" = 2 ∧
          ended.2.journal.metric "esi_fragment_cache_lookups_total" = 1 ∧
          ended.2.journal.sent.length = 2) = true := by decide +kernel
  obtain ⟨⟨outcome, w⟩, hwithin, hjournal⟩ := (Option.any_eq_true _ _).mp hended
  obtain ⟨rfl, hlookups, hfragments, hsent⟩ := of_decide_eq_true hjournal
  obtain ⟨acts, hworld, hrest⟩ :=
    (counters_conserved (Fetch.storedFor "60") pair []).2.2.1 _ _ (Crew.run_of_runWithin hwithin)
  have hexact := (counters_conserved (Fetch.storedFor "60") pair acts).2.1 hrest
  have hpassed := hexact.lookups rfl
  have htried := hexact.sources
  rw [hworld] at hpassed htried
  refine ⟨acts, hrest, hpassed.trans hlookups, htried.trans hfragments, ?_⟩
  exact (congrArg (fun w : World => w.journal.sent.length) hworld).trans hsent

/-- A render that keeps its document for longer than the clock can tell, and another one. -/
def torn : List Demand :=
  [.render plainRenderer
      "<esi:include src='http://mock.local/a' ttl='18446744073709551615'/>".toList,
    .render plainRenderer "<esi:include src='http://mock.local/b'/>".toList]

/-- When the first render overflows the second one is given up before the outcome of its request is
counted. -/
theorem outcome_uncounted :
    let ended := Program.runAll (Fetch.storedFor "60") (torn.map Demand.program)
    ended.1 = .overflowed ∧ ended.2.journal.sent.length = 2 ∧
      ended.2.journal.value (Journal.lookupSeries "miss".toList) = 2 ∧
      ended.2.journal.metric "esi_fetches_total" = 1 := by
  have hended : (Crew.runWithin (Fetch.storedFor "60")
      { tasks := (torn.map Demand.program).map .running } 5).any (fun ended =>
        ended.1 = .overflowed ∧ ended.2.journal.sent.length = 2 ∧
          ended.2.journal.value (Journal.lookupSeries "miss".toList) = 2 ∧
          ended.2.journal.metric "esi_fetches_total" = 1) = true := by decide +kernel
  obtain ⟨ended, hwithin, hjournal⟩ := (Option.any_eq_true _ _).mp hended
  have hrun : Program.runAll (Fetch.storedFor "60") (torn.map Demand.program) = ended :=
    Crew.run_of_runWithin hwithin
  rw [hrun]
  exact of_decide_eq_true hjournal

end System

end EdgeCompose
