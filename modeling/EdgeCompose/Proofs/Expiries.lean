import EdgeCompose.Proofs.Frames
import EdgeCompose.Proofs.Levels
import EdgeCompose.Proofs.Nesting
import EdgeCompose.Proofs.StoredAnswers

/-!
When things that are stored expire. Two commands of a render add a lifetime to the time
(`World.Adds`): one keeps a document that was fetched, the other offers an answer to the store. The
lifetime is that of an include tag, or that of the settings, or the one that the backend's answer asks
for (`Job.Lends`). A render comes to its end exactly if no such sum is beyond the last second of the
clock (`Job.finishes_iff_expiries_fit`), and there are lifetimes that no time has room for
(`longest_lifetimes_overflow`).
-/

namespace EdgeCompose

open Program

/-! ## Sums of a time and a lifetime -/

/-- To carry out the command, a lifetime is added to a time. -/
inductive World.Adds (w : World) : Command → Int → Nat → Prop
  | keeps {key : FragmentKey} {content : Text} {lifetime : Nat} :
    Adds w (.keep key content (some lifetime)) w.clock.calendar lifetime
  | stores {s : ResponseStore} {r : FetchRequest} {response : Response} {lifetime : Nat}
    {names : List Text} : w.responses = some s →
    ResponseStore.storable? r response = some (lifetime, names) →
    (s.makeRoom w.clock.steady r.key).isFullFor r.key = false →
    Adds w (.offer r response) w.clock.steady lifetime

theorem Clock.after?_of_last_lt {now seconds : Int} (h : last < now + seconds) :
    after? now seconds = .error .expiry := if_pos h

theorem World.expiry?_overflows {w : World} {lifetime : Option Nat} {e : Overflow}
    (h : w.expiry? lifetime = .error e) :
    ∃ l, lifetime = some l ∧ Clock.last < w.clock.calendar + l := by
  obtain ⟨l, hl, hroom⟩ := not_hasRoom_of_expiry? h
  exact ⟨l, hl, Int.not_le.mp hroom⟩

/-- A command overflows exactly if a sum that it takes is beyond the last second. -/
theorem World.reply_overflows_iff {w : World} {who : Nat} {c : Command} :
    (w.reply who c).1 = .overflow ↔
      ∃ now lifetime, w.Adds c now lifetime ∧ Clock.last < now + lifetime := by
  constructor
  · intro h
    have hreplied := replied w who c
    generalize w.reply who c = found at h hreplied
    obtain ⟨reply, w'⟩ := found
    subst h
    cases hreplied with
    | tooLong hexpiry =>
      obtain ⟨l, rfl, hlast⟩ := expiry?_overflows hexpiry
      exact ⟨_, l, .keeps, hlast⟩
    | offerTooLong hs hstore =>
      obtain ⟨l, names, hstorable, hroom, hlast⟩ :=
        ResponseStore.store_overflows.mp ⟨_, congrArg Prod.fst hstore⟩
      exact ⟨_, l, .stores hs hstorable hroom, hlast⟩
  · rintro ⟨now, l, hadds, hlast⟩
    cases hadds with
    | keeps => simp only [reply, keep, expiry?, Clock.after?_of_last_lt hlast, Except.map]
    | @stores s r response _ names hs hstorable hroom =>
      obtain ⟨overflow, hstore⟩ := ResponseStore.store_overflows.mpr ⟨l, names, hstorable, hroom, hlast⟩
      simp only [reply, offer, hs, hstore, Except.map]

/-- An answer is stored, or it is not, unless there is room for it but not for its lifetime. -/
theorem ResponseStore.store_returns_iff {s : ResponseStore} {now : Int} {r : FetchRequest}
    {response : Response} :
    (∃ stored, (s.store now r response).1 = .ok stored) ↔
      ∀ lifetime names, storable? r response = some (lifetime, names) →
        (s.makeRoom now r.key).isFullFor r.key = false → now + lifetime ≤ Clock.last := by
  have hoverflows : (∃ overflow, (s.store now r response).1 = .error overflow) ↔ _ :=
    store_overflows
  cases hresult : (s.store now r response).1 with
  | ok stored =>
    rw [hresult] at hoverflows
    refine ⟨fun _ lifetime names hstorable hroom => Int.not_lt.mp fun hlast => ?_, fun _ => ⟨_, rfl⟩⟩
    obtain ⟨_, ⟨⟩⟩ := hoverflows.mpr ⟨lifetime, names, hstorable, hroom, hlast⟩
  | error overflow =>
    rw [hresult] at hoverflows
    obtain ⟨lifetime, names, hstorable, hroom, hlast⟩ := hoverflows.mp ⟨_, rfl⟩
    refine ⟨nofun, fun hfits => ?_⟩
    exact absurd (hfits lifetime names hstorable hroom) (Int.not_le.mpr hlast)

/-! ## Where lifetimes come from -/

theorem World.Gives.clock {w w' : World} {log : List Answered} (h : w.Gives log w') :
    w'.clock = w.clock := by
  induction h with
  | nil => rfl
  | cons hreply _ ih => exact ih.trans (World.Replied.of_reply hreply).clock

/-- What a program alone offers to the store came of the request that it offers it under. -/
theorem Program.cameOf_of_offer {α : Type} {p : Program α} {w w₁ : World} {log : List Answered}
    {m : Option (FetchRequest × Except TransportFailure Response)} {r : FetchRequest}
    {response : Response} {next : (Command.offer r response).Answer → Program α}
    (hp : p.Obeys offerProtocol (fun _ _ => True) m) (hm : w.Recalls m) (hgives : w.Gives log w₁)
    (h : p.Performs log (.ask (.offer r response) next)) :
    ∃ outcome, w₁.CameOf r outcome ∧ response = answerOf outcome := by
  induction hgives generalizing p m with
  | nil w =>
    rw [performs_nil_iff] at h
    subst h
    obtain ⟨outcome, hmode, rfl⟩ := hp.1
    exact ⟨outcome, hm r outcome hmode, rfl⟩
  | cons hreply _ ih =>
    cases h with
    | cons _ h => exact ih (hp.2 _ trivial) (hm.next (.of_reply hreply)) h

theorem Inclusion.lifetime_of_ofTag {tag : Text} {i : Inclusion} (h : ofTag tag = .ok i) :
    i.lifetime = ((Markup.attributes tag).get? "ttl".toList).bind lifetime? := by
  unfold ofTag at h
  simp only at h
  split at h
  · cases h
  · cases h
    rfl

namespace Job

variable {j : Job} {w w₁ : World} {log : List Answered} {c : Command} {now : Int} {lifetime : Nat}

/-- An include that comes to its end is that of a start tag of the document. -/
theorem Ends.inclusion {i : Inclusion} (h : j.Ends log (.inclusion i)) :
    ∃ tag, .tag tag ∈ Markup.scan j.document ∧
      Markup.lookup? tag = some (.starts .inclusion) ∧ Inclusion.ofTag tag = .ok i := by
  cases h with
  | @intro tag before after c c' hscan hbefore hended =>
    have hall (tag' : Text) (e : Element) (htag : .tag tag' ∈ before ++ .tag tag :: after)
        (hopens : Markup.Opens tag' e) : ∀ i, e = .inclusion i → ∃ tag,
          .tag tag ∈ Markup.scan j.document ∧ Markup.lookup? tag = some (.starts .inclusion) ∧
            Inclusion.ofTag tag = .ok i := by
      rintro i rfl
      exact ⟨tag', hscan ▸ htag, hopens.directive, hopens.inclusion⟩
    exact Page.ended?_all hall hbefore.yields hended i rfl

/-- A job alone comes to give the command, and this is the world then. -/
def Reaches (j : Job) (w w₁ : World) (c : Command) : Prop :=
  ∃ log next, w.Gives log w₁ ∧ Performs j.program log (.ask c next)

/-- Where a lifetime comes from that a job adds to a time. A document that was fetched for an include
is kept for the time of its tag or else of the settings, and an answer of the backend is stored for as
long as it asks for. -/
inductive Lends (j : Job) (w w₁ : World) : Command → Int → Nat → Prop
  | tag {depth lifetime : Nat} {log log₁ log₂ log₃ : List Answered} {n : Job} {tag content : Text}
    {i : Inclusion} {url final : Url} : j.Descends depth log n → .tag tag ∈ Markup.scan n.document →
    Markup.lookup? tag = some (.starts .inclusion) → Inclusion.ofTag tag = .ok i →
    n.Ends log₁ (.inclusion i) → n.renderer.page.Wants n.renderer.inner i log₂ url →
    Performs (n.renderer.page.fetchDocument url) log₃ (.done (.ok (final, content))) →
    (((Markup.attributes tag).get? "ttl".toList).bind Inclusion.lifetime? <|>
      j.renderer.page.settings.lifetime) = some lifetime →
    Lends j w w₁ (.keep (Page.documentKey url) content (some lifetime)) w.clock.calendar lifetime
  | answer {r : FetchRequest} {response : Response} {lifetime : Nat} :
    w₁.CameOf r (.ok response) →
    (CacheControl.ofHeaders response.headers).lifetime? = some lifetime →
    Lends j w w₁ (.offer r response) w.clock.steady lifetime

theorem Reaches.lends (h : j.Reaches w w₁ c) (hadds : w₁.Adds c now lifetime) :
    j.Lends w w₁ c now lifetime := by
  obtain ⟨log, next, hgives, hlog⟩ := h
  cases hadds with
  | keeps =>
    obtain ⟨depth, earlier, own, n, -, hdescends, hasks⟩ := asked hlog
    rw [hgives.clock]
    cases hasks with
    | registers _ _ hcommand => cases hcommand
    | wants _ hends hwants hdocument =>
      obtain ⟨_, _, _, _, -, -, hfetched, hkeeps⟩ := Page.document_keeps hdocument rfl
      obtain ⟨rfl, rfl, hlifetime⟩ := Command.keep.inj hkeeps
      obtain ⟨tag, htag, hlookup, hi⟩ := hends.inclusion
      refine .tag hdescends htag hlookup hi hends hwants hfetched ?_
      rw [← Inclusion.lifetime_of_ofTag hi, ← hdescends.settings]
      exact hlifetime.symm
  | @stores s r response _ names _ hstorable _ =>
    have hoffers : j.program.OffersAnswers :=
      compositional_offersAnswers.compose trivial j.wanted trivial
    obtain ⟨outcome, hcame, rfl⟩ := cameOf_of_offer (hoffers none) nofun hgives hlog
    rw [hgives.clock]
    cases outcome with
    | error failure =>
      rw [answerOf, ResponseStore.storable?_ofFailure] at hstorable
      cases hstorable
    | ok response =>
      exact .answer hcame (ResponseHistory.Accepted.storable?_eq_some
        (a := { request := r, response, time := 0 }) hstorable).2.1

/-! ## Renders and stores -/

theorem overflows_iff : (j.program.run w).1 = .overflowed ↔ ∃ w₁ c now lifetime,
    j.Reaches w w₁ c ∧ w₁.Adds c now lifetime ∧ Clock.last < now + lifetime := by
  rw [run_overflows_iff]
  constructor
  · rintro ⟨log, w₁, c, next, hgives, hlog, hover⟩
    obtain ⟨now, lifetime, hadds, hlast⟩ := World.reply_overflows_iff.mp hover
    exact ⟨w₁, c, now, lifetime, ⟨log, next, hgives, hlog⟩, hadds, hlast⟩
  · rintro ⟨w₁, c, now, lifetime, ⟨log, next, hgives, hlog⟩, hadds, hlast⟩
    exact ⟨log, w₁, c, next, hgives, hlog, World.reply_overflows_iff.mpr ⟨now, lifetime, hadds, hlast⟩⟩

/-- Where no lock is held, a render, or an extraction, comes to a text or an error exactly if all the
sums of a time and a lifetime that it takes are up to the last second of the clock, and it overflows if
one is not. Each of the lifetimes is that of an include tag or of the settings, or the backend's answer
asks for it. And the store comes to a result exactly if what it stores has room for its lifetime. -/
theorem finishes_iff_expiries_fit (r : Renderer) (wanted : Option Text) (document : Text) (w : World)
    (hfree : ∀ key, w.locks.isFree key = true) :
    let j : Job := { renderer := r, wanted, document }
    ((∃ result w', j.program.run w = (.finished result, w')) ↔ ∀ w₁ c now lifetime,
      j.Reaches w w₁ c → w₁.Adds c now lifetime → now + lifetime ≤ Clock.last) ∧
    ((j.program.run w).1 = .overflowed ↔ ∃ w₁ c now lifetime,
      j.Reaches w w₁ c ∧ w₁.Adds c now lifetime ∧ Clock.last < now + lifetime) ∧
    (∀ w₁ c now lifetime, j.Reaches w w₁ c → w₁.Adds c now lifetime →
      j.Lends w w₁ c now lifetime) ∧
    ∀ (s : ResponseStore) (now : Int) (request : FetchRequest) (response : Response),
      (∃ stored, (s.store now request response).1 = .ok stored) ↔
        ∀ lifetime names, ResponseStore.storable? request response = some (lifetime, names) →
          (s.makeRoom now request.key).isFullFor request.key = false →
          now + lifetime ≤ Clock.last := by
  intro j
  have hends : (∃ result w', j.program.run w = (.finished result, w')) ∨
      (j.program.run w).1 = .overflowed := r.compose_ends wanted document hfree
  refine ⟨⟨?_, fun hfits => ?_⟩, overflows_iff, fun _ _ _ _ => Reaches.lends, fun _ _ _ _ =>
    ResponseStore.store_returns_iff⟩
  · rintro ⟨result, w', hrun⟩ w₁ c now lifetime hreaches hadds
    refine Int.not_lt.mp fun hlast => ?_
    have hover := overflows_iff.mpr ⟨w₁, c, now, lifetime, hreaches, hadds, hlast⟩
    rw [hrun] at hover
    cases hover
  · refine hends.resolve_right fun hover => ?_
    obtain ⟨w₁, c, now, lifetime, hreaches, hadds, hlast⟩ := overflows_iff.mp hover
    exact absurd (hfits w₁ c now lifetime hreaches hadds) (Int.not_le.mpr hlast)

/-! ## Lifetimes of a minute, and the longest ones -/

open Renderer (partRenderer partWorld)

def lasting (ttl : String) : Job where
  renderer := partRenderer
  document := ("<esi:include src='http://host/part' ttl='" ++ ttl ++ "'/>").toList

theorem finishes_iff_expiries_fit_part : (∀ key, partWorld.locks.isFree key = true) ∧
    ((lasting "1m").program.run partWorld).1 = .finished (.ok "part".toList) ∧
    (∀ w₁ c now lifetime, (lasting "1m").Reaches partWorld w₁ c → w₁.Adds c now lifetime →
      now + lifetime ≤ Clock.last) ∧
    ∃ w₁ c now lifetime, (lasting "18446744073709551615").Lends partWorld w₁ c now lifetime ∧
      Clock.last < now + lifetime := by
  have hfree : ∀ key, partWorld.locks.isFree key = true := fun _ => rfl
  have hrun : ((lasting "1m").program.run partWorld).1 = .finished (.ok "part".toList) := by
    decide +kernel
  have hover : ((lasting "18446744073709551615").program.run partWorld).1 = .overflowed := by
    decide +kernel
  have hshort := finishes_iff_expiries_fit partRenderer none (lasting "1m").document partWorld hfree
  have hlong := finishes_iff_expiries_fit partRenderer none
    (lasting "18446744073709551615").document partWorld hfree
  refine ⟨hfree, hrun, hshort.1.mp ⟨_, _, Prod.ext hrun rfl⟩, ?_⟩
  obtain ⟨w₁, c, now, lifetime, hreaches, hadds, hlast⟩ := hlong.2.1.mp hover
  exact ⟨w₁, c, now, lifetime, hlong.2.2.1 w₁ c now lifetime hreaches hadds, hlast⟩

/-- The longest lifetimes that can be written are too long for a render and for the store. -/
theorem longest_lifetimes_overflow :
    (¬ ∀ (r : Renderer) (document : Text) (w : World), (∀ key, w.locks.isFree key = true) →
      ∃ result w', (r.render document).run w = (.finished result, w')) ∧
    ¬ ∀ (s : ResponseStore) (now : Int) (request : FetchRequest) (response : Response),
      now ≤ Clock.last → ∃ stored, (s.store now request response).1 = .ok stored := by
  constructor
  · intro hall
    obtain ⟨result, w', hrun⟩ :=
      hall partRenderer (lasting "18446744073709551615").document partWorld fun _ => rfl
    have hover : ((partRenderer.render (lasting "18446744073709551615").document).run partWorld).1 =
        .overflowed := by decide +kernel
    rw [hrun] at hover
    cases hover
  · intro hall
    obtain ⟨stored, hstored⟩ := hall { capacity := 10 } 1000000 Fetch.someRequest
      ((Fetch.storedFor "18446744073709551615").transported Fetch.someRequest) (by decide)
    have hover : (({ capacity := 10 } : ResponseStore).store 1000000 Fetch.someRequest
        ((Fetch.storedFor "18446744073709551615").transported Fetch.someRequest)).1 =
        .error .expiry := by decide +kernel
    rw [hstored] at hover
    cases hover

end Job

end EdgeCompose
