import Mathlib.Control.Monad.Basic
import EdgeCompose.Fetch.Script
import EdgeCompose.Proofs.LockDiscipline
import EdgeCompose.Proofs.Stores

/-!
Single flight. However renders that share a world are interleaved, one document is fetched by at
most one include at a time; and once a fetched document is stored, it is not fetched again while
the entry lasts, and every include that looks for it gets the stored content. The invariant is
that whoever is past the lock of a key is the holder of that lock (`Holds`); an entry that is there
keeps everyone out of the stage of fetching.
-/

namespace EdgeCompose

open Program

/-- A render: what is composed by whom, as a whole or for one fragment of it. -/
structure Job where
  renderer : Renderer
  wanted : Option Text := none
  document : Text

def Job.program (j : Job) : Program (Except ComposeError Text) :=
  j.renderer.page.compose j.renderer.levels j.wanted j.document

namespace Program

variable {α β : Type}

def command? : Program α → Option Command
  | .done _ => none
  | .ask c _ => some c

/-- What is left is inside the fetch of the document of a key: some command of the fetch comes
next, and the document is settled after it. -/
def Fetching (key : FragmentKey) (rest : Program α) : Prop :=
  ∃ (p : Page) (url : Url) (lifetime : Option Nat) (c : Command)
    (next : c.Answer → Program (Except ComposeError (Url × Text)))
    (k : Except ComposeError (Url × Text) → Program α),
    Page.documentKey url = key ∧ Leads (p.fetchDocument url) (.ask c next) ∧
      rest = (Program.ask c next).bind fun found => (p.settleFetch url lifetime found).bind k

theorem Fetching.bind {key : FragmentKey} {rest : Program α} (h : rest.Fetching key)
    (f : α → Program β) : (rest.bind f).Fetching key := by
  obtain ⟨p, url, lifetime, c, next, k, hkey, hleads, rfl⟩ := h
  refine ⟨p, url, lifetime, c, next, fun found => (k found).bind f, hkey, hleads, ?_⟩
  simp [bind_bind]

/-- Some answer to a command. -/
theorem exists_answer (c : Command) : ∃ _ : c.Answer, True := by
  cases c with
  | find key => exact ⟨none, trivial⟩
  | announce phase e => exact ⟨e, trivial⟩
  | consult r => exact ⟨none, trivial⟩
  | send r => exact ⟨.error (.timeout []), trivial⟩
  | _ => exact ⟨(), trivial⟩

theorem next_isFetch {m : Stage} {c : Command} (h : c.isFetch = true) (answer : c.Answer) :
    lockProtocol.next m c answer = m := by
  cases c with
  | announce phase e => cases m <;> rfl
  | consult r => cases m <;> rfl
  | send r => cases m <;> rfl
  | offer r response => cases m <;> rfl
  | count s => cases m <;> rfl
  | _ => cases h

theorem allows_isFetch {m : Stage} {c : Command} (h : c.isFetch = true)
    (hallows : lockProtocol.allows m c) : ∃ key, m = .fetching key := by
  cases m with
  | fetching key => exact ⟨key, rfl⟩
  | idle =>
    cases c with
    | count s =>
      cases s with
      | fragmentLookup hit => cases h
      | _ => exact hallows.elim
    | announce phase e => exact hallows.elim
    | consult r => exact hallows.elim
    | send r => exact hallows.elim
    | offer r response => exact hallows.elim
    | _ => cases h
  | granted key =>
    cases c with
    | find k => cases h
    | _ => exact hallows.elim
  | settled key =>
    cases c with
    | release k => cases h
    | _ => exact hallows.elim

/-- What settles a document after a fetch tells the lock that is held. -/
private theorem key?_of_settle {p : Page} {url : Url} {lifetime : Option Nat}
    {q : Program (Except ComposeError (Url × Text))}
    {k : Except ComposeError (Url × Text) → Program α} {m : Stage} (hq : q.FetchOnly)
    (h : (q.bind fun found => (p.settleFetch url lifetime found).bind k).Disciplined m) :
    m.key? = some (Page.documentKey url) := by
  induction q generalizing m with
  | done found =>
    cases found with
    | error e =>
      have hallows := h.1
      cases m with
      | fetching key => exact congrArg some hallows.symm
      | settled key => exact congrArg some hallows.symm
      | _ => exact hallows.elim
    | ok document =>
      have hallows := h.1
      cases m with
      | fetching key => exact congrArg some hallows.symm
      | _ => exact hallows.elim
  | ask c next ih =>
    obtain ⟨answer, -⟩ := exists_answer c
    have hnext := ih answer (hq.2 answer trivial) (h.2 answer trivial)
    rwa [next_isFetch hq.1] at hnext

/-- Whoever is inside a fetch is in the stage of fetching. -/
theorem Fetching.stage {key : FragmentKey} {rest : Program α} {m : Stage} (h : rest.Fetching key)
    (hm : rest.Disciplined m) : m = .fetching key := by
  obtain ⟨p, url, lifetime, c, next, k, rfl, hleads, rfl⟩ := h
  have honly := (p.fetchDocument_fetchOnly url).leads hleads
  have hkey := key?_of_settle honly hm
  obtain ⟨key, rfl⟩ := allows_isFetch honly.1 hm.1
  rw [Option.some.inj hkey]

/-- A program fetches only documents, each in its own stage. -/
def FetchesDocuments (p : Program α) : Prop :=
  ∀ (c : Command) (next : c.Answer → Program α), Leads p (.ask c next) → c.isFetch = true →
    ∃ key, (Program.ask c next).Fetching key

theorem FetchesDocuments.ask {c : Command} {next : c.Answer → Program α} (hc : c.isFetch = false)
    (hnext : ∀ answer, (next answer).FetchesDocuments) : (Program.ask c next).FetchesDocuments := by
  intro c' next' hleads hfetch
  cases hleads with
  | refl => simp [hc] at hfetch
  | ask answer hleads => exact hnext answer c' next' hleads hfetch

theorem FetchesDocuments.done (a : α) : (Program.done a).FetchesDocuments := by
  intro c next hleads
  cases hleads

theorem yields_of_leads {p : Program α} {a : α} (h : Leads p (.done a)) : p.Yields a := by
  generalize hq : Program.done a = q at h
  induction h with
  | refl p => exact hq ▸ .done a
  | ask answer _ ih => exact .ask answer (ih hq)

theorem FetchesDocuments.bind {p : Program α} {f : α → Program β} (hp : p.FetchesDocuments)
    (hf : ∀ a, p.Yields a → (f a).FetchesDocuments) : (p.bind f).FetchesDocuments := by
  intro c next hleads hfetch
  rcases hleads.of_bind with ⟨q, hq, heq⟩ | ⟨a, ha, hrest⟩
  · cases q with
    | done a => exact hf a (yields_of_leads hq) c next (heq ▸ .refl _) hfetch
    | ask c' next' =>
      cases heq
      obtain ⟨key, hkey⟩ := hp _ _ hq hfetch
      exact ⟨key, hkey.bind f⟩
  · exact hf a ha c next hrest hfetch

end Program

/-- Whatever a render sends or asks for in a fetch, it does inside the fetch of a document. -/
theorem Job.fetchesDocuments (j : Job) : j.program.FetchesDocuments := by
  have hsettle (p : Page) (url : Url) (lifetime : Option Nat)
      (found : Except ComposeError (Url × Text)) :
      (p.settleFetch url lifetime found).FetchesDocuments := by
    cases found with
    | error e => exact .ask rfl fun _ => .done _
    | ok document => exact .ask rfl fun _ => .ask rfl fun _ => .done _
  have hfetch (p : Page) (url : Url) (lifetime : Option Nat) :
      (p.fetchDocument url >>= p.settleFetch url lifetime).FetchesDocuments := by
    intro c next hleads hc
    rcases hleads.of_bind with ⟨q, hq, heq⟩ | ⟨found, -, hrest⟩
    · cases q with
      | done found => exact hsettle p url lifetime found c next (heq ▸ .refl _) hc
      | ask c' next' =>
        refine ⟨_, p, url, lifetime, c', next', .done, rfl, hq, ?_⟩
        simp only [heq, bind_done]
    · exact hsettle p url lifetime found c next hrest hc
  have hdocument (p : Page) (url : Url) (lifetime : Option Nat) :
      (p.document url lifetime).FetchesDocuments := by
    rw [Page.document_eq]
    refine .ask rfl fun found => ?_
    cases found with
    | some content => exact .ask rfl fun _ => .done _
    | none =>
      refine .ask rfl fun _ => .ask rfl fun _ => .ask rfl fun found => ?_
      cases found with
      | some content => exact .ask rfl fun _ => .done _
      | none => exact hfetch p url lifetime
  have hall : Compositional (fun _ p => p.FetchesDocuments) (fun _ => True) (fun _ => True)
      fun _ => True :=
    { done := .done
      bind := .bind
      nested := fun _ _ => trivial
      content := by
        intro r i template _ _ hinner
        unfold Page.content
        split
        · exact .done _
        · refine (hdocument _ _ _).bind ?_
          rintro (e | found) -
          · exact .done _
          · exact hinner _ _ _ trivial
      register := fun _ _ _ => .ask rfl fun _ => .done _
      opens := fun _ _ _ => trivial }
  exact hall.compose trivial j.wanted trivial

namespace System

variable {α : Type}

def Fetches (s : System α) (who : Nat) (key : FragmentKey) : Prop :=
  ∃ rest, s.rest? who = some rest ∧ rest.Fetching key

/-- Every program is in a stage that `ok` holds of, and has the lock that belongs to it. -/
def Holds (ok : Stage → Prop) (s : System α) : Prop :=
  ∀ who rest, s.rest? who = some rest → ∃ m, ok m ∧ rest.Disciplined m ∧
    ∀ key, m.key? = some key → s.world.locks.holder? key = some who

variable {ok : Stage → Prop} {s : System α}

/-- A program that gets an answer has the lock that belongs to its next stage. -/
theorem holder?_next {w w' : World} {who : Nat} {c : Command} {answer : c.Answer} {m : Stage}
    (hreply : World.Replied w who c (.answer answer) w') (hallows : lockProtocol.allows m c)
    (hholds : ∀ key, m.key? = some key → w.locks.holder? key = some who) (key : FragmentKey)
    (hkey : (lockProtocol.next m c answer).key? = some key) :
    w'.locks.holder? key = some who := by
  rw [hreply.locks]
  cases m with
  | idle =>
    cases hreply with
    | granted hheld =>
      cases hkey
      exact hheld
    | _ => cases hkey
  | granted k =>
    cases hreply with
    | @found _ content _ _ =>
      cases content <;> exact hholds key hkey
    | _ => exact hallows.elim
  | fetching k =>
    cases hreply with
    | released => cases hkey
    | kept => exact hholds key hkey
    | _ => first | exact hholds key hkey | cases hallows
  | settled k =>
    cases hreply with
    | released => cases hkey
    | _ => exact hallows.elim

/-- A program keeps the locks that it has while others act. -/
theorem holder?_step_other {act : Act} {who : Nat} {rest : Program α} {key : FragmentKey}
    (hact : act ≠ .advance who) (hrest : (s.step act).rest? who = some rest)
    (h : s.world.locks.holder? key = some who) :
    (s.step act).world.locks.holder? key = some who := by
  have hstepped := stepped s act
  generalize s.step act = s' at hstepped hrest
  cases hstepped with
  | answered _ hreply =>
    have hne : who ≠ _ := fun heq => hact (congrArg Act.advance heq.symm)
    exact (World.Replied.of_reply hreply).holder?_other hne h
  | waited _ hreply =>
    have hne : who ≠ _ := fun heq => hact (congrArg Act.advance heq.symm)
    exact (World.Replied.of_reply hreply).holder?_other hne h
  | overflowed _ hreply =>
    have hne : who ≠ _ := fun heq => hact (congrArg Act.advance heq.symm)
    exact Locks.holder?_dismiss ((World.Replied.of_reply hreply).holder?_other hne h) hne
  | @gaveUp other =>
    by_cases hne : who = other
    · subst hne
      rw [rest?_giveUp_self] at hrest
      cases hrest
    · exact Locks.holder?_dismiss h hne
  | _ => exact h

/-- A step keeps the invariant if every answer leads to a stage that `ok` holds of. -/
theorem Holds.step (h : s.Holds ok) (act : Act)
    (hok : ∀ who c next (answer : c.Answer) w m, s.rest? who = some (.ask c next) →
      s.world.Replied who c (.answer answer) w → ok m → lockProtocol.allows m c →
      ok (lockProtocol.next m c answer)) : (s.step act).Holds ok := by
  intro who rest hrest
  by_cases hact : act = .advance who
  · subst hact
    have hstepped := stepped s (.advance who)
    generalize s.step (.advance who) = s' at hstepped hrest
    cases hstepped with
    | still => exact h who rest hrest
    | @answered _ c next answer w hwho hreply =>
      have hreplied := World.Replied.of_reply hreply
      rw [rest?_put_self hwho] at hrest
      cases hrest
      obtain ⟨m, hm, hdisciplined, hholds⟩ := h who _ hwho
      refine ⟨lockProtocol.next m c answer, ?_, hdisciplined.2 answer trivial, ?_⟩
      · exact hok who c next answer w m hwho hreplied hm hdisciplined.1
      · exact holder?_next hreplied hdisciplined.1 hholds
    | waited _ hreply =>
      obtain ⟨m, hm, hdisciplined, hholds⟩ := h who rest hrest
      refine ⟨m, hm, hdisciplined, fun key hkey => ?_⟩
      cases World.Replied.of_reply hreply with
      | queued => exact Locks.holder?_enter (hholds key hkey) _ _
    | overflowed =>
      rw [rest?_giveUp_self] at hrest
      cases hrest
  · obtain ⟨m, hm, hdisciplined, hholds⟩ := h who rest (rest?_step_other hact hrest)
    exact ⟨m, hm, hdisciplined, fun key hkey => holder?_step_other hact hrest (hholds key hkey)⟩

theorem Holds.run (h : s.Holds fun _ => True) (acts : List Act) :
    (s.run acts).Holds fun _ => True :=
  run_induction (Holds fun _ => True)
    (fun _ act hs => hs.step act fun _ _ _ _ _ _ _ _ _ _ => trivial) h acts

theorem start_holds (w : World) (jobs : List Job) :
    (start w (jobs.map Job.program)).Holds fun _ => True := by
  intro who rest hrest
  rw [rest?_start, List.getElem?_map, Option.map_eq_some_iff] at hrest
  obtain ⟨j, -, rfl⟩ := hrest
  refine ⟨.idle, trivial, j.renderer.compose_disciplined j.wanted j.document, ?_⟩
  intro key hkey
  cases hkey

/-- Only the holder of a lock can fetch. -/
theorem Fetches.holder {who : Nat} {key : FragmentKey} (h : s.Fetches who key) (hs : s.Holds ok) :
    ok (.fetching key) ∧ s.world.locks.holder? key = some who := by
  obtain ⟨rest, hrest, hfetching⟩ := h
  obtain ⟨m, hm, hdisciplined, hholds⟩ := hs who rest hrest
  obtain rfl := hfetching.stage hdisciplined
  exact ⟨hm, hholds key rfl⟩

/-- Whatever renders send or ask for in a fetch, they do inside the fetch of a document. -/
theorem fetches_of_isFetch {w : World} {jobs : List Job} {acts : List Act} {who : Nat} {c : Command}
    {next : c.Answer → Program (Except ComposeError Text)}
    (h : ((start w (jobs.map Job.program)).run acts).rest? who = some (.ask c next))
    (hc : c.isFetch = true) :
    ∃ key, ((start w (jobs.map Job.program)).run acts).Fetches who key := by
  obtain ⟨earlier, hearlier, hleads⟩ := rest?_run h
  rw [rest?_start, List.getElem?_map, Option.map_eq_some_iff] at hearlier
  obtain ⟨j, -, rfl⟩ := hearlier
  obtain ⟨key, hkey⟩ := j.fetchesDocuments c next hleads hc
  exact ⟨key, _, h, hkey⟩

/-! ## A document that is stored -/

/-- Whether an act removes or replaces the entry of a key other than by fetching its document. -/
def disturbs (s : System α) (key : FragmentKey) : Act → Bool
  | .invalidate k => k == key
  | .advance who =>
    match s.rest? who with
    | some (.ask (.register k _ _) _) => k == key
    | _ => false
  | _ => false

def undisturbed (key : FragmentKey) : System α → List Act → Bool
  | _, [] => true
  | s, act :: acts => !s.disturbs key act && undisturbed key (s.step act) acts

theorem undisturbed_cons {key : FragmentKey} {act : Act} {acts : List Act} :
    undisturbed key s (act :: acts) = true ↔
      s.disturbs key act = false ∧ undisturbed key (s.step act) acts = true := by
  simp [undisturbed]

theorem undisturbed_append {key : FragmentKey} {acts more : List Act} :
    undisturbed key s (acts ++ more) = true ↔
      undisturbed key s acts = true ∧ undisturbed key (s.run acts) more = true := by
  induction acts generalizing s with
  | nil => simp [undisturbed]
  | cons act acts ih => simp only [List.cons_append, undisturbed_cons, ih, run_cons, and_assoc]

/-- The key has an entry, and nobody fetches its document. -/
structure Settled (key : FragmentKey) (e : FragmentEntry) (s : System α) : Prop where
  holds : s.Holds (· ≠ .fetching key)
  entry : s.world.fragments.get? key = some e

variable {key : FragmentKey} {e : FragmentEntry}

/-- An answer to a look-up of a stored document is its content. -/
private theorem found_of_settled (h : s.Settled key e)
    (hlasts : e.isExpired s.world.clock.calendar = false) {who : Nat} {found : Option Text}
    {w : World} (hreply : s.world.Replied who (.find key) (.answer found) w) :
    found = some e.content ∧ w.fragments.get? key = some e := by
  cases hreply with
  | found hfind =>
    rw [FragmentStore.find_of_get? h.entry hlasts] at hfind
    cases hfind
    exact ⟨rfl, h.entry⟩

private theorem stays_out (h : s.Settled key e)
    (hlasts : e.isExpired s.world.clock.calendar = false) {who : Nat} {c : Command}
    {answer : c.Answer} {w : World} {m : Stage} (hreply : s.world.Replied who c (.answer answer) w)
    (hm : m ≠ .fetching key) (hallows : lockProtocol.allows m c) :
    lockProtocol.next m c answer ≠ .fetching key := by
  cases m with
  | idle => cases c <;> simp [lockProtocol]
  | granted k =>
    cases c with
    | find k' =>
      obtain rfl : k' = k := hallows
      cases answer with
      | some content => simp [lockProtocol]
      | none =>
        intro hnext
        cases hnext
        have hfound := (found_of_settled h hlasts hreply).1
        cases hfound
    | _ => exact hallows.elim
  | fetching k =>
    cases c with
    | keep k' content lifetime => simp [lockProtocol]
    | release k' => simp [lockProtocol]
    | _ => exact hm
  | settled k =>
    cases c with
    | release k' => simp [lockProtocol]
    | _ => exact hallows.elim

private theorem entry_stays (h : s.Settled key e)
    (hlasts : e.isExpired s.world.clock.calendar = false) {who : Nat} {c : Command}
    {r : Reply c.Answer} {w : World} (hreply : s.world.Replied who c r w)
    (hregister : ∀ content fetchable, c ≠ .register key content fetchable)
    (hkeep : ∀ content lifetime, c ≠ .keep key content lifetime) :
    w.fragments.get? key = some e := by
  cases hreply with
  | @found k content fragments hfind =>
    by_cases hk : key = k
    · subst hk
      have hfound : s.world.Replied who (.find key) (.answer content) _ := .found hfind
      exact (found_of_settled h hlasts hfound).2
    · have hget : (s.world.fragments.find s.world.clock.calendar k).2.get? key =
          s.world.fragments.get? key := FragmentStore.get?_find_ne hk
      rw [hfind] at hget
      exact hget.trans h.entry
  | @registered k content fetchable =>
    have hk : key ≠ k := by
      rintro rfl
      exact hregister content fetchable rfl
    simp only [World.register, FragmentStore.put, Table.get?_insert, if_neg hk]
    exact h.entry
  | @kept k content lifetime expires _ =>
    have hk : key ≠ k := by
      rintro rfl
      exact hkeep content lifetime rfl
    exact (FragmentStore.get?_storeFetched_ne hk content expires).trans h.entry
  | _ => exact h.entry

/-- While an entry lasts, only acts that disturb it end the state that it is in. -/
theorem Settled.step (h : s.Settled key e) (hlasts : e.isExpired s.world.clock.calendar = false)
    {act : Act} (hcalm : s.disturbs key act = false) : (s.step act).Settled key e := by
  constructor
  · apply h.holds.step act
    intro who c next answer w m _ hreply hm hallows
    exact stays_out h hlasts hreply hm hallows
  · have hcommand {who : Nat} {c : Command} {next : c.Answer → Program α} {r : Reply c.Answer}
        {w : World} (hact : act = .advance who) (hwho : s.rest? who = some (.ask c next))
        (hreply : s.world.reply who c = (r, w)) : w.fragments.get? key = some e := by
      apply entry_stays h hlasts (World.Replied.of_reply hreply)
      · rintro content fetchable rfl
        subst hact
        simp [disturbs, hwho] at hcalm
      · rintro content lifetime rfl
        -- Only the stage of fetching this very key allows to keep its document.
        obtain ⟨m, hm, hdisciplined, -⟩ := h.holds who _ hwho
        have hallows := hdisciplined.1
        cases m with
        | fetching k =>
          obtain rfl : key = k := hallows
          exact hm rfl
        | _ => exact hallows.elim
    have hstepped := stepped s act
    generalize s.step act = s' at hstepped
    cases hstepped with
    | still => exact h.entry
    | answered hwho hreply => exact hcommand rfl hwho hreply
    | waited hwho hreply => exact hcommand rfl hwho hreply
    | overflowed hwho hreply =>
      have hentry := hcommand rfl hwho hreply
      exact hentry
    | gaveUp => exact h.entry
    | passed => exact h.entry
    | @invalidated k =>
      have hk : key ≠ k := by
        rintro rfl
        simp [disturbs] at hcalm
      simp only [World.invalidate, FragmentStore.invalidate, Table.get?_erase, if_neg hk]
      exact h.entry

/-- Time does not go back. -/
theorem elapsed_le_step (s : System α) (act : Act) :
    s.world.clock.elapsed ≤ (s.step act).world.clock.elapsed := by
  have hstepped := stepped s act
  generalize s.step act = s' at hstepped
  cases hstepped with
  | answered _ hreply =>
    have hclock := (World.Replied.of_reply hreply).clock
    exact Nat.le_of_eq (congrArg Clock.elapsed hclock.symm)
  | waited _ hreply =>
    have hclock := (World.Replied.of_reply hreply).clock
    exact Nat.le_of_eq (congrArg Clock.elapsed hclock.symm)
  | overflowed _ hreply =>
    have hclock := (World.Replied.of_reply hreply).clock
    exact Nat.le_of_eq (congrArg Clock.elapsed hclock.symm)
  | passed => exact Nat.le_add_right _ _
  | _ => exact Nat.le_refl _

theorem elapsed_le_run (s : System α) (acts : List Act) :
    s.world.clock.elapsed ≤ (s.run acts).world.clock.elapsed := by
  induction acts generalizing s with
  | nil => exact Nat.le_refl _
  | cons act acts ih => exact Nat.le_trans (elapsed_le_step s act) (ih _)

/-- An entry that lasts until the end of a run lasts at its start. -/
theorem lasts_before (acts : List Act)
    (h : e.isExpired (s.run acts).world.clock.calendar = false) :
    e.isExpired s.world.clock.calendar = false := by
  have hle := elapsed_le_run s acts
  unfold FragmentEntry.isExpired Clock.calendar at h ⊢
  cases he : e.expires with
  | none => rfl
  | some expires =>
    simp only [he, Option.any_some, decide_eq_false_iff_not] at h ⊢
    omega

/-- A document that has been fetched is settled once it is stored. -/
theorem Holds.settled (h : s.Holds fun _ => True) {who : Nat} {content : Text}
    {lifetime : Option Nat} {next : Unit → Program α}
    (hwho : s.rest? who = some (.ask (.keep key content lifetime) next))
    (hentry : (s.step (.advance who)).world.fragments.get? key = some e) :
    (s.step (.advance who)).Settled key e := by
  refine ⟨?_, hentry⟩
  obtain ⟨stage, -, hkeeps, hlock⟩ := h who _ hwho
  have hstage : stage = .fetching key := by
    have hallows := hkeeps.1
    cases stage with
    | fetching k => exact congrArg Stage.fetching hallows.symm
    | _ => exact hallows.elim
  subst hstage
  intro i rest hrest
  by_cases hact : Act.advance who = .advance i
  · cases hact
    have hstepped := stepped s (.advance who)
    generalize s.step (.advance who) = s' at hstepped hrest
    cases hstepped with
    | still hdone => exact (hdone _ _ hwho).elim
    | answered hask hreply =>
      rw [rest?_put_self hask] at hrest
      cases hrest
      rw [hwho] at hask
      cases hask
      have hreplied := World.Replied.of_reply hreply
      refine ⟨.settled key, ?_, hkeeps.2 () trivial, ?_⟩
      · intro heq
        cases heq
      · exact holder?_next hreplied hkeeps.1 hlock
    | waited hask hreply =>
      rw [hwho] at hask
      cases hask
      cases World.Replied.of_reply hreply
    | overflowed =>
      rw [rest?_giveUp_self] at hrest
      cases hrest
  · obtain ⟨m, -, hdisciplined, hholds⟩ := h i rest (rest?_step_other hact hrest)
    refine ⟨m, ?_, hdisciplined, fun k hk => holder?_step_other hact hrest (hholds k hk)⟩
    rintro rfl
    have hsame := (hlock key rfl).symm.trans (hholds key rfl)
    exact hact (congrArg Act.advance (Option.some.inj hsame))

theorem Settled.run (h : s.Settled key e) {acts : List Act} (hcalm : s.undisturbed key acts = true)
    (hlasts : e.isExpired (s.run acts).world.clock.calendar = false) :
    (s.run acts).Settled key e := by
  induction acts generalizing s with
  | nil => exact h
  | cons act acts ih =>
    have hnow := lasts_before (act :: acts) hlasts
    rw [undisturbed_cons] at hcalm
    exact ih (h.step hnow hcalm.1) hcalm.2 hlasts

/-! ## The includes that look for it -/

/-- What is left of an include that looks for its document: it has not found it yet, and it does not
fetch it. -/
inductive Seeks (p : Page) (url : Url) (lifetime : Option Nat) :
    Program (Except ComposeError (Url × Text)) → Prop
  | asks : Seeks p url lifetime (p.document url lifetime)
  | missed : Seeks p url lifetime (p.missed url lifetime)
  | queued : Seeks p url lifetime (p.queued url lifetime)
  | granted : Seeks p url lifetime (p.granted url lifetime)

/-- What is left of a render one of whose includes looks for its document, gets `content` for it, and
goes on with that as `k` says. -/
inductive Gets (p : Page) (url : Url) (lifetime : Option Nat) (content : Text)
    (k : Except ComposeError (Url × Text) → Program α) : Program α → Prop
  | seeks {q : Program (Except ComposeError (Url × Text))} : Seeks p url lifetime q →
    Gets p url lifetime content k (q.bind k)
  | found {c : Command} {next : c.Answer → Program α} :
    (∀ answer, next answer = k (.ok (url, content))) → Gets p url lifetime content k (.ask c next)
  | composes {rest : Program α} : Leads (k (.ok (url, content))) rest →
    Gets p url lifetime content k rest

variable {p : Page} {url : Url} {lifetime : Option Nat}
  {k : Except ComposeError (Url × Text) → Program α}

/-- An answer brings an include nearer to the stored content. -/
private theorem Gets.next (h : s.Settled (Page.documentKey url) e)
    (hlasts : e.isExpired s.world.clock.calendar = false) {who : Nat} {c : Command}
    {next : c.Answer → Program α} {answer : c.Answer} {w : World}
    (hgets : Gets p url lifetime e.content k (.ask c next))
    (hreply : s.world.Replied who c (.answer answer) w) :
    Gets p url lifetime e.content k (next answer) := by
  generalize hrest : Program.ask c next = rest at hgets
  cases hgets with
  | seeks hseeks =>
    cases hseeks with
    | asks =>
      rw [Page.document_eq] at hrest
      cases hrest
      rw [(found_of_settled h hlasts hreply).1]
      exact .found fun _ => rfl
    | missed =>
      cases hrest
      exact .seeks .queued
    | queued =>
      cases hrest
      exact .seeks .granted
    | granted =>
      cases hrest
      rw [(found_of_settled h hlasts hreply).1]
      exact .found fun _ => rfl
  | found hnext =>
    cases hrest
    rw [hnext answer]
    exact .composes (.refl _)
  | composes hleads =>
    subst hrest
    exact .composes (hleads.next answer)

private theorem Gets.step (h : s.Settled (Page.documentKey url) e)
    (hlasts : e.isExpired s.world.clock.calendar = false) {who : Nat} {rest rest' : Program α}
    (hrest : s.rest? who = some rest) (hgets : Gets p url lifetime e.content k rest) (act : Act)
    (hrest' : (s.step act).rest? who = some rest') : Gets p url lifetime e.content k rest' := by
  by_cases hact : act = .advance who
  · subst hact
    have hstepped := stepped s (.advance who)
    generalize s.step (.advance who) = s' at hstepped hrest'
    cases hstepped with
    | still =>
      rw [hrest] at hrest'
      cases hrest'
      exact hgets
    | answered hwho hreply =>
      rw [rest?_put_self hwho] at hrest'
      cases hrest'
      rw [hwho] at hrest
      cases hrest
      exact hgets.next h hlasts (World.Replied.of_reply hreply)
    | waited =>
      have hsame : s.rest? who = some rest' := hrest'
      rw [hrest] at hsame
      cases hsame
      exact hgets
    | overflowed =>
      rw [rest?_giveUp_self] at hrest'
      cases hrest'
  · rw [rest?_step_other hact hrest'] at hrest
    cases hrest
    exact hgets

theorem Gets.run (h : s.Settled (Page.documentKey url) e) {acts : List Act}
    (hcalm : s.undisturbed (Page.documentKey url) acts = true)
    (hlasts : e.isExpired (s.run acts).world.clock.calendar = false) {who : Nat}
    {rest rest' : Program α} (hrest : s.rest? who = some rest)
    (hgets : Gets p url lifetime e.content k rest)
    (hrest' : (s.run acts).rest? who = some rest') : Gets p url lifetime e.content k rest' := by
  induction acts generalizing s rest with
  | nil =>
    rw [run_nil, hrest] at hrest'
    cases hrest'
    exact hgets
  | cons act acts ih =>
    have hnow := lasts_before (act :: acts) hlasts
    rw [undisturbed_cons] at hcalm
    rw [run_cons] at hrest'
    obtain ⟨between, hstep, -⟩ := rest?_run hrest'
    have hbetween := hgets.step h hnow hrest act hstep
    exact ih (h.step hnow hcalm.1) hcalm.2 hlasts hstep hbetween hrest'

/-- Once a fetched document is stored, then while its entry lasts nobody fetches it, and whoever looks
for it gets what is stored. -/
theorem Holds.stays_stored (hs : s.Holds fun _ => True) {who : Nat} {content : Text}
    {lifetime : Option Nat} {expires : Option Int} {next : Unit → Program α}
    {before after : List Act} (hwho : s.rest? who = some (.ask (.keep key content lifetime) next))
    (hentry : (s.step (.advance who)).world.fragments.get? key = some { content, expires })
    (hcalm : (s.step (.advance who)).undisturbed key (before ++ after) = true)
    (hlasts : FragmentEntry.isExpired { content, expires }
      (((s.step (.advance who)).run before).run after).world.clock.calendar = false) :
    let between := (s.step (.advance who)).run before
    let final := between.run after
    final.world.fragments.get? key = some { content, expires } ∧
      (∀ i, ¬ final.Fetches i key) ∧
      ∀ i p url lifetime q (k : _ → Program α) rest, Page.documentKey url = key →
        Seeks p url lifetime q → between.rest? i = some (q.bind k) → final.rest? i = some rest →
        Gets p url lifetime content k rest := by
  intro between final
  rw [undisturbed_append] at hcalm
  have hstored : (s.step (.advance who)).Settled key { content, expires } := hs.settled hwho hentry
  have hbetween : between.Settled key { content, expires } :=
    hstored.run hcalm.1 (lasts_before after hlasts)
  have hfinal : final.Settled key { content, expires } := hbetween.run hcalm.2 hlasts
  refine ⟨hfinal.entry, ?_, ?_⟩
  · intro i hi
    exact (hi.holder hfinal.holds).1 rfl
  · rintro i p url lifetime q k rest rfl hq hi hrest
    exact Gets.run hbetween hcalm.2 hlasts hi (.seeks hq) hrest

/-- One document is fetched by at most one include at a time. And when a fetched document is
stored, then while its entry lasts nobody fetches it again, and whoever looks for it then gets what
is stored. -/
theorem single_flight (w : World) (jobs : List Job) (acts : List Act) (key : FragmentKey) :
    let s := (start w (jobs.map Job.program)).run acts
    (∀ i j, s.Fetches i key → s.Fetches j key → i = j) ∧
    ∀ who content lifetime next expires before after,
      s.rest? who = some (.ask (.keep key content lifetime) next) →
      let stored := s.step (.advance who)
      let between := stored.run before
      let final := between.run after
      stored.world.fragments.get? key = some { content, expires } →
      stored.undisturbed key (before ++ after) = true →
      FragmentEntry.isExpired { content, expires } final.world.clock.calendar = false →
      final.world.fragments.get? key = some { content, expires } ∧
      (∀ i, ¬ final.Fetches i key) ∧
      ∀ i p url lifetime q k rest, Page.documentKey url = key → Seeks p url lifetime q →
        between.rest? i = some (q.bind k) → final.rest? i = some rest →
        Gets p url lifetime content k rest := by
  intro s
  have hs : s.Holds fun _ => True := (start_holds w jobs).run acts
  constructor
  · intro i j hi hj
    exact Option.some.inj ((hi.holder hs).2.symm.trans (hj.holder hs).2)
  · intro who content lifetime next expires before after hwho stored between final hentry hcalm hlasts
    exact hs.stays_stored hwho hentry hcalm hlasts

/-! ## Two renders of one page -/

def twinUrl : Url where
  scheme := "http".toList
  authority := some { host := some (.domain "host".toList) }
  path := "/part".toList

def twinWorld : World where
  backend := Script.backend
    [(twinUrl.toText, [.ok { status := 200, body := Utf8.encode "part".toList }])]

def twin : Job where
  renderer := .ofPage { settings := {}, backends := {}, request := {} }
  document := "<esi:include src='http://host/part'/>".toList

def twins : System (Except ComposeError Text) := start twinWorld ([twin, twin].map Job.program)

/-- The first render has the lock and is about to fetch, the second one waits. -/
def twinsFetching : System (Except ComposeError Text) :=
  twins.run (List.replicate 4 (.advance 0) ++ List.replicate 4 (.advance 1))

def twinsFetched : System (Except ComposeError Text) := twins.run (List.replicate 9 (.advance 0))

def twinsStored : System (Except ComposeError Text) := twinsFetched.step (.advance 0)

def twinsFinal : System (Except ComposeError Text) :=
  twinsStored.run (List.replicate 3 (.advance 1))

/-- A render of a document that is one include begins by looking for the include's document. -/
theorem program_of_include (r : Renderer) {tag : Text} {i : Inclusion} {url : Url}
    {document : Text} (hscan : Markup.scan document = [.tag tag])
    (hlookup : Markup.lookup? tag = some (.starts .inclusion)) (htag : Inclusion.ofTag tag = .ok i)
    (hself : Markup.isSelfClosing tag = true)
    (hurl : r.page.resolveTemplate i.source = .ok url) :
    ∃ k, r.page.compose r.levels none document = (r.page.document url i.lifetime).bind k := by
  have hopened (v : Variables) (c : Composition) :
      c.opened v .inclusion tag = .ok (.inclusion i, c) := by
    unfold Composition.opened
    simp only [htag]
    rfl
  have hforeign : (Composition.ofWanted none).isForeign = false := rfl
  rw [Renderer.compose_eq]
  unfold Page.composeWith
  simp only [hscan, Page.takeAll, Page.take, Page.takeTag, hforeign, hlookup, Composition.start,
    hopened, hself, Page.closeTop, Composition.pop?, Page.close, Page.included, Page.content, hurl,
    bind_eq_bind, bind_bind, Bool.false_eq_true, if_false]
  exact ⟨_, rfl⟩

private theorem twin_program :
    ∃ k, twin.program = (twin.renderer.page.document twinUrl none).bind k := by
  have hscan : Markup.scan twin.document = [.tag twin.document] := by decide +kernel
  have hlookup : Markup.lookup? twin.document = some (.starts .inclusion) := by decide +kernel
  have htag : Inclusion.ofTag twin.document = .ok { source := twinUrl.toText } := by
    decide +kernel
  have hself : Markup.isSelfClosing twin.document = true := by decide +kernel
  have hurl : twin.renderer.page.resolveTemplate twinUrl.toText = .ok twinUrl := by
    decide +kernel
  have hprogram : twin.program =
      twin.renderer.page.compose twin.renderer.levels none twin.document := rfl
  obtain ⟨k, hk⟩ := program_of_include twin.renderer hscan hlookup htag hself hurl
  refine ⟨k, ?_⟩
  rw [hprogram, hk]

private theorem twins_begin {rest : Program (Except ComposeError Text)}
    (h : twinsStored.rest? 1 = some rest) : rest = twin.program := by
  have hrun : (twins.run (List.replicate 9 (.advance 0) ++ [.advance 0])).rest? 1 = some rest := by
    rw [run_append]
    exact h
  have hstart := rest?_run_other (by decide) hrun
  unfold twins at hstart
  rw [rest?_start] at hstart
  have hsecond : some twin.program = some rest := hstart
  exact (Option.some.inj hsecond).symm

/-- A render that begins when the document is stored gets the stored content. -/
theorem single_flight_twins :
    (∃ key, twinsFetching.Fetches 0 key ∧ ∀ j, twinsFetching.Fetches j key → 0 = j) ∧
      twinsFinal.world.fragments.get? (Page.documentKey twinUrl) =
        some { content := "part".toList } ∧
      (∀ i, ¬ twinsFinal.Fetches i (Page.documentKey twinUrl)) ∧
      ∃ k rest, twinsStored.rest? 1 = some ((twin.renderer.page.document twinUrl none).bind k) ∧
        twinsFinal.rest? 1 = some rest ∧
        Gets twin.renderer.page twinUrl none "part".toList k rest := by
  constructor
  · have hfetch : (twinsFetching.rest? 0).any (fun p => p.command?.any Command.isFetch) = true := by
      decide +kernel
    obtain ⟨p, hp, hc⟩ := Option.any_eq_true _ _ |>.mp hfetch
    cases p with
    | done result => cases hc
    | ask c next =>
      obtain ⟨key, hkey⟩ := fetches_of_isFetch hp hc
      exact ⟨key, hkey, fun j => (single_flight twinWorld [twin, twin] _ key).1 0 j hkey⟩
  · have hkeep : (twinsFetched.rest? 0).any (fun p => p.command? =
        some (.keep (Page.documentKey twinUrl) "part".toList none)) = true := by decide +kernel
    have hbegin : (twinsStored.rest? 1).isSome = true := by decide +kernel
    have hend : (twinsFinal.rest? 1).isSome = true := by decide +kernel
    have hentry : twinsStored.world.fragments.get? (Page.documentKey twinUrl) =
        some { content := "part".toList } := by decide +kernel
    have hcalm : twinsStored.undisturbed (Page.documentKey twinUrl)
        ([] ++ List.replicate 3 (.advance 1)) = true := by decide +kernel
    obtain ⟨p, hp, hc⟩ := Option.any_eq_true _ _ |>.mp hkeep
    obtain ⟨first, hfirst⟩ := Option.isSome_iff_exists.mp hbegin
    obtain ⟨rest, hrest⟩ := Option.isSome_iff_exists.mp hend
    obtain ⟨k, hk⟩ := twin_program
    obtain rfl := (twins_begin hfirst).trans hk
    cases p with
    | done result => cases hc
    | ask c next =>
      obtain rfl : c = .keep (Page.documentKey twinUrl) "part".toList none := by
        simpa [command?] using hc
      have hflight := (single_flight twinWorld [twin, twin] (List.replicate 9 (.advance 0))
        (Page.documentKey twinUrl)).2 0 _ none next none [] _ hp hentry hcalm rfl
      refine ⟨hflight.1, hflight.2.1, k, rest, hfirst, hrest, ?_⟩
      exact hflight.2.2 1 _ _ _ _ k rest rfl .asks hfirst hrest

end System

end EdgeCompose
