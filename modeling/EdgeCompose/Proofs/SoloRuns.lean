import EdgeCompose.Proofs.Site

/-!
A program that runs with nothing else running. It has only itself to wait for, and it asks for no
lock while it holds one; so it never gets stuck (`Program.Disciplined.run_ends`). In a site the
stores stay honest as it runs, and in the end it has the result that its protocol says and holds no
lock (`Site.run_ends`). Only an expiry that the clock cannot represent keeps it from its end.
-/

namespace EdgeCompose

/-- Whether an expiry so many seconds from now can be represented. -/
def Clock.HasRoom (c : Clock) (seconds : Nat) : Prop := c.calendar + seconds ≤ Clock.last

instance (c : Clock) (seconds : Nat) : Decidable (c.HasRoom seconds) :=
  inferInstanceAs (Decidable (_ ≤ _))

/-- The queues where only the program 0 is, in a stage. -/
def Locks.Solo (l : Locks) (m : Stage) : Prop :=
  ∀ key, l.queue key = if m.key? = some key then [0] else []

namespace Program

variable {α β : Type} {w w' : World}

theorem run_answer {c : Command} {next : c.Answer → Program α} {answer : c.Answer}
    (h : w.reply 0 c = (.answer answer, w')) : (ask c next).run w = (next answer).run w' := by
  simp only [run, h]

theorem run_bind {p : Program α} {f : α → Program β} {a : α} (h : p.run w = (.finished a, w')) :
    (p.bind f).run w = (f a).run w' := by
  induction p generalizing w with
  | done b =>
    cases h
    rfl
  | ask c next ih =>
    simp only [ask_bind, run] at h ⊢
    split at h
    · next answer w₁ hreply => exact ih answer h
    · cases h
    · cases h

/-- Programs in sequence finish only after the first of them has. -/
theorem exists_run_of_bind {p : Program α} {f : α → Program β} {b : β}
    (h : (p.bind f).run w = (.finished b, w')) :
    ∃ a w₁, p.run w = (.finished a, w₁) ∧ (f a).run w₁ = (.finished b, w') := by
  induction p generalizing w with
  | done a => exact ⟨a, w, rfl, h⟩
  | ask c next ih =>
    simp only [ask_bind, run] at h ⊢
    split at h
    · next answer w₁ hreply => exact ih answer h
    · cases h
    · cases h

end Program

open Program

/-- A program that runs with nothing else running is a run of a system, too, and what follows the
program is left then. -/
theorem System.solo_run {α β : Type} {p : Program α} {f : α → Program β} {s : System β}
    {w' : World} {a : α} (h : s.rest? 0 = some (p.bind f))
    (hrun : p.run s.world = (.finished a, w')) :
    ∃ acts, (s.run acts).world = w' ∧ (s.run acts).rest? 0 = some (f a) := by
  induction p generalizing s with
  | done b =>
    cases hrun
    exact ⟨[], rfl, h⟩
  | ask c next ih =>
    have hstepped := step_advance h
    unfold Program.run at hrun
    split at hrun
    · next answer w hreply =>
      rw [hreply, resume_answer] at hstepped
      have hnext := rest?_put_self h (some ((next answer).bind f)) w
      rw [← hstepped] at hnext
      have hworld : (s.step (.advance 0)).world = w := by
        rw [hstepped]
        rfl
      rw [← hworld] at hrun
      obtain ⟨acts, hacts⟩ := ih answer hnext hrun
      exact ⟨.advance 0 :: acts, hacts⟩
    · cases hrun
    · cases hrun

/-! ## Overflows -/

theorem Clock.not_hasRoom_of_calendar {c : Clock} {seconds : Nat} {e : Overflow}
    (h : after? c.calendar seconds = .error e) : ¬ c.HasRoom seconds := by
  unfold after? at h
  unfold HasRoom
  split at h
  · omega
  · cases h

theorem Clock.not_hasRoom_of_steady {c : Clock} {seconds : Nat} {e : Overflow}
    (h : after? c.steady seconds = .error e) : ¬ c.HasRoom seconds := by
  unfold after? at h
  unfold HasRoom
  split at h
  · unfold calendar
    unfold steady at *
    omega
  · cases h

theorem World.not_hasRoom_of_expiry? {w : World} {lifetime : Option Nat} {e : Overflow}
    (h : w.expiry? lifetime = .error e) : ∃ l, lifetime = some l ∧ ¬ w.clock.HasRoom l := by
  cases lifetime with
  | none => cases h
  | some seconds =>
    refine ⟨seconds, rfl, ?_⟩
    simp only [expiry?] at h
    cases hafter : Clock.after? w.clock.calendar seconds with
    | ok expires =>
      rw [hafter] at h
      cases h
    | error e' => exact Clock.not_hasRoom_of_calendar hafter

theorem ResponseStore.not_hasRoom_of_store {s s' : ResponseStore} {clock : Clock} {r : FetchRequest}
    {response : Response} {e : Overflow}
    (h : s.store clock.steady r response = (.error e, s')) :
    ∃ l, (CacheControl.ofHeaders response.headers).lifetime? = some l ∧ ¬ clock.HasRoom l := by
  unfold store at h
  cases hs : storable? r response with
  | none =>
    rw [hs] at h
    cases h
  | some found =>
    obtain ⟨lifetime, names⟩ := found
    simp only [hs] at h
    have hlifetime := (ResponseHistory.Accepted.storable?_eq_some
      (a := { request := r, response, time := 0 }) hs).2.1
    refine ⟨lifetime, hlifetime, ?_⟩
    split at h
    · cases h
    · split at h
      · next hafter => exact Clock.not_hasRoom_of_steady hafter
      · cases h

/-! ## Locks -/

namespace Locks

variable {l : Locks}

theorem solo_of_isFree (h : ∀ key, l.isFree key = true) : l.Solo .idle := by
  intro key
  exact List.isEmpty_iff.mp (h key)

theorem Solo.enter (h : l.Solo .idle) (key : FragmentKey) : (l.enter key 0).Solo (.granted key) := by
  intro k
  have hnone : l.queue key = [] := h key
  rw [queue_enter, hnone]
  by_cases hk : k = key
  · subst hk
    simp [Stage.key?]
  · have hother : l.queue k = [] := h k
    simp [Stage.key?, hk, Ne.symm hk, hother]

theorem Solo.leave {m : Stage} {key : FragmentKey} (h : l.Solo m) (hm : m.key? = some key) :
    (l.leave key 0).Solo .idle := by
  intro k
  have hkey : l.queue key = [0] := by rw [h key, if_pos hm]
  rw [queue_leave, hkey]
  by_cases hk : k = key
  · simp [hk, Stage.key?]
  · have hother : l.queue k = [] := by
      rw [h k, if_neg]
      intro heq
      exact hk (Option.some.inj (heq.symm.trans hm))
    simp [hk, Stage.key?, hother]

theorem Solo.holder? {m : Stage} {key : FragmentKey} (h : l.Solo m) (hm : m.key? = some key) :
    l.holder? key = some 0 := by
  unfold Locks.holder?
  rw [h key, if_pos hm]
  rfl

end Locks

/-- Alone, a program gets every lock that it asks for, and is where the protocol says then. -/
theorem World.Replied.solo {w w' : World} {c : Command} {r : Reply c.Answer} {m : Stage}
    (h : Replied w 0 c r w') (hsolo : w.locks.Solo m) (hallows : lockProtocol.allows m c) :
    r ≠ .wait ∧ ∀ answer, r = .answer answer → w'.locks.Solo (lockProtocol.next m c answer) := by
  cases m with
  | idle =>
    cases h with
    | granted _ =>
      refine ⟨nofun, fun _ _ => hsolo.enter _⟩
    | queued hnot =>
      exact (hnot ((hsolo.enter _).holder? rfl)).elim
    | _ => first | exact hallows.elim | exact ⟨nofun, fun _ _ => hsolo⟩
  | granted key =>
    cases h with
    | @found _ content _ _ =>
      refine ⟨nofun, ?_⟩
      rintro _ ⟨⟩
      cases content <;> exact hsolo
    | _ => exact hallows.elim
  | fetching key =>
    cases h with
    | released =>
      cases hallows
      exact ⟨nofun, fun _ _ => hsolo.leave rfl⟩
    | granted => cases hallows
    | queued => cases hallows
    | _ => exact ⟨nofun, fun _ _ => hsolo⟩
  | settled key =>
    cases h with
    | released =>
      cases hallows
      exact ⟨nofun, fun _ _ => hsolo.leave rfl⟩
    | _ => exact hallows.elim

/-! ## Runs -/

namespace Program

/-- A program that keeps to a protocol comes to its end, or to an expiry that cannot be represented,
if none of the commands allowed has to wait in the worlds that go with its modes. -/
theorem Obeys.run_ends {μ α : Type} {P : Protocol μ} {post : μ → α → Prop} (goes : μ → World → Prop)
    (hgoes : ∀ {m : μ} {c : Command} {r : Reply c.Answer} {w w' : World}, World.Replied w 0 c r w' →
      goes m w → P.allows m c → r ≠ .wait ∧
        ∀ answer, r = .answer answer → P.gives m c answer ∧ goes (P.next m c answer) w')
    {p : Program α} {m : μ} {w : World} (h : p.Obeys P post m) (hw : goes m w) :
    (∃ m' a w', p.run w = (.finished a, w') ∧ post m' a ∧ goes m' w') ∨
      (p.run w).1 = .overflowed := by
  induction p generalizing w m with
  | done a => exact .inl ⟨m, a, w, rfl, h, hw⟩
  | ask c next ih =>
    have hreplied := hgoes (World.replied w 0 c) hw h.1
    unfold run
    generalize w.reply 0 c = found at hreplied ⊢
    obtain ⟨reply, w₁⟩ := found
    cases reply with
    | answer answer =>
      obtain ⟨hgives, hnext⟩ := hreplied.2 answer rfl
      exact ih answer (h.2 answer hgives) hnext
    | wait => exact (hreplied.1 rfl).elim
    | overflow => exact .inr rfl

/-- A program that gives back every lock before it asks for the next gets all of them when nothing
else runs. -/
theorem Disciplined.run_ends {α : Type} {p : Program α} {m : Stage} {w : World}
    (h : p.Disciplined m) (hsolo : w.locks.Solo m) :
    (∃ a w', p.run w = (.finished a, w') ∧ w'.locks.Solo .idle) ∨ (p.run w).1 = .overflowed := by
  rcases Obeys.run_ends (fun m w => w.locks.Solo m)
    (fun hreplied hsolo hallows =>
      ⟨(hreplied.solo hsolo hallows).1, fun answer hr =>
        ⟨trivial, (hreplied.solo hsolo hallows).2 answer hr⟩⟩) h hsolo with
    ⟨m', a, w', hrun, rfl, hidle⟩ | hover
  · exact .inl ⟨a, w', hrun, hidle⟩
  · exact .inr hover

/-- A fetch waits for nobody. -/
theorem FetchOnly.run_ends {α : Type} {p : Program α} (h : p.FetchOnly) (w : World) :
    (∃ a w', p.run w = (.finished a, w')) ∨ (p.run w).1 = .overflowed := by
  have hgoes {c : Command} {r : Reply c.Answer} {w w' : World} (hreplied : World.Replied w 0 c r w')
      (hfetch : c.isFetch = true) : r ≠ .wait := by
    rintro rfl
    cases hreplied
    cases hfetch
  rcases Obeys.run_ends (fun _ _ => True)
    (fun hreplied _ hfetch => ⟨hgoes hreplied hfetch, fun _ _ => ⟨trivial, trivial⟩⟩) h trivial with
    ⟨_, a, w', hrun, -⟩ | hover
  · exact .inl ⟨a, w', hrun⟩
  · exact .inr hover

end Program

/-- A render alone comes to a result, or to an expiry that cannot be represented. -/
theorem Renderer.compose_ends (r : Renderer) (wanted : Option Text) (document : Text) {w : World}
    (hfree : ∀ key, w.locks.isFree key = true) :
    (∃ result w', (r.page.compose r.levels wanted document).run w = (.finished result, w')) ∨
      ((r.page.compose r.levels wanted document).run w).1 = .overflowed := by
  refine ((r.compose_disciplined wanted document).run_ends (Locks.solo_of_isFree hfree)).imp_left ?_
  rintro ⟨result, w', hrun, -⟩
  exact ⟨result, w', hrun⟩

namespace Site

variable {α : Type} {s : Site} {fits : Nat → Prop} {w : World}

def Grants (s : Site) (seconds : Nat) : Prop :=
  ∃ url, (CacheControl.ofHeaders (s.response url).headers).lifetime? = some seconds

/-- What is so when a program has come to a result and a world. -/
structure Ends (s : Site) (m : Stage) (post : α → Prop) (w : World) (a : α) (w' : World) : Prop where
  result : post a
  honest : s.Honest w'
  locks : w'.locks.Solo m
  clock : w'.clock = w.clock

/-- An overflow comes from a lifetime that a program keeps something for or that an answer has. -/
private theorem not_hasRoom_of_overflow {c : Command} {w' : World} {who : Nat}
    (h : World.Replied w who c .overflow w') (hallowed : (s.honest fits).allows () c) :
    ∃ l, (fits l ∨ s.Grants l) ∧ ¬ w.clock.HasRoom l := by
  cases h with
  | tooLong hexpiry =>
    obtain ⟨l, hl, hroom⟩ := World.not_hasRoom_of_expiry? hexpiry
    exact ⟨l, .inl (hallowed.2 l hl), hroom⟩
  | @offerTooLong r response _ _ _ _ hstored =>
    obtain ⟨l, hl, hroom⟩ := ResponseStore.not_hasRoom_of_store hstored
    have hresponse : response = s.response r.url.toText := hallowed
    exact ⟨l, .inr ⟨r.url.toText, hresponse ▸ hl⟩, hroom⟩

/-- A program alone comes to its end, unless some lifetime is too long for the clock. -/
theorem run_ends {p : Program α} {post : α → Prop} {m m' : Stage}
    (hp : p.Obeys (s.honest fits) (fun _ => post) ())
    (hlock : p.Obeys lockProtocol (fun m _ => m = m') m) (hw : s.Honest w) (hsolo : w.locks.Solo m) :
    (∃ a w', p.run w = (.finished a, w') ∧ s.Ends m' post w a w') ∨
      (p.run w).1 = .overflowed ∧ ∃ l, (fits l ∨ s.Grants l) ∧ ¬ w.clock.HasRoom l := by
  induction p generalizing w m with
  | done a =>
    cases hlock
    exact .inl ⟨a, w, rfl, hp, hw, hsolo, rfl⟩
  | ask c next ih =>
    have hreplied := World.replied w 0 c
    have hhonest := hw.replied hreplied hp.1
    have hlocks := hreplied.solo hsolo hlock.1
    have hclock := hreplied.clock
    unfold Program.run
    generalize w.reply 0 c = found at hreplied hhonest hlocks hclock ⊢
    obtain ⟨r, w₁⟩ := found
    cases r with
    | answer answer =>
      have hnext := ih answer (hp.2 answer (hhonest.2 answer rfl)) (hlock.2 answer trivial)
        hhonest.1 (hlocks.2 answer rfl)
      rw [hclock] at hnext
      rcases hnext with ⟨a, w', hrun, hends⟩ | hover
      · exact .inl ⟨a, w', hrun, { hends with clock := hends.clock.trans hclock }⟩
      · exact .inr hover
    | wait => exact (hlocks.1 rfl).elim
    | overflow => exact .inr ⟨rfl, not_hasRoom_of_overflow hreplied hp.1⟩

/-- A program alone comes to its end where all lifetimes fit. -/
theorem run_finishes {p : Program α} {post : α → Prop} {m m' : Stage}
    (hp : p.Obeys (s.honest fits) (fun _ => post) ())
    (hlock : p.Obeys lockProtocol (fun m _ => m = m') m) (hw : s.Honest w) (hsolo : w.locks.Solo m)
    (hroom : ∀ l, fits l ∨ s.Grants l → w.clock.HasRoom l) :
    ∃ a w', p.run w = (.finished a, w') ∧ s.Ends m' post w a w' := by
  rcases run_ends hp hlock hw hsolo with hends | ⟨-, l, hl, hnot⟩
  · exact hends
  · exact (hnot (hroom l hl)).elim

end Site

/-! ## Looking a document up -/

/-- A fetch leaves the fragments as they are. -/
theorem Program.FetchOnly.fragments {α : Type} {p : Program α} (h : p.FetchOnly) {w w' : World}
    {a : α} (hrun : p.run w = (.finished a, w')) : w'.fragments = w.fragments := by
  induction p generalizing w with
  | done b =>
    cases hrun
    rfl
  | ask c next ih =>
    have hreplied := World.replied w 0 c
    unfold Program.run at hrun
    generalize w.reply 0 c = found at hreplied hrun
    obtain ⟨r, w₁⟩ := found
    cases r with
    | answer answer =>
      have hkept : w₁.fragments = w.fragments := by
        have hfetch : c.isFetch = true := h.1
        cases hreplied <;> first | rfl | cases hfetch
      exact (ih answer (h.2 answer trivial) hrun).trans hkept
    | wait => cases hrun
    | overflow => cases hrun

namespace Page

variable {p : Page} {url : Url} {lifetime : Option Nat} {w : World}

/-- A document that is stored is found. -/
theorem document_run_stored {e : FragmentEntry} (h : w.fragments.get? (documentKey url) = some e)
    (hlasts : e.isExpired w.clock.calendar = false) :
    (p.document url lifetime).run w =
      (.finished (.ok (url, e.content)), w.count (.fragmentLookup true)) := by
  have hfind : w.reply 0 (.find (documentKey url)) = (.answer (some e.content), w) := by
    simp [World.reply, World.find, FragmentStore.find_of_get? h hlasts]
  rw [document_eq]
  simp only [perform_eq_ask, bind_eq_bind, ask_bind]
  rw [run_answer hfind]
  rfl

/-- One that is not is fetched under its lock. -/
theorem document_run_missing (h : w.fragments.get? (documentKey url) = none)
    (hsolo : w.locks.Solo .idle) :
    (p.document url lifetime).run w =
      ((p.fetchDocument url).bind (p.settleFetch url lifetime)).run
        { w.count (.fragmentLookup false) with locks := w.locks.enter (documentKey url) 0 } := by
  have hfind (w : World) (h : w.fragments.get? (documentKey url) = none) :
      w.reply 0 (.find (documentKey url)) = (.answer none, w) := by
    simp [World.reply, World.find, FragmentStore.find_of_none h]
  have hacquire (w : World) (hsolo : w.locks.Solo .idle) :
      w.reply 0 (.acquire (documentKey url)) =
        (.answer (), { w with locks := w.locks.enter (documentKey url) 0 }) := by
    have hholder := (hsolo.enter (documentKey url)).holder? rfl
    simp [World.reply, World.acquire, hholder]
  rw [document_eq]
  calc
    _ = (p.missed url lifetime).run w := run_answer (hfind w h)
    _ = (p.queued url lifetime).run (w.count (.fragmentLookup false)) := rfl
    _ = (p.granted url lifetime).run
          { w.count (.fragmentLookup false) with locks := w.locks.enter (documentKey url) 0 } :=
      run_answer (hacquire _ hsolo)
    _ = _ := run_answer (hfind _ h)

/-- Alone, a fetched document is kept, if its expiry can be represented. -/
theorem settleFetch_run (final : Url) (content : Text) {expires : Option Int}
    (h : w.expiry? (lifetime <|> p.settings.lifetime) = .ok expires)
    (hmissing : w.fragments.get? (documentKey url) = none) :
    ∃ w', (p.settleFetch url lifetime (.ok (final, content))).run w =
        (.finished (.ok (final, content)), w') ∧
      w'.fragments.get? (documentKey url) = some { content, expires } := by
  have hkeep : w.reply 0 (.keep (documentKey url) content (lifetime <|> p.settings.lifetime)) =
      (.answer (), { w with fragments := w.fragments.insert (documentKey url) { content, expires } }) := by
    generalize (lifetime <|> p.settings.lifetime) = kept at h ⊢
    simp [World.reply, World.keep, h, Except.map, FragmentStore.storeFetched, FragmentStore.isPinned,
      hmissing]
  refine ⟨_, run_answer hkeep, ?_⟩
  exact Table.get?_insert_self _ _ _

end Page

namespace Site

variable {s : Site} {w : World} {p : Page} {url : Url} {lifetime : Option Nat}

private theorem document_run_fetched (hw : s.Honest w) (hsolo : w.locks.Solo .idle)
    (hmissing : w.fragments.get? (Page.documentKey url) = none)
    (hlifetime : ∀ l, (lifetime <|> p.settings.lifetime) = some l → w.clock.HasRoom l)
    (hgrants : ∀ l, s.Grants l → w.clock.HasRoom l) :
    ∃ w', (p.document url lifetime).run w =
        (.finished ((p.fetchDocument url).answered s.uncached), w') ∧
      ∀ final content, (p.fetchDocument url).answered s.uncached = .ok (final, content) →
        ∃ expires, w.expiry? (lifetime <|> p.settings.lifetime) = .ok expires ∧
          w'.fragments.get? (Page.documentKey url) = some { content, expires } := by
  rw [Page.document_run_missing hmissing hsolo]
  have hfetching : ({ w.count (.fragmentLookup false) with
      locks := w.locks.enter (Page.documentKey url) 0 } : World).locks.Solo
        (.fetching (Page.documentKey url)) := hsolo.enter _
  generalize hw₁ : ({ w.count (.fragmentLookup false) with
    locks := w.locks.enter (Page.documentKey url) 0 } : World) = w₁ at hfetching ⊢
  have hhonest : s.Honest w₁ := by
    rw [← hw₁]
    exact { hw with }
  have hclock : w₁.clock = w.clock := by rw [← hw₁]; rfl
  have hfragments : w₁.fragments = w.fragments := by rw [← hw₁]; rfl
  have hfaithful : s.Faithful (fun _ => False) (p.fetchDocument url) := fetchDocument_faithful _ _
  have honly := p.fetchDocument_fetchOnly url
  obtain ⟨found, w₂, hrun, hends⟩ := run_finishes hfaithful (honly.obeys _) hhonest hfetching
    (by
      rintro l (hfalse | hl)
      · exact hfalse.elim
      · rw [hclock]
        exact hgrants l hl)
  rw [run_bind hrun, ← hends.result]
  cases found with
  | error e => exact ⟨_, rfl, fun _ _ herror => by cases herror⟩
  | ok document =>
    obtain ⟨final, content⟩ := document
    have hexpiry : w₂.expiry? (lifetime <|> p.settings.lifetime) =
        w.expiry? (lifetime <|> p.settings.lifetime) := by
      unfold World.expiry?
      rw [hends.clock, hclock]
    have hmissing₂ : w₂.fragments.get? (Page.documentKey url) = none := by
      rw [honly.fragments hrun, hfragments]
      exact hmissing
    cases hexpires : w.expiry? (lifetime <|> p.settings.lifetime) with
    | error e =>
      obtain ⟨l, hl, hnot⟩ := World.not_hasRoom_of_expiry? hexpires
      exact (hnot (hlifetime l hl)).elim
    | ok expires =>
      obtain ⟨w', hsettled, hstored⟩ :=
        Page.settleFetch_run final content (hexpiry.trans hexpires) hmissing₂
      refine ⟨w', hsettled, ?_⟩
      rintro _ _ ⟨⟩
      exact ⟨expires, rfl, hstored⟩

/-- Alone, a look-up of a document that is not stored comes to what a fetch comes to where nothing
is stored, and stores it. -/
theorem document_ends {r : Renderer} {template : Text} (hr : s.Has r)
    (hurl : r.page.resolveTemplate template = .ok url) (hw : s.Honest w)
    (hsolo : w.locks.Solo .idle) (hmissing : w.fragments.get? (Page.documentKey url) = none)
    (hlifetime : ∀ l, (lifetime <|> s.settings.lifetime) = some l → w.clock.HasRoom l)
    (hgrants : ∀ l, s.Grants l → w.clock.HasRoom l) :
    ∃ found w', (r.page.document url lifetime).run w = (.finished found, w') ∧
      s.Ends .idle (fun found => found = (r.page.fetchDocument url).answered s.uncached) w found w' ∧
      ∀ final content, found = .ok (final, content) →
        ∃ expires, w.expiry? (lifetime <|> s.settings.lifetime) = .ok expires ∧
          w'.fragments.get? (Page.documentKey url) = some { content, expires } := by
  have hobeys := document_obeys hr hurl hlifetime
  have hroom : ∀ l, w.clock.HasRoom l ∨ s.Grants l → w.clock.HasRoom l := by
    rintro l (hl | hl)
    · exact hl
    · exact hgrants l hl
  rw [← hr.settings] at hlifetime ⊢
  obtain ⟨w', hrun, hstored⟩ := document_run_fetched hw hsolo hmissing hlifetime hgrants
  obtain ⟨found, w'', hrun', hends⟩ :=
    run_finishes hobeys (r.page.document_disciplined url lifetime) hw hsolo hroom
  cases hrun.symm.trans hrun'
  exact ⟨_, w', hrun, { hends with result := rfl }, hstored⟩

end Site

end EdgeCompose
