import EdgeCompose.Proofs.Provenance
import EdgeCompose.Proofs.Redirects

/-!
How deep includes go. A job composes its document and, for the includes that end in it, the
documents that these come by, each by a renderer with one level less (`Job.Descends`); nothing is
asked for in a run but by one of these jobs (`Job.asked`). A renderer whose levels are used up
composes nothing for its includes: each of them ends in an error (`Renderer.close_of_levels`).
-/

namespace EdgeCompose

open Program

/-! ## Answers that depend on what was asked before -/

/-- The answers of the log are those that are given in view of the log so far. -/
def Answered.Follow (answers : List Answered → (c : Command) → c.Answer) (log : List Answered) :
    Prop :=
  ∀ before a after, log = before ++ a :: after → a.answer = answers before a.command

/-- However its commands are answered, a program comes to a result. -/
theorem Program.exists_performs {α : Type} (p : Program α)
    (answers : List Answered → (c : Command) → c.Answer) :
    ∃ log a, Performs p log (.done a) ∧ Answered.Follow answers log := by
  induction p generalizing answers with
  | done a => exact ⟨[], a, .nil _, fun before b after h => by simp at h⟩
  | ask c next ih =>
    let first : Answered := ⟨c, answers [] c⟩
    obtain ⟨log, a, hlog, hfollow⟩ := ih first.answer fun log => answers (first :: log)
    refine ⟨first :: log, a, .cons _ hlog, fun before b after h => ?_⟩
    cases before with
    | nil =>
      obtain ⟨rfl, -⟩ := List.cons_eq_cons.mp h
      rfl
    | cons b' before =>
      obtain ⟨rfl, hrest⟩ := List.cons_eq_cons.mp h
      exact hfollow before b after hrest

/-! ## The documents of includes -/

namespace Page

variable {p : Page} {inner : Composer} {i : Inclusion} {log : List Answered} {url : Url}

/-- With the answers of the log, an include comes to want the document of a URL: that of its source,
or that of its alternate when the source has failed. -/
inductive Wants (p : Page) (inner : Composer) (i : Inclusion) : List Answered → Url → Prop
  | source {url : Url} : p.resolveTemplate i.source = .ok url → Wants p inner i [] url
  | alternate {log : List Answered} {e : ComposeError} {alternate : Text} {url : Url} :
    Performs (p.content inner i i.source) log (.done (.error e)) → i.alternate = some alternate →
    p.resolveTemplate alternate = .ok url → Wants p inner i log url

/-- A source has its content: there is no URL that it stands for, or its document is not to be had,
or that is composed. -/
theorem performs_content {template : Text} {result : Except ComposeError Text}
    (h : Performs (p.content inner i template) log (.done result)) :
    (∃ e, p.resolveTemplate template = .error e ∧ log = [] ∧ result = .error e) ∨
      ∃ url, p.resolveTemplate template = .ok url ∧
        ((∃ e, Performs (p.document url i.lifetime) log (.done (.error e)) ∧ result = .error e) ∨
          ∃ log₁ log₂ base text, log = log₁ ++ log₂ ∧
            Performs (p.document url i.lifetime) log₁ (.done (.ok (base, text))) ∧
            Performs (inner base i.fragment text) log₂ (.done result)) := by
  unfold content at h
  cases hurl : p.resolveTemplate template with
  | error e =>
    rw [hurl] at h
    obtain ⟨rfl, rfl⟩ := performs_done_iff.1 h
    exact .inl ⟨e, rfl, rfl, rfl⟩
  | ok url =>
    rw [hurl] at h
    refine .inr ⟨url, rfl, ?_⟩
    obtain ⟨log₁, log₂, found, rfl, hdocument, hrest⟩ := h.done_of_bind
    cases found with
    | error e =>
      obtain ⟨rfl, rfl⟩ := performs_done_iff.1 hrest
      rw [List.append_nil]
      exact .inl ⟨e, hdocument, rfl⟩
    | ok found => exact .inr ⟨log₁, log₂, found.1, found.2, rfl, hdocument, hrest⟩

variable {command : Command}

/-- A source asks for something to get its document, or in the composition of that. -/
theorem asks_content {template : Text} {next : command.Answer → Program (Except ComposeError Text)}
    (h : Performs (p.content inner i template) log (.ask command next)) :
    ∃ url, p.resolveTemplate template = .ok url ∧
      ((∃ next', Performs (p.document url i.lifetime) log (.ask command next')) ∨
        ∃ log₁ log₂ base text, log = log₁ ++ log₂ ∧
          Performs (p.document url i.lifetime) log₁ (.done (.ok (base, text))) ∧
          Performs (inner base i.fragment text) log₂ (.ask command next)) := by
  unfold content at h
  cases hurl : p.resolveTemplate template with
  | error e =>
    rw [hurl] at h
    cases h.of_done.2
  | ok url =>
    rw [hurl] at h
    refine ⟨url, rfl, ?_⟩
    rcases h.ask_of_bind with hdocument | ⟨log₁, log₂, found, rfl, hdocument, hrest⟩
    · exact .inl hdocument
    · cases found with
      | error e => cases hrest.of_done.2
      | ok found => exact .inr ⟨log₁, log₂, found.1, found.2, rfl, hdocument, hrest⟩

/-- An include asks for something to get a document that it wants, or in the composition of that. -/
theorem asks_included {next : command.Answer → Program (Except ComposeError Text)}
    (h : Performs (p.included inner i) log (.ask command next)) :
    ∃ log₁ log₂ url, log = log₁ ++ log₂ ∧ p.Wants inner i log₁ url ∧
      ((∃ next', Performs (p.document url i.lifetime) log₂ (.ask command next')) ∨
        ∃ log₃ log₄ base text next', log₂ = log₃ ++ log₄ ∧
          Performs (p.document url i.lifetime) log₃ (.done (.ok (base, text))) ∧
          Performs (inner base i.fragment text) log₄ (.ask command next')) := by
  rcases h.ask_of_bind with ⟨next', hsource⟩ | ⟨log₁, log₂, result, rfl, hsource, hrest⟩
  · obtain ⟨url, hurl, hdocument | hcomposed⟩ := asks_content hsource
    · exact ⟨[], log, url, rfl, .source hurl, .inl hdocument⟩
    · obtain ⟨log₃, log₄, base, text, hlog, hdocument, hcomposed⟩ := hcomposed
      exact ⟨[], log, url, rfl, .source hurl,
        .inr ⟨log₃, log₄, base, text, next', hlog, hdocument, hcomposed⟩⟩
  · cases result with
    | ok t => cases hrest.of_done.2
    | error e =>
      cases halternate : i.alternate with
      | none =>
        simp only [halternate] at hrest
        cases hrest.of_done.2
      | some alternate =>
        simp only [halternate] at hrest
        rcases hrest.ask_of_bind with ⟨next', hsecond⟩ | ⟨_, _, result, -, -, hend⟩
        · obtain ⟨url, hurl, hdocument | hcomposed⟩ := asks_content hsecond
          · exact ⟨log₁, log₂, url, rfl, .alternate hsource halternate hurl, .inl hdocument⟩
          · obtain ⟨log₃, log₄, base, text, hlog, hdocument, hcomposed⟩ := hcomposed
            exact ⟨log₁, log₂, url, rfl, .alternate hsource halternate hurl,
              .inr ⟨log₃, log₄, base, text, next', hlog, hdocument, hcomposed⟩⟩
        · cases result with
          | ok t => cases hend.of_done.2
          | error e' => cases hend.of_done.2

end Page

/-! ## The jobs of a run -/

namespace Job

/-- With the answers of the log, a job comes to the end of an element of its document. -/
inductive Ends (j : Job) (log : List Answered) (e : Element) : Prop
  | intro {tag : Text} {before after : List Markup.Token} {c c' : Composition} :
    Markup.scan j.document = before ++ .tag tag :: after →
    Performs (j.renderer.page.takeAll j.renderer.inner (.ofWanted j.wanted) before) log
      (.done (c, .ok ())) →
    j.renderer.page.ended? c tag = some (e, c') → Ends j log e

/-- With the answers of the log, a job comes to compose the document of an include. -/
inductive Includes (j : Job) : List Answered → Job → Prop
  | intro {i : Inclusion} {log₁ log₂ log₃ : List Answered} {url base : Url} {text : Text}
    {n : Renderer} : j.Ends log₁ (.inclusion i) →
    j.renderer.page.Wants j.renderer.inner i log₂ url →
    Performs (j.renderer.page.document url i.lifetime) log₃ (.done (.ok (base, text))) →
    j.renderer.nested base = .ok n →
    Includes j (log₁ ++ log₂ ++ log₃) { renderer := n, wanted := i.fragment, document := text }

/-- With the answers of the log, a job comes to compose the document of an include in a document of
an include, and so on, so many includes deep. -/
inductive Descends (j : Job) : Nat → List Answered → Job → Prop
  | self : Descends j 0 [] j
  | deeper {depth : Nat} {log log' : List Answered} {n m : Job} : Descends j depth log n →
    n.Includes log' m → Descends j (depth + 1) (log ++ log') m

/-- What a job asks for itself: to register the body of an inline element that ends, or what it takes
to get a document for an include. -/
inductive Asks (j : Job) (log : List Answered) (command : Command) : Prop
  | registers {name body : Text} {fetchable : Bool} {url : Url} :
    j.Ends log (.inline name fetchable body) → j.renderer.page.resolveTemplate name = .ok url →
    command = .register (Page.documentKey url) body fetchable → Asks j log command
  | wants {i : Inclusion} {log₁ log₂ log₃ : List Answered} {url : Url}
    {next : command.Answer → Program (Except ComposeError (Url × Text))} :
    log = log₁ ++ log₂ ++ log₃ → j.Ends log₁ (.inclusion i) →
    j.renderer.page.Wants j.renderer.inner i log₂ url →
    Performs (j.renderer.page.document url i.lifetime) log₃ (.ask command next) →
    Asks j log command

variable {j n : Job} {depth : Nat} {log log' : List Answered}

theorem Descends.outer {m : Job} (hn : j.Includes log' n) (h : n.Descends depth log m) :
    j.Descends (depth + 1) (log' ++ log) m := by
  induction h with
  | self =>
    rw [List.append_nil]
    exact .deeper .self hn
  | deeper _ hm ih =>
    rw [← List.append_assoc]
    exact .deeper ih hm

theorem Includes.levels (h : j.Includes log n) : n.renderer.levels + 1 = j.renderer.levels := by
  cases h with
  | intro _ _ _ hn => exact (Renderer.nested_kept hn).2.symm

theorem Descends.levels (h : j.Descends depth log n) :
    n.renderer.levels + depth = j.renderer.levels := by
  induction h with
  | self => rfl
  | deeper _ hm ih =>
    have hlevels := hm.levels
    omega

theorem Descends.settings (h : j.Descends depth log n) :
    n.renderer.page.settings = j.renderer.page.settings := by
  induction h with
  | self => rfl
  | deeper _ hm ih =>
    cases hm with
    | intro _ _ _ hn => exact (Renderer.nested_kept hn).1.trans ih

/-- A job asks for something itself, or one that it includes does. -/
theorem asks_or_includes {command : Command}
    {next : command.Answer → Program (Except ComposeError Text)}
    (h : Performs j.program log (.ask command next)) : j.Asks log command ∨
      ∃ earlier own n next', log = earlier ++ own ∧ j.Includes earlier n ∧
        Performs n.program own (.ask command next') := by
  rw [program, Renderer.compose_eq] at h
  rcases h.ask_of_bind with ⟨_, htakes⟩ | ⟨_, _, ⟨c, e | _⟩, -, -, hrest⟩
  · obtain ⟨before, tag, after, log₁, log₂, c, e, c', _, hscan, rfl, hbefore, hended, hclose⟩ :=
      Page.takeAll_asks htakes
    have hends : j.Ends log₁ e := .intro hscan hbefore hended
    cases e with
    | inclusion i =>
      rcases hclose.ask_of_bind with ⟨_, hincluded⟩ | ⟨_, _, result, -, -, hend⟩
      · obtain ⟨log₂, log₃, url, rfl, hwants, ⟨_, hdocument⟩ | hcomposed⟩ :=
          Page.asks_included hincluded
        · exact .inl (.wants (List.append_assoc ..).symm hends hwants hdocument)
        · obtain ⟨log₃, log₄, base, text, next', rfl, hdocument, hcomposed⟩ := hcomposed
          unfold Renderer.inner at hcomposed
          cases hn : j.renderer.nested base with
          | error e =>
            rw [hn] at hcomposed
            cases hcomposed.of_done.2
          | ok n =>
            rw [hn] at hcomposed
            refine .inr ⟨_, log₄, _, next', ?_, .intro hends hwants hdocument hn, hcomposed⟩
            simp only [List.append_assoc]
      · cases result with
        | ok t => cases hend.of_done.2
        | error e =>
          simp only at hend
          split at hend
          · cases hend.of_done.2
          · cases hend.of_done.2
    | inline name fetchable body =>
      simp only [Page.close] at hclose
      cases hurl : j.renderer.page.resolveTemplate name with
      | error e =>
        rw [hurl] at hclose
        cases hclose.of_done.2
      | ok url =>
        rw [hurl] at hclose
        cases hclose with
        | nil =>
          rw [List.append_nil]
          exact .inl (.registers hends hurl rfl)
        | cons _ hclose => cases hclose.of_done.2
    | _ => cases hclose.of_done.2
  · cases hrest.of_done.2
  · cases hrest.of_done.2

/-- Nothing is asked for in a run but by one of its jobs. -/
theorem asked {command : Command} {next : command.Answer → Program (Except ComposeError Text)}
    (h : Performs j.program log (.ask command next)) :
    ∃ depth earlier own n, log = earlier ++ own ∧ j.Descends depth earlier n ∧
      n.Asks own command := by
  induction hlevels : j.renderer.levels generalizing j log next with
  | zero =>
    rcases asks_or_includes h with hasks | ⟨_, _, n, _, -, hincludes, -⟩
    · exact ⟨0, [], log, j, rfl, .self, hasks⟩
    · have hfewer := hincludes.levels
      omega
  | succ levels ih =>
    rcases asks_or_includes h with hasks | ⟨earlier, own, n, next', rfl, hincludes, hown⟩
    · exact ⟨0, [], log, j, rfl, .self, hasks⟩
    · have hfewer := hincludes.levels
      obtain ⟨depth, earlier', own', m, rfl, hdescends, hasks⟩ := ih hown (by omega)
      exact ⟨depth + 1, earlier ++ earlier', own', m, (List.append_assoc ..).symm,
        .outer hincludes hdescends, hasks⟩

end Job

/-! ## Includes at the deepest level -/

namespace Page

/-- With the answers of the log, a source has no content where its document would be composed too
deep: the error is that of its URL, or of its document, or else it is the depth. -/
inductive Sourceless (p : Page) (i : Inclusion) : List Answered → ComposeError → Prop
  | unresolved {e : ComposeError} : p.resolveTemplate i.source = .error e → Sourceless p i [] e
  | missing {url : Url} {log : List Answered} {e : ComposeError} :
    p.resolveTemplate i.source = .ok url →
    Performs (p.document url i.lifetime) log (.done (.error e)) → Sourceless p i log e
  | tooDeep {url : Url} {log : List Answered} {found : Url × Text} :
    p.resolveTemplate i.source = .ok url →
    Performs (p.document url i.lifetime) log (.done (.ok found)) →
    Sourceless p i log (.depthExceeded p.settings.maxDepth)

end Page

namespace Renderer

variable {r : Renderer} {i : Inclusion} {log : List Answered}

theorem inner_of_levels (hr : r.levels = 0) (base : Url) (wanted : Option Text) (document : Text) :
    r.inner base wanted document = .done (.error r.page.tooDeep) := by
  obtain ⟨p, levels⟩ := r
  obtain rfl : levels = 0 := hr
  rfl

theorem content_of_levels (hr : r.levels = 0) {template : Text} {result : Except ComposeError Text}
    (h : Performs (r.page.content r.inner i template) log (.done result)) :
    ∃ e, result = .error e := by
  rcases Page.performs_content h with ⟨e, -, -, rfl⟩ | ⟨url, -, ⟨e, -, rfl⟩ | hcomposed⟩
  · exact ⟨e, rfl⟩
  · exact ⟨e, rfl⟩
  · obtain ⟨log₁, log₂, base, text, rfl, -, hcomposed⟩ := hcomposed
    rw [inner_of_levels hr] at hcomposed
    exact ⟨_, (performs_done_iff.1 hcomposed).2⟩

theorem source_of_levels (hr : r.levels = 0) {e : ComposeError}
    (h : Performs (r.page.content r.inner i i.source) log (.done (.error e))) :
    r.page.Sourceless i log e := by
  rcases Page.performs_content h with ⟨e, hurl, rfl, ⟨⟩⟩ | ⟨url, hurl, hdocument | hcomposed⟩
  · exact .unresolved hurl
  · obtain ⟨e, hdocument, ⟨⟩⟩ := hdocument
    exact .missing hurl hdocument
  · obtain ⟨log₁, log₂, base, text, rfl, hdocument, hcomposed⟩ := hcomposed
    rw [inner_of_levels hr] at hcomposed
    obtain ⟨rfl, ⟨⟩⟩ := performs_done_iff.1 hcomposed
    rw [List.append_nil]
    exact .tooDeep hurl hdocument

/-- Whatever its source and its alternate are answered, an include at the deepest level has no
content, and its error is that of its source. -/
theorem included_of_levels (hr : r.levels = 0) {result : Except ComposeError Text}
    (h : Performs (r.page.included r.inner i) log (.done result)) :
    ∃ e log₁ log₂, log = log₁ ++ log₂ ∧ r.page.Sourceless i log₁ e ∧ result = .error e := by
  obtain ⟨log₁, log₂, found, rfl, hsource, hrest⟩ := h.done_of_bind
  obtain ⟨e, rfl⟩ := content_of_levels hr hsource
  refine ⟨e, log₁, log₂, rfl, source_of_levels hr hsource, ?_⟩
  cases halternate : i.alternate with
  | none =>
    simp only [halternate] at hrest
    exact (performs_done_iff.1 hrest).2
  | some alternate =>
    simp only [halternate] at hrest
    obtain ⟨log₃, log₄, found, rfl, hsecond, hend⟩ := hrest.done_of_bind
    obtain ⟨e', rfl⟩ := content_of_levels hr hsecond
    exact (performs_done_iff.1 hend).2

/-- An include at the deepest level writes nothing: its error is dropped if it is to continue, and
otherwise reported. -/
theorem close_of_levels (hr : r.levels = 0) {c : Composition}
    {found : Composition × Except ComposeError Unit}
    (h : Performs (r.page.close r.inner c (.inclusion i)) log (.done found)) :
    ∃ e log₁ log₂, log = log₁ ++ log₂ ∧ r.page.Sourceless i log₁ e ∧
      found = if i.continues then (c, .ok ()) else c.report e := by
  obtain ⟨log₁, log₂, result, rfl, hincluded, hrest⟩ := h.done_of_bind
  obtain ⟨e, log₃, log₄, rfl, hsource, rfl⟩ := included_of_levels hr hincluded
  refine ⟨e, log₃, log₄ ++ log₂, List.append_assoc .., hsource, ?_⟩
  cases hcontinues : i.continues with
  | true =>
    simp only [hcontinues] at hrest
    exact (performs_done_iff.1 hrest).2
  | false =>
    simp only [hcontinues] at hrest
    exact (performs_done_iff.1 hrest).2

end Renderer

namespace Job

/-- A render, or an extraction, by the renderer of a page comes to a result however it is answered,
and in a world where no lock is held it is not kept waiting. All that it asks for is asked for by
jobs no more levels deep than the settings allow; and in a job as deep as that, no include has any
content, whatever its source and its alternate are answered: its error is dropped or reported, and it
is the depth if the document of its source was obtained. -/
theorem descends_bounded (p : Page) (wanted : Option Text) (document : Text) :
    let j : Job := { renderer := .ofPage p, wanted, document }
    (∀ answers, ∃ log result, Performs j.program log (.done result) ∧
      Answered.Follow answers log) ∧
    (∀ w : World, (∀ key, w.locks.isFree key = true) →
      (∃ result w', j.program.run w = (.finished result, w')) ∨
        (j.program.run w).1 = .overflowed) ∧
    (∀ log command next, Performs j.program log (.ask command next) →
      ∃ depth earlier own n, log = earlier ++ own ∧ j.Descends depth earlier n ∧
        n.Asks own command) ∧
    (∀ depth log n, j.Descends depth log n → depth ≤ p.settings.maxDepth) ∧
    ∀ log n, j.Descends p.settings.maxDepth log n → ∀ c i own found,
      Performs (n.renderer.page.close n.renderer.inner c (.inclusion i)) own (.done found) →
      ∃ e log₁ log₂, own = log₁ ++ log₂ ∧ n.renderer.page.Sourceless i log₁ e ∧
        n.renderer.page.settings.maxDepth = p.settings.maxDepth ∧
        found = if i.continues then (c, .ok ()) else c.report e := by
  intro j
  refine ⟨j.program.exists_performs, fun w hfree => ?_, fun _ _ _ => asked, ?_, ?_⟩
  · have hdisciplined := Renderer.compose_disciplined (.ofPage p) wanted document
    refine (hdisciplined.run_ends (Locks.solo_of_isFree hfree)).imp_left ?_
    rintro ⟨result, w', hrun, -⟩
    exact ⟨result, w', hrun⟩
  · intro depth log n hdescends
    have hlevels : n.renderer.levels + depth = p.settings.maxDepth := hdescends.levels
    omega
  · intro log n hdescends c i own found hclose
    have hlevels : n.renderer.levels + p.settings.maxDepth = p.settings.maxDepth :=
      hdescends.levels
    obtain ⟨e, log₁, log₂, hown, hsource, hfound⟩ :=
      Renderer.close_of_levels (by omega) hclose
    have hsettings : n.renderer.page.settings = p.settings := hdescends.settings
    exact ⟨e, log₁, log₂, hown, hsource, congrArg _ hsettings, hfound⟩

/-! ## A document that includes itself -/

def loopUrl : Url where
  scheme := "http".toList
  authority := some { host := some (.domain "host".toList) }
  path := "/loop".toList

def loopTag : Text := "<esi:include src='http://host/loop'/>".toList

def loopWorld : World where
  backend := Script.backend
    [(loopUrl.toText, [.ok { status := 200, body := Utf8.encode loopTag }])]

def loopPage : Page where
  settings := { maxDepth := 1 }
  backends := {}
  request := {}

/-- A render of a document that includes itself, at most one level deep. -/
def loop : Job where
  renderer := .ofPage loopPage
  document := loopTag

def loopInclusion : Inclusion := { source := loopUrl.toText }

def looped : Job where
  renderer := { page := loopPage.within loopUrl, levels := 0 }
  document := loopTag

theorem loop_descends : ∃ log, loop.Descends loopPage.settings.maxDepth log looped := by
  have hscan : Markup.scan loopTag = [] ++ .tag loopTag :: [] := by decide +kernel
  have hended : loopPage.ended? (.ofWanted none) loopTag =
      some (.inclusion loopInclusion, .ofWanted none) := by decide +kernel
  have hurl : loopPage.resolveTemplate loopInclusion.source = .ok loopUrl := by decide +kernel
  have hrun : ((loopPage.document loopUrl none).run loopWorld).1 =
      .finished (.ok (loopUrl, loopTag)) := by decide +kernel
  obtain ⟨log, hdocument⟩ := performs_of_run (Prod.ext hrun rfl)
  have hends : loop.Ends [] (.inclusion loopInclusion) := .intro hscan (.nil _) hended
  exact ⟨_, .deeper .self (.intro hends (.source hurl) hdocument rfl)⟩

/-- The render ends in an error, which is that of the include in the document in the document. -/
theorem descends_bounded_loop :
    (loop.program.run loopWorld).1 = .finished (.error (.depthExceeded 1)) ∧
      (∃ result w', loop.program.run loopWorld = (.finished result, w')) ∧
      (∃ log, loop.Descends 1 log looped ∧ 1 ≤ loopPage.settings.maxDepth) ∧
      ∃ own e log₁ log₂, own = log₁ ++ log₂ ∧ e = .depthExceeded 1 ∧
        looped.renderer.page.Sourceless loopInclusion log₁ e ∧
        Performs (looped.renderer.page.close looped.renderer.inner (.ofWanted none)
          (.inclusion loopInclusion)) own (.done ((Composition.ofWanted none).report e)) := by
  have hbounded := descends_bounded loopPage none loopTag
  have hrun : (loop.program.run loopWorld).1 = .finished (.error (.depthExceeded 1)) := by
    decide +kernel
  have hclose : ((looped.renderer.page.close looped.renderer.inner (.ofWanted none)
      (.inclusion loopInclusion)).run loopWorld).1 =
      .finished ((Composition.ofWanted none).report (.depthExceeded 1)) := by decide +kernel
  obtain ⟨log, hlog⟩ := loop_descends
  obtain ⟨own, hown⟩ := performs_of_run (Prod.ext hclose rfl)
  obtain ⟨e, log₁, log₂, rfl, hsource, -, hfound⟩ := hbounded.2.2.2.2 log looped hlog _ _ _ _ hown
  have he : e = .depthExceeded 1 := by
    have hreport : (Composition.ofWanted none).report (.depthExceeded 1) =
        (Composition.ofWanted none).report e := hfound
    exact (Except.error.inj (congrArg Prod.snd hreport)).symm
  refine ⟨hrun, ?_, ⟨log, hlog, hbounded.2.2.2.1 _ _ _ hlog⟩, _, e, log₁, log₂, rfl, he, hsource,
    he ▸ hown⟩
  refine (hbounded.2.1 loopWorld fun _ => rfl).resolve_right fun hover => ?_
  cases hrun.symm.trans hover

end Job

end EdgeCompose
