import Mathlib.Control.Monad.Basic
import EdgeCompose.Fetch.Script
import EdgeCompose.Proofs.IncludePages
import EdgeCompose.Proofs.Neutrality

/-!
When the caches of a site do not show in what its pages come to. Renders leave stored documents and
stored answers behind, one after the other or side by side. What later renders come to is then the
same as where nothing is stored if the site is neutral, and only if it is (`transparent_iff`): any
document that the site serves may have been stored, and any include may be on a page.
-/

namespace EdgeCompose

/-- Two runs agree if they come to the same result, or if an overflow ended one of them. -/
def Outcome.Agrees {α : Type} : Outcome α → Outcome α → Prop
  | .finished a, .finished b => a = b
  | .stuck, _ | _, .stuck => False
  | .overflowed, _ | _, .overflowed => True

namespace Site

open Program

variable {s : Site} {fits : Nat → Prop} {r : Renderer}

/-! ## What earlier renders leave behind -/

/-- A world that renders may have come to, one after the other or side by side, from one in which
nothing was stored. -/
def Left (s : Site) (capacity : Option Nat) (w : World) : Prop :=
  ∃ (clock : Clock) (programs : List (Program (Except ComposeError Text))) (acts : List Act),
    (∀ p ∈ programs, s.Renders (fun _ => True) p) ∧
      ((System.start (s.empty clock capacity) programs).run acts).world = w

/-- Renders come to the same in a world that others left behind as in one where nothing is stored,
and they come to a result unless some lifetime is too long for the clock. -/
structure Transparent (s : Site) : Prop where
  agrees : ∀ capacity w p, s.Left capacity w → s.Renders (fun _ => True) p →
    (p.run w.abandoned).1.Agrees (p.run (s.empty w.clock capacity)).1
  finishes : ∀ capacity w p, s.Left capacity w → s.Calm w.clock.HasRoom →
    s.Renders w.clock.HasRoom p → ∃ result, (p.run w.abandoned).1 = .finished result

variable {capacity : Option Nat} {w : World} {p : Program (Except ComposeError Text)}

theorem Renders.honest (hp : s.Renders fits p) (h : s.Calm fits) :
    p.Obeys (s.honest fits) (fun _ _ => True) () := by
  obtain ⟨r, wanted, document, hr, hplain, rfl⟩ := hp
  exact (compositional_honest h).compose hr wanted hplain

theorem Renders.disciplined (hp : s.Renders fits p) : p.Disciplined .idle := by
  obtain ⟨r, wanted, document, -, -, rfl⟩ := hp
  exact r.compose_disciplined wanted document

theorem Renders.faithful (hp : s.Renders fits p) (h : s.Calm fits)
    (hneutral : ∀ r, s.Has r → s.Neutral r) : s.Faithful fits p := by
  obtain ⟨r, wanted, document, hr, hplain, rfl⟩ := hp
  exact (compositional_faithful h).compose ⟨hr, fun r' hr' _ => hneutral r' hr'⟩ wanted hplain

theorem Left.honest (hw : s.Left capacity w) (h : s.Calm fun _ => True) : s.Honest w := by
  obtain ⟨clock, programs, acts, hprograms, rfl⟩ := hw
  have hstart : s.HonestSystem (fun _ => True) (System.start (s.empty clock capacity) programs) :=
    .start (empty_honest clock capacity) fun p hp => (hprograms p hp).honest h
  exact (hstart.run acts).world

theorem Left.abandoned_honest (hw : s.Left capacity w) (h : s.Calm fun _ => True) :
    s.Honest w.abandoned := { hw.honest h with }

theorem solo_empty (m : Stage) (h : m.key? = none) : Locks.Solo .empty m := by
  intro key
  rw [h]
  rfl

/-- Where a site is neutral, nothing shows of what earlier renders left behind. -/
theorem transparent_of_neutral (h : s.Calm fun _ => True)
    (hneutral : ∀ r, s.Has r → s.Neutral r) : s.Transparent where
  agrees := by
    intro capacity w p hw hp
    have hfaithful := hp.faithful h hneutral
    have hwarm := run_ends hfaithful hp.disciplined (hw.abandoned_honest h) (solo_empty .idle rfl)
    have hcold := run_ends hfaithful hp.disciplined (empty_honest w.clock capacity)
      (solo_empty .idle rfl)
    rcases hwarm with ⟨a, w₁, hwarm, hends⟩ | ⟨hwarm, -⟩
    · rcases hcold with ⟨b, w₂, hcold, hends'⟩ | ⟨hcold, -⟩
      · rw [hwarm, hcold]
        exact hends.result.trans hends'.result.symm
      · rw [hwarm, hcold]
        trivial
    · rcases hcold with ⟨b, w₂, hcold, -⟩ | ⟨hcold, -⟩
      · rw [hwarm, hcold]
        trivial
      · rw [hwarm, hcold]
        trivial
  finishes := by
    intro capacity w p hw hcalm hp
    obtain ⟨a, w', hrun, -⟩ := run_finishes (hp.honest hcalm) hp.disciplined
      (hw.abandoned_honest h) (solo_empty .idle rfl) hcalm.hasRoom
    exact ⟨a, by rw [hrun]⟩

/-! ## A document that is stored -/

theorem plain_includeTag (source : Text) {fragment : Option Text} (h : fragment ≠ some [])
    (hfits : fits 1) : s.Plain fits (includeTag source fragment).toText := by
  intro tag e hmem hopens
  rw [scan_includeTag, List.mem_singleton] at hmem
  cases hmem
  have hdirective := hopens.directive
  rw [lookup?_includeTag] at hdirective
  cases e with
  | inclusion i =>
    have hi := hopens.inclusion
    rw [ofTag_includeTag source h] at hi
    cases hi
    rintro l ⟨⟩
    exact hfits
  | _ => cases hdirective

def includePage (r : Renderer) (source : Text) (fragment : Option Text) :
    Program (Except ComposeError Text) :=
  r.page.compose r.levels none (includeTag source fragment).toText

theorem includePage_renders (hr : s.Has r) (source : Text) {fragment : Option Text}
    (h : fragment ≠ some []) (hfits : fits 1) : s.Renders fits (includePage r source fragment) :=
  ⟨r, none, _, hr, plain_includeTag source h hfits, rfl⟩

theorem includePage_eq (r : Renderer) {source : Text} {fragment : Option Text} {url : Url}
    (h : fragment ≠ some []) (hurl : r.page.resolveTemplate source = .ok url) :
    includePage r source fragment =
      (r.page.document url (some 1)).bind (r.composeFound fragment) := by
  unfold includePage
  rw [compose_includeTag r source h, r.content_eq hurl]

/-- A render can leave behind any content that the site serves, as it is stored for the second in
which it is fetched. -/
theorem exists_left (h : s.Calm (Clock.HasRoom {})) {key : FragmentKey} {content : Text}
    (hserves : s.Serves key content) :
    ∃ w e, s.Left none w ∧ w.clock = {} ∧ w.fragments.get? key = some e ∧ e.content = content ∧
      e.isExpired w.clock.calendar = false := by
  obtain ⟨r, template, url, final, hr, hurl, rfl, hfetched⟩ := hserves
  have hwhole : (none : Option Text) ≠ some [] := nofun
  have hroom : Clock.HasRoom {} 1 := by decide
  have hlifetime : ∀ l, (some 1 <|> s.settings.lifetime) = some l → Clock.HasRoom {} l := by
    rintro l ⟨⟩
    exact hroom
  obtain ⟨found, w, hrun, hends, hstored⟩ := document_ends hr hurl (empty_honest {} none)
    (solo_empty .idle rfl) rfl hlifetime h.answers
  obtain ⟨expires, hexpires, hentry⟩ := hstored final content (hends.result.trans hfetched)
  have hbegins : (System.start (s.empty {} none) [includePage r template none]).rest? 0 =
      some ((r.page.document url (some 1)).bind (r.composeFound none)) := by
    rw [System.rest?_start, ← includePage_eq r hwhole hurl]
    rfl
  obtain ⟨acts, hworld, -⟩ := System.solo_run hbegins hrun
  refine ⟨w, _, ⟨{}, [includePage r template none], acts, ?_, hworld⟩, hends.clock, hentry, rfl, ?_⟩
  · intro p hp
    rw [List.mem_singleton] at hp
    rw [hp]
    exact includePage_renders hr template hwhole trivial
  · cases hexpires
    rw [hends.clock]
    simp only [FragmentEntry.isExpired, Option.any_some, decide_eq_false_iff_not]
    omega

/-! ## From transparency to neutrality -/

/-- Alone and where all lifetimes fit, an include comes to that once its document is there. -/
private theorem composeFound_run {clock : Clock} (h : s.Calm clock.HasRoom) (hr : s.Has r)
    (hbelow : ∀ r', s.Has r' → r'.levels < r.levels → s.Neutral r') {w : World}
    (hclock : w.clock = clock) (hw : s.Honest w) (hsolo : w.locks.Solo .idle)
    (wanted : Option Text) {found : Except ComposeError (Url × Text)}
    (hplain : ∀ base content, found = .ok (base, content) → s.Plain clock.HasRoom content) :
    ((r.composeFound wanted found).run w).1 =
      .finished ((r.composeFound wanted found).answered s.uncached) := by
  subst hclock
  have hfaithful : s.Faithful w.clock.HasRoom (r.composeFound wanted found) :=
    composeFound_faithful fun base content hok =>
      inner_faithful h hr hbelow base wanted (hplain base content hok)
  obtain ⟨a, w', hrun, hends⟩ :=
    run_finishes hfaithful (r.composeFound_disciplined wanted found) hw hsolo h.hasRoom
  rw [hrun, ← hends.result]

/-- If nothing ever shows of what earlier renders left behind, the site is neutral. -/
theorem neutral_of_transparent (h : s.Calm (Clock.HasRoom {})) (ht : s.Transparent)
    (hr : s.Has r) : s.Neutral r := by
  induction hn : r.levels using Nat.strongRecOn generalizing r with
  | ind n ih =>
    have hbelow (r' : Renderer) (hr' : s.Has r') (hlt : r'.levels < r.levels) : s.Neutral r' :=
      ih r'.levels (hn ▸ hlt) hr' rfl
    intro template url wanted content hwanted hurl hserves
    -- The include of the URL, in a world that has the content and in one that has nothing.
    obtain ⟨w, e, hleft, hclock, hentry, rfl, hlasts⟩ := exists_left h hserves
    have hagrees := ht.agrees none w (includePage r template wanted) hleft
      (includePage_renders hr template hwanted trivial)
    rw [includePage_eq r hwanted hurl, hclock] at hagrees
    have hwarm : (((r.page.document url (some 1)).bind (r.composeFound wanted)).run w.abandoned).1 =
        .finished ((r.inner url wanted e.content).answered s.uncached) := by
      have hfound : (r.page.document url (some 1)).run w.abandoned =
          (.finished (.ok (url, e.content)), w.abandoned.count (.fragmentLookup true)) :=
        Page.document_run_stored hentry hlasts
      have hw : s.Honest (w.abandoned.count (.fragmentLookup true)) :=
        { hleft.abandoned_honest h.anything with }
      have hnow : (w.abandoned.count (.fragmentLookup true)).clock = {} := hclock
      rw [run_bind hfound]
      refine composeFound_run h hr hbelow hnow hw (solo_empty .idle rfl) wanted ?_
      rintro _ _ ⟨⟩
      exact h.contents _ _ hserves
    have hcold : (((r.page.document url (some 1)).bind (r.composeFound wanted)).run
        (s.empty {} none)).1 = .finished (s.composed r url wanted) := by
      have hsecond : ∀ l, (some 1 <|> s.settings.lifetime) = some l → Clock.HasRoom {} l := by
        rintro l ⟨⟩
        decide
      obtain ⟨found, w', hrun, hends, -⟩ := document_ends hr hurl (empty_honest {} none)
        (solo_empty .idle rfl) rfl hsecond h.answers
      rw [run_bind hrun, composeFound_run h hr hbelow hends.clock hends.honest hends.locks wanted]
      · rw [hends.result]
        rfl
      · rintro base content hok
        exact h.contents _ _ ⟨r, template, url, base, hr, hurl, rfl, hends.result.symm.trans hok⟩
    rw [hwarm, hcold] at hagrees
    exact hagrees

/-- Renders of a site without inline elements come to the same whatever earlier renders left in the
caches, if and only if what is stored for a URL always composes at that URL as what a fetch of it
brings does where that came from. -/
theorem transparent_iff (s : Site) :
    (s.Calm (fun _ => True) → (∀ r, s.Has r → s.Neutral r) → s.Transparent) ∧
      (s.Calm (Clock.HasRoom {}) → s.Transparent → ∀ r, s.Has r → s.Neutral r) := by
  constructor
  · intro hcalm hneutral
    exact transparent_of_neutral hcalm hneutral
  · intro hcalm htransparent r hr
    exact neutral_of_transparent hcalm htransparent hr

/-! ## Two sites -/

def isPlain (document : Text) : Bool :=
  (Markup.scan document).all fun
    | .text _ => true
    | .tag tag => Markup.lookup? tag != some (.starts .inline) &&
      match Inclusion.ofTag tag with
      | .ok i => i.lifetime.isNone
      | .error _ => true

theorem plain_of_isPlain {document : Text} (hs : s.settings.lifetime = none)
    (h : isPlain document = true) : s.Plain fits document := by
  intro tag e hmem hopens
  have htag := List.all_eq_true.mp h _ hmem
  simp only [Bool.and_eq_true, bne_iff_ne] at htag
  cases e with
  | inclusion i =>
    intro l hl
    rw [hopens.inclusion] at htag
    rw [Option.isNone_iff_eq_none.mp htag.2, hs] at hl
    cases hl
  | inline name fetchable body => exact htag.1 hopens.directive
  | _ => trivial

/-- The site with these answers, which finds nothing else. -/
def ofAnswers (answers : List (Text × Response)) : Site where
  settings := {}
  backends := {}
  origin url := .ok ((answers.lookup url).getD Script.notFound)

theorem response_ofAnswers {answers : List (Text × Response)} (ok : Response → Prop)
    (h : ∀ e ∈ answers, ok e.2) (hnot : ok Script.notFound) (url : Text) :
    ok ((ofAnswers answers).response url) := by
  have hresponse : (ofAnswers answers).response url = (answers.lookup url).getD Script.notFound :=
    rfl
  rw [hresponse]
  cases hlookup : answers.lookup url with
  | none => exact hnot
  | some response =>
    obtain ⟨before, after, hanswers, -⟩ := List.lookup_eq_some_iff.mp hlookup
    exact h (url, response) (by simp [hanswers])

theorem calm_ofAnswers {answers : List (Text × Response)}
    (h : ∀ e ∈ answers, isPlain e.2.bodyText = true ∧
      (CacheControl.ofHeaders e.2.headers).lifetime? = none) : (ofAnswers answers).Calm fits := by
  have hall := response_ofAnswers (fun response => isPlain response.bodyText = true ∧
    (CacheControl.ofHeaders response.headers).lifetime? = none) h (by decide +kernel)
  constructor
  · intro key content hserves
    obtain ⟨url, -, rfl⟩ := bodyText_of_serves hserves
    exact plain_of_isPlain rfl (hall url).1
  · rintro l ⟨url, hl⟩
    rw [(hall url).2] at hl
    cases hl

/-- A document with a relative include, and what the include asks for. -/
def documents : List (Text × Response) :=
  [("http://host/dir/doc".toList,
      { status := 200, body := Utf8.encode "[<esi:include src='part'/>]".toList }),
    ("http://host/dir/part".toList, { status := 200, body := Utf8.encode "right".toList })]

def direct : Site := ofAnswers documents

/-- The same documents behind a redirect, where the relative include leads elsewhere. -/
def redirected : Site :=
  ofAnswers (documents ++
    [("http://host/old".toList,
        { status := 302, headers := [(Response.locationName, Utf8.encode "/dir/doc".toList)] }),
      ("http://host/part".toList, { status := 200, body := Utf8.encode "wrong".toList })])

/-- The site without redirects is neutral, so its caches never show. -/
theorem transparent_iff_direct : direct.Transparent ∧ ∀ r, direct.Has r → direct.Neutral r := by
  have hcalm (fits : Nat → Prop) : direct.Calm fits := calm_ofAnswers (by decide +kernel)
  have hunredirected : ∀ url, (direct.response url).location? = none :=
    response_ofAnswers (fun response => response.location? = none) (by decide +kernel)
      (by decide +kernel)
  have htransparent : direct.Transparent :=
    (transparent_iff direct).1 (hcalm _) fun r _ => neutral_of_unredirected hunredirected r
  exact ⟨htransparent, (transparent_iff direct).2 (hcalm _) htransparent⟩

def oldPage : Program (Except ComposeError Text) :=
  (Renderer.ofPage { settings := {}, backends := {}, request := {} }).render
    "<esi:include src='http://host/old'/>".toList

def visited : World :=
  ((System.start (redirected.empty {} none) [oldPage]).run (List.replicate 40 (.advance 0))).world

/-- The first render of the page comes to what is behind the redirect, the second one to what the
same include leads to from the URL that was asked for. -/
theorem redirected_not_transparent :
    redirected.Calm (fun _ => True) ∧ redirected.Left none visited ∧
      redirected.Renders (fun _ => True) oldPage ∧
      (oldPage.run (redirected.empty visited.clock none)).1 = .finished (.ok "[right]".toList) ∧
      (oldPage.run visited.abandoned).1 = .finished (.ok "[wrong]".toList) ∧
      ¬ redirected.Transparent := by
  have hrenders : redirected.Renders (fun _ => True) oldPage :=
    ⟨_, none, _, .outer rfl rfl, plain_of_isPlain rfl (by decide +kernel), rfl⟩
  have hleft : redirected.Left none visited := by
    refine ⟨{}, [oldPage], _, ?_, rfl⟩
    intro p hp
    rw [List.mem_singleton] at hp
    rw [hp]
    exact hrenders
  have hcold : (oldPage.run (redirected.empty visited.clock none)).1 =
      .finished (.ok "[right]".toList) := by
    decide +kernel
  have hwarm : (oldPage.run visited.abandoned).1 = .finished (.ok "[wrong]".toList) := by
    decide +kernel
  refine ⟨calm_ofAnswers (by decide +kernel), hleft, hrenders, hcold, hwarm, fun htransparent => ?_⟩
  have hagrees := htransparent.agrees none visited oldPage hleft hrenders
  rw [hwarm, hcold] at hagrees
  have hresults : (Except.ok "[wrong]".toList : Except ComposeError Text) = .ok "[right]".toList :=
    hagrees
  exact absurd hresults (by decide)

end Site

end EdgeCompose
