import EdgeCompose.Proofs.SoloRuns

/-!
Sites for which it makes no difference where a stored document came from. A stored document is
composed at the URL that was asked for, a fetched one at the URL that the fetch led to. A site is
neutral if both come to the same; then every render, with whatever honest answers, comes to what it
comes to where nothing is stored (`compositional_faithful`). A site that never redirects is neutral.
-/

namespace EdgeCompose

namespace Renderer

open Program

/-- What a renderer does with the document that it looked up. -/
def composeFound (r : Renderer) (wanted : Option Text) :
    Except ComposeError (Url × Text) → Program (Except ComposeError Text)
  | .error e => .done (.error e)
  | .ok (base, content) => r.inner base wanted content

theorem content_eq (r : Renderer) {i : Inclusion} {template : Text} {url : Url}
    (h : r.page.resolveTemplate template = .ok url) :
    r.page.content r.inner i template =
      (r.page.document url i.lifetime).bind (r.composeFound i.fragment) := by
  unfold Page.content
  simp only [h]
  refine congrArg (Program.bind _) (funext fun found => ?_)
  cases found <;> rfl

theorem composeFound_disciplined (r : Renderer) (wanted : Option Text)
    (found : Except ComposeError (Url × Text)) : (r.composeFound wanted found).Disciplined .idle := by
  cases found with
  | error e => rfl
  | ok document =>
    obtain ⟨base, content⟩ := document
    unfold composeFound inner
    simp only
    split
    · rfl
    · exact compose_disciplined _ wanted content

end Renderer

namespace Site

open Program

variable {s : Site} {fits : Nat → Prop} {r : Renderer}

/-! ## Pages -/

/-- No inline elements, and no lifetimes but those that fit. -/
def Allows (s : Site) (fits : Nat → Prop) : Element → Prop
  | .inline .. => False
  | .inclusion i => ∀ l, (i.lifetime <|> s.settings.lifetime) = some l → fits l
  | _ => True

def Plain (s : Site) (fits : Nat → Prop) (document : Text) : Prop :=
  ∀ tag e, .tag tag ∈ Markup.scan document → Markup.Opens tag e → s.Allows fits e

/-- The documents that a site serves are plain, and the lifetimes of its answers fit. -/
structure Calm (s : Site) (fits : Nat → Prop) : Prop where
  contents : ∀ key content, s.Serves key content → s.Plain fits content
  answers : ∀ l, s.Grants l → fits l

theorem Calm.hasRoom {clock : Clock} (h : s.Calm clock.HasRoom) :
    ∀ l, clock.HasRoom l ∨ s.Grants l → clock.HasRoom l := by
  rintro l (hl | hl)
  · exact hl
  · exact h.answers l hl

theorem Allows.anything {e : Element} (h : s.Allows fits e) : s.Allows (fun _ => True) e := by
  cases e with
  | inclusion i => exact fun _ _ => trivial
  | inline => exact h.elim
  | _ => trivial

theorem Calm.anything (h : s.Calm fits) : s.Calm fun _ => True where
  contents key content hserves tag e hmem hopens :=
    (h.contents key content hserves tag e hmem hopens).anything
  answers _ _ := trivial

def Renders (s : Site) (fits : Nat → Prop) (p : Program (Except ComposeError Text)) : Prop :=
  ∃ (r : Renderer) (wanted : Option Text) (document : Text), s.Has r ∧ s.Plain fits document ∧
    p = r.page.compose r.levels wanted document

theorem document_answered (p : Page) (url : Url) (lifetime : Option Nat) :
    (p.document url lifetime).answered s.uncached = (p.fetchDocument url).answered s.uncached := by
  rw [Page.document_eq]
  have hfound : ((p.fetchDocument url).bind (p.settleFetch url lifetime)).answered s.uncached =
      (p.fetchDocument url).answered s.uncached := by
    rw [answered_bind]
    generalize (p.fetchDocument url).answered s.uncached = found
    cases found <;> rfl
  exact hfound

def composed (s : Site) (r : Renderer) (url : Url) (wanted : Option Text) :
    Except ComposeError Text :=
  (r.composeFound wanted ((r.page.fetchDocument url).answered s.uncached)).answered s.uncached

theorem content_answered {i : Inclusion} {template : Text} {url : Url}
    (hurl : r.page.resolveTemplate template = .ok url) :
    (r.page.content r.inner i template).answered s.uncached = s.composed r url i.fragment := by
  rw [r.content_eq hurl, answered_bind, document_answered]
  rfl

/-- What is stored for a URL comes to the same at that URL as a fetch of the URL does. -/
def Neutral (s : Site) (r : Renderer) : Prop :=
  ∀ template url wanted content, wanted ≠ some [] → r.page.resolveTemplate template = .ok url →
    s.Serves (Page.documentKey url) content →
    (r.inner url wanted content).answered s.uncached = s.composed r url wanted

/-! ## All renders -/

/-- What a look-up comes to was served for the key that was looked up. -/
private theorem serves_of_found (hr : s.Has r) {template content : Text} {url base : Url}
    (hurl : r.page.resolveTemplate template = .ok url)
    {found : Except ComposeError (Url × Text)}
    (hfound : found = (r.page.fetchDocument url).answered s.uncached ∨
      ∃ content, s.Serves (Page.documentKey url) content ∧ found = .ok (url, content))
    (hok : found = .ok (base, content)) : s.Serves (Page.documentKey url) content := by
  rcases hfound with hfetched | ⟨served, hserves, hstored⟩
  · exact ⟨r, template, url, base, hr, hurl, rfl, hfetched.symm.trans hok⟩
  · cases hstored.symm.trans hok
    exact hserves

theorem compositional_honest (h : s.Calm fits) :
    Compositional (fun _ p => p.Obeys (s.honest fits) (fun _ _ => True) ()) s.Has (s.Allows fits)
      (s.Plain fits) where
  done _ := trivial
  bind hp hf := Obeys.bind hp fun _ a hyields _ => hf a hyields
  nested := Has.nested
  content {r i} template hr hi hinner := by
    unfold Page.content
    split
    · trivial
    · next url hurl =>
      refine (document_obeys hr hurl hi).bind ?_
      rintro _ (e | ⟨base, content⟩) - hfound
      · trivial
      · exact hinner _ _ _ (h.contents _ _ (serves_of_found hr hurl hfound rfl))
  register _ _ hinline := hinline.elim
  opens hplain hmem hopens := hplain _ _ hmem hopens

/-- An include that a tag can ask for has no fragment without a name. -/
theorem fragment_ne_nil {tag : Text} {i : Inclusion} (h : Inclusion.ofTag tag = .ok i) :
    i.fragment ≠ some [] := by
  unfold Inclusion.ofTag at h
  simp only at h
  split at h
  · cases h
  · cases h
    intro hnil
    obtain ⟨-, hne⟩ := Option.filter_eq_some_iff.mp hnil
    cases hne

theorem composeFound_faithful {wanted : Option Text} {found : Except ComposeError (Url × Text)}
    (h : ∀ base content, found = .ok (base, content) →
      s.Faithful fits (r.inner base wanted content)) :
    s.Faithful fits (r.composeFound wanted found) := by
  cases found with
  | error e => exact .done _
  | ok document => exact h document.1 document.2 rfl

/-- Where the site is neutral for what renders nest, they come to what they come to where nothing
is stored. -/
theorem compositional_faithful (h : s.Calm fits) :
    Compositional (fun _ p => s.Faithful fits p)
      (fun r => s.Has r ∧ ∀ r', s.Has r' → r'.levels ≤ r.levels → s.Neutral r')
      (fun e => s.Allows fits e ∧ ∃ tag, Markup.Opens tag e) (s.Plain fits) where
  done a := .done a
  bind {α β p f} hp hf := hp.bind (hf _ (yields_answered p s.uncached))
  nested {r n base} hr hn := by
    refine ⟨hr.1.nested hn, fun r' hr' hle => hr.2 r' hr' ?_⟩
    have hlevels := (Renderer.nested_kept hn).2
    omega
  content {r i} template hr hi hinner := by
    cases hurl : r.page.resolveTemplate template with
    | error e =>
      unfold Page.content
      simp only [hurl]
      exact .done _
    | ok url =>
      unfold Faithful
      rw [content_answered hurl, r.content_eq hurl]
      refine (document_obeys hr.1 hurl hi.1).bind ?_
      rintro _ found - hfound
      have hfaithful : s.Faithful fits (r.composeFound i.fragment found) :=
        composeFound_faithful fun base content hok =>
          hinner _ _ _ (h.contents _ _ (serves_of_found hr.1 hurl hfound hok))
      have hcomposed : (r.composeFound i.fragment found).answered s.uncached =
          s.composed r url i.fragment := by
        rcases hfound with rfl | ⟨content, hserves, rfl⟩
        · rfl
        · obtain ⟨tag, hopens⟩ := hi.2
          exact hr.2 r hr.1 (Nat.le_refl _) template url i.fragment content
            (fragment_ne_nil hopens.inclusion) hurl hserves
      rw [← hcomposed]
      exact hfaithful
  register _ _ hinline := hinline.1.elim
  opens hplain hmem hopens := ⟨hplain _ _ hmem hopens, _, hopens⟩

/-- What a renderer nests comes to what it comes to where nothing is stored, if the site is neutral
for renderers with fewer levels. -/
theorem inner_faithful (h : s.Calm fits) (hr : s.Has r)
    (hbelow : ∀ r', s.Has r' → r'.levels < r.levels → s.Neutral r') (base : Url)
    (wanted : Option Text) {document : Text} (hplain : s.Plain fits document) :
    s.Faithful fits (r.inner base wanted document) := by
  unfold Renderer.inner
  split
  · exact .done _
  · next n hn =>
    have hlevels := (Renderer.nested_kept hn).2
    refine (compositional_faithful h).compose ⟨hr.nested hn, fun r' hr' hle => ?_⟩ wanted hplain
    exact hbelow r' hr' (by omega)

/-! ## Sites without redirects -/

/-- What a fetch comes to at a URL that does not redirect. -/
theorem follow_answered {p : Page} {left : Nat} {url : Url}
    (h : (s.response url.toText).location? = none) :
    (p.follow left url).answered s.uncached =
      if (s.response url.toText).isSuccess then .ok (url, (s.response url.toText).bodyText)
      else .error (.fragmentUnavailable url.toText (s.response url.toText).status
        (s.response url.toText).bodyText) := by
  have hfetched : (Fetch.fetch (p.fragmentRequest url) p.fragmentContext).answered s.uncached =
      s.response url.toText := by
    rw [fetch_answered, Page.fragmentRequest_url]
  unfold Page.follow
  cases left with
  | zero =>
    simp only [bind_eq_bind, answered_bind, hfetched, h]
    split <;> rfl
  | succ left =>
    simp only [bind_eq_bind, answered_bind, hfetched, h]
    split <;> rfl

/-- What it comes to at one that does. -/
theorem follow_redirected {p : Page} {left : Nat} {url : Url} {location : Text}
    (h : (s.response url.toText).location? = some location) :
    (p.follow left url).answered s.uncached =
      match left with
      | 0 => .error (.tooManyRedirects url.toText p.settings.maxRedirects)
      | left + 1 =>
        match url.join location with
        | .error e => .error (Page.invalid location e)
        | .ok next => (p.follow left next).answered s.uncached := by
  have hfetched : (Fetch.fetch (p.fragmentRequest url) p.fragmentContext).answered s.uncached =
      s.response url.toText := by
    rw [fetch_answered, Page.fragmentRequest_url]
  cases left with
  | zero =>
    unfold Page.follow
    simp only [bind_eq_bind, answered_bind, hfetched, h]
    rfl
  | succ left =>
    rw [Page.follow]
    simp only [bind_eq_bind, answered_bind, hfetched, h]
    cases url.join location with
    | error e => rfl
    | ok next => rfl

/-- A site that never redirects is neutral. -/
theorem neutral_of_unredirected (h : ∀ url, (s.response url).location? = none) (r : Renderer) :
    s.Neutral r := by
  intro template url wanted content hwanted hurl hserves
  obtain ⟨r', template', url', final, -, -, hkey, hfetched⟩ := hserves
  have htext : url'.toText = url.toText := congrArg FragmentKey.url hkey
  unfold Page.fetchDocument at hfetched
  rw [follow_answered (h _), htext] at hfetched
  unfold composed Page.fetchDocument
  rw [follow_answered (h _)]
  split at hfetched
  · next hsuccess =>
    cases hfetched
    rw [if_pos hsuccess]
    rfl
  · cases hfetched

/-- What a site serves is the body of one of its answers. -/
theorem bodyText_of_serves {key : FragmentKey} {content : Text} (h : s.Serves key content) :
    ∃ url, (s.response url).bodyText = content := by
  obtain ⟨r, -, first, final, -, -, -, hfetched⟩ := h
  have hhere (left : Nat) (url : Url) (hstays : (s.response url.toText).location? = none)
      (hfetched : (r.page.follow left url).answered s.uncached = .ok (final, content)) :
      ∃ url, (s.response url).bodyText = content := by
    rw [follow_answered hstays] at hfetched
    split at hfetched
    · cases hfetched
      exact ⟨_, rfl⟩
    · cases hfetched
  unfold Page.fetchDocument at hfetched
  generalize r.page.settings.maxRedirects = left at hfetched
  induction left generalizing first with
  | zero =>
    cases hlocation : (s.response first.toText).location? with
    | none => exact hhere 0 first hlocation hfetched
    | some location =>
      rw [follow_redirected hlocation] at hfetched
      cases hfetched
  | succ left ih =>
    cases hlocation : (s.response first.toText).location? with
    | none => exact hhere (left + 1) first hlocation hfetched
    | some location =>
      rw [follow_redirected hlocation] at hfetched
      simp only at hfetched
      split at hfetched
      · cases hfetched
      · exact ih _ hfetched

end Site

end EdgeCompose
