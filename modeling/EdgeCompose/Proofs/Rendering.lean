import EdgeCompose.Proofs.Stack

/-!
How a property of programs is proved of whole renders. A render is made of two kinds of programs,
the content of a source and the registration of an inline element, put in sequence; so a property
that sequences keep holds of every render once it holds of those (`Compositional.compose`).
Which elements a document may open is a parameter, since some properties hold only of documents
without certain directives.
-/

namespace EdgeCompose

open Markup (Directive)

/-! ## Fetches -/

namespace Program.Sequential

variable {Φ : ∀ α : Type, Program α → Prop}

/-- A fetch is a sequence of announcements and of what lies between them. -/
theorem fetch (h : Sequential Φ) (hannounce : ∀ phase e, Φ _ (perform (.announce phase e)))
    (hanswer : ∀ r, Φ _ (Fetch.answer r)) (r : FetchRequest) (context : FetchContext) :
    Φ _ (Fetch.fetch r context) := by
  refine h.bind (hannounce .before _) fun e => ?_
  have hafter (response : Response) : Φ _ (perform (.announce .after
      { e with response := some response }) >>= fun e => pure (e.response.getD .abandoned)) :=
    h.bind (hannounce .after _) fun _ => h.done _
  simp only
  split
  · exact hafter _
  · exact h.bind (hanswer _) hafter

/-- Following redirects is a sequence of fetches. -/
theorem follow (h : Sequential Φ) (hfetch : ∀ r context, Φ _ (Fetch.fetch r context)) (p : Page)
    (left : Nat) (url : Url) : Φ _ (p.follow left url) := by
  induction left generalizing url with
  | zero =>
    unfold Page.follow
    refine h.bind (hfetch _ _) fun response => ?_
    split
    · exact h.done _
    · split
      · exact h.done _
      · exact h.done _
  | succ left ih =>
    unfold Page.follow
    refine h.bind (hfetch _ _) fun response => ?_
    split
    · simp only
      split
      · exact h.done _
      · exact ih _
    · split
      · exact h.done _
      · exact h.done _

end Program.Sequential

namespace Markup

/-- A start tag that can open an element, as it is without content. -/
def Opens (tag : Text) (bare : Element) : Prop :=
  ∃ v c c' d e, lookup? tag = some (.starts d) ∧ Composition.opened v c d tag = .ok (e, c') ∧
    e.bare = bare

theorem Opens.directive {tag : Text} {bare : Element} (h : Opens tag bare) :
    lookup? tag = some (.starts bare.directive) := by
  obtain ⟨v, c, c', d, e, hd, ho, rfl⟩ := h
  rw [Element.directive_bare, (Composition.opened_kept ho).2]
  exact hd

theorem Opens.inclusion {tag : Text} {i : Inclusion} (h : Opens tag (.inclusion i)) :
    Inclusion.ofTag tag = .ok i := by
  obtain ⟨v, c, c', d, e, -, ho, he⟩ := h
  have hd := (Composition.opened_kept ho).2
  cases e with
  | inclusion i' =>
    cases he
    cases hd
    obtain ⟨i'', hi, heq⟩ := Composition.exists_ok_of_bind ho
    cases heq
    exact hi
  | _ => cases he

end Markup

/-- The open elements of a composition all satisfy `allowed`, which does not see their content. -/
def Composition.All (allowed : Element → Prop) (c : Composition) : Prop :=
  ∀ e ∈ c.stack.map Element.bare, allowed e

namespace Composition

variable {allowed : Element → Prop} {c c' : Composition}

theorem Kept.all (h : Kept c c') (hc : c.All allowed) : c'.All allowed := by
  unfold All
  rw [h.stack]
  exact hc

theorem All.pop {e : Element} (h : c.All allowed) (hpop : c.pop? = some (e, c')) :
    allowed e.bare ∧ c'.All allowed := by
  unfold All at h
  rw [pop?_eq_some hpop, List.map_cons] at h
  exact List.forall_mem_cons.mp h

theorem All.push {e : Element} (h : c.All allowed) (he : allowed e.bare) :
    Composition.All allowed { c with stack := e :: c.stack } := by
  intro b hb
  rcases List.mem_cons.mp hb with rfl | hb
  · exact he
  · exact h b hb

/-- A token opens only elements that are allowed if its tag does. -/
theorem Move.all {v : Variables} {t : Markup.Token} (h : Move v c t c') (hc : c.All allowed)
    (ht : ∀ tag e, t = .tag tag → Markup.Opens tag e → allowed e) : c'.All allowed := by
  cases h with
  | kept hkept _ => exact hkept.all hc
  | @skipped tag _ _ hstack _ =>
    have hall := (write_kept c tag).all hc
    unfold All at hall ⊢
    rw [hstack]
    exact hall
  | opened _ hd ho =>
    have hopens := ht _ _ rfl ⟨_, _, _, _, _, hd, ho, rfl⟩
    exact ((opened_kept ho).1.all hc).push hopens
  | openedAndClosed _ _ ho hkept => exact hkept.all ((opened_kept ho).1.all hc)
  | closed hpop hkept => exact hkept.all (hc.pop hpop).2

end Composition

namespace Page

/-- Tokens are taken one part of a document after the other, up to the first error. -/
theorem takeAll_append (p : Page) (inner : Composer) (c : Composition) (ts us : List Markup.Token) :
    p.takeAll inner c (ts ++ us) = (p.takeAll inner c ts).bind fun
      | (c, .error e) => .done (c, .error e)
      | (c, .ok ()) => p.takeAll inner c us := by
  induction ts generalizing c with
  | nil => rfl
  | cons t ts ih =>
    simp only [List.cons_append, takeAll, Program.bind_eq_bind, Program.bind_bind]
    refine congrArg (Program.bind _) (funext fun found => ?_)
    obtain ⟨c', e | _⟩ := found
    · rfl
    · exact ih c'

end Page

/-- A property of programs that sequences keep, for the renders by some renderers of documents that
are `plain` in that they open only elements that are `allowed`. -/
structure Compositional (Φ : ∀ α : Type, Program α → Prop) (renderers : Renderer → Prop)
    (allowed : Element → Prop) (plain : Text → Prop) : Prop where
  done : ∀ {α : Type} (a : α), Φ α (.done a)
  bind : ∀ {α β : Type} {p : Program α} {f : α → Program β}, Φ α p →
    (∀ a, p.Yields a → Φ β (f a)) → Φ β (p.bind f)
  nested : ∀ {r n : Renderer} {base : Url}, renderers r → r.nested base = .ok n → renderers n
  content : ∀ {r : Renderer} {i : Inclusion} (template : Text), renderers r →
    allowed (.inclusion i) → (∀ base wanted document, plain document →
      Φ _ (r.inner base wanted document)) → Φ _ (r.page.content r.inner i template)
  register : ∀ {name : Text} {fetchable : Bool} (key : FragmentKey) (body : Text),
    allowed (.inline name fetchable []) → Φ _ (Program.perform (.register key body fetchable))
  opens : ∀ {document tag : Text} {e : Element}, plain document →
    .tag tag ∈ Markup.scan document → Markup.Opens tag e → allowed e

/-- A document is composed by what the renderer composes includes by. -/
theorem Renderer.compose_eq (r : Renderer) (wanted : Option Text) (document : Text) :
    r.page.compose r.levels wanted document = r.page.composeWith r.inner wanted document := by
  obtain ⟨p, levels⟩ := r
  cases levels <;> rfl

namespace Compositional

open EdgeCompose.Composition Page

variable {Φ : ∀ α : Type, Program α → Prop} {renderers : Renderer → Prop}
  {allowed : Element → Prop} {plain : Text → Prop} {r : Renderer}

theorem included (h : Compositional Φ renderers allowed plain) {i : Inclusion}
    (hcontent : ∀ template, Φ _ (r.page.content r.inner i template)) :
    Φ _ (r.page.included r.inner i) := by
  refine h.bind (hcontent _) ?_
  rintro (e | t) -
  · simp only
    split
    · exact h.done _
    · refine h.bind (hcontent _) ?_
      rintro (_ | t) -
      · exact h.done _
      · exact h.done _
  · exact h.done _

theorem close (h : Compositional Φ renderers allowed plain) (hr : renderers r)
    (hinner : ∀ base wanted document, plain document → Φ _ (r.inner base wanted document))
    (c : Composition) {e : Element} (he : allowed e.bare) : Φ _ (r.page.close r.inner c e) := by
  cases e with
  | inclusion i =>
    refine h.bind (h.included fun template => h.content template hr he hinner) ?_
    rintro (e | t) -
    · simp only
      split
      · exact h.done _
      · exact h.done _
    · exact h.done _
  | inline name fetchable body =>
    simp only [Page.close]
    split
    · exact h.done _
    · exact h.bind (h.register _ _ he) fun _ _ => h.done _
  | _ => exact h.done _

theorem closeTop (h : Compositional Φ renderers allowed plain) (hr : renderers r)
    (hinner : ∀ base wanted document, plain document → Φ _ (r.inner base wanted document))
    {c : Composition} (hc : c.All allowed) (tag : Text) :
    Φ _ (r.page.closeTop r.inner c tag) := by
  unfold Page.closeTop
  split
  · exact h.done _
  · next e c' hpop => exact h.close hr hinner c' (hc.pop hpop).1

theorem take (h : Compositional Φ renderers allowed plain) (hr : renderers r)
    (hinner : ∀ base wanted document, plain document → Φ _ (r.inner base wanted document))
    {c : Composition} (hc : c.All allowed) {t : Markup.Token}
    (ht : ∀ tag e, t = .tag tag → Markup.Opens tag e → allowed e) :
    Φ _ (r.page.take r.inner c t) := by
  cases t with
  | text t => exact h.done _
  | tag tag =>
    simp only [Page.take, takeTag]
    split
    · split
      · next c' hends =>
        rw [foreignTag_true hends]
        exact h.closeTop hr hinner hc tag
      · exact h.done _
    · split
      · next d hd =>
        unfold Composition.start
        cases ho : c.opened r.page.bindings d tag with
        | error e => exact h.done _
        | ok found =>
          obtain ⟨e, c'⟩ := found
          have hopens : allowed e.bare := ht tag _ rfl ⟨_, _, _, _, _, hd, ho, rfl⟩
          cases Markup.isSelfClosing tag with
          | true => exact h.closeTop hr hinner (((opened_kept ho).1.all hc).push hopens) tag
          | false => exact h.done _
      · split
        · exact h.closeTop hr hinner hc tag
        · exact h.done _
      · exact h.done _

theorem takeAll (h : Compositional Φ renderers allowed plain) (hr : renderers r)
    (hinner : ∀ base wanted document, plain document → Φ _ (r.inner base wanted document))
    {ts : List Markup.Token} {c : Composition} (hc : c.All allowed)
    (hts : ∀ tag e, .tag tag ∈ ts → Markup.Opens tag e → allowed e) :
    Φ _ (r.page.takeAll r.inner c ts) := by
  induction ts generalizing c with
  | nil => exact h.done _
  | cons t ts ih =>
    have ht : ∀ tag e, t = .tag tag → Markup.Opens tag e → allowed e := by
      rintro tag e rfl
      exact hts tag e List.mem_cons_self
    refine h.bind (h.take hr hinner hc ht) ?_
    rintro ⟨c', e | _⟩ hyields
    · exact h.done _
    · exact ih ((take_move hyields).all hc ht) fun tag e hmem =>
        hts tag e (List.mem_cons_of_mem _ hmem)

theorem composeWith (h : Compositional Φ renderers allowed plain) (hr : renderers r)
    (hinner : ∀ base wanted document, plain document → Φ _ (r.inner base wanted document))
    (wanted : Option Text) {document : Text} (hplain : plain document) :
    Φ _ (r.page.composeWith r.inner wanted document) := by
  have hstart : (Composition.ofWanted wanted).All allowed := by
    intro e he
    cases he
  refine h.bind (h.takeAll hr hinner hstart fun tag e => h.opens hplain) ?_
  rintro ⟨c, e | _⟩ -
  · exact h.done _
  · exact h.done _

/-- The property holds of every render of a plain document. -/
theorem compose (h : Compositional Φ renderers allowed plain) (hr : renderers r)
    (wanted : Option Text) {document : Text} (hplain : plain document) :
    Φ _ (r.page.compose r.levels wanted document) := by
  obtain ⟨p, levels⟩ := r
  induction levels generalizing p wanted document with
  | zero =>
    rw [Renderer.compose_eq]
    exact h.composeWith hr (fun _ _ _ _ => h.done _) wanted hplain
  | succ levels ih =>
    rw [Renderer.compose_eq]
    refine h.composeWith hr ?_ wanted hplain
    intro base wanted document hplain
    exact ih wanted hplain _ (h.nested hr rfl)

end Compositional

end EdgeCompose
