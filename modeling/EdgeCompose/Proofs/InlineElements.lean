import EdgeCompose.Proofs.Concatenation
import EdgeCompose.Proofs.ForeignRegions
import EdgeCompose.Proofs.LookupOrder

/-!
Documents that a page registers itself. An inline element gives its body a URL: the body is cut into
tokens like any content, put together again as it was written (`InlineElement.scan_write`), and kept
under the URL in place of whatever was known of it (`Page.takeAll_inline`). To include that URL is
then to render the body, one level deeper, and nothing is fetched for it (`inline_reads_back`).
-/

namespace EdgeCompose

/-! ## Inline elements as they are written -/

namespace Markup

/-- An inline element as it is written: two tags, and between them a body without a comment that is
dropped, without a tag that does not end, and with the tags of inline elements in pairs. -/
structure InlineElement where
  name : Text
  opening : Text
  body : Text
  closing : Text
  starts : lookup? opening = some (.starts .inline)
  opening_whole : splitTag? opening = some (opening, [])
  stays : isSelfClosing opening = false
  named : (attributes opening).get? "name".toList = some name
  ends : lookup? closing = some (.ends .inline)
  closing_whole : splitTag? closing = some (closing, [])
  uncommented : ¬ "<!--esi".toList <:+: body
  terminated : Terminated (pieces body)
  balanced : depthAfter? .inline 0 (scan body) = some 0

namespace InlineElement

def toText (e : InlineElement) : Text := e.opening ++ (e.body ++ e.closing)

def fetchable (e : InlineElement) : Bool :=
  !((attributes e.opening).get? "fetchable".toList).any (Text.equalFold · "false".toList)

/-- The tokens of the body are the body. -/
theorem flatMap_scan_body (e : InlineElement) : (scan e.body).flatMap Token.toText = e.body := by
  rw [List.flatMap_def]
  exact (scan_partitions e.body).2.2.2.2 e.uncommented

/-- Outside comments the element is its two tags, with the tokens of the body between them. -/
theorem scan_write (e : InlineElement) {before : Text} (hbefore : Sealed before) (after : Text) :
    scan (before ++ (e.toText ++ after)) =
      scan before ++ .tag e.opening :: (scan e.body ++ .tag e.closing :: scan after) := by
  have hopening := startsTag_of_lookup? e.starts
  have hclosing := startsTag_of_lookup? e.ends
  have hwritten : e.toText ++ after = e.opening ++ (e.body ++ (e.closing ++ after)) := by
    simp [toText]
  have hbody : Sealed e.body := sealed_of_plain e.terminated e.uncommented
  rw [hwritten, scan_append hbefore (.inr (hopening.append _)), scan_tag hopening e.opening_whole,
    scan_append hbody (.inr (hclosing.append _)), scan_tag hclosing e.closing_whole]

end InlineElement

/-- A tag that includes the whole document of a source and has nothing to fall back on. -/
structure PlainInclude (tag source : Text) (lifetime : Option Nat) : Prop where
  starts : lookup? tag = some (.starts .inclusion)
  whole : splitTag? tag = some (tag, [])
  closes : isSelfClosing tag = true
  asks : Inclusion.ofTag tag = .ok { source, lifetime }

theorem PlainInclude.scan_eq {tag source : Text} {lifetime : Option Nat}
    (h : PlainInclude tag source lifetime) : scan tag = [.tag tag] := by
  have hscan := scan_tag (startsTag_of_lookup? h.starts) h.whole []
  rwa [List.append_nil, scan_nil] at hscan

end Markup

/-! ## Taking the element -/

namespace Page

open Program EdgeCompose.Composition

variable {p : Page} {inner : Composer} {c : Composition} {url : Url}

/-- Where elements can open, an inline element only registers its body. -/
theorem takeAll_inline (e : Markup.InlineElement) (hurl : p.resolveTemplate e.name = .ok url)
    (hf : c.isForeign = false) (hdepth : c.foreignDepth = 0) (ts : List Markup.Token) :
    p.takeAll inner c (.tag e.opening :: (Markup.scan e.body ++ .tag e.closing :: ts)) =
      .ask (.register (documentKey url) e.body e.fetchable) fun _ => p.takeAll inner c ts := by
  obtain ⟨stack, root, depth⟩ := c
  cases hdepth
  let open₀ (body : Text) : Composition :=
    { stack := .inline e.name e.fetchable body :: stack, root, foreignDepth := 0 }
  have hopened : Composition.opened p.bindings { stack, root, foreignDepth := 0 } .inline e.opening =
      .ok (.inline e.name e.fetchable [], { stack, root, foreignDepth := 0 }) := by
    simp only [opened, needed, e.named]
    rfl
  have hopening : p.take inner { stack, root, foreignDepth := 0 } (.tag e.opening) =
      .done (open₀ [], .ok ()) := by
    simp only [take, takeTag, hf, Bool.false_eq_true, if_false, e.starts, start, hopened, e.stays]
    rfl
  have hbody : p.takeAll inner (open₀ []) (Markup.scan e.body) = .done (open₀ e.body, .ok ()) := by
    have hall := takeAll_counted p inner (e := .inline e.name e.fetchable []) rfl stack root 0 e.balanced
    rw [e.flatMap_scan_body] at hall
    exact hall
  have hclosing : p.take inner (open₀ e.body) (.tag e.closing) =
      .ask (.register (documentKey url) e.body e.fetchable) fun _ =>
        .done ({ stack, root, foreignDepth := 0 }, .ok ()) := by
    rw [take_ending (d := .inline) rfl rfl e.ends]
    simp only [closeTop, pop?, open₀, close, hurl]
    rfl
  rw [takeAll, hopening]
  show p.takeAll inner (open₀ []) _ = _
  rw [takeAll_append, hbody, done_bind]
  simp only [takeAll, hclosing]
  rfl

/-- To include a document that stands in the store is to compose it. -/
theorem take_plainInclude {w : World} {tag source : Text} {lifetime : Option Nat} {e : FragmentEntry}
    (ht : Markup.PlainInclude tag source lifetime) (hurl : p.resolveTemplate source = .ok url)
    (he : w.fragments.get? (documentKey url) = some e) (hlasts : e.isExpired w.clock.calendar = false)
    (hf : c.isForeign = false) (hdepth : c.foreignDepth = 0) :
    (p.take inner c (.tag tag)).run w =
      ((inner url none e.content).bind fun
        | .ok out => .done (c.write out, .ok ())
        | .error error => .done (c.report error)).run (w.count (.fragmentLookup true)) := by
  obtain ⟨stack, root, depth⟩ := c
  cases hdepth
  let i : Inclusion := { source, lifetime }
  have hopened : Composition.opened p.bindings { stack, root, foreignDepth := 0 } .inclusion tag =
      .ok (.inclusion i, { stack, root, foreignDepth := 0 }) := by
    simp only [opened, ht.asks]
    rfl
  have htake : p.take inner { stack, root, foreignDepth := 0 } (.tag tag) =
      p.close inner { stack, root, foreignDepth := 0 } (.inclusion i) := by
    simp only [take, takeTag, hf, Bool.false_eq_true, if_false, ht.starts, start, hopened, ht.closes]
    rfl
  have hincluded : p.included inner i = p.content inner i source := by
    refine Eq.trans ?_ (bind_done (p.content inner i source))
    refine congrArg (Program.bind _) (funext fun found => ?_)
    cases found <;> rfl
  have hdocument : (p.document url i.lifetime).run w =
      (.finished (.ok (url, e.content)), w.count (.fragmentLookup true)) :=
    document_run_stored he hlasts
  rw [htake, close, hincluded, content_eq_bind hurl]
  simp only [bind_eq_bind, bind_bind]
  rw [run_bind hdocument]
  refine congrArg (Program.run _) (congrArg (Program.bind _) (funext fun found => ?_))
  cases found <;> rfl

end Page

namespace Renderer

open Program Page EdgeCompose.Composition

/-- A document that came from a URL, rendered one level deeper, if there is such a level. -/
def renderBelow (r : Renderer) (base : Url) (document : Text) : Program (Except ComposeError Text) :=
  match r.nested base with
  | .error e => .done (.error e)
  | .ok n => n.render document

variable {r : Renderer} {w : World} {url : Url}

theorem inner_none (r : Renderer) (base : Url) (document : Text) :
    r.inner base none document = r.renderBelow base document := rfl

/-- What the tokens of a page come to, where no element can be open yet. -/
theorem render_eq (r : Renderer) (document : Text) :
    r.render document = (r.page.takeAll r.inner (.ofWanted none) (Markup.scan document)).bind fun
      | (_, .error e) => .done (.error e)
      | (c, .ok ()) => .done (r.page.output none c) := by
  rw [render, compose_eq, composeWith]
  rfl

/-- A page that goes on with an include of a document in the store comes to that document. -/
theorem run_takeAll_plainInclude {tag source : Text} {lifetime : Option Nat} {e : FragmentEntry}
    (ht : Markup.PlainInclude tag source lifetime) (hurl : r.page.resolveTemplate source = .ok url)
    (he : w.fragments.get? (documentKey url) = some e)
    (hlasts : e.isExpired w.clock.calendar = false) :
    ((r.page.takeAll r.inner (.ofWanted none) [.tag tag]).bind fun
      | (_, .error e) => .done (.error e)
      | (c, .ok ()) => .done (r.page.output none c)).run w =
      (r.renderBelow url e.content).run (w.count (.fragmentLookup true)) := by
  have htake : (r.page.take r.inner (.ofWanted none) (.tag tag)).run w = _ :=
    take_plainInclude ht hurl he hlasts rfl rfl
  simp only [takeAll, bind_eq_bind, bind_bind]
  rw [run_bind_congr htake, bind_bind, inner_none]
  refine congrArg (Program.run _) (Eq.trans ?_ (bind_done (r.renderBelow url e.content)))
  refine congrArg (Program.bind _) (funext fun found => ?_)
  cases found <;> rfl

/-- An inline element, wherever it can open, writes nothing; it makes its body the document of the URL
that its name stands for, without an expiry and whatever there was before. From then on an include of
that name is the body, rendered one level deeper in the surroundings of the include, be it with or
without an error. Nothing is fetched for it, but the body may include what it will. -/
theorem inline_reads_back (r : Renderer) (e : Markup.InlineElement) {url : Url}
    (hurl : r.page.resolveTemplate e.name = .ok url) :
    let registered (w : World) : World := w.register (documentKey url) e.body e.fetchable
    let stored : FragmentEntry := { content := e.body, expires := none, fetchable := e.fetchable }
    (∀ wanted before after c w w₁, Markup.Sealed before →
      (r.page.takeAll r.inner (.ofWanted wanted) (Markup.scan before)).run w =
        (.finished (c, .ok ()), w₁) → c.isForeign = false →
      (r.page.takeAll r.inner (.ofWanted wanted) (Markup.scan (before ++ (e.toText ++ after)))).run w =
        (r.page.takeAll r.inner c (Markup.scan after)).run (registered w₁)) ∧
    (∀ w, (r.render e.toText).run w = (.finished (.ok []), registered w)) ∧
    (∀ w, (registered w).fragments.get? (documentKey url) = some stored) ∧
    ∀ tag lifetime, Markup.PlainInclude tag e.name lifetime →
      (∀ w, w.fragments.get? (documentKey url) = some stored →
        (r.page.document url lifetime).run w =
          (.finished (.ok (url, e.body)), w.count (.fragmentLookup true)) ∧
        (r.render tag).run w = (r.renderBelow url e.body).run (w.count (.fragmentLookup true)) ∧
        ∀ wanted c, r.page.Reaches r.inner wanted c → c.isForeign = false →
          (r.page.take r.inner c (.tag tag)).run w =
            ((r.renderBelow url e.body).bind fun
              | .ok out => .done (c.write out, .ok ())
              | .error error => .done (c.report error)).run (w.count (.fragmentLookup true))) ∧
      ∀ w, (r.render (e.toText ++ tag)).run w =
        (r.renderBelow url e.body).run ((registered w).count (.fragmentLookup true)) := by
  intro registered stored
  have hlasts (now : Int) : stored.isExpired now = false := rfl
  have hkept (w : World) : (registered w).fragments.get? (documentKey url) = some stored :=
    Table.get?_insert_self _ _ _
  have hscan (after : Text) := e.scan_write Markup.sealed_nil after
  simp only [Markup.scan_nil, List.nil_append] at hscan
  refine ⟨?_, ?_, hkept, ?_⟩
  · intro wanted before after c w w₁ hbefore hrun hf
    have hc : r.page.Reaches r.inner wanted c := takeAll_reaches .start (yields_of_run hrun)
    rw [e.scan_write hbefore, takeAll_append, run_bind hrun]
    exact (congrArg (Program.run w₁) (takeAll_inline e hurl hf (hc.balanced hf) _)).trans
      (run_answer rfl)
  · intro w
    have helement := hscan []
    rw [List.append_nil, Markup.scan_nil] at helement
    rw [render_eq, helement, takeAll_inline e hurl rfl rfl]
    rfl
  · intro tag lifetime ht
    refine ⟨?_, ?_⟩
    · intro w hstored
      refine ⟨document_run_stored hstored (hlasts _), ?_, ?_⟩
      · rw [render_eq, ht.scan_eq]
        exact run_takeAll_plainInclude ht hurl hstored (hlasts _)
      · intro wanted c hc hf
        exact take_plainInclude ht hurl hstored (hlasts _) hf (hc.balanced hf)
    · intro w
      rw [render_eq, hscan tag, ht.scan_eq, takeAll_inline e hurl rfl rfl]
      exact run_takeAll_plainInclude (w := registered w) ht hurl (hkept w) (hlasts _)

def nestedInline : Markup.InlineElement where
  name := "http://host/a".toList
  opening := "<esi:inline name='http://host/a' fetchable='false'>".toList
  body := "<esi:remove>x</esi:remove><esi:inline name='http://host/b'>y</esi:inline>z".toList
  closing := "</esi:inline>".toList
  starts := by decide +kernel
  opening_whole := by decide +kernel
  stays := by decide +kernel
  named := by decide +kernel
  ends := by decide +kernel
  closing_whole := by decide +kernel
  uncommented := by decide +kernel
  terminated := by decide +kernel
  balanced := by decide +kernel

private theorem nestedInline_included : Markup.PlainInclude "<esi:include src='http://host/a'/>".toList
    nestedInline.name none where
  starts := by decide +kernel
  whole := by decide +kernel
  closes := by decide +kernel
  asks := by decide +kernel

theorem inline_reads_back_nested :
    let url : Url :=
      { scheme := "http".toList, authority := some { host := some (.domain "host".toList) },
        path := "/a".toList }
    partRenderer.page.resolveTemplate nestedInline.name = .ok url ∧
      (∀ w, (partRenderer.render nestedInline.toText).run w =
        (.finished (.ok []), w.register (documentKey url) nestedInline.body false)) ∧
      ((partRenderer.render (nestedInline.toText ++ "<esi:include src='http://host/a'/>".toList)).run
        partWorld).1 = .finished (.ok "z".toList) := by
  intro url
  have hurl : partRenderer.page.resolveTemplate nestedInline.name = .ok url := by decide +kernel
  have hback := inline_reads_back partRenderer nestedInline hurl
  have hfetchable : nestedInline.fetchable = false := by decide +kernel
  simp only [hfetchable] at hback
  refine ⟨hurl, hback.2.1, ?_⟩
  rw [(hback.2.2.2 _ none nestedInline_included).2 partWorld]
  decide +kernel

end Renderer

end EdgeCompose
