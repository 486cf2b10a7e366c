import EdgeCompose.Proofs.FailedAttempts

/-!
Regions that are left alone. Some elements leave their body unprocessed (`Element.Unprocessed`): from
their start tag on, or from the moment on at which they fail. Either way no tags are counted yet where
the region begins (`Page.Begins.opened_or_failed`). The region is the content up to the end tag that
balances the tags of the element's own directive (`Markup.Matched`); it is taken in as it is written,
and nothing else happens until that end tag ends the element (`Page.Begins.skips_region`).
-/

namespace EdgeCompose

open Markup (Directive)

namespace Markup

/-! ## Matched tags -/

/-- The tags of the directive `d` come in pairs, but for those that close themselves. Other tags may
come in any order. -/
inductive Matched (d : Directive) : List Token → Prop
  | nil : Matched d []
  | text {ts : List Token} (t : Text) : Matched d ts → Matched d (.text t :: ts)
  | other {ts : List Token} {tag : Text} : lookup? tag ≠ some (.starts d) →
    lookup? tag ≠ some (.ends d) → Matched d ts → Matched d (.tag tag :: ts)
  | single {ts : List Token} {tag : Text} : lookup? tag = some (.starts d) →
    isSelfClosing tag = true → Matched d ts → Matched d (.tag tag :: ts)
  | pair {ts body : List Token} {opening closing : Text} : lookup? opening = some (.starts d) →
    isSelfClosing opening = false → Matched d body → lookup? closing = some (.ends d) →
    Matched d ts → Matched d (.tag opening :: (body ++ .tag closing :: ts))

variable {d : Directive} {tag : Text} {ts us : List Token}

theorem depthAfter?_passed (hend : d.isEndTag tag = false)
    (hstart : (d.isStartTag tag && !isSelfClosing tag) = false) (n : Nat) :
    depthAfter? d n (.tag tag :: ts) = depthAfter? d n ts := by
  simp [depthAfter?, hend, hstart]

theorem depthAfter?_opening (hstart : d.isStartTag tag = true) (hself : isSelfClosing tag = false)
    (n : Nat) : depthAfter? d n (.tag tag :: ts) = depthAfter? d (n + 1) ts := by
  simp [depthAfter?, Directive.isEndTag_of_isStartTag hstart, hstart, hself]

theorem depthAfter?_closing (hend : d.isEndTag tag = true) (n : Nat) :
    depthAfter? d (n + 1) (.tag tag :: ts) = depthAfter? d n ts := by
  simp [depthAfter?, hend]

theorem depthAfter?_append (d : Directive) (n : Nat) (ts us : List Token) :
    depthAfter? d n (ts ++ us) = (depthAfter? d n ts).bind (depthAfter? d · us) := by
  fun_induction depthAfter? d n ts with
  | case1 n => rfl
  | case2 n t ts ih => exact ih
  | case3 tag ts hend => simp [depthAfter?, hend]
  | case4 tag ts hend n ih => simpa [depthAfter?, hend] using ih
  | case5 n tag ts hend hstart ih => simpa [depthAfter?, hend, hstart] using ih
  | case6 n tag ts hend hstart ih => simpa [depthAfter?, hend, hstart] using ih

/-- Matched tags leave the count as it is. -/
theorem Matched.depthAfter?_append (h : Matched d ts) (n : Nat) :
    depthAfter? d n (ts ++ us) = depthAfter? d n us := by
  induction h generalizing n us with
  | nil => rfl
  | text t _ ih => exact ih n
  | @other ts tag hstart hend _ ih =>
    rw [ne_eq, lookup?_starts, Bool.not_eq_true] at hstart
    rw [ne_eq, lookup?_ends, Bool.not_eq_true] at hend
    rw [List.cons_append, depthAfter?_passed hend (by simp [hstart]), ih]
  | @single ts tag hstart hself _ ih =>
    have hend : d.isEndTag tag = false :=
      Directive.isEndTag_of_isStartTag (lookup?_starts.1 hstart)
    rw [List.cons_append, depthAfter?_passed hend (by simp [hself]), ih]
  | @pair ts body opening closing hstart hself _ hend _ ihBody ih =>
    rw [List.cons_append, List.append_assoc, List.cons_append,
      depthAfter?_opening (lookup?_starts.1 hstart) hself, ihBody,
      depthAfter?_closing (lookup?_ends.1 hend), ih]

theorem Matched.depthAfter?_eq (h : Matched d ts) (n : Nat) : depthAfter? d n ts = some n := by
  rw [← List.append_nil ts, h.depthAfter?_append]
  rfl

/-- No end tag in front of some place in a region ends the element around it. -/
theorem Matched.depthAfter?_of_prefix {before : List Token} (h : Matched d ts)
    (hbefore : before <+: ts) (n : Nat) : ∃ depth, depthAfter? d n before = some depth := by
  obtain ⟨after, rfl⟩ := hbefore
  have hall := h.depthAfter?_eq n
  rw [Markup.depthAfter?_append] at hall
  obtain ⟨depth, hdepth, -⟩ := Option.bind_eq_some_iff.mp hall
  exact ⟨depth, hdepth⟩

end Markup

/-! ## Elements that leave their body unprocessed -/

namespace Element

inductive Unprocessed : Element → Prop
  | inclusion (i : Inclusion) : Unprocessed (.inclusion i)
  | inline (name : Text) (fetchable : Bool) (body : Text) : Unprocessed (.inline name fetchable body)
  | remove : Unprocessed .remove
  | comment : Unprocessed .comment
  | when (body : Text) : Unprocessed (.when false body)
  | otherwise (body : Text) : Unprocessed (.otherwise false body)
  | except (body : Text) : Unprocessed (.except false body)
  | attempt (body : Text) : Unprocessed (.attempt true body)

variable {e : Element}

theorem Unprocessed.isForeign (h : e.Unprocessed) : e.isForeign = true := by
  cases h <;> rfl

/-- Of what is left unprocessed only inline elements keep the text. -/
theorem Unprocessed.write (h : e.Unprocessed) (hne : e.directive ≠ .inline) (t : Text) :
    e.write t = e := by
  cases h with
  | inline name fetchable body => exact (hne rfl).elim
  | _ => rfl

end Element

/-! ## Where a region begins -/

namespace Composition

/-- Where elements could open, an element that stays open did not open to be left alone. -/
theorem Kept.isForeign_bare {c c' : Composition} {e : Element} {below : List Element}
    (h : Kept c c') (hf : c.isForeign = false) (hstack : c'.stack = e :: below) :
    e.bare.isForeign = false := by
  have hbare := h.stack
  rw [hstack, List.map_cons] at hbare
  unfold Composition.isForeign at hf
  cases hfirst : c.stack with
  | nil => simp [hfirst] at hbare
  | cons first rest =>
    rw [hfirst] at hbare hf
    rw [(List.cons_eq_cons.mp hbare).1]
    exact Element.isForeign_bare hf

end Composition

namespace Page

open Program EdgeCompose.Composition

variable {p : Page} {inner : Composer} {wanted : Option Text} {c c' : Composition}
  {t : Markup.Token} {e : Element} {below : List Element}

/-- With the token `t` a region begins that the innermost element leaves alone: either elements could
open before, or another element was the innermost one. -/
structure Begins (p : Page) (inner : Composer) (c : Composition) (t : Markup.Token)
    (c' : Composition) (e : Element) (below : List Element) : Prop where
  takes : (p.take inner c t).Yields (c', .ok ())
  innermost : c'.stack = e :: below
  unprocessed : e.Unprocessed
  fresh : c.isForeign = false ∨ c'.stack.length < c.stack.length

namespace Begins

/-- No tags are counted where a region begins, and the element has just opened, or it is one that was
not left alone from its start tag on. -/
theorem opened_or_failed (hc : p.Reaches inner wanted c) (h : p.Begins inner c t c' e below) :
    c'.foreignDepth = 0 ∧ (e.bare = e ∨ e.bare.isForeign = false) := by
  have hopen (hlength : c'.stack.length = c.stack.length) : c.isForeign = false :=
    h.fresh.resolve_right (by simp [hlength])
  cases take_move h.takes with
  | kept hkept _ =>
    have hf := hopen hkept.length
    exact ⟨hkept.foreignDepth.trans (hc.balanced hf), .inr (hkept.isForeign_bare hf h.innermost)⟩
  | @skipped tag _ hf hstack _ =>
    have hlength : c'.stack.length = c.stack.length := by
      rw [hstack]
      exact (write_kept c tag).length
    rw [hopen hlength] at hf
    cases hf
  | opened hf _ ho =>
    obtain ⟨rfl, -⟩ := List.cons_eq_cons.mp h.innermost
    exact ⟨(opened_kept ho).1.foreignDepth.trans (hc.balanced hf), .inl (opened_cases ho).2.1⟩
  | @openedAndClosed d tag e₁ c₁ _ hf _ ho hkept =>
    have hkept₁ : Kept { c with foreignDepth := 0 } { c₁ with foreignDepth := 0 } :=
      ⟨(opened_kept ho).1.stack, (opened_kept ho).1.root, rfl⟩
    exact ⟨hkept.foreignDepth, .inr ((hkept₁.trans hkept).isForeign_bare hf h.innermost)⟩
  | @closed tag e₁ c₁ _ hpop hkept =>
    refine ⟨hkept.foreignDepth.trans (pop?_rest hpop).2, .inr (hc.layered _ ?_)⟩
    have hbare := hkept.stack
    rw [h.innermost, List.map_cons] at hbare
    rw [pop?_eq_some hpop, List.tail_cons, ← hbare]
    exact List.mem_cons_self

/-- An inline element has no body yet where its region begins. -/
theorem inline_empty (hc : p.Reaches inner wanted c) (h : p.Begins inner c t c' e below)
    (he : e.directive = .inline) : ∃ name fetchable, e = .inline name fetchable [] := by
  have hbare := (h.opened_or_failed hc).2
  cases e with
  | inline name fetchable body =>
    rcases hbare with hbare | hshut
    · exact ⟨name, fetchable, hbare.symm⟩
    · cases hshut
  | _ => cases he

/-- A region is left alone up to the end tag that balances it. In front of that, nothing is asked of the
surroundings, there is no error, and no element opens or ends, whatever tags there are; what stands
there is only offered to the element itself. The end tag ends the element then. An inline element has
just the region as it is written for its body, and nothing is left of the regions of other elements. -/
theorem skips_region (hc : p.Reaches inner wanted c) (h : p.Begins inner c t c' e below)
    {region : List Markup.Token} (hregion : Markup.Matched e.directive region) :
    (∀ before, before <+: region → ∃ depth, p.takeAll inner c' before =
      .done ({ stack := e.write (before.flatMap Markup.Token.toText) :: below, root := c'.root,
               foreignDepth := depth }, .ok ())) ∧
    (∀ closing rest, Markup.lookup? closing = some (.ends e.directive) →
      p.takeAll inner c' (region ++ .tag closing :: rest) =
        (p.close inner { stack := below, root := c'.root }
          (e.write (region.flatMap Markup.Token.toText))).bind fun
        | (c, .error e) => .done (c, .error e)
        | (c, .ok ()) => p.takeAll inner c rest) ∧
    (e.directive = .inline → ∃ name fetchable, e.write (region.flatMap Markup.Token.toText) =
      .inline name fetchable (region.flatMap Markup.Token.toText)) ∧
    (e.directive ≠ .inline → ∀ text, e.write text = e) := by
  have hdepth := (h.opened_or_failed hc).1
  have hstate : c' = { stack := e :: below, root := c'.root, foreignDepth := 0 } := by
    rw [← h.innermost, ← hdepth]
  have hforeign := h.unprocessed.isForeign
  refine ⟨fun before hbefore => ?_, fun closing rest hclosing => ?_, fun hinline => ?_,
    h.unprocessed.write⟩
  · obtain ⟨depth, hafter⟩ := hregion.depthAfter?_of_prefix hbefore 0
    refine ⟨depth, ?_⟩
    rw [hstate]
    exact takeAll_counted p inner hforeign below c'.root 0 hafter
  · have hall := takeAll_counted p inner hforeign below c'.root 0 (hregion.depthAfter?_eq 0)
    rw [← hstate] at hall
    rw [takeAll_append, hall, done_bind]
    simp only [takeAll]
    rw [take_ending (d := e.directive) (by simp [top?]) rfl hclosing]
    rfl
  · obtain ⟨name, fetchable, rfl⟩ := h.inline_empty hc hinline
    exact ⟨name, fetchable, rfl⟩

end Begins

end Page

namespace Renderer

/-! ## Content of an inline element -/

def inlineStart : Markup.Token := .tag "<esi:inline name='http://host/a'>".toList

def inlineHolding (body : Text) : Composition :=
  { stack := [.inline "http://host/a".toList true body], root := .document [] }

/-- Another inline element, one that closes itself, and tags of other directives that match nothing. -/
def inlineRegion : List Markup.Token :=
  [.tag "<esi:inline name='http://host/b'>".toList, .tag "</esi:vars>".toList,
    .tag "</esi:inline>".toList, .tag "<esi:inline/>".toList,
    .tag "<esi:include src='http://host/part'/>".toList]

private theorem matched_inlineRegion : Markup.Matched .inline inlineRegion := by
  have hstray : Markup.Matched .inline [.tag "</esi:vars>".toList] :=
    .other (by decide +kernel) (by decide +kernel) .nil
  have hafter : Markup.Matched .inline
      [.tag "<esi:inline/>".toList, .tag "<esi:include src='http://host/part'/>".toList] :=
    .single (by decide +kernel) (by decide +kernel)
      (.other (by decide +kernel) (by decide +kernel) .nil)
  exact .pair (by decide +kernel) (by decide +kernel) hstray (by decide +kernel) hafter

theorem skips_region_inline :
    partRenderer.page.Begins partRenderer.inner (.ofWanted none) inlineStart (inlineHolding [])
        (.inline "http://host/a".toList true []) [] ∧
      Markup.Matched .inline inlineRegion ∧
      ∃ depth, partRenderer.page.takeAll partRenderer.inner (inlineHolding []) inlineRegion =
        .done ({ inlineHolding (inlineRegion.flatMap Markup.Token.toText) with foreignDepth := depth },
          .ok ()) := by
  have hrun : ((partRenderer.page.take partRenderer.inner (.ofWanted none) inlineStart).run
      partWorld).1 = .finished (inlineHolding [], .ok ()) := by decide +kernel
  have hbegins : partRenderer.page.Begins partRenderer.inner (.ofWanted none) inlineStart
      (inlineHolding []) (.inline "http://host/a".toList true []) [] :=
    ⟨Program.yields_of_run (Prod.ext hrun rfl), rfl, .inline .., .inl rfl⟩
  exact ⟨hbegins, matched_inlineRegion,
    (Page.Begins.skips_region .start hbegins matched_inlineRegion).1 _ (List.prefix_refl _)⟩

end Renderer

end EdgeCompose
