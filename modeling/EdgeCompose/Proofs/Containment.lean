import EdgeCompose.Proofs.Embedding
import EdgeCompose.Proofs.SoloRuns

/-!
Failures inside includes stay there. A page whose only directives are includes that pass over
failures is composed by a program that cannot fail (`Renderer.filled`): the page's tokens one after
the other, with the content of a source or of its alternate, or with nothing, in the place of each
include. The loop over the tokens is that program (`takeAll_filled`), and alone it comes to its end
(`Program.Disciplined.run_ends`).
-/

namespace EdgeCompose

open Program

/-! ## Pages that pass over failures -/

namespace Markup

/-- An include tag that closes itself, names a source and asks to go on after errors. -/
structure PassesOver (tag : Text) : Prop where
  starts : lookup? tag = some (.starts .inclusion)
  closes : isSelfClosing tag = true
  source : ((attributes tag).get? "src".toList).isSome = true
  continues :
    ((attributes tag).get? "onerror".toList).any (Text.equalFold · "continue".toList) = true

instance (tag : Text) : Decidable (PassesOver tag) :=
  decidable_of_iff (lookup? tag = some (.starts .inclusion) ∧ isSelfClosing tag = true ∧
      ((attributes tag).get? "src".toList).isSome = true ∧
      ((attributes tag).get? "onerror".toList).any (Text.equalFold · "continue".toList) = true)
    ⟨fun ⟨h₁, h₂, h₃, h₄⟩ => ⟨h₁, h₂, h₃, h₄⟩, fun ⟨h₁, h₂, h₃, h₄⟩ => ⟨h₁, h₂, h₃, h₄⟩⟩

/-- A tag that belongs to a directive is such an include. -/
def Token.IsTolerant : Token → Prop
  | .text _ => True
  | .tag t => lookup? t ≠ none → PassesOver t

instance : (t : Token) → Decidable t.IsTolerant
  | .text _ => isTrue trivial
  | .tag _ => inferInstanceAs (Decidable (_ → _))

def Tolerant (document : Text) : Prop := ∀ t ∈ scan document, t.IsTolerant

instance (document : Text) : Decidable (Tolerant document) :=
  inferInstanceAs (Decidable (∀ _ ∈ _, _))

theorem PassesOver.ofTag {tag : Text} (h : PassesOver tag) :
    ∃ i, Inclusion.ofTag tag = .ok i ∧ i.continues = true := by
  obtain ⟨source, hsource⟩ := Option.isSome_iff_exists.mp h.source
  unfold Inclusion.ofTag
  simp only [hsource]
  exact ⟨_, rfl, h.continues⟩

end Markup

namespace Renderer

/-- What stands in the place of an include: the content of its source, else that of its alternate,
else nothing. -/
def filling (r : Renderer) (i : Inclusion) : Program Text := do
  match ← r.page.content r.inner i i.source with
  | .ok t => return t
  | .error _ =>
    match i.alternate with
    | none => return []
    | some alternate =>
      match ← r.page.content r.inner i alternate with
      | .ok t => return t
      | .error _ => return []

/-- What a token stands for: an include for its filling, all others for themselves. -/
def written (r : Renderer) : Markup.Token → Program Text
  | .text t => return t
  | .tag tag =>
    match Markup.lookup? tag, Inclusion.ofTag tag with
    | some _, .ok i => r.filling i
    | _, _ => return tag

def filled (r : Renderer) : List Markup.Token → Program Text
  | [] => return []
  | t :: ts => return (← r.written t) ++ (← r.filled ts)

end Renderer

/-! ## The loop over the tokens -/

namespace Renderer

open EdgeCompose.Composition

variable {r : Renderer}

/-- An include that passes over failures writes its filling, whatever it comes to. -/
theorem close_filling {i : Inclusion} (hi : i.continues = true) (c : Composition) :
    r.page.close r.inner c (.inclusion i) =
      (r.filling i).bind fun t => .done (c.write t, .ok ()) := by
  simp only [Page.close, Page.included, filling, bind_eq_bind, bind_bind]
  refine congrArg (Program.bind _) (funext fun found => ?_)
  cases found with
  | ok t => rfl
  | error e =>
    cases i.alternate with
    | none => simp [hi, write_nil]
    | some alternate =>
      simp only [bind_bind]
      refine congrArg (Program.bind _) (funext fun found => ?_)
      cases found with
      | ok t => rfl
      | error e => simp [hi, write_nil]

/-- In a document without open elements a token writes what it stands for. -/
theorem take_written {t : Markup.Token} (h : t.IsTolerant) (out : Text) :
    r.page.take r.inner (ofDocument [] out 0) t =
      (r.written t).bind fun text => .done (ofDocument [] (out ++ text) 0, .ok ()) := by
  cases t with
  | text text => rfl
  | tag tag =>
    have hforeign : (ofDocument [] out 0).isForeign = false := rfl
    simp only [Page.take, Page.takeTag, hforeign, Bool.false_eq_true, if_false, written]
    cases hlookup : Markup.lookup? tag with
    | none => rfl
    | some role =>
      have htag := h (by simp [hlookup])
      obtain rfl : role = .starts .inclusion := Option.some.inj (hlookup.symm.trans htag.starts)
      obtain ⟨i, hi, hcontinues⟩ := htag.ofTag
      have hopened : (ofDocument [] out 0).opened r.page.bindings .inclusion tag =
          .ok (.inclusion i, ofDocument [] out 0) := by
        simp only [opened, hi]
        rfl
      simp only [start, hopened, htag.closes, Page.closeTop, pop?, hi]
      exact close_filling hcontinues _

theorem takeAll_filled {ts : List Markup.Token} (h : ∀ t ∈ ts, t.IsTolerant) (out : Text) :
    r.page.takeAll r.inner (ofDocument [] out 0) ts =
      (r.filled ts).bind fun text => .done (ofDocument [] (out ++ text) 0, .ok ()) := by
  induction ts generalizing out with
  | nil => simp [Page.takeAll, filled]
  | cons t ts ih =>
    obtain ⟨hfirst, hrest⟩ := List.forall_mem_cons.mp h
    simp only [Page.takeAll, take_written hfirst, filled, bind_eq_bind, bind_bind, done_bind,
      ih hrest, pure_eq_done, List.append_assoc]

/-- The render of a tolerant document fills it in, and has no other result. -/
theorem render_filled {document : Text} (h : Markup.Tolerant document) :
    r.render document = (r.filled (Markup.scan document)).bind fun out => .done (.ok out) := by
  have hall := takeAll_filled (r := r) h []
  unfold render
  rw [compose_eq]
  unfold Page.composeWith
  have hstart : Composition.ofWanted none = ofDocument [] [] 0 := rfl
  rw [hstart, hall]
  simp only [bind_eq_bind, bind_bind]
  rfl

end Renderer

/-! ## Runs -/

namespace Program

variable {α β : Type}

theorem run_bind_done (p : Program α) (f : α → β) (w : World) :
    (p.bind fun a => .done (f a)).run w = ((p.run w).1.map f, (p.run w).2) := by
  induction p generalizing w with
  | done a => rfl
  | ask c next ih =>
    simp only [ask_bind, run]
    generalize w.reply 0 c = found
    obtain ⟨reply, w₁⟩ := found
    cases reply with
    | answer answer => exact ih answer w₁
    | wait => rfl
    | overflow => rfl

end Program

namespace Renderer

/-- Failures inside includes are contained: the render of a tolerant document fills it in, whatever
the surroundings answer; and alone it comes to its end with that output, unless an expiry cannot be
represented. -/
theorem render_contained {document : Text} (h : Markup.Tolerant document) (r : Renderer) :
    (r.render document = (r.filled (Markup.scan document)).bind fun out => .done (.ok out)) ∧
      ∀ w : World, (∀ key, w.locks.isFree key = true) →
        ((r.render document).run w).1 ≠ .overflowed →
          ∃ out w', (r.filled (Markup.scan document)).run w = (.finished out, w') ∧
            (r.render document).run w = (.finished (.ok out), w') := by
  have hfilled := render_filled (r := r) h
  refine ⟨hfilled, fun w hfree hfits => ?_⟩
  have hmapped := run_bind_done (β := Except ComposeError Text) (r.filled (Markup.scan document))
    .ok w
  rw [← hfilled] at hmapped
  generalize (r.filled (Markup.scan document)).run w = found at hmapped
  obtain ⟨outcome, w'⟩ := found
  cases outcome with
  | finished out => exact ⟨out, w', rfl, hmapped⟩
  | overflowed => exact (hfits (by rw [hmapped]; rfl)).elim
  | stuck =>
    rcases (r.compose_disciplined none document).run_ends (Locks.solo_of_isFree hfree) with
      ⟨result, w'', hrun, -⟩ | hover
    · cases hrun.symm.trans hmapped
    · exact (hfits hover).elim

/-! ## A document without a source -/

/-- An include whose source is missing and whose alternate is found, and one without either. -/
def tolerantDocument : Text :=
  "a<esi:include src='http://host/missing' alt='http://host/part' onerror='continue'/>".toList ++
    "b<esi:include src='' onerror='CONTINUE'/>c</esi:unknown>".toList

theorem render_contained_missing : Markup.Tolerant tolerantDocument ∧
    (∀ key, partWorld.locks.isFree key = true) ∧
    ∃ out w', (partRenderer.filled (Markup.scan tolerantDocument)).run partWorld =
        (.finished out, w') ∧
      (partRenderer.render tolerantDocument).run partWorld = (.finished (.ok out), w') ∧
      out = "apartbc</esi:unknown>".toList := by
  have htolerant : Markup.Tolerant tolerantDocument := by decide +kernel
  have hfree : ∀ key, partWorld.locks.isFree key = true := fun _ => rfl
  have hrun : ((partRenderer.render tolerantDocument).run partWorld).1 =
      .finished (.ok "apartbc</esi:unknown>".toList) := by decide +kernel
  obtain ⟨out, w', hfilled, hrender⟩ := (render_contained htolerant partRenderer).2 partWorld hfree
    (by rw [hrun]; exact nofun)
  refine ⟨htolerant, hfree, out, w', hfilled, hrender, ?_⟩
  rw [hrender] at hrun
  cases hrun
  rfl

end Renderer

end EdgeCompose
