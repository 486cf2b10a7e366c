import EdgeCompose.Proofs.Trials
import Mathlib.Data.List.Forall2

/-!
What a try leaves of its surroundings. As long as an attempt or an except stands in a try, all that
is written goes to what is open inside, and the try takes what attempts and excepts give. So what
is open around the try stays as it is, but for two things: a choice is given what branches give that
have no choice of their own inside, and an attempt may claim an error that nothing inside the except
claims (`Composition.Spared`, `Composition.Stands.take`).
-/

namespace EdgeCompose

open Markup (Directive)

namespace Element

/-- What becomes of an element around a try: it stays as it is, but a choice may be given more if
it `grows`, and an attempt may claim an error if there are `claims`. -/
inductive Spared (grows claims : Prop) : Element → Element → Prop
  | same (e : Element) : Spared grows claims e e
  | grown (choice : Choice) (taken : Bool) (more : Text) : grows →
    Spared grows claims (.choose choice) (.choose { taken, out := choice.out ++ more })
  | claimed (failed : Bool) (body : Text) : claims →
    Spared grows claims (.attempt failed body) (.attempt true [])

namespace Spared

variable {grows claims : Prop} {e e' e'' : Element}

theorem trans (h : Spared grows claims e e') (h' : Spared grows claims e' e'') :
    Spared grows claims e e'' := by
  cases h with
  | same => exact h'
  | grown choice taken more hgrows =>
    cases h' with
    | same => exact .grown choice taken more hgrows
    | grown _ taken' more' _ =>
      rw [List.append_assoc]
      exact .grown choice taken' (more ++ more') hgrows
  | claimed failed body hclaims =>
    cases h' with
    | same => exact .claimed failed body hclaims
    | claimed => exact .claimed failed body hclaims

theorem mono {grows' claims' : Prop} (h : Spared grows claims e e') (hgrows : grows → grows')
    (hclaims : claims → claims') : Spared grows' claims' e e' := by
  cases h with
  | same => exact .same e
  | grown choice taken more h => exact .grown choice taken more (hgrows h)
  | claimed failed body h => exact .claimed failed body (hclaims h)

theorem of_mapChoice? {f : Choice → Choice} (hgrows : grows)
    (hf : ∀ choice, ∃ more, (f choice).out = choice.out ++ more) (h : e.mapChoice? f = some e') :
    Spared grows claims e e' := by
  cases e with
  | choose choice =>
    cases h
    obtain ⟨more, hmore⟩ := hf choice
    have hgrown : Spared grows claims (.choose choice)
        (.choose { taken := (f choice).taken, out := choice.out ++ more }) := .grown _ _ _ hgrows
    rwa [← hmore] at hgrown
  | _ => cases h

theorem of_claim? (hclaims : claims) (h : e.claim? = some e') : Spared grows claims e e' := by
  cases e with
  | attempt failed body =>
    cases h
    exact .claimed failed body hclaims
  | _ => cases h

end Spared

section

variable {f : Element → Option Element} {upper low stack : List Element}

/-- What is changed stands in the front of a stack, or in the back if the front has nothing to
change. -/
theorem changeFirst?_append_cases (h : changeFirst? f (upper ++ low) = some stack) :
    (∃ upper', changeFirst? f upper = some upper' ∧ stack = upper' ++ low) ∨
      (∀ e ∈ upper, f e = none) ∧ ∃ low', changeFirst? f low = some low' ∧ stack = upper ++ low' := by
  induction upper generalizing stack with
  | nil => exact .inr ⟨by simp, stack, h, rfl⟩
  | cons a upper ih =>
    rw [List.cons_append] at h
    unfold changeFirst? at h
    cases ha : f a with
    | some a' =>
      rw [ha] at h
      cases h
      exact .inl ⟨a' :: upper, by simp [changeFirst?, ha], rfl⟩
    | none =>
      rw [ha] at h
      obtain ⟨rest, hrest, rfl⟩ := Option.map_eq_some_iff.mp h
      rcases ih hrest with ⟨upper', hupper, rfl⟩ | ⟨hupper, low', hlow, rfl⟩
      · exact .inl ⟨a :: upper', by simp [changeFirst?, ha, hupper], rfl⟩
      · exact .inr ⟨List.forall_mem_cons.mpr ⟨ha, hupper⟩, low', hlow, rfl⟩

/-- If a change spares elements one by one, it spares all. -/
theorem forall₂_spared_changeFirst? {grows claims : Prop} {outside low low' : List Element}
    (hf : ∀ e e', f e = some e' → Spared grows claims e e')
    (h : List.Forall₂ (Spared grows claims) outside low) (hlow : changeFirst? f low = some low') :
    List.Forall₂ (Spared grows claims) outside low' := by
  induction h generalizing low' with
  | nil => cases hlow
  | @cons a b outside low hab hrest ih =>
    unfold changeFirst? at hlow
    cases hb : f b with
    | some b' =>
      rw [hb] at hlow
      cases hlow
      exact .cons (hab.trans (hf b b' hb)) hrest
    | none =>
      rw [hb] at hlow
      obtain ⟨rest, hchanged, rfl⟩ := Option.map_eq_some_iff.mp hlow
      exact .cons hab (ih hchanged)

theorem map_directive_of_bare {stack stack' : List Element}
    (h : stack'.map bare = stack.map bare) : stack'.map directive = stack.map directive := by
  have hdirective : directive ∘ bare = directive := funext directive_bare
  simpa only [List.map_map, hdirective] using congrArg (List.map directive) h

end

end Element

/-- What an extraction may do to the root while an element is open: it keeps the wanted fragment. -/
def Root.Spared (r r' : Root) : Prop :=
  r' = r ∨ ∃ wanted body, r = .extract wanted none ∧ r' = .extract wanted (some body)

theorem Root.Spared.capture {r r' : Root} {wanted body : Text} (h : r.Spared r')
    (hr' : r' = .extract wanted none) : r.Spared (.extract wanted (some body)) := by
  rcases h with rfl | ⟨wanted', body', -, rfl⟩
  · exact .inr ⟨wanted, body, hr', rfl⟩
  · cases hr'

/-- Every branch stands in a choice. -/
def Markup.Directive.Sheltered : List Directive → Prop
  | [] => True
  | d :: ds => (d.isBranch = true → .choose ∈ ds) ∧ Sheltered ds

namespace Composition

variable {d : Directive} {grows : Prop} {outside c c' : Composition}

def holding (c : Composition) (es : List Element) : Composition := { c with stack := es ++ c.stack }

/-- What is left of the surroundings of a try. -/
structure Spared (grows claims : Prop) (c c' : Composition) : Prop where
  stack : List.Forall₂ (Element.Spared grows claims) c.stack c'.stack
  root : c.root.Spared c'.root
  foreignDepth : c'.foreignDepth = c.foreignDepth

theorem Spared.mono {claims grows' claims' : Prop} (h : Spared grows claims c c')
    (hgrows : grows → grows') (hclaims : claims → claims') : Spared grows' claims' c c' where
  stack := h.stack.imp fun _ _ he => he.mono hgrows hclaims
  root := h.root
  foreignDepth := h.foreignDepth

def Above (n : Nat) (d : Directive) (c : Composition) : Prop :=
  ∃ opened e below, c.stack = opened ++ e :: below ∧ e.directive = d ∧ n ≤ below.length

/-- If the token begins a branch, then in a choice that is open above the place. -/
def Shelters (n : Nat) (c : Composition) (t : Markup.Token) : Prop :=
  ∀ tag d, t = .tag tag → Markup.lookup? tag = some (.starts d) → d.isBranch = true →
    c.isForeign = false → c.Above n .choose

theorem Above.mem {n : Nat} {upper low : List Element} (h : c.Above n d)
    (hstack : c.stack = upper ++ low) (hlow : low.length = n) : ∃ e ∈ upper, e.directive = d := by
  obtain ⟨opened, e, below, heq, hdirective, hn⟩ := h
  rcases List.append_eq_append_iff.mp (hstack.symm.trans heq) with
    ⟨more, rfl, hrest⟩ | ⟨more, rfl, hrest⟩
  · have hlength := congrArg List.length hrest
    simp at hlength
    omega
  · cases more with
    | nil =>
      have hlength := congrArg List.length hrest
      simp at hlength
      omega
    | cons first more =>
      obtain ⟨rfl, -⟩ := List.cons_eq_cons.mp hrest
      exact ⟨e, by simp, hdirective⟩

theorem above_of_mem {upper low : List Element} (hstack : c.stack = upper ++ low)
    (hd : d ∈ upper.map Element.directive) : c.Above low.length d := by
  obtain ⟨e, he, hdirective⟩ := List.mem_map.mp hd
  obtain ⟨opened, below, rfl⟩ := List.append_of_mem he
  exact ⟨opened, e, below ++ low, by simp [hstack], hdirective, by simp⟩

theorem Kept.above {n : Nat} (h : Kept c c') (habove : c.Above n d) : c'.Above n d := by
  obtain ⟨opened, e, below, heq, hdirective, hn⟩ := habove
  have hstack := h.stack
  rw [heq, List.map_append, List.map_cons] at hstack
  obtain ⟨opened', rest, heq', -, hrest⟩ := List.map_eq_append_iff.mp hstack
  obtain ⟨e', below', rfl, he', hbelow⟩ := List.map_eq_cons_iff.mp hrest
  refine ⟨opened', e', below', heq', ?_, ?_⟩
  · rw [← Element.directive_bare, he', Element.directive_bare, hdirective]
  · rw [← List.length_map (f := Element.bare), hbelow, List.length_map]
    exact hn

/-- An element of the directive `d` stands in a try, and what is outside of the try is spared. Unless
choices outside grow, every branch inside stands in a choice inside. -/
structure Stands (d : Directive) (grows : Prop) (outside c : Composition) : Prop where
  stack : ∃ upper low, c.stack = upper ++ low ∧
    [d, .tryBlock] <:+ upper.map Element.directive ∧
    (¬ grows → Markup.Directive.Sheltered (upper.map Element.directive)) ∧
    List.Forall₂ (Element.Spared grows (d = .except)) outside.stack low
  root : outside.root.Spared c.root

namespace Stands

theorem refl (outside : Composition) {e : Element} {trial : Trial} (he : e.directive = d)
    (hd : d = .attempt ∨ d = .except) :
    Stands d grows outside (outside.holding [e, .tryBlock trial]) where
  stack := by
    have hdirectives : [e, .tryBlock trial].map Element.directive = [d, .tryBlock] :=
      congrArg (· :: _) he
    refine ⟨_, _, rfl, hdirectives ▸ List.suffix_refl _, fun _ => ?_,
      List.forall₂_same.mpr fun e _ => .same e⟩
    rw [hdirectives]
    refine ⟨fun hbranch => ?_, nofun, trivial⟩
    rcases hd with rfl | rfl <;> cases hbranch
  root := .inl rfl

theorem of_stack (h : Stands d grows outside c) (hstack : c'.stack = c.stack)
    (hroot : c'.root = c.root) : Stands d grows outside c' where
  stack := hstack ▸ h.stack
  root := hroot ▸ h.root

theorem above (h : Stands d grows outside c) {d' : Directive} (hd' : d' ∈ [d, .tryBlock]) :
    c.Above outside.stack.length d' := by
  obtain ⟨upper, low, hstack, hsuffix, -, hlow⟩ := h.stack
  rw [hlow.length_eq]
  exact above_of_mem hstack (hsuffix.subset hd')

/-- A change of one element: either what is outside may be changed so, or something inside has to
be. -/
theorem change? {f : Element → Option Element} (h : Stands d grows outside c)
    (hchange : c.change? f = some c') (hbare : ∀ e e', f e = some e' → e'.bare = e.bare)
    (hf : (∀ e e', f e = some e' → Element.Spared grows (d = .except) e e') ∨
      ∃ d', c.Above outside.stack.length d' ∧ ∀ e : Element, e.directive = d' → f e ≠ none) :
    Stands d grows outside c' := by
  obtain ⟨upper, low, hstack, hsuffix, hsheltered, hlow⟩ := h.stack
  obtain ⟨stack, hs, rfl⟩ := Option.map_eq_some_iff.mp hchange
  refine ⟨?_, h.root⟩
  rw [hstack] at hs
  rcases Element.changeFirst?_append_cases hs with ⟨upper', hupper, rfl⟩ | ⟨hnone, low', hlow', rfl⟩
  · have hdirectives := Element.map_directive_of_bare (Element.map_changeFirst? hbare hupper)
    exact ⟨upper', low, rfl, hdirectives ▸ hsuffix, hdirectives ▸ hsheltered, hlow⟩
  · rcases hf with hspared | ⟨d', hd', hhit⟩
    · exact ⟨upper, low', rfl, hsuffix, hsheltered,
        Element.forall₂_spared_changeFirst? hspared hlow hlow'⟩
    · obtain ⟨e, he, hdirective⟩ := hd'.mem hstack hlow.length_eq.symm
      exact (hhit e hdirective (hnone e he)).elim

theorem write (h : Stands d grows outside c) (t : Text) : Stands d grows outside (c.write t) := by
  have hchange : c.change? (some ∘ Element.write t) = some (c.write t) := by
    obtain ⟨upper, low, hstack, hsuffix, -⟩ := h.stack
    cases upper with
    | nil => simp at hsuffix
    | cons e upper =>
      unfold Composition.change? Composition.write
      rw [hstack]
      rfl
  refine h.change? hchange (fun e e' he => ?_)
    (.inr ⟨.tryBlock, h.above (by simp), fun e _ => Option.some_ne_none _⟩)
  cases he
  exact Element.bare_write e t

theorem trial {f : Trial → Trial} (h : Stands d grows outside c)
    (hchange : c.change? (Element.mapTrial? f) = some c') : Stands d grows outside c' := by
  refine h.change? hchange (fun _ _ => Element.bare_mapTrial?)
    (.inr ⟨.tryBlock, h.above (by simp), fun e he => ?_⟩)
  cases e with
  | tryBlock trial => exact Option.some_ne_none _
  | _ => cases he

theorem gains {d' : Directive} (h : Stands d grows outside c) (hgains : Gains d' c c')
    (hbranch : ¬ grows → d'.isBranch = true → c.Above outside.stack.length .choose) :
    Stands d grows outside c' := by
  cases hgains with
  | none => exact h
  | write t => exact h.write t
  | capture body =>
    refine ⟨?_, ?_⟩
    · unfold Composition.capture
      split
      · exact h.stack
      · exact h.stack
    · unfold Composition.capture
      split
      · next wanted hr => exact h.root.capture hr
      · exact h.root
  | choice hd' hchange hf =>
    refine h.change? hchange (fun _ _ => Element.bare_mapChoice?) ?_
    by_cases hgrows : grows
    · exact .inl fun _ _ => Element.Spared.of_mapChoice? hgrows hf
    · refine .inr ⟨.choose, hbranch hgrows hd', fun e he => ?_⟩
      cases e with
      | choose choice => exact Option.some_ne_none _
      | _ => cases he

variable {error : ComposeError}

theorem report (hd : d = .attempt ∨ d = .except) (h : Stands d grows outside c)
    (hreport : c.report error = (c', .ok ())) : Stands d grows outside c' := by
  unfold Composition.report at hreport
  split at hreport
  · next c₁ hchange =>
    cases hreport
    refine h.change? hchange (fun _ _ => Element.bare_claim?) ?_
    rcases hd with rfl | rfl
    · refine .inr ⟨.attempt, h.above (by simp), fun e he => ?_⟩
      cases e with
      | attempt failed body => exact Option.some_ne_none _
      | _ => cases he
    · exact .inl fun _ _ => Element.Spared.of_claim? rfl
  · cases hreport

theorem ended {e : Element} (hd : d = .attempt ∨ d = .except) (h : Stands d grows outside c)
    (hbranch : ¬ grows → e.directive.isBranch = true → c.Above outside.stack.length .choose)
    (hended : Ended c e c') : Stands d grows outside c' := by
  cases hended with
  | gains _ hgains => exact h.gains hgains hbranch
  | attempt _ hchange => exact h.trial hchange
  | except _ hchange => exact h.trial hchange
  | claimed _ hreport => exact h.report hd hreport

/-- The element and its try stay open while what is open in them is taken off; and where a branch
was open, so is its choice. -/
theorem pop? {e : Element} (h : Stands d grows outside c) (hpop : c.pop? = some (e, c'))
    (hlength : outside.stack.length + 2 ≤ c'.stack.length) : Stands d grows outside c' ∧
      (¬ grows → e.directive.isBranch = true → c'.Above outside.stack.length .choose) := by
  unfold Composition.pop? at hpop
  split at hpop
  · cases hpop
  · next first rest hrest =>
    cases hpop
    obtain ⟨upper, low, hstack, hsuffix, hsheltered, hlow⟩ := h.stack
    cases upper with
    | nil => simp at hsuffix
    | cons a upper =>
      obtain ⟨rfl, rfl⟩ := List.cons_eq_cons.mp (hrest.symm.trans hstack)
      refine ⟨⟨⟨upper, low, rfl, ?_, fun hgrows => (hsheltered hgrows).2, hlow⟩, h.root⟩, ?_⟩
      · rcases List.suffix_cons_iff.mp hsuffix with heq | hsuffix
        · have hupper := congrArg List.length heq
          have houtside := hlow.length_eq
          simp at hlength hupper
          omega
        · exact hsuffix
      · intro hgrows hbranch
        rw [hlow.length_eq]
        exact above_of_mem rfl ((hsheltered hgrows).1 hbranch)

theorem take {t : Markup.Token} (hd : d = .attempt ∨ d = .except) (h : Stands d grows outside c)
    (hshelters : ¬ grows → c.Shelters outside.stack.length t) (htakes : Takes c t c')
    (hlength : outside.stack.length + 2 ≤ c'.stack.length) : Stands d grows outside c' := by
  cases htakes with
  | written t hstack hroot => exact (h.write t).of_stack hstack hroot
  | claimed hreport => exact h.report hd hreport
  | @opened tag c₁ e hforeign hstart hgains _ =>
    have habove (hgrows : ¬ grows) (hbranch : e.directive.isBranch = true) :
        c.Above outside.stack.length .choose := hshelters hgrows tag _ rfl hstart hbranch hforeign
    have hopened := h.gains hgains habove
    obtain ⟨upper, low, hstack, hsuffix, hsheltered, hlow⟩ := hopened.stack
    refine ⟨⟨e :: upper, low, ?_, ?_, fun hgrows => ⟨fun hbranch => ?_, hsheltered hgrows⟩, hlow⟩,
      hopened.root⟩
    · exact congrArg (e :: ·) hstack
    · exact hsuffix.trans (List.suffix_cons _ _)
    · obtain ⟨a, ha, hdirective⟩ :=
        (hgains.kept.above (habove hgrows hbranch)).mem hstack hlow.length_eq.symm
      exact List.mem_map.mpr ⟨a, ha, hdirective⟩
  | @single tag c₁ _ e hforeign hstart hgains _ hended =>
    have habove (hgrows : ¬ grows) (hbranch : e.directive.isBranch = true) :
        c.Above outside.stack.length .choose := hshelters hgrows tag _ rfl hstart hbranch hforeign
    have hopened : Stands d grows outside { c₁ with foreignDepth := 0 } :=
      (h.gains hgains habove).of_stack rfl rfl
    exact hopened.ended hd (fun hgrows hbranch => hgains.kept.above (habove hgrows hbranch)) hended
  | ended hpop hended =>
    rw [hended.kept.length] at hlength
    obtain ⟨hrest, habove⟩ := h.pop? hpop hlength
    exact hrest.ended hd habove hended

/-- When nothing else is open in them any more, the element and its try stand in what is left of
their surroundings. -/
theorem eq_holding {e : Element} {trial : Trial} (h : Stands d grows outside c)
    (hkept : Kept (outside.holding [e, .tryBlock trial]) c) : ∃ e' trial' left, e'.bare = e.bare ∧
      c = left.holding [e', .tryBlock trial'] ∧ Spared grows (d = .except) outside left := by
  obtain ⟨upper, low, hstack, -, -, hlow⟩ := h.stack
  have hlength : upper.length = 2 := by
    have hall := hkept.length
    rw [hstack, holding, List.length_append, List.length_append, hlow.length_eq] at hall
    exact Nat.add_right_cancel hall
  obtain ⟨e', tried, rfl⟩ := List.length_eq_two.mp hlength
  have hbare := hkept.stack
  rw [hstack] at hbare
  obtain ⟨he, hrest⟩ := List.cons_eq_cons.mp hbare
  have htried : tried.bare = .tryBlock {} := (List.cons_eq_cons.mp hrest).1
  cases tried with
  | tryBlock trial' =>
    refine ⟨e', trial', { c with stack := low }, he, ?_, hlow, h.root, hkept.foreignDepth⟩
    rw [holding, ← hstack]
  | _ => cases htried

end Stands

end Composition

namespace Page

open EdgeCompose.Composition

variable {p : Page} {inner : Composer}

/-- A run in which every branch is begun in a choice that is open above a place. -/
def Sheltered (p : Page) (inner : Composer) (n : Nat) :
    Composition → List Markup.Token → List Answered → Composition → Prop :=
  p.Passes inner fun c t _ => c.Shelters n t

variable {d : Directive} {grows : Prop} {outside c c' : Composition} {ts : List Markup.Token}
  {log : List Answered}

theorem Passes.stands (hd : d = .attempt ∨ d = .except)
    (h : p.Passes inner (fun c t c₂ => (¬ grows → c.Shelters outside.stack.length t) ∧
      outside.stack.length + 2 ≤ c₂.stack.length) c ts log c')
    (hc : Stands d grows outside c) :
    p.Passes inner (fun _ _ c₂ => Stands d grows outside c₂) c ts log c' ∧
      Stands d grows outside c' := by
  induction h with
  | nil => exact ⟨.nil _, hc⟩
  | cons htake hq _ ih =>
    have hstep := hc.take hd hq.1 (take_takes htake.yields) hq.2
    exact ⟨.cons htake hstep (ih hstep).1, (ih hstep).2⟩

/-- A run over the content of an element that stands in a try. -/
theorem Inside.stands {e : Element} {trial : Trial} (hd : d = .attempt ∨ d = .except)
    (he : e.directive = d)
    (h : p.Inside inner (outside.holding [e, .tryBlock trial]) ts log c') :
    p.Passes inner (fun _ _ c₂ => outside.stack.length < c₂.stack.length)
        (outside.holding [e, .tryBlock trial]) ts log c' ∧
      p.Passes inner (fun _ _ c₂ => ∃ grows, Stands d grows outside c₂)
        (outside.holding [e, .tryBlock trial]) ts log c' ∧
      ∃ e' trial' left, e'.bare = e.bare ∧ c' = left.holding [e', .tryBlock trial'] ∧
        Spared (¬ p.Sheltered inner outside.stack.length (outside.holding [e, .tryBlock trial]) ts
          log c') (d = .except) outside left := by
  have hlengths : p.Passes inner (fun _ _ c₂ => outside.stack.length + 2 ≤ c₂.stack.length)
      (outside.holding [e, .tryBlock trial]) ts log c' := h.passes.mono fun _ _ _ _ hq => hq.2
  have hboth : p.Passes inner (fun c t c₂ => (¬ ¬ p.Sheltered inner outside.stack.length
      (outside.holding [e, .tryBlock trial]) ts log c' → c.Shelters outside.stack.length t) ∧
      outside.stack.length + 2 ≤ c₂.stack.length) (outside.holding [e, .tryBlock trial]) ts log
      c' := by
    by_cases hsheltered : p.Sheltered inner outside.stack.length
        (outside.holding [e, .tryBlock trial]) ts log c'
    · exact (Passes.and hsheltered hlengths).mono fun _ _ _ _ hq => ⟨fun _ => hq.1, hq.2⟩
    · exact hlengths.mono fun _ _ _ _ hq => ⟨fun hnot => absurd hsheltered hnot, hq⟩
  obtain ⟨hpasses, hend⟩ := hboth.stands hd (.refl outside he hd)
  exact ⟨hlengths.mono fun _ _ _ _ hq => Nat.lt_of_succ_lt hq,
    hpasses.mono fun _ _ _ _ hq => ⟨_, hq⟩, hend.eq_holding h.kept⟩

end Page

end EdgeCompose
