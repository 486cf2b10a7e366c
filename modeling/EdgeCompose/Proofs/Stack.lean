import EdgeCompose.Compose.Render
import EdgeCompose.Proofs.Programs

/-!
What the operations on a composition leave as it is. Apart from opening and popping, each of
them only changes what open elements have taken in: the elements themselves, the kind of the
root and the count of foreign tags stay (`Kept`). From that follow the invariants of all states
that the loop over a document's tokens comes to (`Page.Reaches`).
-/

namespace EdgeCompose

open Markup (Directive)

namespace Element

theorem write_nil (e : Element) : e.write [] = e := by
  cases e <;> simp [write]

theorem write_write (e : Element) (s t : Text) : (e.write s).write t = e.write (s ++ t) := by
  cases e with
  | when active body => cases active <;> simp [write]
  | otherwise active body => cases active <;> simp [write]
  | except active body => cases active <;> simp [write]
  | attempt failed body => cases failed <;> simp [write]
  | _ => simp [write]

@[simp] theorem isForeign_write (e : Element) (t : Text) : (e.write t).isForeign = e.isForeign := by
  cases e <;> rfl

@[simp] theorem directive_write (e : Element) (t : Text) : (e.write t).directive = e.directive := by
  cases e <;> rfl

def bare : Element → Element
  | .fragment name _ => .fragment name []
  | .inline name fetchable _ => .inline name fetchable []
  | .choose _ => .choose {}
  | .when active _ => .when active []
  | .otherwise active _ => .otherwise active []
  | .tryBlock _ => .tryBlock {}
  | .attempt .. => .attempt false []
  | .except active _ => .except active []
  | .vars _ => .vars []
  | e => e

@[simp] theorem bare_write (e : Element) (t : Text) : (e.write t).bare = e.bare := by
  cases e <;> rfl

@[simp] theorem directive_bare (e : Element) : e.bare.directive = e.directive := by
  cases e <;> rfl

theorem bare_claim? {e e' : Element} (h : e.claim? = some e') : e'.bare = e.bare := by
  cases e with
  | attempt failed body =>
    cases h
    rfl
  | _ => cases h

theorem bare_mapChoice? {f : Choice → Choice} {e e' : Element} (h : e.mapChoice? f = some e') :
    e'.bare = e.bare := by
  cases e with
  | choose choice =>
    cases h
    rfl
  | _ => cases h

theorem bare_mapTrial? {f : Trial → Trial} {e e' : Element} (h : e.mapTrial? f = some e') :
    e'.bare = e.bare := by
  cases e with
  | tryBlock trial =>
    cases h
    rfl
  | _ => cases h

/-- What is changed is one element. -/
theorem changeFirst?_split {f : Element → Option Element} {stack stack' : List Element}
    (h : changeFirst? f stack = some stack') : ∃ front e e' back, stack = front ++ e :: back ∧
      stack' = front ++ e' :: back ∧ f e = some e' ∧ ∀ a ∈ front, f a = none := by
  induction stack generalizing stack' with
  | nil => cases h
  | cons a rest ih =>
    unfold changeFirst? at h
    cases ha : f a with
    | some a' =>
      rw [ha] at h
      cases h
      exact ⟨[], a, a', rest, rfl, rfl, ha, by simp⟩
    | none =>
      rw [ha] at h
      obtain ⟨rest', hrest, rfl⟩ := Option.map_eq_some_iff.mp h
      obtain ⟨front, e, e', back, rfl, rfl, he, hfront⟩ := ih hrest
      exact ⟨a :: front, e, e', back, rfl, rfl, he, List.forall_mem_cons.mpr ⟨ha, hfront⟩⟩

theorem changeFirst?_at {f : Element → Option Element} {upper low : List Element} {e e' : Element}
    (hupper : ∀ e ∈ upper, f e = none) (he : f e = some e') :
    changeFirst? f (upper ++ e :: low) = some (upper ++ e' :: low) := by
  induction upper with
  | nil => simp [changeFirst?, he]
  | cons a upper ih =>
    obtain ⟨ha, hupper⟩ := List.forall_mem_cons.mp hupper
    simp [changeFirst?, ha, ih hupper]

theorem changeFirst?_isSome {f : Element → Option Element} {stack : List Element} {e : Element}
    (he : e ∈ stack) (hf : f e ≠ none) : ∃ stack', changeFirst? f stack = some stack' := by
  induction stack with
  | nil => cases he
  | cons a rest ih =>
    unfold changeFirst?
    cases ha : f a with
    | some a' => exact ⟨_, rfl⟩
    | none =>
      have hmem : e ∈ rest := by
        rcases List.mem_cons.mp he with rfl | hmem
        · exact (hf ha).elim
        · exact hmem
      obtain ⟨rest', hrest⟩ := ih hmem
      exact ⟨a :: rest', by simp [hrest]⟩

/-- What no change of an element changes, no change of a stack does. -/
theorem map_changeFirst? {α : Type} {g : Element → α} {f : Element → Option Element}
    (hf : ∀ e e', f e = some e' → g e' = g e) {stack stack' : List Element}
    (h : changeFirst? f stack = some stack') : stack'.map g = stack.map g := by
  obtain ⟨front, e, e', back, rfl, rfl, he, -⟩ := changeFirst?_split h
  simp [hf e e' he]

/-- What is found in the front of a stack is found first. -/
theorem changeFirst?_append {f : Element → Option Element} {front front' : List Element}
    (h : changeFirst? f front = some front') (back : List Element) :
    changeFirst? f (front ++ back) = some (front' ++ back) := by
  obtain ⟨upper, e, e', low, rfl, rfl, he, hupper⟩ := changeFirst?_split h
  rw [List.append_assoc, List.append_assoc]
  exact changeFirst?_at hupper he

end Element

def Root.bare : Root → Root
  | .document _ => .document []
  | .extract wanted _ => .extract wanted none

namespace Composition

/-- `c'` has the open elements of `c`, which may have taken in more. -/
structure Kept (c c' : Composition) : Prop where
  stack : c'.stack.map Element.bare = c.stack.map Element.bare
  root : c'.root.bare = c.root.bare
  foreignDepth : c'.foreignDepth = c.foreignDepth

namespace Kept

theorem refl (c : Composition) : Kept c c := ⟨rfl, rfl, rfl⟩

theorem trans {a b c : Composition} (h : Kept a b) (h' : Kept b c) : Kept a c :=
  ⟨h'.stack.trans h.stack, h'.root.trans h.root, h'.foreignDepth.trans h.foreignDepth⟩

end Kept

theorem write_kept (c : Composition) (t : Text) : Kept c (c.write t) := by
  unfold write
  split
  · refine ⟨rfl, ?_, rfl⟩
    cases hr : c.root <;> rfl
  · next e rest hs => exact ⟨by simp [hs], rfl, rfl⟩

theorem change?_kept {f : Element → Option Element} (hf : ∀ e e', f e = some e' → e'.bare = e.bare)
    {c c' : Composition} (h : c.change? f = some c') : Kept c c' := by
  obtain ⟨stack, hs, rfl⟩ := Option.map_eq_some_iff.mp h
  exact ⟨Element.map_changeFirst? hf hs, rfl, rfl⟩

theorem report_kept (c : Composition) (e : ComposeError) : Kept c (c.report e).1 := by
  unfold report
  split
  · next c' h => exact change?_kept (fun _ _ => Element.bare_claim?) h
  · exact .refl c

theorem capture_kept (c : Composition) (body : Text) : Kept c (c.capture body).2 := by
  unfold capture
  split
  · next wanted hr => exact ⟨rfl, by rw [hr]; rfl, rfl⟩
  · exact .refl c

/-- A change to what the open elements and the root have taken in that reports no error. -/
inductive Edit (c : Composition) : Composition → Prop
  | none : Edit c c
  | write (t : Text) : Edit c (c.write t)
  | capture (body : Text) : Edit c (c.capture body).2
  | choice {f : Choice → Choice} {c' : Composition} :
    c.change? (Element.mapChoice? f) = some c' → Edit c c'
  | trial {f : Trial → Trial} {c' : Composition} :
    c.change? (Element.mapTrial? f) = some c' → Edit c c'

theorem Edit.kept {c c' : Composition} (h : Edit c c') : Kept c c' := by
  cases h with
  | none => exact .refl c
  | write t => exact write_kept c t
  | capture body => exact capture_kept c body
  | choice h => exact change?_kept (fun _ _ => Element.bare_mapChoice?) h
  | trial h => exact change?_kept (fun _ _ => Element.bare_mapTrial?) h

theorem takeBranch_edit (c : Composition) : Edit c c.takeBranch := by
  unfold takeBranch
  cases h : c.change? (Element.mapChoice? ({ · with taken := true })) with
  | none => exact .none
  | some c' => exact .choice h

theorem giveBranch_edit (c : Composition) (d : Directive) (body : Text) :
    Edit c (c.giveBranch d body).1 := by
  unfold giveBranch
  split
  · next c' h => exact .choice h
  · exact .none

theorem changeTrial_edit (c : Composition) (d : Directive) (f : Trial → Trial) :
    Edit c (c.changeTrial d f).1 := by
  unfold changeTrial
  split
  · next c' h => exact .trial h
  · exact .none

/-- A body that is not captured leaves the composition as it is. -/
theorem capture_false {c c' : Composition} {body : Text} (h : c.capture body = (false, c')) :
    c' = c := by
  unfold capture at h
  split at h <;> cases h
  rfl

/-- What is left of a composition by an element that ends: some edit, or an error reported. -/
def Ends (c : Composition) (found : Composition × Except ComposeError Unit) : Prop :=
  Edit c found.1 ∨ ∃ error, found = c.report error

theorem Ends.kept {c : Composition} {found : Composition × Except ComposeError Unit}
    (h : Ends c found) : Kept c found.1 := by
  rcases h with hedit | ⟨error, rfl⟩
  · exact hedit.kept
  · exact report_kept c error

theorem settle_ends (v : Variables) (c : Composition) (e : Element) : Ends c (c.settle v e) := by
  cases e with
  | fragment name body =>
    refine .inl ?_
    simp only [settle]
    split
    · have hcaptured := Edit.capture (c := c) body
      split
      · next h => rwa [h] at hcaptured
      · next h =>
        rw [capture_false h]
        exact .write body
    · exact .write body
  | choose choice => exact .inl (.write choice.out)
  | when active body =>
    cases active with
    | true => exact .inl (giveBranch_edit ..)
    | false => exact .inl .none
  | otherwise active body =>
    cases active with
    | true => exact .inl (giveBranch_edit ..)
    | false => exact .inl .none
  | tryBlock trial => exact .inl (.write trial.out)
  | attempt failed body => exact .inl (changeTrial_edit ..)
  | except active body =>
    cases active with
    | true => exact .inl (changeTrial_edit ..)
    | false => exact .inl .none
  | vars body =>
    simp only [settle]
    split
    · next t _ => exact .inl (.write t)
    · next error _ => exact .inr ⟨error, rfl⟩
  | _ => exact .inl .none

theorem exists_ok_of_bind {ε α β : Type} {x : Except ε α} {f : α → Except ε β} {b : β}
    (h : (x >>= f) = .ok b) : ∃ a, x = .ok a ∧ f a = .ok b := by
  cases x with
  | error e => cases h
  | ok a => exact ⟨a, rfl, h⟩

section

variable {v : Variables} {c c' : Composition} {d : Directive} {tag : Text} {e : Element}

/-- A branch opens in a choice. Its test is evaluated if no branch before it has been taken. -/
theorem opened_when_iff : c.opened v .when tag = .ok (e, c') ↔
    ∃ test choice active, needed .when (Markup.attributes tag) "test" = .ok test ∧
      c.choice? = some choice ∧
      (if choice.taken then .ok false else Expression.evaluate v test) = .ok active ∧
      e = .when active [] ∧ c' = if active then c.takeBranch else c := by
  constructor
  · intro h
    obtain ⟨test, htest, h⟩ := exists_ok_of_bind h
    simp only at h
    split at h
    · cases h
    · next choice hchoice =>
      split at h
      · next htaken =>
        cases h
        exact ⟨test, choice, false, htest, hchoice, if_pos htaken, rfl, rfl⟩
      · next htaken =>
        obtain ⟨active, hactive, h⟩ := exists_ok_of_bind h
        cases h
        exact ⟨test, choice, active, htest, hchoice, (if_neg htaken).trans hactive, rfl, rfl⟩
  · rintro ⟨test, choice, active, htest, hchoice, hactive, rfl, rfl⟩
    simp only [opened, htest, hchoice, bind, Except.bind]
    split at hactive
    · next htaken =>
      cases hactive
      simp [htaken, pure, Except.pure]
    · next htaken => simp [htaken, hactive, pure, Except.pure]

theorem opened_otherwise_iff : c.opened v .otherwise tag = .ok (e, c') ↔
    ∃ choice, c.choice? = some choice ∧ e = .otherwise (!choice.taken) [] ∧
      c' = if !choice.taken then c.takeBranch else c := by
  unfold opened
  cases c.choice? with
  | none => simp [throw, throwThe, MonadExceptOf.throw]
  | some choice =>
    cases htaken : choice.taken <;>
      simp [htaken, pure, Except.pure, @eq_comm _ e, @eq_comm _ c']

theorem opened_attempt_iff : c.opened v .attempt tag = .ok (e, c') ↔
    (∃ trial, c.trial? = some trial) ∧ e = .attempt false [] ∧ c' = c := by
  unfold opened
  cases c.trial? with
  | none => simp [throw, throwThe, MonadExceptOf.throw]
  | some trial => simp [pure, Except.pure, @eq_comm _ e, @eq_comm _ c']

theorem opened_except_iff : c.opened v .except tag = .ok (e, c') ↔
    ∃ trial, c.trial? = some trial ∧ e = .except trial.failed [] ∧ c' = c := by
  unfold opened
  cases c.trial? with
  | none => simp [throw, throwThe, MonadExceptOf.throw]
  | some trial => simp [pure, Except.pure, @eq_comm _ e, @eq_comm _ c']

/-- An element opens without content, and changes nothing around it but that a branch may be taken. -/
theorem opened_cases (h : c.opened v d tag = .ok (e, c')) :
    (c' = c ∨ (d = .when ∨ d = .otherwise) ∧ c' = c.takeBranch) ∧ e.bare = e ∧ e.directive = d := by
  cases d with
  | inclusion | fragment | inline =>
    obtain ⟨_, -, hi⟩ := exists_ok_of_bind h
    cases hi
    exact ⟨.inl rfl, rfl, rfl⟩
  | when =>
    obtain ⟨test, choice, active, -, -, -, rfl, rfl⟩ := opened_when_iff.mp h
    refine ⟨?_, rfl, rfl⟩
    split
    · exact .inr ⟨.inl rfl, rfl⟩
    · exact .inl rfl
  | otherwise =>
    obtain ⟨choice, -, rfl, rfl⟩ := opened_otherwise_iff.mp h
    refine ⟨?_, rfl, rfl⟩
    split
    · exact .inr ⟨.inr rfl, rfl⟩
    · exact .inl rfl
  | attempt =>
    obtain ⟨-, rfl, rfl⟩ := opened_attempt_iff.mp h
    exact ⟨.inl rfl, rfl, rfl⟩
  | except =>
    obtain ⟨trial, -, rfl, rfl⟩ := opened_except_iff.mp h
    exact ⟨.inl rfl, rfl, rfl⟩
  | _ =>
    cases h
    exact ⟨.inl rfl, rfl, rfl⟩

/-- Opening an element only edits what is open already. -/
theorem opened_edit (h : c.opened v d tag = .ok (e, c')) : Edit c c' ∧ e.directive = d := by
  obtain ⟨rfl | ⟨-, rfl⟩, -, hd⟩ := opened_cases h
  · exact ⟨.none, hd⟩
  · exact ⟨takeBranch_edit c, hd⟩

/-- Opening an element leaves all others open. -/
theorem opened_kept (h : c.opened v d tag = .ok (e, c')) : Kept c c' ∧ e.directive = d :=
  ⟨(opened_edit h).1.kept, (opened_edit h).2⟩

end

@[simp] theorem isForeign_write (c : Composition) (t : Text) : (c.write t).isForeign = c.isForeign := by
  unfold write isForeign
  split <;> simp [*]

theorem foreignTag_true {c c' : Composition} {tag : Text} (h : c.foreignTag tag = (true, c')) :
    c' = c := by
  unfold foreignTag at h
  split at h
  · split at h <;> cases h
    rfl
  · split at h <;> cases h

theorem foreignTag_false {c c' : Composition} {tag : Text} (h : c.foreignTag tag = (false, c')) :
    c'.stack = (c.write tag).stack ∧ c'.root = (c.write tag).root := by
  have hdepth (n : Nat) : ({ c with foreignDepth := n }.write tag).stack = (c.write tag).stack ∧
      ({ c with foreignDepth := n }.write tag).root = (c.write tag).root := by
    unfold write
    split <;> simp_all
  unfold foreignTag at h
  split at h
  · split at h
    · cases h
    · cases h
      exact hdepth _
  · split at h
    · cases h
      exact hdepth _
    · cases h
      exact ⟨rfl, rfl⟩

/-- The element that is taken off is the innermost one. -/
theorem pop?_eq_some {c c' : Composition} {e : Element} (h : c.pop? = some (e, c')) :
    c.stack = e :: c'.stack := by
  unfold pop? at h
  split at h
  · cases h
  · next hstack =>
    cases h
    exact hstack

theorem pop?_rest {c c' : Composition} {e : Element} (h : c.pop? = some (e, c')) :
    c'.root = c.root ∧ c'.foreignDepth = 0 := by
  unfold pop? at h
  split at h <;> cases h
  exact ⟨rfl, rfl⟩

/-- All that one token can do to a composition, when no error is left. -/
inductive Step (v : Variables) (c : Composition) : Markup.Token → Composition → Prop
  | written (t : Markup.Token) : Step v c t (c.write t.toText)
  | refused {tag : Text} {c' : Composition} : c.isForeign = false →
    c.report (unexpected tag) = (c', .ok ()) → Step v c (.tag tag) c'
  | skipped {tag : Text} {c' : Composition} : c.isForeign = true →
    c.foreignTag tag = (false, c') → Step v c (.tag tag) c'
  | opened {d : Directive} {tag : Text} {e : Element} {c₁ : Composition} : c.isForeign = false →
    Markup.lookup? tag = some (.starts d) → c.opened v d tag = .ok (e, c₁) →
    Step v c (.tag tag) { c₁ with stack := e :: c₁.stack }
  | openedAndClosed {d : Directive} {tag : Text} {e : Element} {c₁ c' : Composition} :
    c.isForeign = false → Markup.lookup? tag = some (.starts d) →
    c.opened v d tag = .ok (e, c₁) → Ends { c₁ with foreignDepth := 0 } (c', .ok ()) →
    Step v c (.tag tag) c'
  | closed {tag : Text} {e : Element} {c₁ c' : Composition} : c.pop? = some (e, c₁) →
    Ends c₁ (c', .ok ()) → Step v c (.tag tag) c'

/-- What one token does to the open elements, whatever they take in. -/
inductive Move (v : Variables) (c : Composition) : Markup.Token → Composition → Prop
  | kept {t : Markup.Token} {c' : Composition} :
    Kept c c' → (c.isForeign = true → c'.isForeign = true) → Move v c t c'
  | skipped {tag : Text} {c' : Composition} : c.isForeign = true → c'.stack = (c.write tag).stack →
    c'.root = (c.write tag).root → Move v c (.tag tag) c'
  | opened {d : Directive} {tag : Text} {e : Element} {c₁ : Composition} : c.isForeign = false →
    Markup.lookup? tag = some (.starts d) → c.opened v d tag = .ok (e, c₁) →
    Move v c (.tag tag) { c₁ with stack := e :: c₁.stack }
  | openedAndClosed {d : Directive} {tag : Text} {e : Element} {c₁ c' : Composition} :
    c.isForeign = false → Markup.lookup? tag = some (.starts d) →
    c.opened v d tag = .ok (e, c₁) → Kept { c₁ with foreignDepth := 0 } c' → Move v c (.tag tag) c'
  | closed {tag : Text} {e : Element} {c₁ c' : Composition} : c.pop? = some (e, c₁) → Kept c₁ c' →
    Move v c (.tag tag) c'

theorem Step.move {v : Variables} {c c' : Composition} {t : Markup.Token} (h : Step v c t c') :
    Move v c t c' := by
  cases h with
  | written t => exact .kept (write_kept c t.toText) (by simp)
  | @refused tag _ hforeign h =>
    have hkept := report_kept c (unexpected tag)
    rw [h] at hkept
    exact .kept hkept (by simp [hforeign])
  | skipped hforeign h => exact .skipped hforeign (foreignTag_false h).1 (foreignTag_false h).2
  | opened hforeign hd ho => exact .opened hforeign hd ho
  | openedAndClosed hforeign hd ho hends => exact .openedAndClosed hforeign hd ho hends.kept
  | closed hpop hends => exact .closed hpop hends.kept

end Composition

namespace Page

open EdgeCompose.Composition

variable {p : Page} {inner : Composer}

/-- An element that ends settles, or an include ends with its content, or an error is reported. -/
theorem close_cases {c : Composition} {e : Element}
    {found : Composition × Except ComposeError Unit} (h : (p.close inner c e).Yields found) :
    found = c.settle p.bindings e ∨ (∃ t, found = (c.write t, .ok ())) ∨
      ∃ error, found = c.report error := by
  have hsettle (h : (Program.done (c.settle p.bindings e)).Yields found) :
      found = c.settle p.bindings e := Program.yields_done.1 h
  cases e with
  | inclusion i =>
    simp only [close, Program.bind_eq_bind, Program.yields_bind] at h
    obtain ⟨composed, -, h⟩ := h
    cases composed with
    | ok t => exact .inr (.inl ⟨t, Program.yields_done.1 h⟩)
    | error error =>
      simp only [Program.pure_eq_done] at h
      split at h
      · exact .inl (hsettle h)
      · exact .inr (.inr ⟨error, Program.yields_done.1 h⟩)
  | inline name fetchable body =>
    simp only [close] at h
    split at h
    · exact .inr (.inr ⟨_, Program.yields_done.1 h⟩)
    · simp only [Program.bind_eq_bind, Program.perform_eq_ask, Program.ask_bind,
        Program.done_bind, Program.pure_eq_done, Program.yields_ask] at h
      obtain ⟨-, h⟩ := h
      exact .inl (hsettle h)
  | _ => exact .inl (hsettle h)

theorem close_ends {c : Composition} {e : Element} {found : Composition × Except ComposeError Unit}
    (h : (p.close inner c e).Yields found) : Ends c found := by
  rcases close_cases h with rfl | ⟨t, rfl⟩ | ⟨error, rfl⟩
  · exact settle_ends p.bindings c e
  · exact .inl (.write t)
  · exact .inr ⟨error, rfl⟩

private theorem closeTop_ok {c c' : Composition} {tag : Text}
    (h : (p.closeTop inner c tag).Yields (c', .ok ())) :
    ∃ e c₁, c.pop? = some (e, c₁) ∧ Ends c₁ (c', .ok ()) := by
  unfold closeTop at h
  split at h
  · simp [Program.yields_done] at h
  · next e c₁ hpop => exact ⟨e, c₁, hpop, close_ends h⟩

theorem take_step {c c' : Composition} {t : Markup.Token}
    (h : (p.take inner c t).Yields (c', .ok ())) : Step p.bindings c t c' := by
  cases t with
  | text t =>
    simp only [take, Program.pure_eq_done, Program.yields_done, Prod.mk.injEq] at h
    obtain ⟨rfl, -⟩ := h
    exact .written (.text t)
  | tag tag =>
    simp only [take, takeTag] at h
    split at h
    · next hforeign =>
      split at h
      · next c₁ hends =>
        obtain rfl := foreignTag_true hends
        obtain ⟨e, c₂, hpop, hclosed⟩ := closeTop_ok h
        exact .closed hpop hclosed
      · next c₁ hinside =>
        simp only [Program.pure_eq_done, Program.yields_done, Prod.mk.injEq] at h
        obtain ⟨rfl, -⟩ := h
        exact .skipped hforeign hinside
    · next hforeign =>
      rw [Bool.not_eq_true] at hforeign
      split at h
      · next d hd =>
        unfold start at h
        cases ho : c.opened p.bindings d tag with
        | error error => simp [ho, Program.yields_done] at h
        | ok found =>
          obtain ⟨e, c₁⟩ := found
          simp only [ho] at h
          cases hself : Markup.isSelfClosing tag with
          | true =>
            simp only [hself] at h
            obtain ⟨e', c₂, hpop, hclosed⟩ := closeTop_ok h
            cases hpop
            exact .openedAndClosed hforeign hd ho hclosed
          | false =>
            simp only [hself, Program.pure_eq_done, Program.yields_done, Prod.mk.injEq] at h
            obtain ⟨rfl, -⟩ := h
            exact .opened hforeign hd ho
      · next d hd =>
        split at h
        · obtain ⟨e, c₁, hpop, hclosed⟩ := closeTop_ok h
          exact .closed hpop hclosed
        · rw [Program.pure_eq_done, Program.yields_done] at h
          exact .refused hforeign h.symm
      · simp only [Program.pure_eq_done, Program.yields_done, Prod.mk.injEq] at h
        obtain ⟨rfl, -⟩ := h
        exact .written (.tag tag)

theorem take_move {c c' : Composition} {t : Markup.Token}
    (h : (p.take inner c t).Yields (c', .ok ())) : Move p.bindings c t c' := (take_step h).move

/-- The states that the loop over the tokens of a document comes to, whatever the surroundings
answer. -/
inductive Reaches (p : Page) (inner : Composer) (wanted : Option Text) : Composition → Prop
  | start : Reaches p inner wanted (.ofWanted wanted)
  | take {c c' : Composition} (t : Markup.Token) : Reaches p inner wanted c →
    (p.take inner c t).Yields (c', .ok ()) → Reaches p inner wanted c'

end Page

namespace Composition

/-- Foreign tags are counted only inside a foreign element. -/
def Balanced (c : Composition) : Prop := c.isForeign = false → c.foreignDepth = 0

theorem Move.balanced {v : Variables} {c c' : Composition} {t : Markup.Token} (h : Move v c t c')
    (hc : c.Balanced) : c'.Balanced := by
  intro hforeign
  cases h with
  | kept hkept hstays =>
    rw [hkept.foreignDepth]
    apply hc
    cases hf : c.isForeign with
    | false => rfl
    | true => rw [hstays hf] at hforeign; exact hforeign
  | skipped hf hstack _ =>
    rw [← isForeign_write c] at hf
    unfold isForeign at hf hforeign
    rw [hstack, hf] at hforeign
    cases hforeign
  | opened hf _ ho => exact (opened_kept ho).1.foreignDepth.trans (hc hf)
  | openedAndClosed _ _ _ hkept => exact hkept.foreignDepth
  | closed hpop hkept =>
    rw [hkept.foreignDepth, (pop?_rest hpop).2]

theorem Move.root_bare {v : Variables} {c c' : Composition} {t : Markup.Token} (h : Move v c t c') :
    c'.root.bare = c.root.bare := by
  cases h with
  | kept hkept _ => exact hkept.root
  | skipped _ _ hroot => rw [hroot]; exact (write_kept c _).root
  | opened _ _ ho => exact (opened_kept ho).1.root
  | openedAndClosed _ _ ho hkept => exact hkept.root.trans (opened_kept ho).1.root
  | closed hpop hkept =>
    rw [hkept.root, (pop?_rest hpop).1]

end Composition

namespace Page

variable {p : Page} {inner : Composer} {wanted : Option Text}

theorem Reaches.balanced {c : Composition} (h : p.Reaches inner wanted c) : c.Balanced := by
  induction h with
  | start => exact fun _ => rfl
  | take t _ ht ih => exact (take_move ht).balanced ih

theorem Reaches.root_bare {c : Composition} (h : p.Reaches inner wanted c) :
    c.root.bare = .ofWanted wanted := by
  induction h with
  | start => cases wanted <;> rfl
  | take t _ ht ih => exact (take_move ht).root_bare.trans ih

/-! ## The ends of elements -/

/-- The element that a tag ends, and the composition that it leaves. -/
def ended? (p : Page) (c : Composition) (tag : Text) : Option (Element × Composition) :=
  if c.isForeign then
    match c.foreignTag tag with
    | (true, c) => c.pop?
    | (false, _) => none
  else
    match Markup.lookup? tag with
    | some (.starts d) =>
      match c.opened p.bindings d tag with
      | .ok (e, c) =>
        if Markup.isSelfClosing tag then some (e, { c with foreignDepth := 0 }) else none
      | .error _ => none
    | some (.ends _) => if c.isTopEnd tag then c.pop? else none
    | none => none

private theorem closeTop_pop (p : Page) (inner : Composer) (c : Composition) (tag : Text) :
    match c.pop? with
    | some (e, c') => p.closeTop inner c tag = p.close inner c' e
    | none => ∃ found, p.closeTop inner c tag = .done found := by
  unfold closeTop
  cases c.pop? with
  | none => exact ⟨_, rfl⟩
  | some found => rfl

/-- A tag ends an element, or nothing is asked for on account of it. -/
theorem takeTag_ended (p : Page) (inner : Composer) (c : Composition) (tag : Text) :
    match p.ended? c tag with
    | some (e, c') => p.takeTag inner c tag = p.close inner c' e
    | none => ∃ found, p.takeTag inner c tag = .done found := by
  unfold takeTag ended?
  cases c.isForeign with
  | true =>
    obtain ⟨ends, c'⟩ := c.foreignTag tag
    cases ends with
    | true => exact closeTop_pop p inner c' tag
    | false => exact ⟨_, rfl⟩
  | false =>
    cases Markup.lookup? tag with
    | none => exact ⟨_, rfl⟩
    | some role =>
      cases role with
      | starts d =>
        simp only [Composition.start]
        cases c.opened p.bindings d tag with
        | error e => exact ⟨_, rfl⟩
        | ok found =>
          simp only
          cases Markup.isSelfClosing tag with
          | true => rfl
          | false => exact ⟨_, rfl⟩
      | ends d =>
        cases c.isTopEnd tag with
        | true => exact closeTop_pop p inner c tag
        | false => exact ⟨_, rfl⟩

theorem takeTag_of_ended {c c₁ : Composition} {tag : Text} {e : Element}
    (h : p.ended? c tag = some (e, c₁)) :
    p.takeTag inner c tag = p.close inner c₁ e := by
  have hended := takeTag_ended p inner c tag
  rwa [h] at hended

end Page

end EdgeCompose
