import EdgeCompose.Proofs.Provenance
import EdgeCompose.Proofs.Surroundings

/-!
The stack of open elements as a run goes on. A token leaves the elements that are open as they are,
but for what they take in, and pushes one or takes the innermost off (`Page.take_shift`); so what is
open around an element stays there for as long as the element is open (`Page.Passes.onward`). From
that follows what holds in every state that a run comes to (`Page.Reaches.well_framed`).
-/

namespace EdgeCompose

open Markup (Directive)

/-! ## Elements that stand in others -/

/-- The directive that an element of a directive has to stand in. -/
def Markup.Directive.shelter? : Directive → Option Directive
  | .when | .otherwise => some .choose
  | .attempt | .except => some .tryBlock
  | _ => none

/-- Whether an element leaves all tags alone that come in it, from its start tag on. -/
def Element.isShut : Element → Bool
  | .inclusion _ | .inline .. | .remove | .comment => true
  | .when active _ | .otherwise active _ | .except active _ => !active
  | .fragment .. | .choose _ | .tryBlock _ | .attempt .. | .vars _ => false

theorem Element.isForeign_bare_eq (e : Element) : e.bare.isForeign = e.isShut := by
  cases e <;> rfl

/-- Whether an element is a branch that its choice has come to. -/
def Element.isActivated : Element → Bool
  | .when active _ | .otherwise active _ => active
  | _ => false

namespace Composition

/-- How an element opens: it needs nothing around it, or it stands in a try, or it is a branch of the
innermost choice, which is active if no branch of that has been taken yet and its test is met. -/
inductive Opening (c : Composition) : Element → Composition → Prop
  | free {e : Element} : e.directive.shelter? = none → Opening c e c
  | tried {e : Element} {trial : Trial} : e.directive.shelter? = some .tryBlock →
    c.trial? = some trial → Opening c e c
  | passed {e : Element} {choice : Choice} : e.directive.shelter? = some .choose →
    c.choice? = some choice → e.isActivated = false → Opening c e c
  | taken {e : Element} {choice : Choice} : e.directive.shelter? = some .choose →
    c.choice? = some choice → choice.taken = false → e.isActivated = true →
    Opening c e c.takeBranch

theorem opening_of_opened {v : Variables} {c c' : Composition} {d : Directive} {tag : Text}
    {e : Element} (h : c.opened v d tag = .ok (e, c')) : Opening c e c' := by
  cases d with
  | inclusion | fragment | inline =>
    obtain ⟨_, -, hi⟩ := exists_ok_of_bind h
    cases hi
    exact .free rfl
  | when =>
    obtain ⟨test, choice, active, -, hchoice, hactive, rfl, rfl⟩ := opened_when_iff.mp h
    cases active with
    | false => exact .passed rfl hchoice rfl
    | true =>
      split at hactive
      · cases hactive
      · next htaken => exact .taken rfl hchoice (Bool.eq_false_iff.mpr htaken) rfl
  | otherwise =>
    obtain ⟨choice, hchoice, rfl, rfl⟩ := opened_otherwise_iff.mp h
    cases htaken : choice.taken with
    | true => exact .passed rfl hchoice rfl
    | false => exact .taken rfl hchoice htaken rfl
  | attempt =>
    obtain ⟨⟨trial, htrial⟩, rfl, rfl⟩ := opened_attempt_iff.mp h
    exact .tried rfl htrial
  | except =>
    obtain ⟨trial, htrial, rfl, rfl⟩ := opened_except_iff.mp h
    exact .tried rfl htrial
  | _ =>
    cases h
    exact .free rfl

theorem mem_of_findSome? {α : Type} {f : Element → Option α} {d : Directive} {stack : List Element}
    {a : α} (hf : ∀ e, e.directive ≠ d → f e = none) (h : stack.findSome? f = some a) :
    d ∈ stack.map Element.directive := by
  obtain ⟨e, he, hfound⟩ := List.exists_of_findSome?_eq_some h
  refine List.mem_map.mpr ⟨e, he, ?_⟩
  by_contra hd
  cases (hf e hd).symm.trans hfound

theorem Opening.of_isActivated {c c' : Composition} {e : Element} (h : Opening c e c')
    (he : e.isActivated = true) :
    ∃ choice, c.choice? = some choice ∧ choice.taken = false ∧ c' = c.takeBranch := by
  cases h with
  | free hnone => cases e <;> cases he <;> cases hnone
  | tried hshelter => cases e <;> cases he <;> cases hshelter
  | passed _ _ hinactive => cases hinactive.symm.trans he
  | taken _ hchoice huntaken _ => exact ⟨_, hchoice, huntaken, rfl⟩

/-- What an element needs around it is open when it opens. -/
theorem Opening.sheltered {c c' : Composition} {e : Element} (h : Opening c e c') :
    ∀ d, e.directive.shelter? = some d → d ∈ c.stack.map Element.directive := by
  have hchoice {choice : Choice} (hchoice : c.choice? = some choice) :
      Directive.choose ∈ c.stack.map Element.directive := by
    refine mem_of_findSome? (fun e he => ?_) hchoice
    cases e with
    | choose choice => exact (he rfl).elim
    | _ => rfl
  have htrial {trial : Trial} (htrial : c.trial? = some trial) :
      Directive.tryBlock ∈ c.stack.map Element.directive := by
    refine mem_of_findSome? (fun e he => ?_) htrial
    cases e with
    | tryBlock trial => exact (he rfl).elim
    | _ => rfl
  intro d hd
  cases h with
  | free hnone => cases hnone.symm.trans hd
  | tried hshelter hfound =>
    obtain rfl := Option.some.inj (hshelter.symm.trans hd)
    exact htrial hfound
  | passed hshelter hfound _ =>
    obtain rfl := Option.some.inj (hshelter.symm.trans hd)
    exact hchoice hfound
  | taken hshelter hfound _ _ =>
    obtain rfl := Option.some.inj (hshelter.symm.trans hd)
    exact hchoice hfound

end Composition

/-! ## What may become of an element while it is open -/

namespace Element

/-- The element may become the other while it is open: it takes things in, but what its tag said
stays, and a choice that has been made stays made. -/
structure Onward (e e' : Element) : Prop where
  bare : e'.bare = e.bare
  taken : ∀ choice choice', e = .choose choice → e' = .choose choice' → choice.taken = true →
    choice'.taken = true

namespace Onward

variable {e e' e'' : Element}

theorem refl (e : Element) : Onward e e := by
  refine ⟨rfl, ?_⟩
  rintro choice _ rfl ⟨⟩ htaken
  exact htaken

theorem directive (h : Onward e e') : e'.directive = e.directive := by
  rw [← directive_bare, h.bare, directive_bare]

theorem trans (h : Onward e e') (h' : Onward e' e'') : Onward e e'' := by
  refine ⟨h'.bare.trans h.bare, ?_⟩
  rintro choice choice'' rfl rfl htaken
  cases e' with
  | choose choice' => exact h'.taken _ _ rfl rfl (h.taken _ _ rfl rfl htaken)
  | _ => cases h.directive

/-- An element that is no choice has none to keep. -/
theorem of_bare (h : e'.bare = e.bare) (he : e.choice? = none) : Onward e e' := by
  refine ⟨h, ?_⟩
  rintro choice _ rfl _ _
  cases he

theorem write (e : Element) (t : Text) : Onward e (e.write t) := by
  cases e with
  | choose choice => exact refl _
  | _ => exact of_bare (bare_write _ t) rfl

theorem claim? (h : e.claim? = some e') : Onward e e' := by
  cases e with
  | attempt failed body => exact of_bare (bare_claim? h) rfl
  | _ => cases h

theorem mapTrial? {f : Trial → Trial} (h : e.mapTrial? f = some e') : Onward e e' := by
  cases e with
  | tryBlock trial => exact of_bare (bare_mapTrial? h) rfl
  | _ => cases h

theorem mapChoice? {f : Choice → Choice}
    (hf : ∀ choice, choice.taken = true → (f choice).taken = true) (h : e.mapChoice? f = some e') :
    Onward e e' := by
  cases e with
  | choose choice =>
    cases h
    refine ⟨rfl, ?_⟩
    rintro _ _ ⟨⟩ ⟨⟩
    exact hf choice
  | _ => cases h

end Onward

theorem forall₂_onward_refl (stack : List Element) : List.Forall₂ Onward stack stack :=
  List.forall₂_same.mpr fun e _ => .refl e

/-- What a change makes of the element that it applies to it makes of the stack. -/
theorem forall₂_changeFirst? {f : Element → Option Element} {stack stack' : List Element}
    (hf : ∀ e e', f e = some e' → Onward e e') (h : changeFirst? f stack = some stack') :
    List.Forall₂ Onward stack stack' := by
  obtain ⟨front, e, e', back, rfl, rfl, he, -⟩ := changeFirst?_split h
  exact List.rel_append (forall₂_onward_refl front)
    (.cons (hf e e' he) (forall₂_onward_refl back))

theorem forall₂_onward_trans {stack stack' stack'' : List Element}
    (h : List.Forall₂ Onward stack stack') (h' : List.Forall₂ Onward stack' stack'') :
    List.Forall₂ Onward stack stack'' := by
  induction h generalizing stack'' with
  | nil => exact h'
  | cons he _ ih =>
    cases h' with
    | cons he' hrest' => exact .cons (he.trans he') (ih hrest')

end Element

namespace Composition

/-- The open elements of a composition may become those of the other, one by one. -/
def Onward (c c' : Composition) : Prop := List.Forall₂ Element.Onward c.stack c'.stack

namespace Onward

variable {c c' c'' : Composition}

theorem of_stack (h : c'.stack = c.stack) : Onward c c' := by
  unfold Onward
  rw [h]
  exact Element.forall₂_onward_refl _

theorem trans (h : Onward c c') (h' : Onward c' c'') : Onward c c'' :=
  Element.forall₂_onward_trans h h'

theorem write (c : Composition) (t : Text) : Onward c (c.write t) := by
  unfold Composition.write
  split
  · exact .of_stack rfl
  · next e rest hstack =>
    unfold Onward
    rw [hstack]
    exact .cons (.write e t) (Element.forall₂_onward_refl rest)

theorem change? {f : Element → Option Element} (hf : ∀ e e', f e = some e' → e.Onward e')
    (h : c.change? f = some c') : Onward c c' := by
  obtain ⟨stack, hs, rfl⟩ := Option.map_eq_some_iff.mp h
  exact Element.forall₂_changeFirst? hf hs

theorem report (c : Composition) (e : ComposeError) : Onward c (c.report e).1 := by
  unfold Composition.report
  split
  · next h => exact change? (fun _ _ => .claim?) h
  · exact .of_stack rfl

theorem takeBranch (c : Composition) : Onward c c.takeBranch := by
  unfold Composition.takeBranch
  cases h : c.change? (Element.mapChoice? ({ · with taken := true })) with
  | none => exact .of_stack rfl
  | some c' => exact change? (fun _ _ => .mapChoice? fun _ _ => rfl) h

theorem giveBranch (c : Composition) (d : Directive) (body : Text) :
    Onward c (c.giveBranch d body).1 := by
  unfold Composition.giveBranch
  split
  · next h =>
    refine change? (fun _ _ he => .mapChoice? ?_ he) h
    exact fun _ htaken => htaken
  · exact .of_stack rfl

theorem changeTrial (c : Composition) (d : Directive) (f : Trial → Trial) :
    Onward c (c.changeTrial d f).1 := by
  unfold Composition.changeTrial
  split
  · next h => exact change? (fun _ _ => .mapTrial?) h
  · exact .of_stack rfl

theorem capture (c : Composition) (body : Text) : Onward c (c.capture body).2 := by
  unfold Composition.capture
  split <;> exact .of_stack rfl

theorem settle (v : Variables) (c : Composition) (e : Element) : Onward c (c.settle v e).1 := by
  cases e with
  | fragment name body =>
    simp only [Composition.settle]
    split
    · have hcaptured := capture c body
      split
      · next h => rwa [h] at hcaptured
      · next h =>
        rw [capture_false h]
        exact write c body
    · exact write c body
  | choose choice => exact write c choice.out
  | when active body =>
    cases active with
    | true => exact giveBranch ..
    | false => exact .of_stack rfl
  | otherwise active body =>
    cases active with
    | true => exact giveBranch ..
    | false => exact .of_stack rfl
  | tryBlock trial => exact write c trial.out
  | attempt failed body => exact changeTrial ..
  | except active body =>
    cases active with
    | true => exact changeTrial ..
    | false => exact .of_stack rfl
  | vars body =>
    simp only [Composition.settle]
    split
    · exact write ..
    · exact report ..
  | _ => exact .of_stack rfl

/-- Opening an element makes nothing of the others but that a choice may be made. -/
theorem opening {e : Element} (h : Opening c e c') : Onward c c' := by
  cases h with
  | taken => exact takeBranch c
  | _ => exact .of_stack rfl

end Onward

end Composition

/-! ## What a token does to the stack -/

namespace Composition

/-- A token leaves the elements open that are open, or it is a start tag that pushes one, or an end
tag that takes the innermost off, which is of the directive of the tag. A tag that closes itself does
both, and leaves the others open. -/
inductive Shift (c : Composition) : Markup.Token → Composition → Prop
  | kept {t : Markup.Token} {c' : Composition} : Onward c c' → Shift c t c'
  | pushed {tag : Text} {c' : Composition} {e : Element} {rest : List Element} :
    Markup.lookup? tag = some (.starts e.directive) → Markup.isSelfClosing tag = false →
    (∀ d, e.directive.shelter? = some d → d ∈ c.stack.map Element.directive) →
    c'.stack = e :: rest → List.Forall₂ Element.Onward c.stack rest → Shift c (.tag tag) c'
  | popped {tag : Text} {c' : Composition} {e : Element} {rest : List Element} :
    Markup.lookup? tag = some (.ends e.directive) → c.stack = e :: rest →
    List.Forall₂ Element.Onward rest c'.stack → Shift c (.tag tag) c'

/-- The elements of the stack that have fewer than `k` elements around them. -/
def outer (c : Composition) (k : Nat) : List Element := c.stack.drop (c.stack.length - k)

theorem outer_of_stack {c : Composition} {upper low : List Element}
    (h : c.stack = upper ++ low) : c.outer low.length = low := by
  rw [outer, h, List.length_append, Nat.add_sub_cancel, List.drop_left]

theorem outer_of_cons {c : Composition} {e : Element} {rest : List Element} {k : Nat}
    (h : c.stack = e :: rest) (hk : k ≤ rest.length) : c.outer k = rest.drop (rest.length - k) := by
  rw [outer, h, List.length_cons, Nat.succ_sub hk, List.drop_succ_cons]

theorem Shift.outer {c c' : Composition} {t : Markup.Token} {k : Nat} (h : Shift c t c')
    (hk : k ≤ c.stack.length) (hk' : k ≤ c'.stack.length) :
    List.Forall₂ Element.Onward (c.outer k) (c'.outer k) := by
  cases h with
  | kept hkept =>
    unfold Composition.outer
    rw [hkept.length_eq]
    exact List.forall₂_drop _ hkept
  | pushed _ _ _ hstack hrest =>
    rw [outer_of_cons hstack (hrest.length_eq ▸ hk), Composition.outer, hrest.length_eq]
    exact List.forall₂_drop _ hrest
  | popped _ hstack hrest =>
    rw [outer_of_cons hstack (hrest.length_eq ▸ hk'), Composition.outer, ← hrest.length_eq]
    exact List.forall₂_drop _ hrest

theorem isTopEnd_of_foreignTag {c c' : Composition} {tag : Text}
    (h : c.foreignTag tag = (true, c')) : c.isTopEnd tag = true := by
  unfold foreignTag at h
  split at h
  · next hend => exact hend
  · split at h <;> cases h

theorem lookup?_of_isTopEnd {c c' : Composition} {tag : Text} {e : Element}
    (h : c.isTopEnd tag = true) (hpop : c.pop? = some (e, c')) :
    Markup.lookup? tag = some (.ends e.directive) := by
  rw [isTopEnd, pop?_eq_some hpop] at h
  exact Markup.lookup?_ends.2 (by simpa using h)

end Composition

namespace Page

open EdgeCompose.Composition

variable {p : Page} {inner : Composer} {c c' : Composition} {tag : Text} {e : Element}

theorem close_onward {found : Composition × Except ComposeError Unit}
    (h : (p.close inner c e).Yields found) : c.Onward found.1 := by
  rcases close_cases h with rfl | ⟨t, rfl⟩ | ⟨error, rfl⟩
  · exact .settle p.bindings c e
  · exact .write c t
  · exact .report c error

/-- The end of an element comes by a tag that closes itself, or by the end tag of the innermost
element. -/
theorem ended?_cases (h : p.ended? c tag = some (e, c')) :
    (∃ c₁, c.isForeign = false ∧ Markup.lookup? tag = some (.starts e.directive) ∧
      Markup.isSelfClosing tag = true ∧ c.opened p.bindings e.directive tag = .ok (e, c₁) ∧
      c' = { c₁ with foreignDepth := 0 }) ∨
    c.pop? = some (e, c') ∧ Markup.lookup? tag = some (.ends e.directive) := by
  unfold ended? at h
  split at h
  · split at h
    · next c₁ htag =>
      obtain rfl := foreignTag_true htag
      exact .inr ⟨h, lookup?_of_isTopEnd (isTopEnd_of_foreignTag htag) h⟩
    · cases h
  · next hforeign =>
    split at h
    · next d hstart =>
      split at h
      · next e' c₁ ho =>
        split at h
        · next hself =>
          cases h
          obtain rfl := (opened_kept ho).2
          exact .inl ⟨c₁, Bool.eq_false_iff.mpr hforeign, hstart, hself, ho, rfl⟩
        · cases h
      · cases h
    · split at h
      · next htop => exact .inr ⟨h, lookup?_of_isTopEnd htop h⟩
      · cases h
    · cases h

/-- The open elements are all allowed if those are that the start tags open. -/
theorem takeAll_all {allowed : Element → Prop} {ts : List Markup.Token}
    (hts : ∀ tag e, .tag tag ∈ ts → Markup.Opens tag e → allowed e) (hc : c.All allowed)
    (h : (p.takeAll inner c ts).Yields (c', .ok ())) : c'.All allowed := by
  induction ts generalizing c with
  | nil =>
    simp only [takeAll, Program.pure_eq_done, Program.yields_done, Prod.mk.injEq] at h
    obtain ⟨rfl, -⟩ := h
    exact hc
  | cons t ts ih =>
    simp only [takeAll, Program.bind_eq_bind, Program.yields_bind] at h
    obtain ⟨⟨c₁, result⟩, ht, h⟩ := h
    cases result with
    | error e => simp [Program.yields_done] at h
    | ok _ =>
      refine ih (fun tag e htag => hts tag e (List.mem_cons_of_mem _ htag)) ?_ h
      refine (take_move ht).all hc fun tag e heq hopens => ?_
      exact hts tag e (heq ▸ List.mem_cons_self) hopens

/-- So are the elements that come to their end. -/
theorem ended?_all {allowed : Element → Prop} {before after : List Markup.Token}
    (hts : ∀ tag' e, .tag tag' ∈ before ++ .tag tag :: after → Markup.Opens tag' e → allowed e)
    {wanted : Option Text} (h : (p.takeAll inner (.ofWanted wanted) before).Yields (c, .ok ()))
    (hended : p.ended? c tag = some (e, c')) : allowed e.bare := by
  have hall : c.All allowed := by
    refine takeAll_all (fun tag e htag => hts tag e (List.mem_append_left _ htag)) ?_ h
    intro e he
    cases he
  rcases ended?_cases hended with ⟨c₁, -, hstarts, -, ho, -⟩ | ⟨hpop, -⟩
  · exact hts tag _ (List.mem_append_right _ List.mem_cons_self) ⟨_, _, _, _, _, hstarts, ho, rfl⟩
  · exact (hall.pop hpop).1

theorem closeTop_onward (h : (p.closeTop inner c tag).Yields (c', .ok ())) :
    ∃ e c₁, c.pop? = some (e, c₁) ∧ c₁.Onward c' := by
  unfold closeTop at h
  split at h
  · simp [Program.yields_done] at h
  · next e c₁ hpop => exact ⟨e, c₁, hpop, close_onward h⟩

theorem take_shift {t : Markup.Token} (h : (p.take inner c t).Yields (c', .ok ())) :
    c.Shift t c' := by
  cases t with
  | text t =>
    cases Program.yields_done.1 h
    exact .kept (.write c t)
  | tag tag =>
    simp only [take, takeTag] at h
    split at h
    · split at h
      · next c₁ htag =>
        obtain rfl := foreignTag_true htag
        obtain ⟨e, c₂, hpop, hclosed⟩ := closeTop_onward h
        have hend := lookup?_of_isTopEnd (isTopEnd_of_foreignTag htag) hpop
        exact .popped hend (pop?_eq_some hpop) hclosed
      · next c₁ htag =>
        cases Program.yields_done.1 h
        exact .kept ((Onward.write c tag).trans (.of_stack (foreignTag_false htag).1))
    · split at h
      · next d hstart =>
        unfold start at h
        cases ho : c.opened p.bindings d tag with
        | error error => simp [ho, Program.yields_done] at h
        | ok found =>
          obtain ⟨e, c₁⟩ := found
          simp only [ho] at h
          have hopened := Onward.opening (opening_of_opened ho)
          cases hself : Markup.isSelfClosing tag with
          | true =>
            simp only [hself] at h
            obtain ⟨e', c₂, hpop, hclosed⟩ := closeTop_onward h
            cases hpop
            exact .kept (hopened.trans hclosed)
          | false =>
            simp only [hself] at h
            cases Program.yields_done.1 h
            obtain rfl := (opened_kept ho).2
            exact .pushed hstart hself (opening_of_opened ho).sheltered rfl hopened
      · split at h
        · next htop =>
          obtain ⟨e, c₁, hpop, hclosed⟩ := closeTop_onward h
          exact .popped (lookup?_of_isTopEnd htop hpop) (pop?_eq_some hpop) hclosed
        · have hreport := Onward.report c (unexpected tag)
          rw [← Program.yields_done.1 h] at hreport
          exact .kept hreport
      · cases Program.yields_done.1 h
        exact .kept (.write c tag)

/-- Outside foreign elements, a start tag opens its element, and ends it where it closes itself. -/
theorem take_opening {d : Directive} (hf : c.isForeign = false)
    (hstart : Markup.lookup? tag = some (.starts d))
    (ho : c.opened p.bindings d tag = .ok (e, c')) :
    p.take inner c (.tag tag) = if Markup.isSelfClosing tag = true then
      p.close inner { c' with foreignDepth := 0 } e
    else .done ({ c' with stack := e :: c'.stack }, .ok ()) := by
  simp only [take, takeTag, hf, Bool.false_eq_true, if_false, hstart, start, ho]
  cases Markup.isSelfClosing tag with
  | true => rfl
  | false => rfl

/-- While at least `k` elements are open, the outermost `k` stay what they are. -/
theorem Passes.onward {ts : List Markup.Token} {log : List Answered} {k : Nat}
    (h : p.Passes inner (fun _ _ c₂ => k ≤ c₂.stack.length) c ts log c')
    (hk : k ≤ c.stack.length) : List.Forall₂ Element.Onward (c.outer k) (c'.outer k) := by
  induction h with
  | nil c => exact Element.forall₂_onward_refl _
  | cons htake hle _ ih =>
    exact Element.forall₂_onward_trans ((take_shift htake.yields).outer hk hle) (ih hle)

end Page

/-! ## Branches and what they stand in -/

/-- Every element stands in what it needs around it. -/
def Markup.Directive.Housed : List Directive → Prop
  | [] => True
  | d :: ds => (∀ shelter, d.shelter? = some shelter → shelter ∈ ds) ∧ Housed ds

namespace Element

theorem map_directive_of_onward {stack stack' : List Element}
    (h : List.Forall₂ Onward stack stack') : stack'.map directive = stack.map directive := by
  induction h with
  | nil => rfl
  | cons he _ ih => rw [List.map_cons, List.map_cons, he.directive, ih]

/-- The number of elements around the innermost one of a directive. -/
def place? (d : Directive) : List Element → Option Nat
  | [] => none
  | e :: rest => if e.directive = d then some rest.length else place? d rest

theorem place?_of_onward {stack stack' : List Element} (h : List.Forall₂ Onward stack stack')
    (d : Directive) : place? d stack' = place? d stack := by
  induction h with
  | nil => rfl
  | cons he hrest ih => rw [place?, place?, he.directive, hrest.length_eq, ih]

end Element

namespace Composition

variable {c c' : Composition} {e : Element}

theorem Shift.housed {t : Markup.Token} (h : Shift c t c')
    (hc : Directive.Housed (c.stack.map Element.directive)) :
    Directive.Housed (c'.stack.map Element.directive) := by
  cases h with
  | kept hkept => rwa [Element.map_directive_of_onward hkept]
  | pushed _ _ hshelter hstack hrest =>
    rw [hstack, List.map_cons, Element.map_directive_of_onward hrest]
    exact ⟨hshelter, hc⟩
  | popped _ hstack hrest =>
    rw [hstack, List.map_cons] at hc
    rw [Element.map_directive_of_onward hrest]
    exact hc.2

theorem change?_isSome {f : Element → Option Element} {d : Directive}
    (hd : d ∈ c.stack.map Element.directive) (hf : ∀ e : Element, e.directive = d → f e ≠ none) :
    ∃ c', c.change? f = some c' := by
  obtain ⟨e, he, hdirective⟩ := List.mem_map.mp hd
  obtain ⟨stack, hstack⟩ := Element.changeFirst?_isSome he (hf e hdirective)
  exact ⟨{ c with stack }, by rw [change?, hstack]; rfl⟩

/-- An element that stands in what it needs around it ends without an error. -/
theorem settle_sheltered (v : Variables) {d : Directive} (he : e.directive.shelter? = some d)
    (hd : d ∈ c.stack.map Element.directive) : ∃ c', c.settle v e = (c', .ok ()) := by
  have hchoice (hd : Directive.choose ∈ c.stack.map Element.directive) (f : Choice → Choice) :
      ∃ c', c.change? (Element.mapChoice? f) = some c' := by
    refine change?_isSome hd fun e he => ?_
    cases e with
    | choose choice => exact Option.some_ne_none _
    | _ => cases he
  have htrial (hd : Directive.tryBlock ∈ c.stack.map Element.directive) (f : Trial → Trial) :
      ∃ c', c.change? (Element.mapTrial? f) = some c' := by
    refine change?_isSome hd fun e he => ?_
    cases e with
    | tryBlock trial => exact Option.some_ne_none _
    | _ => cases he
  cases e with
  | when active body =>
    cases he
    cases active with
    | false => exact ⟨c, rfl⟩
    | true =>
      obtain ⟨c', hc'⟩ := hchoice hd fun choice => { choice with out := choice.out ++ body }
      exact ⟨c', by simp [settle, giveBranch, hc']⟩
  | otherwise active body =>
    cases he
    cases active with
    | false => exact ⟨c, rfl⟩
    | true =>
      obtain ⟨c', hc'⟩ := hchoice hd fun choice => { choice with out := choice.out ++ body }
      exact ⟨c', by simp [settle, giveBranch, hc']⟩
  | attempt failed body =>
    cases he
    obtain ⟨c', hc'⟩ := htrial hd fun trial =>
      if failed then { trial with failed := true } else { trial with attempt := some body }
    exact ⟨c', by simp only [settle, changeTrial, hc']⟩
  | except active body =>
    cases he
    cases active with
    | false => exact ⟨c, rfl⟩
    | true =>
      obtain ⟨c', hc'⟩ := htrial hd ({ · with except := some body })
      exact ⟨c', by simp [settle, changeTrial, hc']⟩
  | _ => cases he

end Composition

namespace Page

open EdgeCompose.Composition

variable {p : Page} {inner : Composer} {wanted : Option Text} {c c' : Composition} {tag : Text}
  {e : Element}

theorem Reaches.housed (h : p.Reaches inner wanted c) :
    Directive.Housed (c.stack.map Element.directive) := by
  induction h with
  | start => trivial
  | take t _ ht ih => exact (take_shift ht).housed ih

/-- The ends of elements that stand in others do not fail. -/
theorem close_sheltered (hc : Directive.Housed (c.stack.map Element.directive))
    (h : p.ended? c tag = some (e, c')) {d : Directive} (he : e.directive.shelter? = some d) :
    ∃ c'', p.close inner c' e = .done (c'', .ok ()) := by
  have hd : d ∈ c'.stack.map Element.directive := by
    rcases ended?_cases h with ⟨c₁, -, -, -, ho, rfl⟩ | ⟨hpop, -⟩
    · have hopening := opening_of_opened ho
      have honward : c.Onward c₁ := .opening hopening
      rw [Element.map_directive_of_onward honward]
      exact hopening.sheltered d he
    · rw [pop?_eq_some hpop, List.map_cons] at hc
      exact hc.1 d he
  obtain ⟨c'', hsettle⟩ := settle_sheltered p.bindings he hd
  refine ⟨c'', ?_⟩
  cases e with
  | when active body => exact congrArg Program.done hsettle
  | otherwise active body => exact congrArg Program.done hsettle
  | attempt failed body => exact congrArg Program.done hsettle
  | except active body => exact congrArg Program.done hsettle
  | _ => cases he

end Page

/-! ## Activated branches -/

namespace Element

/-- The innermost choice is that of the innermost element for choices. -/
theorem split_of_choice? {stack : List Element} {choice : Choice}
    (h : stack.findSome? choice? = some choice) : ∃ upper low, stack = upper ++ .choose choice :: low ∧
      (∀ e ∈ upper, e.choice? = none) ∧ place? .choose stack = some low.length := by
  induction stack with
  | nil => cases h
  | cons e rest ih =>
    cases he : e.choice? with
    | some found =>
      cases e with
      | choose found' =>
        obtain rfl : found' = choice := Option.some.inj h
        exact ⟨[], rest, rfl, by simp, rfl⟩
      | _ => cases he
    | none =>
      rw [List.findSome?_cons, he] at h
      obtain ⟨upper, low, rfl, hupper, hplace⟩ := ih h
      refine ⟨e :: upper, low, rfl, List.forall_mem_cons.mpr ⟨he, hupper⟩, ?_⟩
      have hdirective : e.directive ≠ .choose := by
        cases e with
        | choose found => cases he
        | _ => nofun
      rw [place?, if_neg hdirective, hplace]

theorem choice_of_onward {choice : Choice} {low stack : List Element}
    (h : List.Forall₂ Onward (.choose choice :: low) stack) (htaken : choice.taken = true) :
    ∃ choice' low', choice'.taken = true ∧ stack = .choose choice' :: low' := by
  cases h with
  | @cons _ e _ low' he _ =>
    cases e with
    | choose choice' => exact ⟨choice', low', he.taken _ _ rfl rfl htaken, rfl⟩
    | _ => cases he.directive

end Element

namespace Composition

variable {c c' : Composition}

theorem takeBranch_outer {choice : Choice} {n : Nat} (h : c.choice? = some choice)
    (hn : Element.place? .choose c.stack = some n) :
    (∃ low, c.outer (n + 1) = .choose choice :: low) ∧ n < c.takeBranch.stack.length ∧
      ∃ low, c.takeBranch.outer (n + 1) = .choose { choice with taken := true } :: low := by
  obtain ⟨upper, low, hstack, hupper, hplace⟩ := Element.split_of_choice? h
  obtain rfl : low.length = n := Option.some.inj (hplace.symm.trans hn)
  have hchange : Element.changeFirst? (Element.mapChoice? ({ · with taken := true })) c.stack =
      some (upper ++ .choose { choice with taken := true } :: low) := by
    rw [hstack]
    exact Element.changeFirst?_at (fun e he => by simp [Element.mapChoice?, hupper e he]) rfl
  have htaken : c.takeBranch.stack = upper ++ .choose { choice with taken := true } :: low := by
    simp [takeBranch, change?, hchange]
  refine ⟨⟨low, outer_of_stack hstack⟩, ?_, low, outer_of_stack htaken⟩
  simp [htaken]
  omega

end Composition

namespace Page

open EdgeCompose.Composition

variable {p : Page} {inner : Composer} {wanted : Option Text} {c c' : Composition}
  {t : Markup.Token} {n : Nat}

/-- The token opens a branch of the innermost choice, which has `n` elements around it, and the branch
is active. -/
def Activates (p : Page) (c : Composition) (t : Markup.Token) (n : Nat) : Prop :=
  ∃ tag e c', t = .tag tag ∧ c.isForeign = false ∧
    Markup.lookup? tag = some (.starts e.directive) ∧
    c.opened p.bindings e.directive tag = .ok (e, c') ∧ e.isActivated = true ∧
    Element.place? .choose c.stack = some n

/-- A branch is activated only where none has been taken before. -/
theorem Activates.untaken (h : p.Activates c t n) :
    ∃ choice low, c.outer (n + 1) = .choose choice :: low ∧ choice.taken = false := by
  obtain ⟨tag, e, c', -, -, -, ho, hactivated, hplace⟩ := h
  obtain ⟨choice, hchoice, huntaken, -⟩ := (opening_of_opened ho).of_isActivated hactivated
  obtain ⟨⟨low, hlow⟩, -⟩ := takeBranch_outer hchoice hplace
  exact ⟨choice, low, hlow, huntaken⟩

/-- Then one has been taken. -/
theorem Activates.taken {log : List Answered} (h : p.Activates c t n)
    (htake : (p.take inner c t).Performs log (.done (c', .ok ()))) : n < c'.stack.length ∧
      ∃ choice low, c'.outer (n + 1) = .choose choice :: low ∧ choice.taken = true := by
  obtain ⟨tag, e, c₁, rfl, hforeign, hstart, ho, hactivated, hplace⟩ := h
  obtain ⟨e', c₂, ho', hrest⟩ := take_starting hforeign hstart htake
  cases ho.symm.trans ho'
  obtain ⟨choice, hchoice, -, rfl⟩ := (opening_of_opened ho).of_isActivated hactivated
  obtain ⟨-, hlength, low, hlow⟩ := takeBranch_outer hchoice hplace
  split at hrest
  · have hclosed : c.takeBranch.Onward c' := (Onward.of_stack rfl).trans (close_onward hrest.yields)
    have hlength' : n < c'.stack.length := hclosed.length_eq ▸ hlength
    have houter := (Shift.kept (t := .tag tag) hclosed).outer hlength hlength'
    rw [hlow] at houter
    obtain ⟨choice', low', htaken, hlow'⟩ := Element.choice_of_onward houter rfl
    exact ⟨hlength', choice', low', hlow', htaken⟩
  · obtain ⟨-, rfl⟩ := hrest
    refine ⟨Nat.lt_succ_of_lt hlength, { choice with taken := true }, low, ?_, rfl⟩
    rw [outer_of_cons rfl hlength]
    exact hlow

/-- While the choice stays open, no other branch of it is activated. -/
theorem Activates.once {ts : List Markup.Token} {t' : Markup.Token} {log log' : List Answered}
    {c'' : Composition} (h : p.Activates c t n)
    (htake : (p.take inner c t).Performs log (.done (c', .ok ())))
    (hrun : p.Passes inner (fun _ _ c₂ => n < c₂.stack.length) c' ts log' c'') :
    ¬ p.Activates c'' t' n := by
  intro hagain
  obtain ⟨hlength, choice, low, hlow, htaken⟩ := h.taken htake
  obtain ⟨choice', low', hlow', huntaken⟩ := hagain.untaken
  have houter := hrun.onward hlength
  rw [hlow, hlow'] at houter
  cases houter with
  | cons he _ => cases huntaken.symm.trans (he.taken _ _ rfl rfl htaken)

/-! ## The states of a run -/

/-- How the stack is in a state, and what can become of it. -/
structure WellFramed (p : Page) (inner : Composer) (c : Composition) : Prop where
  /-- Elements are open in those only that do not leave all tags alone. -/
  tail_open : ∀ e ∈ c.stack.tail, e.isShut = false
  /-- Foreign tags are counted only where the innermost element is foreign. -/
  balanced : c.isForeign = false → c.foreignDepth = 0
  /-- Branches stand in a choice, attempts and excepts in a try. -/
  housed : Directive.Housed (c.stack.map Element.directive)
  /-- An element that is open is taken off only as the innermost one, by its own end tag. -/
  shift : ∀ t c', (p.take inner c t).Yields (c', .ok ()) → c.Shift t c'
  /-- While the innermost element is open, the elements around it stay what and where they are. -/
  around : ∀ e below, c.stack = e :: below → ∀ ts log c',
    p.Passes inner (fun _ _ c₂ => below.length < c₂.stack.length) c ts log c' →
    ∀ upper e' below', c'.stack = upper ++ e' :: below' → below'.length = below.length →
      e.Onward e' ∧ List.Forall₂ Element.Onward below below' ∧
        ∀ d, Element.place? d below' = Element.place? d below
  /-- The ends of branches, attempts and excepts do not fail. -/
  closes : ∀ tag e c', p.ended? c tag = some (e, c') → e.directive.shelter?.isSome = true →
    ∃ c'', p.close inner c' e = .done (c'', .ok ())
  /-- When a branch of a choice has been activated, no other is for as long as the choice is open. -/
  once : ∀ n t log c', p.Activates c t n → (p.take inner c t).Performs log (.done (c', .ok ())) →
    ∀ ts log' c'' t', p.Passes inner (fun _ _ c₂ => n < c₂.stack.length) c' ts log' c'' →
      ¬ p.Activates c'' t' n
  /-- A document can end here just if no element is open. -/
  finish : (∃ out, c.finish = .ok out) ↔ c.stack = []

theorem finish_iff (c : Composition) : (∃ out, c.finish = .ok out) ↔ c.stack = [] := by
  unfold Composition.finish
  split
  · next hstack => exact ⟨fun _ => hstack, fun _ => ⟨_, rfl⟩⟩
  · next hstack => simp [hstack]

theorem Passes.around {e e' : Element} {below below' upper : List Element}
    {ts : List Markup.Token} {log : List Answered}
    (h : p.Passes inner (fun _ _ c₂ => below.length < c₂.stack.length) c ts log c')
    (hstack : c.stack = e :: below) (hstack' : c'.stack = upper ++ e' :: below')
    (hlength : below'.length = below.length) :
    e.Onward e' ∧ List.Forall₂ Element.Onward below below' := by
  have hk : below.length < c.stack.length := by simp [hstack]
  have hinnermost : c.stack = [] ++ e :: below := hstack
  have houter : List.Forall₂ Element.Onward (c.outer (below.length + 1))
      (c'.outer (below.length + 1)) := h.onward hk
  rw [← List.length_cons, outer_of_stack hinnermost, List.length_cons, ← hlength,
    ← List.length_cons, outer_of_stack hstack'] at houter
  cases houter with
  | cons he hbelow => exact ⟨he, hbelow⟩

/-- In every state that a run comes to, for a whole document or for a fragment and whatever the
surroundings answer, the stack is as it should be. -/
theorem Reaches.well_framed (h : p.Reaches inner wanted c) : p.WellFramed inner c where
  tail_open e he := by
    rw [← Element.isForeign_bare_eq]
    exact h.layered _ (List.mem_map_of_mem he)
  balanced := h.balanced
  housed := h.housed
  shift _ _ := take_shift
  around e below hstack ts log c' hrun upper e' below' hstack' hlength := by
    obtain ⟨he, hbelow⟩ := hrun.around hstack hstack' hlength
    exact ⟨he, hbelow, Element.place?_of_onward hbelow⟩
  closes tag e c' hended he := by
    obtain ⟨d, hd⟩ := Option.isSome_iff_exists.mp he
    exact close_sheltered h.housed hended hd
  once _ _ _ _ hactivates htake _ _ _ _ hrun := hactivates.once htake hrun
  finish := finish_iff c

end Page

namespace Renderer

open EdgeCompose.Composition

/-! ## A choice that has been opened -/

def otherwiseTag : Markup.Token := .tag "<esi:otherwise>".toList

def inChoice : Composition := { stack := [.choose {}], root := .document [] }

def inBranch : Composition where
  stack := [.otherwise true [], .choose { taken := true }]
  root := .document []

private theorem inChoice_reached : partRenderer.page.Reaches partRenderer.inner none inChoice := by
  have htake : partRenderer.page.take partRenderer.inner (.ofWanted none)
      (.tag "<esi:choose>".toList) = .done (inChoice, .ok ()) := by
    have hself : Markup.isSelfClosing "<esi:choose>".toList = false := by decide +kernel
    rw [Page.take_opening rfl (d := .choose) (by decide +kernel) rfl, hself]
    rfl
  refine .take (.tag "<esi:choose>".toList) .start ?_
  rw [htake]
  exact .done _

/-- The first branch of the choice is activated, and for as long as the choice is open no other one
is. -/
theorem well_framed_choice :
    partRenderer.page.Reaches partRenderer.inner none inChoice ∧
      partRenderer.page.WellFramed partRenderer.inner inChoice ∧
      partRenderer.page.Activates inChoice otherwiseTag 0 ∧
      partRenderer.page.take partRenderer.inner inChoice otherwiseTag = .done (inBranch, .ok ()) ∧
      ∀ ts log c t, partRenderer.page.Passes partRenderer.inner
        (fun _ _ c₂ => 0 < c₂.stack.length) inBranch ts log c →
          ¬ partRenderer.page.Activates c t 0 := by
  have hframed := inChoice_reached.well_framed
  have hlookup : Markup.lookup? "<esi:otherwise>".toList = some (.starts .otherwise) := by
    decide +kernel
  have hself : Markup.isSelfClosing "<esi:otherwise>".toList = false := by decide +kernel
  have hactivates : partRenderer.page.Activates inChoice otherwiseTag 0 :=
    ⟨_, .otherwise true [], inChoice.takeBranch, rfl, rfl, hlookup, rfl, rfl, rfl⟩
  have htake : partRenderer.page.take partRenderer.inner inChoice otherwiseTag =
      .done (inBranch, .ok ()) := by
    rw [otherwiseTag, Page.take_opening rfl hlookup rfl, hself]
    rfl
  refine ⟨inChoice_reached, hframed, hactivates, htake, fun ts log c t hrun => ?_⟩
  refine hframed.once 0 otherwiseTag [] inBranch hactivates ?_ ts log c t hrun
  rw [htake]
  exact .nil _

end Renderer

end EdgeCompose
