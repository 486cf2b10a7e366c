import Mathlib.Control.Monad.Basic
import EdgeCompose.Compose.Render
import EdgeCompose.Proofs.Programs

/-!
Starts that fail. On its start tag an element reads what the tag says, and looks for the element that
it has to stand in, which a branch also changes. Here this is written as steps, any of which may fail
and each of which finds what those before it have changed (`Starting.start`). They come to what
`Composition.start` gives at once (`Starting.start_eq`). Whatever makes a start fail comes before the
first change, so a start that fails has changed nothing (`Starting.start_failed`).
-/

namespace EdgeCompose

open Markup (Directive)

/-- Steps on a composition. What they change stays changed if a later one fails. -/
abbrev Starting := ExceptT ComposeError (StateT Composition Program)

namespace Starting

variable {α β : Type}

def runFrom (m : Starting α) (c : Composition) : Program (Except ComposeError α × Composition) :=
  m.run.run c

/-! ## The steps of a start -/

def needed (d : Directive) (tag : Text) (name : String) : Starting Text :=
  ofExcept (Composition.needed d (Markup.attributes tag) name)

def around (open? : Composition → Option α) (d needed : Directive) : Starting α := do
  match open? (← get) with
  | some a => return a
  | none => throw (Composition.outside d needed)

abbrev choiceAround (d : Directive) : Starting Choice := around Composition.choice? d .choose

abbrev trialAround (d : Directive) : Starting Trial := around Composition.trial? d .tryBlock

/-- Takes the branch of the innermost choice, if none has been taken and the condition holds, and says
whether it did. -/
def takeBranch (d : Directive) (condition : Bool) : Starting Bool := do
  if (← choiceAround d).taken || !condition then return false
  modify Composition.takeBranch
  return true

def test (v : Variables) (choice : Choice) (expression : Text) : Starting Bool :=
  if choice.taken then return false else ofExcept (Expression.evaluate v expression)

/-- What an element does on its start tag. A when looks for its choice before its test is evaluated,
and again to take the branch. -/
def handle (v : Variables) (tag : Text) : Directive → Starting Element
  | .inclusion => return .inclusion (← ofExcept (Inclusion.ofTag tag))
  | .fragment => return .fragment (← needed .fragment tag "name") []
  | .inline => do
    let name ← needed .inline tag "name"
    let pinned := ((Markup.attributes tag).get? "fetchable".toList).any
      (Text.equalFold · "false".toList)
    return .inline name (!pinned) []
  | .choose => return .choose {}
  | .when => do
    let expression ← needed .when tag "test"
    let condition ← test v (← choiceAround .when) expression
    return .when (← takeBranch .when condition) []
  | .otherwise => return .otherwise (← takeBranch .otherwise true) []
  | .tryBlock => return .tryBlock {}
  | .attempt => do
    let _ ← trialAround .attempt
    return .attempt false []
  | .except => return .except (← trialAround .except).failed []
  | .vars => return .vars []
  | .remove => return .remove
  | .comment => return .comment

def start (v : Variables) (d : Directive) (tag : Text) : Starting Bool := do
  let e ← handle v tag d
  modify fun c => { c with stack := e :: c.stack }
  return Markup.isSelfClosing tag

/-! ## What steps may do -/

/-- The steps ask for nothing and change nothing, though they may fail. -/
def Reads (m : Starting α) : Prop := ∀ c, ∃ r, m.runFrom c = .done (r, c)

/-- The steps ask for nothing and do not fail. -/
def Succeeds (m : Starting α) : Prop := ∀ c, ∃ a c', m.runFrom c = .done (.ok a, c')

/-- The steps ask for nothing, and if they fail they have changed nothing. -/
def Clean (m : Starting α) : Prop :=
  ∀ c, ∃ r c', m.runFrom c = .done (r, c') ∧ ∀ error, r = .error error → c' = c

theorem runFrom_bind (m : Starting α) (f : α → Starting β) (c : Composition) :
    (m >>= f).runFrom c = (m.runFrom c).bind fun
      | (.ok a, c) => (f a).runFrom c
      | (.error error, c) => .done (.error error, c) := by
  refine congrArg (Program.bind (m.runFrom c)) (funext fun found => ?_)
  obtain ⟨_ | _, c'⟩ := found <;> rfl

theorem Reads.pure (a : α) : Reads (Pure.pure a) := fun _ => ⟨.ok a, rfl⟩

theorem Reads.throw (error : ComposeError) : Reads (α := α) (throw error) :=
  fun _ => ⟨.error error, rfl⟩

theorem Reads.get : Reads get := fun c => ⟨.ok c, rfl⟩

theorem Reads.ofExcept (x : Except ComposeError α) : Reads (ofExcept x) := by
  cases x with
  | ok a => exact Reads.pure a
  | error error => exact Reads.throw error

theorem Succeeds.pure (a : α) : Succeeds (Pure.pure a) := fun c => ⟨a, c, rfl⟩

theorem Succeeds.modify (f : Composition → Composition) : Succeeds (modify f) :=
  fun c => ⟨(), f c, rfl⟩

variable {m : Starting α} {f : α → Starting β}

theorem Reads.bind (h : Reads m) (hf : ∀ a, Reads (f a)) : Reads (m >>= f) := by
  intro c
  obtain ⟨r, hr⟩ := h c
  rw [runFrom_bind, hr, Program.done_bind]
  cases r with
  | ok a => exact hf a c
  | error error => exact ⟨.error error, rfl⟩

theorem Succeeds.bind (h : Succeeds m) (hf : ∀ a, Succeeds (f a)) : Succeeds (m >>= f) := by
  intro c
  obtain ⟨a, c', hm⟩ := h c
  rw [runFrom_bind, hm, Program.done_bind]
  exact hf a c'

theorem Reads.clean (h : Reads m) : Clean m := by
  intro c
  obtain ⟨r, hr⟩ := h c
  exact ⟨r, c, hr, fun _ _ => rfl⟩

theorem Succeeds.clean (h : Succeeds m) : Clean m := by
  intro c
  obtain ⟨a, c', hm⟩ := h c
  refine ⟨.ok a, c', hm, fun error herror => ?_⟩
  cases herror

/-- What fails after steps that only read has changed nothing but what it changed itself. -/
theorem Reads.bind_clean (h : Reads m) (hf : ∀ a, Clean (f a)) : Clean (m >>= f) := by
  intro c
  obtain ⟨r, hr⟩ := h c
  rw [runFrom_bind, hr, Program.done_bind]
  cases r with
  | ok a => exact hf a c
  | error error => exact ⟨.error error, c, rfl, fun _ _ => rfl⟩

/-- After the first change no step may fail. -/
theorem Clean.bind_succeeds (h : Clean m) (hf : ∀ a, Succeeds (f a)) : Clean (m >>= f) := by
  intro c
  obtain ⟨r, c', hr, hclean⟩ := h c
  rw [runFrom_bind, hr, Program.done_bind]
  cases r with
  | ok a =>
    obtain ⟨b, c'', hb⟩ := hf a c'
    refine ⟨.ok b, c'', hb, fun error herror => ?_⟩
    cases herror
  | error error => exact ⟨.error error, c', rfl, fun _ _ => hclean error rfl⟩

/-! ## Starts that fail -/

theorem around_reads (open? : Composition → Option α) (d needed : Directive) :
    Reads (around open? d needed) := by
  refine Reads.get.bind fun c => ?_
  cases open? c with
  | none => exact .throw _
  | some a => exact .pure a

theorem test_reads (v : Variables) (choice : Choice) (expression : Text) :
    Reads (test v choice expression) := by
  unfold test
  cases choice.taken with
  | true => exact .pure false
  | false => exact .ofExcept _

theorem takeBranch_clean (d : Directive) (condition : Bool) : Clean (takeBranch d condition) := by
  refine (around_reads _ _ _).bind_clean fun choice => Succeeds.clean ?_
  cases choice.taken || !condition with
  | true => exact .pure false
  | false => exact (Succeeds.modify _).bind fun _ => .pure true

/-- Only branches change anything, and that last. -/
theorem handle_clean (v : Variables) (tag : Text) (d : Directive) : Clean (handle v tag d) := by
  cases d with
  | inclusion => exact (Reads.ofExcept _).bind (fun _ => .pure _) |>.clean
  | fragment => exact (Reads.ofExcept _).bind (fun _ => .pure _) |>.clean
  | inline => exact (Reads.ofExcept _).bind (fun _ => .pure _) |>.clean
  | when =>
    refine (Reads.ofExcept _).bind_clean fun expression => ?_
    refine (around_reads _ _ _).bind_clean fun choice => ?_
    refine (test_reads v choice expression).bind_clean fun condition => ?_
    exact (takeBranch_clean .when condition).bind_succeeds fun _ => .pure _
  | otherwise => exact (takeBranch_clean .otherwise true).bind_succeeds fun _ => .pure _
  | attempt => exact (around_reads _ _ _).bind (fun _ => .pure _) |>.clean
  | except => exact (around_reads _ _ _).bind (fun _ => .pure _) |>.clean
  | _ => exact (Reads.pure _).clean

theorem start_clean (v : Variables) (d : Directive) (tag : Text) : Clean (start v d tag) := by
  refine (handle_clean v tag d).bind_succeeds fun e => ?_
  exact (Succeeds.modify _).bind fun _ => .pure _

/-! ## The steps and the start -/

section

variable {c c' : Composition} {a : α} {error : ComposeError} {choice : Choice}

theorem runFrom_of_ok (h : m.runFrom c = .done (.ok a, c')) :
    (m >>= f).runFrom c = (f a).runFrom c' := by
  rw [runFrom_bind, h, Program.done_bind]

theorem runFrom_of_error (h : m.runFrom c = .done (.error error, c')) :
    (m >>= f).runFrom c = .done (.error error, c') := by
  rw [runFrom_bind, h, Program.done_bind]

theorem runFrom_get (c : Composition) : (get : Starting Composition).runFrom c = .done (.ok c, c) :=
  rfl

theorem around_of_some {open? : Composition → Option α} (h : open? c = some a)
    (d needed : Directive) : (around open? d needed).runFrom c = .done (.ok a, c) := by
  unfold around
  rw [runFrom_of_ok (runFrom_get c), h]
  rfl

theorem around_of_none {open? : Composition → Option α} (h : open? c = none)
    (d needed : Directive) :
    (around open? d needed).runFrom c = .done (.error (Composition.outside d needed), c) := by
  unfold around
  rw [runFrom_of_ok (runFrom_get c), h]
  rfl

theorem takeBranch_of_some (h : c.choice? = some choice) (d : Directive) (condition : Bool) :
    (takeBranch d condition).runFrom c = .done (.ok (!choice.taken && condition),
      if (!choice.taken && condition) = true then c.takeBranch else c) := by
  unfold takeBranch
  rw [runFrom_of_ok (around_of_some h d .choose)]
  cases choice.taken <;> cases condition <;> rfl

theorem takeBranch_of_none (h : c.choice? = none) (d : Directive) (condition : Bool) :
    (takeBranch d condition).runFrom c = .done (.error (Composition.outside d .choose), c) := by
  unfold takeBranch
  rw [runFrom_of_error (around_of_none h d .choose)]

theorem test_eq (v : Variables) (choice : Choice) (expression : Text) (c : Composition) :
    (test v choice expression).runFrom c =
      .done (if choice.taken then .ok false else Expression.evaluate v expression, c) := by
  unfold test
  cases choice.taken with
  | true => rfl
  | false => cases Expression.evaluate v expression <;> rfl

/-- The outcome of steps that open an element, as the composition has it. -/
private def outcome (c : Composition) :
    Except ComposeError (Element × Composition) → Except ComposeError Element × Composition
  | .ok (e, c') => (.ok e, c')
  | .error error => (.error error, c)

private theorem handle_when (v : Variables) (c : Composition) (tag : Text) :
    (handle v tag .when).runFrom c = .done (outcome c (c.opened v .when tag)) := by
  simp only [handle, needed, Composition.opened]
  cases Composition.needed .when (Markup.attributes tag) "test" with
  | error error => rfl
  | ok expression =>
    have hneeded : (ofExcept (.ok expression) : Starting Text).runFrom c =
      .done (.ok expression, c) := rfl
    rw [runFrom_of_ok hneeded]
    cases hfound : c.choice? with
    | none =>
      rw [runFrom_of_error (around_of_none hfound .when .choose)]
      rfl
    | some choice =>
      have htake (condition : Bool) := takeBranch_of_some hfound .when condition
      rw [runFrom_of_ok (around_of_some hfound .when .choose)]
      show _ = Program.done (outcome c (if choice.taken = true then .ok (.when false [], c) else
        Expression.evaluate v expression >>= fun active =>
          .ok (.when active [], if active = true then c.takeBranch else c)))
      cases htaken : choice.taken with
      | true =>
        have htest : (test v choice expression).runFrom c = .done (.ok false, c) := by
          rw [test_eq, htaken, if_pos rfl]
        rw [runFrom_of_ok htest, runFrom_of_ok (htake false), htaken]
        rfl
      | false =>
        have htest : (test v choice expression).runFrom c =
            .done (Expression.evaluate v expression, c) := by
          rw [test_eq, htaken, if_neg Bool.false_ne_true]
        rw [if_neg Bool.false_ne_true]
        cases hactive : Expression.evaluate v expression with
        | error error =>
          rw [hactive] at htest
          rw [runFrom_of_error htest]
          rfl
        | ok active =>
          rw [hactive] at htest
          rw [runFrom_of_ok htest, runFrom_of_ok (htake active), htaken]
          cases active <;> rfl

/-- The steps of an element come to what opens it. -/
theorem handle_eq (v : Variables) (c : Composition) (tag : Text) (d : Directive) :
    (handle v tag d).runFrom c = .done (outcome c (c.opened v d tag)) := by
  cases d with
  | inclusion =>
    simp only [handle, Composition.opened]
    cases Inclusion.ofTag tag <;> rfl
  | fragment =>
    simp only [handle, needed, Composition.opened]
    cases Composition.needed .fragment (Markup.attributes tag) "name" <;> rfl
  | inline =>
    simp only [handle, needed, Composition.opened]
    cases Composition.needed .inline (Markup.attributes tag) "name" <;> rfl
  | when => exact handle_when v c tag
  | otherwise =>
    simp only [handle, Composition.opened]
    cases hfound : c.choice? with
    | none =>
      rw [runFrom_of_error (takeBranch_of_none hfound .otherwise true)]
      rfl
    | some choice =>
      rw [runFrom_of_ok (takeBranch_of_some hfound .otherwise true)]
      simp only [pure, Except.pure]
      cases choice.taken <;> rfl
  | attempt | except =>
    simp only [handle, Composition.opened]
    cases hfound : c.trial? with
    | none =>
      rw [runFrom_of_error (around_of_none hfound _ _)]
      rfl
    | some trial =>
      rw [runFrom_of_ok (around_of_some hfound _ _)]
      rfl
  | _ => rfl

/-- The steps of a start come to the start of the composition. -/
theorem start_eq (v : Variables) (c : Composition) (d : Directive) (tag : Text) :
    (start v d tag).runFrom c = .done ((c.start v d tag).2, (c.start v d tag).1) := by
  have hhandle := handle_eq v c tag d
  unfold start Composition.start
  cases hopened : c.opened v d tag with
  | error error =>
    rw [hopened] at hhandle
    rw [runFrom_of_error hhandle]
  | ok found =>
    rw [hopened] at hhandle
    rw [runFrom_of_ok hhandle]
    rfl

/-- A start that fails leaves no trace: whatever its steps were, the composition is what it was, the
elements, the root and the count of foreign tags alike, and nothing has been asked of the
surroundings. The run over the document, which ends there, leaves it so. -/
theorem start_failed {p : Page} {d : Directive} {tag : Text}
    (h : ((start p.bindings d tag).runFrom c).Yields (.error error, c')) :
    c' = c ∧ (start p.bindings d tag).runFrom c = .done (.error error, c) ∧
      c.start p.bindings d tag = (c, .error error) ∧
      ∀ inner, c.isForeign = false → Markup.lookup? tag = some (.starts d) →
        p.take inner c (.tag tag) = .done (c, .error error) := by
  obtain ⟨r, left, hrun, hclean⟩ := start_clean p.bindings d tag c
  rw [hrun, Program.yields_done] at h
  cases h
  obtain rfl := hclean error rfl
  have hstart : c'.start p.bindings d tag = (c', .error error) := by
    have hsame := hrun.symm.trans (start_eq p.bindings c' d tag)
    rw [Program.done.injEq, Prod.mk.injEq] at hsame
    exact Prod.ext hsame.2.symm hsame.1.symm
  refine ⟨rfl, hrun, hstart, fun inner hforeign hlookup => ?_⟩
  simp only [Page.take, Page.takeTag, hforeign, hlookup, hstart, Bool.false_eq_true, if_false,
    Program.pure_eq_done]

end

/-! ## A when whose test is cut short -/

def plainPage : Page := { settings := {}, backends := {}, request := {} }

def openChoice : Composition := { stack := [.choose {}], root := .document [] }

def cutShort : Text := "<esi:when test='1 =='>".toList

def cutShortError : ComposeError :=
  .invalidExpression "1 ==".toList "unexpected end of expression".toList

theorem start_failed_cutShort :
    ((start plainPage.bindings .when cutShort).runFrom openChoice).Yields
        (.error cutShortError, openChoice) ∧
      openChoice.start plainPage.bindings .when cutShort = (openChoice, .error cutShortError) ∧
      ∀ inner, plainPage.take inner openChoice (.tag cutShort) =
        .done (openChoice, .error cutShortError) := by
  have hstart : openChoice.start plainPage.bindings .when cutShort =
      (openChoice, .error cutShortError) := by decide +kernel
  have hlookup : Markup.lookup? cutShort = some (.starts .when) := by decide +kernel
  have hyields : ((start plainPage.bindings .when cutShort).runFrom openChoice).Yields
      (.error cutShortError, openChoice) := by
    rw [start_eq, hstart, Program.yields_done]
  obtain ⟨-, -, hfailed, htake⟩ := start_failed hyields
  exact ⟨hyields, hfailed, fun inner => htake inner rfl hlookup⟩

end Starting

end EdgeCompose
