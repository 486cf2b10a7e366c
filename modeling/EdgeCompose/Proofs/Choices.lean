import EdgeCompose.Proofs.Frames
import EdgeCompose.Proofs.TryBlocks

/-!
A choose and its branches. They come in their turn: tests are evaluated up to the first branch that
has none or whose test is met, and only that one is executed. What stands in the others is passed
over without a command to the surroundings, and so are the tests after it (`Page.ChooseOutcome`).
The choose writes what the branch has taken in; and that is what the content of the branch comes to
as a document of its own, if no fragment ends in it that the root still looks for.
-/

namespace EdgeCompose

open Markup (Directive)

namespace Markup

/-! ## Chooses as they are written -/

/-- The tags of an element: one that starts it, and one that ends it unless the first one closes
itself. -/
structure Brackets (d : Directive) where
  opening : Text
  closing : Option Text := none
  starts : lookup? opening = some (.starts d)
  single : isSelfClosing opening = closing.isNone
  ends : ∀ tag ∈ closing, lookup? tag = some (.ends d)

def Brackets.around {d : Directive} (b : Brackets d) (content : List Token) : List Token :=
  .tag b.opening :: (content ++ b.closing.toList.map .tag)

def Directive.ofTest : Option Text → Directive
  | some _ => .when
  | none => .otherwise

structure Branch where
  test : Option Text
  tags : Brackets (.ofTest test)
  content : List Token := []
  tested : ∀ t ∈ test, (attributes tags.opening).get? "test".toList = some t
  empty : tags.closing = none → content = []

namespace Branch

def tokens (x : Branch) : List Token := x.tags.around x.content

def holds (v : Variables) (x : Branch) : Except ComposeError Bool :=
  match x.test with
  | some test => Expression.evaluate v test
  | none => .ok true

def element (x : Branch) (active : Bool) (body : Text) : Element :=
  match x.test with
  | some _ => .when active body
  | none => .otherwise active body

/-- In the content, the tags of branches of the same kind come in pairs. -/
def Balanced (x : Branch) : Prop := depthAfter? (.ofTest x.test) 0 x.content = some 0

def Passed (v : Variables) (x : Branch) : Prop := x.holds v = .ok false ∧ x.Balanced

end Branch

inductive ChooseItem where
  | aside (t : Token) (idle : t.isIdle = true)
  | branch (x : Branch)

def ChooseItem.tokens : ChooseItem → List Token
  | .aside t _ => [t]
  | .branch x => x.tokens

/-- A choose: its branches, and what may stand between them. -/
structure ChooseBlock where
  tags : Brackets .choose
  items : List ChooseItem
  empty : tags.closing = none → items = []

namespace ChooseBlock

def content (b : ChooseBlock) : List Token := b.items.flatMap ChooseItem.tokens

def tokens (b : ChooseBlock) : List Token := b.tags.around b.content

theorem content_eq (b : ChooseBlock) {before after : List ChooseItem} {x : Branch}
    (h : b.items = before ++ .branch x :: after) : b.content =
      before.flatMap ChooseItem.tokens ++ (x.tokens ++ after.flatMap ChooseItem.tokens) := by
  rw [content, h, List.flatMap_append, List.flatMap_cons]
  rfl

/-- The branch is the first one that may be taken. -/
def Picks (v : Variables) (b : ChooseBlock) (x : Branch) : Prop :=
  ∃ before after, b.items = before ++ .branch x :: after ∧
    (∀ y, .branch y ∈ before → y.Passed v) ∧ x.holds v = .ok true ∧
    ∀ y, .branch y ∈ after → y.Balanced

/-- A test cannot be evaluated, and none of the branches before may be taken. -/
def FailsWith (v : Variables) (b : ChooseBlock) (error : ComposeError) : Prop :=
  ∃ before x after, b.items = before ++ .branch x :: after ∧
    (∀ y, .branch y ∈ before → y.Passed v) ∧ x.holds v = .error error

end ChooseBlock

end Markup

/-! ## Branches and the choices around them -/

namespace Composition

variable {c c' : Composition} {v : Variables} {x : Markup.Branch} {choice : Choice}

theorem holding_inj {e e' : Element} (h : c.holding [e] = c'.holding [e']) : e = e' ∧ c = c' := by
  obtain ⟨stack, root, depth⟩ := c
  obtain ⟨stack', root', depth'⟩ := c'
  cases h
  exact ⟨rfl, rfl⟩

/-- A branch opens in the choice around it. Its test is evaluated if no branch has been taken yet. -/
theorem opened_branch (v : Variables) (c : Composition) (x : Markup.Branch) (choice : Choice) :
    (c.holding [.choose choice]).opened v (.ofTest x.test) x.tags.opening =
      if choice.taken = true then .ok (x.element false [], c.holding [.choose choice])
      else (x.holds v).map fun active => (x.element active [],
        c.holding [.choose (if active then { choice with taken := true } else choice)]) := by
  have hchoice : (c.holding [.choose choice]).choice? = some choice := rfl
  have htake : (c.holding [.choose choice]).takeBranch =
      c.holding [.choose { choice with taken := true }] := rfl
  obtain ⟨test, tags, content, tested, empty⟩ := x
  cases test with
  | some test =>
    have hneeded : needed .when (Markup.attributes tags.opening) "test" = .ok test := by
      rw [needed, tested test rfl]
    simp only [Directive.ofTest, opened, hneeded, hchoice, htake, Markup.Branch.element,
      Markup.Branch.holds, bind, Except.bind]
    cases choice.taken with
    | true => rfl
    | false =>
      cases Expression.evaluate v test with
      | error error => rfl
      | ok active => cases active <;> rfl
  | none =>
    simp only [Directive.ofTest, opened, hchoice, htake, Markup.Branch.element, Markup.Branch.holds]
    cases choice.taken <;> rfl

theorem directive_element (x : Markup.Branch) (active : Bool) (body : Text) :
    (x.element active body).directive = .ofTest x.test := by
  unfold Markup.Branch.element
  cases x.test <;> rfl

theorem isForeign_element (x : Markup.Branch) (active : Bool) (body : Text) :
    (x.element active body).isForeign = !active := by
  unfold Markup.Branch.element
  cases x.test <;> rfl

theorem isShut_element (x : Markup.Branch) (active : Bool) (body : Text) :
    (x.element active body).isShut = !active := by
  unfold Markup.Branch.element
  cases x.test <;> rfl

theorem write_element (x : Markup.Branch) (active : Bool) (body t : Text) :
    (x.element active body).write t = x.element active (if active then body ++ t else body) := by
  unfold Markup.Branch.element
  cases x.test <;> rfl

/-- All open elements let others open inside, but for attempts that have failed. -/
def Unshut (c : Composition) : Prop := ∀ e ∈ c.stack, e.isShut = false

theorem Layered.unshut (h : c.Layered) (hf : c.isForeign = false) : c.Unshut := by
  obtain ⟨stack, root, depth⟩ := c
  cases stack with
  | nil => simp [Unshut]
  | cons first rest =>
    rintro e (_ | ⟨_, he⟩)
    · rw [← Element.isForeign_bare_eq]
      exact Element.isForeign_bare hf
    · rw [← Element.isForeign_bare_eq]
      exact h _ (List.mem_map_of_mem he)

theorem Kept.unshut (h : Kept c c') (hc : c.Unshut) : c'.Unshut := by
  intro e he
  have hmem : e.bare ∈ c.stack.map Element.bare := h.stack ▸ List.mem_map_of_mem he
  obtain ⟨e', he', hbare⟩ := List.mem_map.mp hmem
  rw [← Element.isForeign_bare_eq, ← hbare, Element.isForeign_bare_eq]
  exact hc e' he'

theorem root_of_write {t name : Text} {found : Option Text}
    (h : (c.write t).root = .extract name found) : c.root = .extract name found := by
  obtain ⟨stack, root, depth⟩ := c
  cases stack with
  | cons e rest => exact h
  | nil =>
    cases root with
    | document out => cases h
    | extract wanted found => exact h

/-- Inside elements that let others open, a root that looks for no fragment of its name leaves a
fragment to the element around it. -/
theorem writesFragment_of_unwanted {e : Element} (hc : c.Unshut)
    (hroot : ∀ name body, e = .fragment name body → c.root ≠ .extract name none) :
    c.WritesFragment v e := by
  rintro name body rfl
  have hfind : c.stack.find? (·.directive == .inclusion) = none := by
    refine List.find?_eq_none.mpr fun e he => ?_
    have hshut := hc e he
    cases e with
    | inclusion i => cases hshut
    | _ => simp [Element.directive]
  replace hroot := hroot name body rfl
  obtain ⟨stack, root, depth⟩ := c
  cases root with
  | document out => exact settle_fragment rfl v name body
  | extract wanted found =>
    cases found with
    | some kept => simp [settle, capture]
    | none =>
      have hname : (wanted == name) = false := by
        rw [beq_eq_false_iff_ne]
        rintro rfl
        exact hroot rfl
      have hprobe : (Root.extract wanted none).probe?.filter (·.directive == .inclusion) =
          some (.inclusion { fragment := some wanted }) := rfl
      replace hfind : stack.find? (·.directive == .inclusion) = none := hfind
      have hwants : { stack, root := .extract wanted none, foreignDepth := depth : Composition }.wants
          name = false := by
        simp only [wants, Composition.find?, hfind, hprobe]
        exact hname
      simp [settle, hwants]

end Composition

namespace Page

open Program EdgeCompose.Composition

variable {p : Page} {inner : Composer} {wanted : Option Text} {c c₀ c' left : Composition}
  {log log' : List Answered} {x : Markup.Branch} {choice choice' : Choice} {us : List Markup.Token}

/-! ## Runs over elements -/

/-- The run over an element whose content takes it from one state to another. -/
theorem element_runs {d : Directive} {e e' : Element} {content : List Markup.Token}
    (b : Markup.Brackets d) (hempty : b.closing = none → content = []) (hf : c.isForeign = false)
    (ho : c.opened p.bindings d b.opening = .ok (e, c₀))
    (hrun : (p.takeAll inner (c₀.holding [e]) content).Performs log (.done (left.holding [e'], .ok ())))
    (he' : e'.directive = d) (hclose : p.close inner left e' = .done (c', .ok ()))
    (hdepth : left.foreignDepth = 0) :
    (p.takeAll inner c (b.around content)).Performs log (.done (c', .ok ())) := by
  have htake : p.take inner c (.tag b.opening) = if b.closing.isNone = true then
      p.close inner { c₀ with foreignDepth := 0 } e
    else .done (c₀.holding [e], .ok ()) := by
    rw [← b.single]
    exact take_opening hf b.starts ho
  obtain ⟨stack, root, depth⟩ := left
  cases hdepth
  unfold Markup.Brackets.around
  cases hclosing : b.closing with
  | none =>
    rw [hempty hclosing] at hrun ⊢
    obtain ⟨rfl, heq⟩ := hrun.of_done
    obtain ⟨rfl, rfl⟩ := holding_inj (congrArg Prod.fst (Program.done.inj heq)).symm
    rw [hclosing, Option.isNone_none, if_pos rfl, hclose] at htake
    rw [Option.toList_none, List.map_nil, List.append_nil, takeAll, htake]
    exact .nil _
  | some closing =>
    rw [hclosing, Option.isNone_some, if_neg Bool.false_ne_true] at htake
    have htop : ({ stack, root, foreignDepth := 0 : Composition }.holding [e']).top? = some d :=
      congrArg some he'
    have hend : p.take inner ({ stack, root, foreignDepth := 0 : Composition }.holding [e'])
        (.tag closing) = .done (c', .ok ()) := by
      rw [take_ending htop rfl (b.ends closing hclosing)]
      exact hclose
    rw [takeAll, htake, ← List.append_nil log]
    refine performs_append hrun ?_
    rw [Option.toList_some, List.map_singleton, takeAll, hend]
    exact .nil _

/-! ## Runs over branches -/

/-- A branch that is active gives its choice what it has taken in. -/
theorem close_element (p : Page) (inner : Composer) (c : Composition) (x : Markup.Branch)
    (active : Bool) (body : Text) (choice : Choice) :
    p.close inner (c.holding [.choose choice]) (x.element active body) =
      .done (c.holding [.choose (if active then { choice with out := choice.out ++ body }
        else choice)], .ok ()) := by
  unfold Markup.Branch.element
  cases x.test <;> cases active <;> rfl

theorem branch_runs {active : Bool} {body : Text} {choice₁ : Choice}
    (hdepth : left.foreignDepth = 0)
    (ho : (c.holding [.choose choice]).opened p.bindings (.ofTest x.test) x.tags.opening =
      .ok (x.element active [], c.holding [.choose choice₁]))
    (hrun : (p.takeAll inner (c.holding [x.element active [], .choose choice₁]) x.content).Performs log
      (.done (left.holding [x.element active body, .choose choice'], .ok ()))) :
    (p.takeAll inner (c.holding [.choose choice]) x.tokens).Performs log (.done
      (left.holding [.choose (if active then { choice' with out := choice'.out ++ body }
        else choice')], .ok ())) := by
  have hcontent : (p.takeAll inner ((c.holding [.choose choice₁]).holding [x.element active []])
      x.content).Performs log
        (.done ((left.holding [.choose choice']).holding [x.element active body], .ok ())) := hrun
  exact element_runs x.tags x.empty rfl ho hcontent (directive_element x active body)
    (close_element p inner left x active body choice') hdepth

/-- A branch is passed over if one has been taken, whatever its test, or if its test is not met. -/
theorem branch_skipped (hdepth : c.foreignDepth = 0) (hx : x.Balanced)
    (h : choice.taken = true ∨ x.holds p.bindings = .ok false) :
    p.takeAll inner (c.holding [.choose choice]) x.tokens =
      .done (c.holding [.choose choice], .ok ()) := by
  have ho : (c.holding [.choose choice]).opened p.bindings (.ofTest x.test) x.tags.opening =
      .ok (x.element false [], c.holding [.choose choice]) := by
    rw [opened_branch]
    split
    · rfl
    · next htaken =>
      rw [h.resolve_left htaken]
      rfl
  have hcontent : p.takeAll inner (c.holding [x.element false [], .choose choice]) x.content =
      .done (c.holding [x.element false [], .choose choice], .ok ()) := by
    unfold Markup.Branch.Balanced at hx
    rw [← directive_element x false [], ← hdepth] at hx
    have hall := takeAll_counted p inner (isForeign_element x false [])
      (.choose choice :: c.stack) c.root c.foreignDepth hx
    rw [write_element] at hall
    exact hall
  have hrun := branch_runs hdepth ho (performs_nil_iff.mpr hcontent)
  exact performs_nil_iff.mp hrun

/-- A test that cannot be evaluated fails the run. -/
theorem branch_failed {error : ComposeError} (htaken : choice.taken = false)
    (hx : x.holds p.bindings = .error error) :
    p.takeAll inner (c.holding [.choose choice]) (x.tokens ++ us) =
      .done (c.holding [.choose choice], .error error) := by
  have ho : (c.holding [.choose choice]).opened p.bindings (.ofTest x.test) x.tags.opening =
      .error error := by
    rw [opened_branch, htaken, if_neg Bool.false_ne_true, hx]
    rfl
  have hf : (c.holding [.choose choice]).isForeign = false := rfl
  have htake : p.take inner (c.holding [.choose choice]) (.tag x.tags.opening) =
      .done (c.holding [.choose choice], .error error) := by
    simp [take, takeTag, hf, x.tags.starts, start, ho]
  rw [Markup.Branch.tokens, Markup.Brackets.around, List.cons_append, takeAll, htake]
  rfl

theorem takeAll_append_done {ts : List Markup.Token} {c₁ : Composition}
    (h : p.takeAll inner c ts = .done (c₁, .ok ())) :
    p.takeAll inner c (ts ++ us) = p.takeAll inner c₁ us := by
  rw [takeAll_append, h]
  rfl

theorem items_skipped (hdepth : c.foreignDepth = 0) {items : List Markup.ChooseItem}
    (h : ∀ x, .branch x ∈ items → x.Balanced ∧
      (choice.taken = true ∨ x.holds p.bindings = .ok false)) :
    p.takeAll inner (c.holding [.choose choice]) (items.flatMap Markup.ChooseItem.tokens) =
      .done (c.holding [.choose choice], .ok ()) := by
  induction items with
  | nil => rfl
  | cons item items ih =>
    have hitem : p.takeAll inner (c.holding [.choose choice]) item.tokens =
        .done (c.holding [.choose choice], .ok ()) := by
      cases item with
      | aside t idle =>
        rw [Markup.ChooseItem.tokens, takeAll, take_idle rfl (fun _ => rfl) idle]
        rfl
      | branch x =>
        obtain ⟨hx, htest⟩ := h x List.mem_cons_self
        exact branch_skipped hdepth hx htest
    rw [List.flatMap_cons, takeAll_append_done hitem]
    exact ih fun x hx => h x (List.mem_cons_of_mem _ hx)

/-- Branches whose tests are not met are passed over. -/
theorem passed_skipped (hdepth : c.foreignDepth = 0) {items : List Markup.ChooseItem}
    (h : ∀ x, .branch x ∈ items → x.Passed p.bindings) :
    p.takeAll inner (c.holding [.choose choice]) (items.flatMap Markup.ChooseItem.tokens) =
      .done (c.holding [.choose choice], .ok ()) :=
  items_skipped hdepth fun x hx => ⟨(h x hx).2, .inr (h x hx).1⟩

/-! ## The content of a branch as a document of its own -/

def EndsFragment (p : Page) (name : Text) (c : Composition) (t : Markup.Token) : Prop :=
  ∃ tag body c', t = .tag tag ∧ p.ended? c tag = some (.fragment name body, c')

theorem Reaches.unshut_of_ended? {tag : Text} {e : Element} (hc : p.Reaches inner wanted c)
    (h : p.ended? c tag = some (e, c')) : c'.Unshut := by
  rcases ended?_cases h with ⟨c₁, hf, -, -, ho, rfl⟩ | ⟨hpop, -⟩
  · exact (opened_kept ho).1.unshut (hc.layered.unshut hf)
  · intro e' he'
    rw [← Element.isForeign_bare_eq]
    refine hc.layered _ (List.mem_map_of_mem ?_)
    rw [pop?_eq_some hpop]
    exact he'

/-- A run alone that ends no fragment that the root around looks for goes on in the same way in other
elements. -/
theorem Passes.runs_inside {host : Composition} {stack : List Element} {out : Text} {depth : Nat}
    {ts : List Markup.Token} (hhost : host.Unshut) (hforeign : host.isForeign = false)
    (h : p.Passes inner (fun c t _ => ∀ name, host.root = .extract name none →
      ¬ p.EndsFragment name c t) (ofDocument stack out depth) ts log c')
    (hc : p.Reaches inner none (ofDocument stack out depth)) :
    ∃ stack' out' depth', c' = ofDocument stack' out' depth' ∧
      (p.takeAll inner (inside host stack out depth) ts).Performs log
        (.done (inside host stack' out' depth', .ok ())) := by
  generalize hstart : ofDocument stack out depth = c at h
  induction h generalizing stack out depth with
  | nil c =>
    subst hstart
    exact ⟨stack, out, depth, rfl, .nil _⟩
  | @cons c c₁ c' t ts log log' htake hends _ ih =>
    subst hstart
    have hsame : Shadows (Follows host) (p.take inner (ofDocument stack out depth) t)
        (p.take inner (inside host stack out depth) t) := by
      refine take_inside hforeign fun tag e stack' out' ht hended => ?_
      refine writesFragment_of_unwanted ?_ ?_
      · intro e' he'
        rcases List.mem_append.mp he' with he' | he'
        · exact hc.unshut_of_ended? hended e' he'
        · exact (write_kept host out').unshut hhost e' he'
      · rintro name body rfl hroot
        exact hends name (root_of_write hroot) ⟨tag, body, _, ht, hended⟩
    obtain ⟨rest, hfollows, hinside⟩ := hsame.performs htake
    obtain ⟨stack₁, out₁, depth₁, hc₁, rfl⟩ := hfollows rfl
    obtain rfl : c₁ = ofDocument stack₁ out₁ depth₁ := hc₁
    obtain ⟨stack', out', depth', hc', hrest⟩ := ih (.take t hc htake.yields) rfl
    exact ⟨stack', out', depth', hc', performs_cons hinside hrest⟩

/-- Content that comes to `out` as a document of its own writes `out` to the element that it stands
in. -/
theorem runs_inside {host alone : Composition} {ts : List Markup.Token} {out : Text}
    (hhost : host.Unshut) (hforeign : host.isForeign = false) (hdepth : host.foreignDepth = 0)
    (h : p.Passes inner (fun c t _ => ∀ name, host.root = .extract name none →
      ¬ p.EndsFragment name c t) (.ofWanted none) ts log alone)
    (hout : p.output none alone = .ok out) :
    (p.takeAll inner host ts).Performs log (.done (host.write out, .ok ())) := by
  have hbalanced : alone.Balanced := (takeAll_reaches .start h.performs.yields).balanced
  obtain ⟨stack, written, depth, rfl, hrun⟩ : ∃ stack written depth,
      alone = ofDocument stack written depth ∧ (p.takeAll inner (inside host [] [] 0) ts).Performs log
        (.done (inside host stack written depth, .ok ())) :=
    Passes.runs_inside hhost hforeign h .start
  cases stack with
  | cons e below => cases hout
  | nil =>
    cases hout
    obtain rfl : depth = 0 := hbalanced rfl
    rwa [inside_nil hdepth, inside_nil hdepth, write_nil] at hrun

/-! ## The whole choose -/

variable {b : Markup.ChooseBlock} {v : Variables}

/-- A choose writes what its branches have given. -/
theorem chooseBlock_runs (hf : c.isForeign = false) (hdepth : left.foreignDepth = 0)
    (hrun : (p.takeAll inner (c.holding [.choose {}]) b.content).Performs log
      (.done (left.holding [.choose choice], .ok ()))) :
    (p.takeAll inner c b.tokens).Performs log (.done (left.write choice.out, .ok ())) := by
  have hempty (h : b.tags.closing = none) : b.content = [] := by
    rw [Markup.ChooseBlock.content, b.empty h]
    rfl
  exact element_runs b.tags hempty hf rfl hrun rfl rfl hdepth

/-- The branches before the first one that may be taken are passed over, and so are those after. -/
theorem picked_runs {body : Text} (hdepth : c.foreignDepth = 0) (hx : b.Picks p.bindings x)
    (hrun : (p.takeAll inner (c.holding [x.element true [], .choose { taken := true }])
      x.content).Performs log
        (.done (left.holding [x.element true body, .choose { taken := true }], .ok ()))) :
    left.foreignDepth = 0 ∧ (p.takeAll inner (c.holding [.choose {}]) b.content).Performs log
      (.done (left.holding [.choose { taken := true, out := body }], .ok ())) := by
  obtain ⟨before, after, hitems, hbefore, hholds, hafter⟩ := hx
  have hstart : (c.holding [x.element true [], .choose { taken := true }]).Balanced :=
    fun _ => hdepth
  have hbalanced : (left.holding [x.element true body, .choose { taken := true }]).Balanced :=
    takeAll_balanced hstart hrun.yields
  have hdepth' : left.foreignDepth = 0 := hbalanced (isForeign_element x true body)
  have ho : (c.holding [.choose {}]).opened p.bindings (.ofTest x.test) x.tags.opening =
      .ok (x.element true [], c.holding [.choose { taken := true }]) := by
    rw [opened_branch, hholds]
    rfl
  have hbranch : (p.takeAll inner (c.holding [.choose {}]) x.tokens).Performs log
      (.done (left.holding [.choose { taken := true, out := body }], .ok ())) :=
    branch_runs hdepth' ho hrun
  refine ⟨hdepth', ?_⟩
  rw [b.content_eq hitems, takeAll_append_done (passed_skipped hdepth hbefore),
    ← List.append_nil log]
  have hskipped : p.takeAll inner (left.holding [.choose { taken := true, out := body }])
      (after.flatMap Markup.ChooseItem.tokens) =
        .done (left.holding [.choose { taken := true, out := body }], .ok ()) :=
    items_skipped hdepth' fun y hy => ⟨hafter y hy, .inl rfl⟩
  exact performs_append hbranch (performs_nil_iff.mpr hskipped)

/-- What a choose comes to in a state `c` of the composition of a document or a fragment. -/
structure ChooseOutcome (p : Page) (inner : Composer) (wanted : Option Text)
    (b : Markup.ChooseBlock) (c : Composition) : Prop where
  /-- A test that cannot be evaluated fails the composition, if it comes before a branch that may be
  taken. -/
  failed : ∀ {error : ComposeError}, b.FailsWith p.bindings error →
    ∀ {document : Text} {ts rest : List Markup.Token} {log : List Answered},
      Markup.scan document = ts ++ (b.tokens ++ rest) →
      (p.takeAll inner (.ofWanted wanted) ts).Performs log (.done (c, .ok ())) →
      (p.composeWith inner wanted document).Performs log (.done (.error error))
  /-- If no branch may be taken, nothing happens. -/
  unmet : (∀ x, .branch x ∈ b.items → x.Passed p.bindings) →
    p.takeAll inner c b.tokens = .done (c, .ok ())
  /-- The choose writes what the first branch that may be taken takes in, and that is all that
  happens. -/
  picked : ∀ {x : Markup.Branch}, b.Picks p.bindings x →
    ∀ {log : List Answered} {left : Composition} {body : Text},
      (p.takeAll inner (c.holding [x.element true [], .choose { taken := true }]) x.content).Performs
        log (.done (left.holding [x.element true body, .choose { taken := true }], .ok ())) →
      (p.takeAll inner c b.tokens).Performs log (.done (left.write body, .ok ()))
  /-- That is what the content of the branch comes to as a document of its own, unless the root still
  looks for a fragment and one of its name ends there. -/
  alone : ∀ {x : Markup.Branch}, b.Picks p.bindings x →
    ∀ {log : List Answered} {composed : Composition} {out : Text},
      (p.takeAll inner (.ofWanted none) x.content).Performs log (.done (composed, .ok ())) →
      p.output none composed = .ok out →
      (∀ name, c.root = .extract name none → p.Passes inner (fun c t _ => ¬ p.EndsFragment name c t)
        (.ofWanted none) x.content log composed) →
      (p.takeAll inner c b.tokens).Performs log (.done (c.write out, .ok ()))

theorem composeWith_failed {document : Text} {ts : List Markup.Token} {error : ComposeError}
    (hscan : Markup.scan document = ts ++ us)
    (hrun : (p.takeAll inner (.ofWanted wanted) ts).Performs log (.done (c, .ok ())))
    (herror : p.takeAll inner c us = .done (c', .error error)) :
    (p.composeWith inner wanted document).Performs log (.done (.error error)) := by
  have hall : (p.takeAll inner (.ofWanted wanted) (Markup.scan document)).Performs log
      (.done (c', .error error)) := by
    rw [hscan, ← List.append_nil log]
    exact performs_append hrun (performs_nil_iff.mpr herror)
  exact hall.bind _

theorem chooseBlock_failed {error : ComposeError} (hf : c.isForeign = false)
    (hdepth : c.foreignDepth = 0) (hb : b.FailsWith p.bindings error) :
    p.takeAll inner c (b.tokens ++ us) = .done (c.holding [.choose {}], .error error) := by
  obtain ⟨before, x, after, hitems, hbefore, hx⟩ := hb
  have hopen : p.take inner c (.tag b.tags.opening) = .done (c.holding [.choose {}], .ok ()) := by
    rw [take_opening hf b.tags.starts rfl, b.tags.single, if_neg]
    · rfl
    · intro hnone
      have hnil := b.empty (Option.isNone_iff_eq_none.mp hnone)
      simp [hitems] at hnil
  rw [Markup.ChooseBlock.tokens, Markup.Brackets.around, List.cons_append, takeAll, hopen]
  rw [b.content_eq hitems, List.append_assoc, List.append_assoc, List.append_assoc]
  exact (takeAll_append_done (passed_skipped hdepth hbefore)).trans (branch_failed rfl hx)

/-- The first branch of a choose that may be taken is executed, and only that. -/
theorem chooseBlock_outcome (b : Markup.ChooseBlock) (hc : p.Reaches inner wanted c)
    (hf : c.isForeign = false) : p.ChooseOutcome inner wanted b c := by
  have hdepth : c.foreignDepth = 0 := hc.balanced hf
  refine ⟨?_, ?_, ?_, ?_⟩
  · intro error hb document ts rest log hscan hrun
    exact composeWith_failed hscan hrun (chooseBlock_failed hf hdepth hb)
  · intro hpassed
    have hskipped : p.takeAll inner (c.holding [.choose {}]) b.content =
        .done (c.holding [.choose {}], .ok ()) := passed_skipped hdepth hpassed
    have hrun := chooseBlock_runs hf hdepth (performs_nil_iff.mpr hskipped)
    rw [write_nil] at hrun
    exact performs_nil_iff.mp hrun
  · intro x hx log left body hrun
    obtain ⟨hdepth', hcontent⟩ := picked_runs hdepth hx hrun
    exact chooseBlock_runs hf hdepth' hcontent
  · intro x hx log composed out hrun hout hends
    have hhost : (c.holding [x.element true [], .choose { taken := true }]).Unshut :=
      List.forall_mem_cons.mpr ⟨isShut_element x true [],
        List.forall_mem_cons.mpr ⟨rfl, hc.layered.unshut hf⟩⟩
    have hpasses : p.Passes inner (fun c₁ t _ => ∀ name, c.root = .extract name none →
        ¬ p.EndsFragment name c₁ t) (.ofWanted none) x.content log composed := by
      by_cases hroot : ∃ name, c.root = .extract name none
      · obtain ⟨name, hname⟩ := hroot
        refine (hends name hname).mono fun c₁ t _ _ hq name' hname' => ?_
        cases hname.symm.trans hname'
        exact hq
      · exact (passes_of_performs hrun).mono fun _ _ _ _ _ name hname => (hroot ⟨name, hname⟩).elim
    have hinside := runs_inside hhost (isForeign_element x true []) hdepth hpasses hout
    have hwritten : (c.holding [x.element true [], .choose { taken := true }]).write out =
        c.holding [x.element true out, .choose { taken := true }] := by
      simp [Composition.write, holding, write_element]
    rw [hwritten] at hinside
    obtain ⟨-, hcontent⟩ := picked_runs hdepth hx hinside
    exact chooseBlock_runs hf hdepth hcontent

end Page

namespace Renderer

open Program EdgeCompose.Composition

/-! ## A choose with a test that is broken -/

def whenTag (test : Text) : Text := "<esi:when test='".toList ++ test ++ "'>".toList

def whenBranch (test : Text) (content : List Markup.Token)
    (starts : Markup.lookup? (whenTag test) = some (.starts .when))
    (single : Markup.isSelfClosing (whenTag test) = false)
    (tested : (Markup.attributes (whenTag test)).get? "test".toList = some test) : Markup.Branch where
  test := some test
  tags := {
    opening := whenTag test
    closing := some "</esi:when>".toList
    starts
    single
    ends := by
      have hend : Markup.lookup? "</esi:when>".toList = some (.ends .when) := by decide +kernel
      rintro tag ⟨⟩
      exact hend }
  content
  tested := by
    rintro t ⟨⟩
    exact tested
  empty := by simp

def otherwiseBranch (content : List Markup.Token) : Markup.Branch where
  test := none
  tags := {
    opening := "<esi:otherwise>".toList
    closing := some "</esi:otherwise>".toList
    starts := by decide +kernel
    single := by decide +kernel
    ends := by
      rintro tag ⟨⟩
      decide +kernel }
  content
  tested := by simp
  empty := by simp

def chooseOf (items : List Markup.ChooseItem) : Markup.ChooseBlock where
  tags := {
    opening := "<esi:choose>".toList
    closing := some "</esi:choose>".toList
    starts := by decide +kernel
    single := by decide +kernel
    ends := by
      rintro tag ⟨⟩
      decide +kernel }
  items
  empty := by simp

def unmetBranch : Markup.Branch :=
  whenBranch "false".toList [missingPart] (by decide +kernel) (by decide +kernel) (by decide +kernel)

def brokenBranch : Markup.Branch :=
  whenBranch "(".toList [missingPart] (by decide +kernel) (by decide +kernel) (by decide +kernel)

def metBranch : Markup.Branch :=
  whenBranch "true".toList [.text "[".toList, foundPart, .text "]".toList] (by decide +kernel)
    (by decide +kernel) (by decide +kernel)

/-- A choose with a branch that is executed, after one that is not and before two that could not be. -/
def pickingBlock : Markup.ChooseBlock :=
  chooseOf [.branch unmetBranch, .aside (.text "dropped".toList) rfl, .branch metBranch,
    .branch brokenBranch, .branch (otherwiseBranch [missingPart])]

def brokenBlock : Markup.ChooseBlock := chooseOf [.branch brokenBranch]

def brokenPage : Text :=
  ("<esi:choose><esi:when test='('><esi:include src='http://host/missing'/></esi:when>" ++
    "</esi:choose>").toList

def brokenTest : ComposeError :=
  .invalidExpression "(".toList "unexpected end of expression".toList

private theorem passed_unmetBranch : unmetBranch.Passed partRenderer.page.bindings :=
  ⟨by decide +kernel, by unfold Markup.Branch.Balanced; decide +kernel⟩

private theorem picks_metBranch : pickingBlock.Picks partRenderer.page.bindings metBranch := by
  refine ⟨[.branch unmetBranch, .aside (.text "dropped".toList) rfl],
    [.branch brokenBranch, .branch (otherwiseBranch [missingPart])], rfl, ?_, by decide +kernel, ?_⟩
  · intro y hy
    simp only [List.mem_cons, List.not_mem_nil, Markup.ChooseItem.branch.injEq, reduceCtorEq,
      or_false] at hy
    rw [hy]
    exact passed_unmetBranch
  · intro y hy
    simp only [List.mem_cons, List.not_mem_nil, Markup.ChooseItem.branch.injEq, or_false] at hy
    unfold Markup.Branch.Balanced
    rcases hy with rfl | rfl
    · decide +kernel
    · decide +kernel

private theorem failsWith_brokenTest :
    brokenBlock.FailsWith partRenderer.page.bindings brokenTest :=
  ⟨[], brokenBranch, [], rfl, by simp, by decide +kernel⟩

theorem chooseBlock_outcome_picked :
    (Composition.ofWanted none).isForeign = false ∧
      partRenderer.page.Reaches partRenderer.inner none (.ofWanted none) ∧
      (∃ log, (partRenderer.page.takeAll partRenderer.inner (.ofWanted none)
          pickingBlock.tokens).Performs log
            (.done ({ root := .document "[part]".toList }, .ok ())) ∧
        (partRenderer.page.takeAll partRenderer.inner (.ofWanted none)
          metBranch.content).Performs log
            (.done ({ root := .document "[part]".toList }, .ok ()))) ∧
      (partRenderer.page.composeWith partRenderer.inner none brokenPage).Performs []
        (.done (.error brokenTest)) := by
  have hrun : ((partRenderer.page.takeAll partRenderer.inner (.ofWanted none)
      metBranch.content).run partWorld).1 =
        .finished ({ root := .document "[part]".toList }, .ok ()) := by decide +kernel
  obtain ⟨log, hlog⟩ := performs_of_run (Prod.ext hrun rfl)
  have hpicked : partRenderer.page.ChooseOutcome partRenderer.inner none pickingBlock
      (.ofWanted none) := Page.chooseBlock_outcome pickingBlock .start rfl
  have hbroken : partRenderer.page.ChooseOutcome partRenderer.inner none brokenBlock
      (.ofWanted none) := Page.chooseBlock_outcome brokenBlock .start rfl
  refine ⟨rfl, .start, ⟨log, hpicked.alone picks_metBranch hlog rfl nofun, hlog⟩, ?_⟩
  have hscan : Markup.scan brokenPage = [] ++ (brokenBlock.tokens ++ []) := by decide +kernel
  exact hbroken.failed failsWith_brokenTest hscan (.nil _)

/-! ## A fragment that is wanted, in a branch -/

def reference : Text := "$(PROVIDER\x7bnope\x7d)".toList

/-- A branch with a fragment in it that is a reference to nothing. -/
def keptBranch : Markup.Branch :=
  otherwiseBranch [.tag "<esi:fragment name='f'>".toList, .text reference,
    .tag "</esi:fragment>".toList]

def keptBlock : Markup.ChooseBlock := chooseOf [.branch keptBranch]

/-- An element for variables, in a document that the fragment is wanted of. -/
def extracting : Composition := { stack := [.vars []], root := .extract "f".toList none }

/-- The content of the branch comes to the reference as a document of its own. Where the fragment is
looked for, the choose writes nothing: the fragment is kept, and the element for variables around the
choose does not come to the reference, which it could not resolve. -/
theorem picked_fragment_kept :
    partRenderer.page.Reaches partRenderer.inner (some "f".toList) extracting ∧
      keptBlock.Picks partRenderer.page.bindings keptBranch ∧
      (partRenderer.page.takeAll partRenderer.inner (.ofWanted none) keptBranch.content).Performs []
        (.done ({ root := .document reference }, .ok ())) ∧
      (partRenderer.page.takeAll partRenderer.inner extracting keptBlock.tokens).Performs []
        (.done ({ extracting with root := .extract "f".toList (some reference) }, .ok ())) ∧
      extracting.write reference = { extracting with stack := [.vars reference] } ∧
      Template.substitute partRenderer.page.bindings reference =
        .error (.unknownProvider "nope".toList) ∧
      ((partRenderer.extract ("<esi:vars>".toList ++ (keptBlock.tokens.flatMap Markup.Token.toText) ++
        "</esi:vars>".toList) "f".toList).run partWorld).1 = .finished (.ok reference) := by
  refine ⟨?_, ⟨[], [], rfl, by simp, rfl, by simp⟩, ?_, ?_, rfl, ?_, ?_⟩
  · have hrun : ((partRenderer.page.takeAll partRenderer.inner (.ofWanted (some "f".toList))
        [.tag "<esi:vars>".toList]).run partWorld).1 = .finished (extracting, .ok ()) := by
      decide +kernel
    exact Page.takeAll_reaches .start (yields_of_run (Prod.ext hrun rfl))
  · exact performs_of_replay? (by decide +kernel)
  · exact performs_of_replay? (by decide +kernel)
  · decide +kernel
  · decide +kernel

end Renderer

end EdgeCompose
