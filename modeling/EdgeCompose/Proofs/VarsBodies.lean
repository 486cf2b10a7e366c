import EdgeCompose.Proofs.Embedding
import EdgeCompose.Proofs.Rendering
import EdgeCompose.Proofs.Segments
import EdgeCompose.Proofs.SoloRuns

/-!
What an element for variables makes of its body. The elements nested in it are executed as they are
without it, and what they put out is taken in like its own text; when it ends, all of that is read
as one template (`composeTokens_inVars`). So references in what nested elements put out are replaced
as well (`composeTokens_reread`).
-/

namespace EdgeCompose

open Program

/-! ## Templates without references -/

namespace Template

/-- A template without references stands for itself. -/
theorem substitute_of_literal (v : Variables) {t : Text} (h : ∀ r, .reference r ∉ parts t) :
    substitute v t = .ok t := by
  have hparts : parts t = t.map .literal := by
    fun_induction parts t with
    | case1 => rfl
    | case2 c rest r after _ ih => exact (h r List.mem_cons_self).elim
    | case3 c rest _ ih =>
      rw [List.map_cons, ih fun r hr => h r (List.mem_cons_of_mem _ hr)]
  show joined v (parts t) = .ok t
  rw [hparts, joined_literal]

theorem not_mem_parts {t : Text} (h : '$' ∉ t) (r : Reference) : .reference r ∉ parts t := by
  have hparts := parts_plain h []
  rw [List.append_nil, parts, List.append_nil] at hparts
  rw [hparts]
  simp

end Template

/-! ## Documents as tokens -/

namespace Markup

def inVars (ts : List Token) : List Token :=
  .tag "<esi:vars>".toList :: ts ++ [.tag "</esi:vars>".toList]

end Markup

namespace Renderer

open EdgeCompose.Composition Markup

def composeTokens (r : Renderer) (ts : List Markup.Token) : Program (Except ComposeError Text) := do
  match ← r.page.takeAll r.inner (.ofWanted none) ts with
  | (_, .error e) => return .error e
  | (c, .ok ()) => return r.page.output none c

theorem render_eq_composeTokens (r : Renderer) (document : Text) :
    r.render document = r.composeTokens (Markup.scan document) :=
  r.compose_eq none document

variable {r : Renderer} {ts : List Markup.Token} {w w' : World} {out : Text}

/-- Tokens that compose to a text leave a composition without open elements. -/
theorem takeAll_of_composeTokens (h : (r.composeTokens ts).run w = (.finished (.ok out), w')) :
    ∃ depth, (r.page.takeAll r.inner (.ofWanted none) ts).run w =
      (.finished (ofDocument [] out depth, .ok ()), w') := by
  obtain ⟨⟨c, result⟩, w₁, hrun, hrest⟩ := exists_run_of_bind h
  cases result with
  | error e => cases hrest
  | ok _ =>
    have hroot := (Page.takeAll_reaches .start (yields_of_run hrun)).root_bare
    obtain ⟨stack, root, depth⟩ := c
    cases root with
    | extract wanted found => cases hroot
    | document written =>
      cases stack with
      | cons e below => cases hrest
      | nil =>
        cases hrest
        exact ⟨depth, hrun⟩

/-- A document with an element for variables open, which has taken in some text. -/
def varsHost (body : Text) (foreignDepth : Nat) : Composition :=
  { stack := [.vars body], root := .document [], foreignDepth }

theorem take_varsOpening (r : Renderer) :
    r.page.take r.inner (.ofWanted none) (.tag "<esi:vars>".toList) =
      .done (varsHost [] 0, .ok ()) := by
  have hlookup : Markup.lookup? "<esi:vars>".toList = some (.starts .vars) := by decide +kernel
  have hself : Markup.isSelfClosing "<esi:vars>".toList = false := by decide +kernel
  have hforeign : (Composition.ofWanted none).isForeign = false := rfl
  simp only [Page.take, Page.takeTag, hforeign, Bool.false_eq_true, if_false, hlookup, start,
    opened, hself, pure, Except.pure]
  rfl

/-- The end of the element writes what its body stands for, or fails. -/
theorem take_varsClosing (r : Renderer) (body : Text) (depth : Nat) :
    r.page.take r.inner (varsHost body depth) (.tag "</esi:vars>".toList) =
      .done (match Template.substitute r.page.bindings body with
        | .ok t => (ofDocument [] t 0, .ok ())
        | .error e => (ofDocument [] [] 0, .error e)) := by
  have hlookup : Markup.lookup? "</esi:vars>".toList = some (.ends .vars) := by decide +kernel
  have hend : (varsHost body depth).isTopEnd "</esi:vars>".toList = true := by
    have hends : Directive.isEndTag .vars "</esi:vars>".toList = true := by decide +kernel
    exact hends
  have hforeign : (varsHost body depth).isForeign = false := rfl
  have hpop : (varsHost body depth).pop? = some (.vars body, ofDocument [] [] 0) := rfl
  simp only [Page.take, Page.takeTag, hforeign, Bool.false_eq_true, if_false, hlookup, hend,
    if_true, Page.closeTop, hpop, Page.close, settle]
  cases Template.substitute r.page.bindings body <;> rfl

/-- The tokens inside an element for variables come to what they compose to, read as a template. -/
theorem run_composeTokens_inVars (h : (r.composeTokens ts).run w = (.finished (.ok out), w')) :
    (r.composeTokens (Markup.inVars ts)).run w =
      (.finished (Template.substitute r.page.bindings out), w') := by
  obtain ⟨depth, hrun⟩ := takeAll_of_composeTokens h
  have hsim : Shadows (Follows (varsHost [] 0)) (r.page.takeAll r.inner (ofDocument [] [] 0) ts)
      (r.page.takeAll r.inner (inside (varsHost [] 0) [] [] 0) ts) :=
    Page.takeAll_inside rfl rfl ts [] [] 0
  obtain ⟨rest, hfollows, hinside⟩ := hsim.run_eq hrun
  obtain ⟨stack, written, depth', heq, rfl⟩ := hfollows rfl
  cases heq
  have hbody : (r.page.takeAll r.inner (varsHost [] 0) ts).run w =
      (.finished (varsHost out depth, .ok ()), w') := hinside
  have hinVars : r.composeTokens (Markup.inVars ts) =
      (r.page.takeAll r.inner (varsHost [] 0) ts).bind fun
        | (_, .error e) => .done (.error e)
        | (c, .ok ()) => (r.page.take r.inner c (.tag "</esi:vars>".toList)).bind fun
          | (_, .error e) => .done (.error e)
          | (c, .ok ()) => .done (r.page.output none c) := by
    unfold composeTokens Markup.inVars
    rw [List.cons_append, Page.takeAll, take_varsOpening]
    simp only [bind_eq_bind, done_bind, Page.takeAll_append, bind_bind]
    refine congrArg (Program.bind _) (funext fun found => ?_)
    obtain ⟨c, e | _⟩ := found
    · rfl
    · simp only [Page.takeAll, bind_eq_bind, bind_bind]
      refine congrArg (Program.bind _) (funext fun found => ?_)
      obtain ⟨c', e | _⟩ := found <;> rfl
  rw [hinVars, run_bind hbody]
  simp only [take_varsClosing]
  cases Template.substitute r.page.bindings out <;> rfl

/-- An element for variables reads all that its body puts out as one template: the requests to the
backend and the stores are those of the body alone, and the result is what the body comes to, with
every reference in it replaced. So the body's own result is left as it is exactly if it stands for
itself, as it does if there is no dollar sign in it. -/
theorem composeTokens_inVars (h : (r.composeTokens ts).run w = (.finished (.ok out), w')) :
    (r.composeTokens (Markup.inVars ts)).run w =
        (.finished (Template.substitute r.page.bindings out), w') ∧
      ((r.composeTokens (Markup.inVars ts)).run w = (.finished (.ok out), w') ↔
        Template.substitute r.page.bindings out = .ok out) ∧
      ('$' ∉ out → (r.composeTokens (Markup.inVars ts)).run w = (.finished (.ok out), w')) := by
  have hrun := run_composeTokens_inVars h
  have hiff : (r.composeTokens (Markup.inVars ts)).run w = (.finished (.ok out), w') ↔
      Template.substitute r.page.bindings out = .ok out := by
    rw [hrun]
    constructor
    · intro heq
      exact Outcome.finished.inj (Prod.mk.inj heq).1
    · intro heq
      rw [heq]
  refine ⟨hrun, hiff, fun hdollar => hiff.mpr ?_⟩
  exact Template.substitute_of_literal _ (Template.not_mem_parts hdollar)

/-! ## A document with a reference in it -/

/-- A text that the tokens have themselves, outside of all elements nested among them: one that the
scanner left as text, or a tag of no directive. -/
def OwnText (r : Renderer) (ts : List Markup.Token) (t : Text) : Prop :=
  ∃ before token after c, ts = before ++ token :: after ∧
    (r.page.takeAll r.inner (.ofWanted none) before).Yields (c, .ok ()) ∧ c.stack = [] ∧
    (∀ tag, token = .tag tag → Markup.lookup? tag = none) ∧ token.toText = t

def hostRenderer : Renderer :=
  .ofPage
    { settings := {}, backends := {},
      request := { headers := [("host".toList, Utf8.encode "shop".toList)] } }

def hostWorld : World where
  backend := Script.backend
    [("http://host/part".toList,
      [.ok { status := 200, body := Utf8.encode "at $(HTTP_HOST)".toList }])]

def hostTokens : List Markup.Token := [.tag "<esi:include src='http://host/part'/>".toList]

private theorem hostTokens_run : (hostRenderer.composeTokens hostTokens).run hostWorld =
    (.finished (.ok "at $(HTTP_HOST)".toList),
      ((hostRenderer.composeTokens hostTokens).run hostWorld).2) :=
  Prod.ext (by decide +kernel) rfl

theorem composeTokens_inVars_host :
    (hostRenderer.composeTokens hostTokens).run hostWorld =
        (.finished (.ok "at $(HTTP_HOST)".toList),
          ((hostRenderer.composeTokens hostTokens).run hostWorld).2) ∧
      (hostRenderer.render
          "<esi:vars><esi:include src='http://host/part'/></esi:vars>".toList).run hostWorld =
        (.finished (.ok "at shop".toList),
          ((hostRenderer.composeTokens hostTokens).run hostWorld).2) := by
  have hscan : Markup.scan "<esi:vars><esi:include src='http://host/part'/></esi:vars>".toList =
      Markup.inVars hostTokens := by decide +kernel
  have hvalue : Template.substitute hostRenderer.page.bindings "at $(HTTP_HOST)".toList =
      .ok "at shop".toList := by decide +kernel
  refine ⟨hostTokens_run, ?_⟩
  rw [render_eq_composeTokens, hscan, ← hvalue]
  exact (composeTokens_inVars hostTokens_run).1

/-- Tokens without any text of their own: what an include puts out is read again. -/
theorem composeTokens_reread :
    ¬ ∀ (r : Renderer) (ts : List Markup.Token) (w w' : World) (out : Text),
      (∀ t, r.OwnText ts t → '$' ∉ t) →
      (r.composeTokens ts).run w = (.finished (.ok out), w') →
      ((r.composeTokens (Markup.inVars ts)).run w).1 = .finished (.ok out) := by
  intro h
  have hown : ∀ t, hostRenderer.OwnText hostTokens t → '$' ∉ t := by
    rintro t ⟨before, token, after, c, hts, -, -, hunknown, rfl⟩
    have hmem : token ∈ hostTokens := by simp [hts]
    obtain rfl := List.mem_singleton.mp hmem
    have hlookup :
        (Markup.lookup? "<esi:include src='http://host/part'/>".toList).isSome = true := by
      decide +kernel
    rw [hunknown _ rfl] at hlookup
    cases hlookup
  have hreread : ((hostRenderer.composeTokens (Markup.inVars hostTokens)).run hostWorld).1 =
      .finished (.ok "at shop".toList) := by decide +kernel
  have hkept := h hostRenderer hostTokens hostWorld _ _ hown hostTokens_run
  rw [hreread] at hkept
  exact absurd hkept (by decide)

end Renderer

end EdgeCompose
