import EdgeCompose.Proofs.Nesting

/-!
What happens inside an attempt after it has failed. A failed attempt leaves its content alone, but
only the innermost element is asked whether it does: so the rest of the body is skipped exactly if
the attempt itself was the innermost element when it claimed the error (`Page.skipsRest_iff`). What
a token does to the elements that leave their content alone is read off their `marks`: apart from
errors that are claimed, a token adds or removes at most the mark of the innermost element.
-/

namespace EdgeCompose

open Markup (Directive)

/-! ## Tags of a foreign element -/

/-- Whether tokens stay inside an element of the directive `d`, in which `n` more of its kind are
open: none of them is the end tag of the element itself. -/
def Markup.staysInside (d : Directive) : Nat → List Token → Bool
  | _, [] => true
  | n, .text _ :: ts => staysInside d n ts
  | n, .tag tag :: ts =>
    if d.isEndTag tag then
      match n with
      | 0 => false
      | n + 1 => staysInside d n ts
    else if d.isStartTag tag && !isSelfClosing tag then staysInside d (n + 1) ts
    else staysInside d n ts

/-- How many more elements of the directive `d` are open after some tokens in one of it, if `n` are
open before and none of the tokens is the end tag of the element itself. -/
def Markup.depthAfter? (d : Directive) : Nat → List Token → Option Nat
  | n, [] => some n
  | n, .text _ :: ts => depthAfter? d n ts
  | n, .tag tag :: ts =>
    if d.isEndTag tag then
      match n with
      | 0 => none
      | n + 1 => depthAfter? d n ts
    else if d.isStartTag tag && !isSelfClosing tag then depthAfter? d (n + 1) ts
    else depthAfter? d n ts

theorem Markup.staysInside_eq (d : Directive) (n : Nat) (ts : List Token) :
    staysInside d n ts = (depthAfter? d n ts).isSome := by
  fun_induction depthAfter? d n ts with
  | case1 => rfl
  | case2 n t ts ih => exact ih
  | case3 tag ts hend => simp [staysInside, hend]
  | case4 tag ts hend n ih => simpa [staysInside, hend] using ih
  | case5 n tag ts hend hstart ih => simpa [staysInside, hend, hstart] using ih
  | case6 n tag ts hend hstart ih => simpa [staysInside, hend, hstart] using ih

namespace Page

open EdgeCompose.Composition

/-- A foreign element takes in all tokens that stay inside it as they are written, and nothing else
happens but that the tags of its own kind are counted. -/
theorem takeAll_counted (p : Page) (inner : Composer) {e : Element} (he : e.isForeign = true)
    (below : List Element) (root : Root) (depth : Nat) {depth' : Nat} {ts : List Markup.Token}
    (h : Markup.depthAfter? e.directive depth ts = some depth') :
    p.takeAll inner { stack := e :: below, root, foreignDepth := depth } ts =
      .done ({ stack := e.write (ts.flatMap Markup.Token.toText) :: below, root,
               foreignDepth := depth' }, .ok ()) := by
  induction ts generalizing e depth with
  | nil =>
    cases h
    rw [List.flatMap_nil, Element.write_nil]
    rfl
  | cons token ts ih =>
    -- One token is written, and the depth it leaves is the one that the rest is inside of.
    have hrest (depth₁ : Nat)
        (htake : p.take inner { stack := e :: below, root, foreignDepth := depth } token =
          .done ({ stack := e.write token.toText :: below, root, foreignDepth := depth₁ }, .ok ()))
        (hts : Markup.depthAfter? e.directive depth₁ ts = some depth') :
        p.takeAll inner { stack := e :: below, root, foreignDepth := depth } (token :: ts) =
          .done ({ stack := e.write ((token :: ts).flatMap Markup.Token.toText) :: below, root,
                   foreignDepth := depth' }, .ok ()) := by
      rw [← Element.directive_write e token.toText] at hts
      rw [takeAll, htake, List.flatMap_cons, ← Element.write_write]
      exact ih (e := e.write token.toText) (by simpa using he) depth₁ hts
    cases token with
    | text t => exact hrest depth rfl h
    | tag tag =>
      let c : Composition := { stack := e :: below, root, foreignDepth := depth }
      have hforeign : c.isForeign = true := he
      have htop : c.top? = some e.directive := rfl
      unfold Markup.depthAfter? at h
      split at h
      · next hend =>
        cases depth with
        | zero => cases h
        | succ depth => exact hrest depth (take_foreign hforeign (foreignTag_closing htop hend rfl)) h
      · next hend =>
        rw [Bool.not_eq_true] at hend
        split at h
        · next hstart =>
          rw [Bool.and_eq_true, Bool.not_eq_true'] at hstart
          have htag := foreignTag_opening htop hstart.1 hstart.2
          exact hrest (depth + 1) (take_foreign hforeign htag) h
        · next hstart =>
          rw [Bool.not_eq_true] at hstart
          exact hrest depth (take_foreign hforeign (foreignTag_written htop hend hstart)) h

theorem takeAll_foreign (p : Page) (inner : Composer) {e : Element} (he : e.isForeign = true)
    (below : List Element) (root : Root) (depth : Nat) {ts : List Markup.Token}
    (h : Markup.staysInside e.directive depth ts = true) :
    ∃ depth', p.takeAll inner { stack := e :: below, root, foreignDepth := depth } ts =
      .done ({ stack := e.write (ts.flatMap Markup.Token.toText) :: below, root,
               foreignDepth := depth' }, .ok ()) := by
  rw [Markup.staysInside_eq, Option.isSome_iff_exists] at h
  obtain ⟨depth', h⟩ := h
  exact ⟨depth', takeAll_counted p inner he below root depth h⟩

end Page

/-! ## Marks -/

namespace Element

theorem isForeign_mapChoice? {f : Choice → Choice} {e e' : Element}
    (h : e.mapChoice? f = some e') : e'.isForeign = e.isForeign := by
  cases e with
  | choose choice =>
    cases h
    rfl
  | _ => cases h

theorem isForeign_mapTrial? {f : Trial → Trial} {e e' : Element}
    (h : e.mapTrial? f = some e') : e'.isForeign = e.isForeign := by
  cases e with
  | tryBlock trial =>
    cases h
    rfl
  | _ => cases h

/-- Only attempts begin to leave their content alone while they are open. -/
theorem isForeign_bare_of_claim? {e : Element} (h : e.claim? = none) :
    e.bare.isForeign = e.isForeign := by
  cases e with
  | attempt failed body => cases h
  | _ => rfl

theorem isForeign_bare {e : Element} (h : e.isForeign = false) : e.bare.isForeign = false := by
  cases e with
  | attempt failed body => rfl
  | _ => exact h

/-- An error goes to the innermost attempt. -/
theorem changeFirst?_claim? {stack stack' : List Element}
    (h : changeFirst? claim? stack = some stack') :
    ∃ front failed body back, stack = front ++ .attempt failed body :: back ∧
      stack' = front ++ .attempt true [] :: back ∧ ∀ e ∈ front, e.claim? = none := by
  obtain ⟨front, e, e', back, rfl, rfl, he, hfront⟩ := changeFirst?_split h
  cases e with
  | attempt failed body =>
    cases he
    exact ⟨front, failed, body, back, rfl, rfl, hfront⟩
  | _ => cases he

end Element

namespace Composition

def marks (c : Composition) : List Bool := c.stack.map Element.isForeign

@[simp] theorem marks_write (c : Composition) (t : Text) : (c.write t).marks = c.marks := by
  unfold write marks
  split <;> simp [*]

theorem marks_change? {f : Element → Option Element}
    (hf : ∀ e e', f e = some e' → e'.isForeign = e.isForeign) {c c' : Composition}
    (h : c.change? f = some c') : c'.marks = c.marks := by
  obtain ⟨stack, hs, rfl⟩ := Option.map_eq_some_iff.mp h
  exact Element.map_changeFirst? hf hs

theorem Edit.marks {c c' : Composition} (h : Edit c c') : c'.marks = c.marks := by
  cases h with
  | none => rfl
  | write t => exact marks_write c t
  | capture body =>
    unfold Composition.capture
    split <;> rfl
  | choice h => exact marks_change? (fun _ _ => Element.isForeign_mapChoice?) h
  | trial h => exact marks_change? (fun _ _ => Element.isForeign_mapTrial?) h

theorem marks_of_stack {c : Composition} {front back : List Element} {e : Element}
    (h : c.stack = front ++ e :: back) : e.isForeign :: back.map Element.isForeign <:+ c.marks := by
  refine ⟨front.map Element.isForeign, ?_⟩
  rw [marks, h, List.map_append, List.map_cons]

theorem isForeign_eq (c : Composition) : c.isForeign = c.marks.head?.getD false := by
  unfold isForeign marks
  cases c.stack <;> rfl

/-- A token without an error that is claimed: it leaves the marks as they are, but for one more or
one less. -/
def Quiet (c c' : Composition) : Prop := c.marks <:+ c'.marks ∨ c'.marks <:+ c.marks

/-- A token with an error that an attempt claims, either where elements may open or when the
innermost element has been taken off. No tags are counted then. -/
def Claims (c c' : Composition) : Prop :=
  ∃ (c₁ : Composition) (error : ComposeError), c₁.report error = (c', .ok ()) ∧
    (c₁.marks = c.marks ∧ c.isForeign = false ∨ c₁.stack = c.stack.tail) ∧
    (c.Balanced → c₁.foreignDepth = 0)

theorem Step.quiet_or_claims {v : Variables} {c c' : Composition} {t : Markup.Token}
    (h : Step v c t c') : Quiet c c' ∨ Claims c c' := by
  have hsame (h : c'.marks = c.marks) : Quiet c c' := .inl (h ▸ List.suffix_refl _)
  cases h with
  | written t => exact .inl (hsame (marks_write c t.toText))
  | refused hforeign h => exact .inr ⟨c, _, h, .inl ⟨rfl, hforeign⟩, fun hc => hc hforeign⟩
  | @skipped tag _ _ h =>
    have hstack := (foreignTag_false h).1
    have hmarks : c'.marks = (c.write tag).marks := by rw [marks, marks, hstack]
    exact .inl (hsame (hmarks.trans (marks_write c tag)))
  | @opened d tag e c₁ _ _ ho =>
    have hmarks : c₁.marks = c.marks := (opened_edit ho).1.marks
    exact .inl (.inl (hmarks ▸ List.suffix_cons e.isForeign c₁.marks))
  | @openedAndClosed d tag e c₁ _ hforeign _ ho hends =>
    have hmarks : c₁.marks = c.marks := (opened_edit ho).1.marks
    rcases hends with hedit | ⟨error, herror⟩
    · exact .inl (hsame (hedit.marks.trans hmarks))
    · exact .inr ⟨_, error, herror.symm, .inl ⟨hmarks, hforeign⟩, fun _ => rfl⟩
  | @closed tag e c₁ _ hpop hends =>
    have hstack := pop?_eq_some hpop
    rcases hends with hedit | ⟨error, herror⟩
    · refine .inl (.inr ?_)
      have hmarks : c'.marks = c₁.marks := hedit.marks
      rw [hmarks, marks, marks, hstack]
      exact List.suffix_cons _ _
    · exact .inr ⟨c₁, error, herror.symm, .inr (by rw [hstack]; rfl), fun _ => (pop?_rest hpop).2⟩

/-- All elements but the innermost let others open inside, but for attempts that have failed since
those were opened. -/
def Layered (c : Composition) : Prop := ∀ e ∈ c.stack.tail.map Element.bare, e.isForeign = false

theorem Move.layered {v : Variables} {c c' : Composition} {t : Markup.Token} (h : Move v c t c')
    (hc : c.Layered) : c'.Layered := by
  have hkept {c₁ c₂ : Composition} (hk : Kept c₁ c₂) (h : c₁.Layered) : c₂.Layered := by
    unfold Layered
    rw [List.map_tail, hk.stack, ← List.map_tail]
    exact h
  have hopened {d : Directive} {tag : Text} {e : Element} {c₁ : Composition}
      (ho : c.opened v d tag = .ok (e, c₁)) : c₁.Layered := hkept (opened_kept ho).1 hc
  cases h with
  | kept hk _ => exact hkept hk hc
  | @skipped tag _ _ hstack _ =>
    have hwritten := hkept (write_kept c tag) hc
    unfold Layered
    rw [hstack]
    exact hwritten
  | @opened d tag e c₁ hforeign _ ho =>
    have hmarks : c₁.isForeign = false := by
      rw [isForeign_eq, (opened_edit ho).1.marks, ← isForeign_eq]
      exact hforeign
    have hlayered := hopened ho
    obtain ⟨stack, root, depth⟩ := c₁
    cases stack with
    | nil => simp [Layered]
    | cons first rest =>
      intro b hb
      rcases List.mem_cons.mp hb with rfl | hb
      · exact Element.isForeign_bare hmarks
      · exact hlayered b hb
  | openedAndClosed _ _ ho hk =>
    have hlayered := hopened ho
    exact hkept hk hlayered
  | @closed tag e c₁ _ hpop hk =>
    refine hkept hk fun b hb => hc b ?_
    obtain ⟨e', he', rfl⟩ := List.mem_map.mp hb
    rw [pop?_eq_some hpop]
    exact List.mem_map_of_mem (List.mem_of_mem_tail he')

end Composition

namespace Page

open EdgeCompose.Composition

variable {p : Page} {inner : Composer} {wanted : Option Text}

theorem Reaches.layered {c : Composition} (h : p.Reaches inner wanted c) : c.Layered := by
  induction h with
  | start => simp [Layered, ofWanted]
  | take t _ ht ih => exact (take_move ht).layered ih

/-! ## Attempts that fail -/

/-- With the token `t` an attempt fails that has been open and had not failed; the elements `opened`
are open inside it then, and it is open inside `below`. -/
structure Fails (p : Page) (inner : Composer) (c : Composition) (t : Markup.Token)
    (c' : Composition) (opened below : List Element) : Prop where
  takes : (p.take inner c t).Yields (c', .ok ())
  before : ∃ front body rest, c.stack = front ++ .attempt false body :: rest ∧
    rest.length = below.length
  after : ∃ body, c'.stack = opened ++ .attempt true body :: below

/-- All that stays inside the innermost attempt is passed over: nothing is asked of the
surroundings, there is no error, and nothing is kept of it but the number of attempts that are
still to end. -/
def SkipsRest (p : Page) (inner : Composer) (c : Composition) : Prop :=
  ∀ ts, Markup.staysInside .attempt c.foreignDepth ts = true →
    ∃ depth, p.takeAll inner c ts = .done ({ c with foreignDepth := depth }, .ok ())

theorem skipsRest_of_innermost {c : Composition} {body : Text} {below : List Element}
    (h : c.stack = .attempt true body :: below) : p.SkipsRest inner c := by
  obtain ⟨stack, root, depth⟩ := c
  cases h
  intro ts hts
  obtain ⟨depth', hall⟩ := p.takeAll_foreign inner (e := .attempt true body) rfl below root depth hts
  exact ⟨depth', hall⟩

def sourceless : Text := "<esi:include/>".toList

private theorem sourceless_eq :
    Directive.isEndTag .attempt sourceless = false ∧ Directive.isStartTag .attempt sourceless = false ∧
      Markup.lookup? sourceless = some (.starts .inclusion) ∧ Inclusion.ofTag sourceless =
        .error (.missingAttribute "include".toList "src".toList) := by
  decide +kernel

/-- Where elements may open, an include without a source fails the render. -/
theorem not_skipsRest {c : Composition} (h : c.isForeign = false) : ¬ p.SkipsRest inner c := by
  intro hskips
  obtain ⟨hend, hstart, hlookup, hasked⟩ := sourceless_eq
  have hinside : Markup.staysInside .attempt c.foreignDepth [.tag sourceless] = true := by
    simp [Markup.staysInside, hend, hstart]
  obtain ⟨depth, hall⟩ := hskips _ hinside
  have hopened : c.opened p.bindings .inclusion sourceless =
      .error (.missingAttribute "include".toList "src".toList) := by
    simp only [opened, hasked]
    rfl
  simp [takeAll, take, takeTag, h, hlookup, start, hopened] at hall

/-- What is at one place of two lists, counted from the end, is the same if one list ends with the
other. -/
private theorem same_at_place {α : Type} {l l' back back' : List α} {a a' : α}
    (hleft : a :: back <:+ l) (hright : a' :: back' <:+ l') (hlength : back.length = back'.length)
    (h : l <:+ l' ∨ l' <:+ l) : a = a' := by
  have hsame : a :: back = a' :: back' := by
    rcases h with h | h
    · exact (List.suffix_of_suffix_length_le (hleft.trans h) hright (by simp [hlength])).eq_of_length
        (by simp [hlength])
    · exact (List.suffix_of_suffix_length_le hleft (hright.trans h) (by simp [hlength])).eq_of_length
        (by simp [hlength])
  exact (List.cons_eq_cons.mp hsame).1

theorem report_claimed {c c' : Composition} {error : ComposeError}
    (h : c.report error = (c', .ok ())) :
    ∃ front failed body back, c.stack = front ++ .attempt failed body :: back ∧
      c'.stack = front ++ .attempt true [] :: back ∧ ∀ e ∈ front, e.claim? = none := by
  unfold report at h
  split at h
  · next c₁ hchange =>
    cases h
    obtain ⟨stack, hs, rfl⟩ := Option.map_eq_some_iff.mp hchange
    exact Element.changeFirst?_claim? hs
  · cases h

/-- A token that does not report an error has no attempt fail. -/
theorem Fails.claims {c c' : Composition} {t : Markup.Token} {opened below : List Element}
    (h : p.Fails inner c t c' opened below) : Claims c c' := by
  obtain ⟨front, body, rest, hbefore, hlength⟩ := h.before
  obtain ⟨body', hafter⟩ := h.after
  refine (take_step h.takes).quiet_or_claims.resolve_left fun hquiet => ?_
  have hmark : false = true := same_at_place (marks_of_stack hbefore) (marks_of_stack hafter)
    (by simp [hlength]) hquiet
  cases hmark

/-- No tags are counted when an attempt fails: the next end tag that ends no other attempt is its
own. -/
theorem Fails.foreignDepth {c c' : Composition} {t : Markup.Token} {opened below : List Element}
    (hc : p.Reaches inner wanted c) (h : p.Fails inner c t c' opened below) :
    c'.foreignDepth = 0 := by
  obtain ⟨c₁, error, hreport, -, hdepth⟩ := h.claims
  have hkept := report_kept c₁ error
  rw [hreport] at hkept
  exact hkept.foreignDepth.trans (hdepth hc.balanced)

/-- Elements that are open inside an attempt when it fails go on opening others inside. -/
theorem Fails.isForeign {c c' : Composition} {t : Markup.Token} {opened below : List Element}
    (hc : p.Reaches inner wanted c) (h : p.Fails inner c t c' opened below) (hne : opened ≠ []) :
    c'.isForeign = false := by
  obtain ⟨c₁, error, hreport, hplace, -⟩ := h.claims
  obtain ⟨front, failed, kept, back, hstack, hstack', hfront⟩ := report_claimed hreport
  cases front with
  | cons e front =>
    have hforeign : c'.isForeign = e.isForeign := by simp [Composition.isForeign, hstack']
    rw [hforeign]
    rcases hplace with ⟨hmarks, hopens⟩ | htail
    · rw [isForeign_eq, ← hmarks, ← isForeign_eq] at hopens
      simpa [Composition.isForeign, hstack] using hopens
    · have hmem : e ∈ c.stack.tail := by simp [← htail, hstack]
      rw [← Element.isForeign_bare_of_claim? (hfront e (by simp))]
      exact hc.layered _ (List.mem_map_of_mem hmem)
  | nil =>
    -- The innermost element has claimed the error, and the attempt that fails is further out.
    obtain ⟨front, body, rest, hbefore, hlength⟩ := h.before
    obtain ⟨body', hafter⟩ := h.after
    obtain ⟨first, opened, rfl⟩ := List.exists_cons_of_ne_nil hne
    have hback : back = opened ++ .attempt true body' :: below :=
      (List.cons_eq_cons.mp (hstack'.symm.trans hafter)).2
    have hrelated : c.marks <:+ c₁.marks ∨ c₁.marks <:+ c.marks := by
      rcases hplace with ⟨hmarks, -⟩ | htail
      · exact .inl (hmarks ▸ List.suffix_refl _)
      · refine .inr ?_
        rw [marks, htail, List.map_tail]
        exact List.tail_suffix _
    have hstack₁ : c₁.stack = (.attempt failed kept :: opened) ++ .attempt true body' :: below := by
      rw [hstack, hback]
      rfl
    have hmark : false = true := same_at_place (marks_of_stack hbefore) (marks_of_stack hstack₁)
      (by simp [hlength]) hrelated
    cases hmark

/-- When an attempt fails, the rest of its body is skipped, up to its own end tag, exactly if no other
element is open inside it. If one is open, the rest is taken like any other content, and is skipped
from where the attempt is the innermost element again. -/
theorem skipsRest_iff {c c' : Composition} {t : Markup.Token} {opened below : List Element}
    (hc : p.Reaches inner wanted c) (h : p.Fails inner c t c' opened below) :
    (p.SkipsRest inner c' ↔ opened = []) ∧ c'.foreignDepth = 0 ∧
      ∀ (c'' : Composition) (body : Text) (below' : List Element),
        c''.stack = .attempt true body :: below' → p.SkipsRest inner c'' := by
  refine ⟨⟨fun hskips => ?_, ?_⟩, h.foreignDepth hc, fun c'' body below' => skipsRest_of_innermost⟩
  · by_contra hne
    exact not_skipsRest (h.isForeign hc hne) hskips
  · rintro rfl
    obtain ⟨body, hafter⟩ := h.after
    exact skipsRest_of_innermost hafter

end Page

namespace Renderer

open EdgeCompose.Composition

/-! ## Errors inside an attempt and inside an element in it -/

def openTrial : List Markup.Token := [.tag "<esi:try>".toList, .tag "<esi:attempt>".toList]

def inAttempt : Composition := { stack := [.attempt false [], .tryBlock {}], root := .document [] }

def missingPart : Markup.Token := .tag "<esi:include src='http://host/missing'/>".toList

def foundPart : Markup.Token := .tag "<esi:include src='http://host/part'/>".toList

/-- What an include whose source is missing leaves in an attempt and the elements `opened` in it. -/
def failedIn (opened : List Element) : Composition :=
  { stack := opened ++ [.attempt true [], .tryBlock {}], root := .document [] }

private theorem inAttempt_reached :
    partRenderer.page.Reaches partRenderer.inner none inAttempt := by
  have hrun : ((partRenderer.page.takeAll partRenderer.inner (.ofWanted none) openTrial).run
      partWorld).1 = .finished (inAttempt, .ok ()) := by decide +kernel
  exact Page.takeAll_reaches .start (Program.yields_of_run (Prod.ext hrun rfl))

theorem skipsRest_iff_missing :
    partRenderer.page.Fails partRenderer.inner inAttempt missingPart (failedIn []) []
        [.tryBlock {}] ∧
      partRenderer.page.SkipsRest partRenderer.inner (failedIn []) := by
  have hrun : ((partRenderer.page.take partRenderer.inner inAttempt missingPart).run partWorld).1 =
      .finished (failedIn [], .ok ()) := by decide +kernel
  have hfails : partRenderer.page.Fails partRenderer.inner inAttempt missingPart (failedIn []) []
      [.tryBlock {}] :=
    ⟨Program.yields_of_run (Prod.ext hrun rfl), ⟨[], [], [.tryBlock {}], rfl, rfl⟩, [], rfl⟩
  exact ⟨hfails, (Page.skipsRest_iff inAttempt_reached hfails).1.mpr rfl⟩

/-- An include that fails inside of other content of an attempt: the next include there is still
fetched. -/
theorem failed_attempt_fetches : ∃ c, partRenderer.page.Reaches partRenderer.inner none c ∧
    partRenderer.page.Fails partRenderer.inner c missingPart (failedIn [.vars []]) [.vars []]
      [.tryBlock {}] ∧
    Markup.staysInside .attempt (failedIn [.vars []]).foreignDepth [foundPart] = true ∧
    ((partRenderer.page.take partRenderer.inner (failedIn [.vars []]) foundPart).run
      partWorld).2.journal.sent.map (·.url.toText) = ["http://host/part".toList] ∧
    ¬ partRenderer.page.SkipsRest partRenderer.inner (failedIn [.vars []]) := by
  let c : Composition := { inAttempt with stack := .vars [] :: inAttempt.stack }
  have hopen : ((partRenderer.page.take partRenderer.inner inAttempt
      (.tag "<esi:vars>".toList)).run partWorld).1 = .finished (c, .ok ()) := by decide +kernel
  have hrun : ((partRenderer.page.take partRenderer.inner c missingPart).run partWorld).1 =
      .finished (failedIn [.vars []], .ok ()) := by decide +kernel
  refine ⟨c, .take _ inAttempt_reached (Program.yields_of_run (Prod.ext hopen rfl)),
    ⟨Program.yields_of_run (Prod.ext hrun rfl),
      ⟨[.vars []], [], [.tryBlock {}], rfl, rfl⟩, [], rfl⟩, ?_, ?_, ?_⟩
  · decide +kernel
  · decide +kernel
  · exact Page.not_skipsRest rfl

end Renderer

end EdgeCompose
