import Mathlib.Control.Monad.Basic
import EdgeCompose.Fetch.Script
import EdgeCompose.Proofs.Stack

/-!
Composing is compositional: a run over tokens that succeeds as a document of its own does the
same inside any other document, and what it would have put out is written there instead. The
state of the run inside is the state of the run alone, placed on top of the surrounding
composition (`inside`); each token keeps that relation for as long as the run alone has no error.
-/

namespace EdgeCompose

open Markup (Directive)

namespace Composition

theorem write_nil (c : Composition) : c.write [] = c := by
  obtain ⟨stack, root, depth⟩ := c
  cases stack with
  | nil => cases root <;> simp [write, Root.write]
  | cons e rest => simp [write, Element.write_nil]

theorem write_write (c : Composition) (s t : Text) : (c.write s).write t = c.write (s ++ t) := by
  obtain ⟨stack, root, depth⟩ := c
  cases stack with
  | nil => cases root <;> simp [write, Root.write]
  | cons e rest => simp [write, Element.write_write]

def ofDocument (stack : List Element) (out : Text) (foreignDepth : Nat) : Composition :=
  { stack, root := .document out, foreignDepth }

/-- The composition that has `stack` open on top of the elements of `host`, which has taken in
`out`. -/
def inside (host : Composition) (stack : List Element) (out : Text) (foreignDepth : Nat) :
    Composition :=
  { stack := stack ++ (host.write out).stack, root := (host.write out).root, foreignDepth }

variable {host : Composition} {stack : List Element} {out : Text} {depth : Nat}

theorem inside_nil (h : host.foreignDepth = 0) (out : Text) :
    inside host [] out 0 = host.write out := by
  rw [inside, ← h, ← (write_kept host out).foreignDepth]
  rfl

/-- The run alone ends well with some state, and then the run inside is in the state that goes
with it. -/
def Follows (host : Composition) (found : Composition × Except ComposeError Unit)
    (rest : Program (Composition × Except ComposeError Unit)) : Prop :=
  found.2 = .ok () → ∃ stack out depth, found.1 = ofDocument stack out depth ∧
    rest = .done (inside host stack out depth, .ok ())

theorem follows_error (c : Composition) (e : ComposeError)
    (rest : Program (Composition × Except ComposeError Unit)) : Follows host (c, .error e) rest := by
  intro h
  cases h

theorem follows_ok (stack : List Element) (out : Text) (depth : Nat) :
    Follows host (ofDocument stack out depth, .ok ()) (.done (inside host stack out depth, .ok ())) :=
  fun _ => ⟨stack, out, depth, rfl, rfl⟩

/-- Writing in the run alone goes with writing in the run inside. -/
theorem write_inside (host : Composition) (stack : List Element) (out : Text) (depth : Nat) (t : Text) :
    ∃ stack' out', (ofDocument stack out depth).write t = ofDocument stack' out' depth ∧
      (inside host stack out depth).write t = inside host stack' out' depth := by
  cases stack with
  | nil =>
    refine ⟨[], out ++ t, rfl, ?_⟩
    have hw := write_write host out t
    unfold inside
    rw [← hw]
    simp only [List.nil_append]
    generalize host.write out = c
    obtain ⟨below, root, _⟩ := c
    cases below <;> rfl
  | cons e rest => exact ⟨e.write t :: rest, out, rfl, rfl⟩

/-- A change that the run alone finds an element for finds the same element inside. -/
theorem change?_inside (host : Composition) {f : Element → Option Element} {c : Composition}
    (h : (ofDocument stack out depth).change? f = some c) :
    ∃ stack', c = ofDocument stack' out depth ∧
      (inside host stack out depth).change? f = some (inside host stack' out depth) := by
  obtain ⟨stack', hs, rfl⟩ := Option.map_eq_some_iff.mp h
  have hstack : Element.changeFirst? f stack = some stack' := hs
  refine ⟨stack', rfl, ?_⟩
  unfold change? inside
  simp only [Element.changeFirst?_append hstack, Option.map_some]

/-- A change that has to be made somewhere is made by both runs, or else the run alone fails. -/
private theorem follows_change (f : Element → Option Element) (stack : List Element) (out : Text)
    (depth : Nat) (e : ComposeError) :
    Follows host
      (match (ofDocument stack out depth).change? f with
        | some c => (c, .ok ())
        | none => (ofDocument stack out depth, .error e))
      (.done (match (inside host stack out depth).change? f with
        | some c => (c, .ok ())
        | none => (inside host stack out depth, .error e))) := by
  cases h : (ofDocument stack out depth).change? f with
  | none => exact follows_error _ _ _
  | some c =>
    obtain ⟨stack', rfl, hinside⟩ := change?_inside host h
    rw [hinside]
    exact follows_ok _ _ _

theorem report_inside (stack : List Element) (out : Text) (depth : Nat) (e : ComposeError) :
    Follows host ((ofDocument stack out depth).report e)
      (.done ((inside host stack out depth).report e)) :=
  follows_change Element.claim? stack out depth e

theorem giveBranch_inside (stack : List Element) (out : Text) (depth : Nat) (d : Directive)
    (body : Text) :
    Follows host ((ofDocument stack out depth).giveBranch d body)
      (.done ((inside host stack out depth).giveBranch d body)) :=
  follows_change _ stack out depth (outside d .choose)

theorem changeTrial_inside (stack : List Element) (out : Text) (depth : Nat) (d : Directive)
    (f : Trial → Trial) :
    Follows host ((ofDocument stack out depth).changeTrial d f)
      (.done ((inside host stack out depth).changeTrial d f)) :=
  follows_change _ stack out depth (outside d .tryBlock)

private theorem follows_write (stack : List Element) (out : Text) (depth : Nat) (t : Text) :
    Follows host ((ofDocument stack out depth).write t, .ok ())
      (.done ((inside host stack out depth).write t, .ok ())) := by
  obtain ⟨stack', out', halone, hinside⟩ := write_inside host stack out depth t
  rw [halone, hinside]
  exact follows_ok _ _ _

/-- A document has no fragment that is wanted of it. -/
private theorem capture_document {c : Composition} (h : c.root.bare = .document []) (body : Text) :
    c.capture body = (false, c) := by
  unfold capture
  cases hr : c.root with
  | document out => rfl
  | extract wanted found => simp [hr, Root.bare] at h

theorem settle_fragment {c : Composition} (h : c.root.bare = .document []) (v : Variables)
    (name body : Text) : c.settle v (.fragment name body) = (c.write body, .ok ()) := by
  simp only [settle, capture_document h]
  split <;> rfl

/-- If the element is a fragment, the composition takes its body in. -/
def WritesFragment (v : Variables) (c : Composition) (e : Element) : Prop :=
  ∀ name body, e = .fragment name body → c.settle v e = (c.write body, .ok ())

theorem settle_inside {v : Variables} {e : Element}
    (hw : (inside host stack out depth).WritesFragment v e) :
    Follows host ((ofDocument stack out depth).settle v e)
      (.done ((inside host stack out depth).settle v e)) := by
  cases e with
  | fragment name body =>
    rw [settle_fragment (c := ofDocument stack out depth) rfl, hw name body rfl]
    exact follows_write _ _ _ _
  | choose choice => exact follows_write _ _ _ _
  | when active body =>
    cases active with
    | true => exact giveBranch_inside _ _ _ _ _
    | false => exact follows_ok _ _ _
  | otherwise active body =>
    cases active with
    | true => exact giveBranch_inside _ _ _ _ _
    | false => exact follows_ok _ _ _
  | tryBlock trial => exact follows_write _ _ _ _
  | attempt failed body => exact changeTrial_inside _ _ _ _ _
  | except active body =>
    cases active with
    | true => exact changeTrial_inside _ _ _ _ _
    | false => exact follows_ok _ _ _
  | vars body =>
    simp only [settle]
    cases Template.substitute v body with
    | ok t => exact follows_write _ _ _ _
    | error error => exact report_inside _ _ _ _
  | _ => exact follows_ok _ _ _

theorem choice?_inside {choice : Choice} (h : (ofDocument stack out depth).choice? = some choice) :
    (inside host stack out depth).choice? = some choice := by
  have hs : stack.findSome? Element.choice? = some choice := h
  unfold choice? inside
  rw [List.findSome?_append, hs, Option.some_or]

theorem trial?_inside {trial : Trial} (h : (ofDocument stack out depth).trial? = some trial) :
    (inside host stack out depth).trial? = some trial := by
  have hs : stack.findSome? Element.trial? = some trial := h
  unfold trial? inside
  rw [List.findSome?_append, hs, Option.some_or]

theorem takeBranch_inside (host : Composition) {choice : Choice}
    (h : (ofDocument stack out depth).choice? = some choice) :
    ∃ stack', (ofDocument stack out depth).takeBranch = ofDocument stack' out depth ∧
      (inside host stack out depth).takeBranch = inside host stack' out depth := by
  have hchoice : stack.findSome? Element.choice? = some choice := h
  obtain ⟨e, he, hfound⟩ := List.exists_of_findSome?_eq_some hchoice
  obtain ⟨stack', hs⟩ := Element.changeFirst?_isSome (f := Element.mapChoice? ({ · with taken := true }))
    he (by simp [Element.mapChoice?, hfound])
  have halone : (ofDocument stack out depth).change?
      (Element.mapChoice? ({ · with taken := true })) = some (ofDocument stack' out depth) := by
    simp only [change?, ofDocument, hs, Option.map_some]
  obtain ⟨stack'', heq, hinside⟩ := change?_inside host halone
  cases heq
  exact ⟨stack', by simp [takeBranch, halone], by simp [takeBranch, hinside]⟩

/-- Whether a branch is taken or passed, both runs have the same open. -/
private theorem branch_inside (host : Composition) (taken : Bool) {choice : Choice}
    (h : (ofDocument stack out depth).choice? = some choice) :
    ∃ stack', (if taken then (ofDocument stack out depth).takeBranch
        else ofDocument stack out depth) = ofDocument stack' out depth ∧
      (if taken then (inside host stack out depth).takeBranch
        else inside host stack out depth) = inside host stack' out depth := by
  cases taken with
  | true => exact takeBranch_inside host h
  | false => exact ⟨stack, rfl, rfl⟩

private theorem when_inside (host : Composition) {v : Variables} {tag : Text} {e : Element}
    {c : Composition} (h : (ofDocument stack out depth).opened v .when tag = .ok (e, c)) :
    ∃ stack', c = ofDocument stack' out depth ∧
      (inside host stack out depth).opened v .when tag = .ok (e, inside host stack' out depth) := by
  obtain ⟨test, choice, active, htest, hchoice, hactive, rfl, rfl⟩ := opened_when_iff.mp h
  obtain ⟨stack', halone, hinside⟩ := branch_inside host active hchoice
  refine ⟨stack', halone, opened_when_iff.mpr ?_⟩
  exact ⟨test, choice, active, htest, choice?_inside hchoice, hactive, rfl, hinside.symm⟩

private theorem otherwise_inside (host : Composition) {v : Variables} {tag : Text} {e : Element}
    {c : Composition} (h : (ofDocument stack out depth).opened v .otherwise tag = .ok (e, c)) :
    ∃ stack', c = ofDocument stack' out depth ∧
      (inside host stack out depth).opened v .otherwise tag =
        .ok (e, inside host stack' out depth) := by
  obtain ⟨choice, hchoice, rfl, rfl⟩ := opened_otherwise_iff.mp h
  obtain ⟨stack', halone, hinside⟩ := branch_inside host (!choice.taken) hchoice
  refine ⟨stack', halone, opened_otherwise_iff.mpr ?_⟩
  exact ⟨choice, choice?_inside hchoice, rfl, hinside.symm⟩

/-- An element that opens in the run alone opens in the run inside. -/
theorem opened_inside (host : Composition) {v : Variables} {d : Directive} {tag : Text}
    {e : Element} {c : Composition} (h : (ofDocument stack out depth).opened v d tag = .ok (e, c)) :
    ∃ stack', c = ofDocument stack' out depth ∧
      (inside host stack out depth).opened v d tag = .ok (e, inside host stack' out depth) := by
  cases d with
  | when => exact when_inside host h
  | otherwise => exact otherwise_inside host h
  | attempt =>
    obtain ⟨⟨trial, htrial⟩, rfl, rfl⟩ := opened_attempt_iff.mp h
    exact ⟨stack, rfl, opened_attempt_iff.mpr ⟨⟨trial, trial?_inside htrial⟩, rfl, rfl⟩⟩
  | except =>
    obtain ⟨trial, htrial, rfl, rfl⟩ := opened_except_iff.mp h
    exact ⟨stack, rfl, opened_except_iff.mpr ⟨trial, trial?_inside htrial, rfl, rfl⟩⟩
  | inclusion =>
    obtain ⟨i, hi, hr⟩ := exists_ok_of_bind h
    cases hr
    exact ⟨stack, rfl, by simp only [opened, hi]; rfl⟩
  | fragment =>
    obtain ⟨name, hn, hr⟩ := exists_ok_of_bind h
    cases hr
    exact ⟨stack, rfl, by simp only [opened, hn]; rfl⟩
  | inline =>
    obtain ⟨name, hn, hr⟩ := exists_ok_of_bind h
    cases hr
    exact ⟨stack, rfl, by simp only [opened, hn]; rfl⟩
  | _ =>
    cases h
    exact ⟨stack, rfl, rfl⟩

theorem isForeign_inside (h : host.isForeign = false) (stack : List Element) (out : Text)
    (depth : Nat) :
    (inside host stack out depth).isForeign = (ofDocument stack out depth).isForeign := by
  cases stack with
  | nil =>
    rw [← isForeign_write host out] at h
    exact h
  | cons e rest => rfl

/-- Inside an element of the run alone, both runs take a foreign tag in the same way. -/
theorem foreignTag_inside (host : Composition) (e : Element) (rest : List Element) (out : Text)
    (depth : Nat) (tag : Text) :
    ∃ stack' depth' ends,
      (ofDocument (e :: rest) out depth).foreignTag tag = (ends, ofDocument stack' out depth') ∧
      (inside host (e :: rest) out depth).foreignTag tag = (ends, inside host stack' out depth') := by
  have hend : (inside host (e :: rest) out depth).isTopEnd tag =
      (ofDocument (e :: rest) out depth).isTopEnd tag := rfl
  have hstart : (inside host (e :: rest) out depth).isTopStart tag =
      (ofDocument (e :: rest) out depth).isTopStart tag := rfl
  unfold foreignTag
  rw [hend, hstart]
  split
  · cases depth with
    | zero => exact ⟨e :: rest, 0, true, rfl, rfl⟩
    | succ depth => exact ⟨e.write tag :: rest, depth, false, rfl, rfl⟩
  · split
    · exact ⟨e.write tag :: rest, depth + 1, false, rfl, rfl⟩
    · exact ⟨e.write tag :: rest, depth, false, rfl, rfl⟩

end Composition

namespace Page

open EdgeCompose.Composition Program

variable {p : Page} {inner : Composer} {host : Composition}

theorem writesFragment_inside (h : host.root.bare = .document []) (v : Variables)
    (stack : List Element) (out : Text) (depth : Nat) (e : Element) :
    (inside host stack out depth).WritesFragment v e := by
  rintro name body rfl
  refine settle_fragment ?_ v name body
  unfold inside
  rw [(write_kept host out).root, h]

theorem close_inside {stack : List Element} {out : Text} {depth : Nat} {e : Element}
    (hw : (inside host stack out depth).WritesFragment p.bindings e) :
    Shadows (Follows host) (p.close inner (ofDocument stack out depth) e)
      (p.close inner (inside host stack out depth) e) := by
  cases e with
  | inclusion i =>
    have hsame : Shadows (fun found rest => rest = .done found) (p.included inner i)
        (p.included inner i) := by
      apply Shadows.refl
      intro found
      rfl
    refine hsame.bind_both ?_
    rintro found _ rfl
    cases found with
    | ok t => exact .done (follows_write _ _ _ _)
    | error error =>
      simp only [done_bind]
      split
      · exact .done (follows_ok _ _ _)
      · exact .done (report_inside _ _ _ _)
  | inline name fetchable body =>
    simp only [close]
    cases p.resolveTemplate name with
    | error error => exact .done (report_inside _ _ _ _)
    | ok url => exact .ask fun _ => .done (follows_ok _ _ _)
  | _ => exact .done (settle_inside hw)

/-- A tag is taken by both runs in the same way, if a fragment that it ends is written in the run
inside. -/
theorem takeTag_inside (hforeign : host.isForeign = false) {stack : List Element} {out : Text}
    {depth : Nat} {tag : Text}
    (hw : ∀ e stack' out', p.ended? (ofDocument stack out depth) tag =
      some (e, ofDocument stack' out' 0) → (inside host stack' out' 0).WritesFragment p.bindings e) :
    Shadows (Follows host) (p.takeTag inner (ofDocument stack out depth) tag)
      (p.takeTag inner (inside host stack out depth) tag) := by
  unfold takeTag
  unfold ended? at hw
  rw [isForeign_inside hforeign]
  split
  · next hf =>
    cases stack with
    | nil => cases hf
    | cons e rest =>
      obtain ⟨stack', depth', ends, halone, hinside⟩ :=
        foreignTag_inside host e rest out depth tag
      rw [if_pos hf, halone] at hw
      rw [halone, hinside]
      cases ends with
      | true =>
        cases stack' with
        | nil => exact .done (follows_error _ _ _)
        | cons e rest => exact close_inside (hw e rest out rfl)
      | false => exact .done (follows_ok _ _ _)
  · next hf =>
    rw [if_neg hf] at hw
    cases hlookup : Markup.lookup? tag with
    | none => exact .done (follows_write _ _ _ _)
    | some delimiter =>
      rw [hlookup] at hw
      cases delimiter with
      | starts d =>
        simp only [start]
        cases ho : (ofDocument stack out depth).opened p.bindings d tag with
        | error error => exact .done (follows_error _ _ _)
        | ok found =>
          obtain ⟨e, c⟩ := found
          obtain ⟨stack', rfl, hinside⟩ := opened_inside host ho
          simp only [ho] at hw
          rw [hinside]
          cases hself : Markup.isSelfClosing tag with
          | true =>
            rw [hself] at hw
            exact close_inside (hw e stack' out rfl)
          | false => exact .done (follows_ok (e :: stack') _ _)
      | ends d =>
        simp only
        cases stack with
        | nil => exact .done (follows_error _ _ _)
        | cons e rest =>
          have hend : (inside host (e :: rest) out depth).isTopEnd tag =
              (ofDocument (e :: rest) out depth).isTopEnd tag := rfl
          rw [hend]
          split
          · next htop => exact close_inside (hw e rest out (by simp only [htop]; rfl))
          · exact .done (report_inside _ _ _ _)

theorem take_inside (hforeign : host.isForeign = false) {stack : List Element} {out : Text}
    {depth : Nat} {t : Markup.Token}
    (hw : ∀ tag e stack' out', t = .tag tag → p.ended? (ofDocument stack out depth) tag =
      some (e, ofDocument stack' out' 0) → (inside host stack' out' 0).WritesFragment p.bindings e) :
    Shadows (Follows host) (p.take inner (ofDocument stack out depth) t)
      (p.take inner (inside host stack out depth) t) := by
  cases t with
  | text t => exact .done (follows_write _ _ _ _)
  | tag tag => exact takeTag_inside hforeign fun e stack' out' => hw tag e stack' out' rfl

theorem takeAll_inside (h : host.root.bare = .document []) (hforeign : host.isForeign = false)
    (ts : List Markup.Token) (stack : List Element) (out : Text) (depth : Nat) :
    Shadows (Follows host) (p.takeAll inner (ofDocument stack out depth) ts)
      (p.takeAll inner (inside host stack out depth) ts) := by
  induction ts generalizing stack out depth with
  | nil => exact .done (follows_ok _ _ _)
  | cons t ts ih =>
    have htake : Shadows (Follows host) (p.take inner (ofDocument stack out depth) t)
        (p.take inner (inside host stack out depth) t) :=
      take_inside hforeign fun _ e stack' out' _ _ =>
        writesFragment_inside h p.bindings stack' out' 0 e
    refine htake.bind_both ?_
    rintro ⟨c, result⟩ rest hfollows
    cases result with
    | error e => exact .done (follows_error _ _ _)
    | ok _ =>
      obtain ⟨stack', out', depth', hc, rfl⟩ := hfollows rfl
      cases hc
      exact ih stack' out' depth'

/-- What each token keeps, a run over tokens keeps. -/
theorem takeAll_keeps {P : Composition → Prop}
    (hstep : ∀ c t c', P c → (p.take inner c t).Yields (c', .ok ()) → P c') {ts : List Markup.Token}
    {c c' : Composition} (hc : P c) (h : (p.takeAll inner c ts).Yields (c', .ok ())) : P c' := by
  induction ts generalizing c with
  | nil =>
    simp only [takeAll, pure_eq_done, yields_done, Prod.mk.injEq] at h
    obtain ⟨rfl, -⟩ := h
    exact hc
  | cons t ts ih =>
    simp only [takeAll, bind_eq_bind, yields_bind] at h
    obtain ⟨⟨c₁, result⟩, ht, h⟩ := h
    cases result with
    | error e => simp [yields_done] at h
    | ok _ => exact ih (hstep c t c₁ hc ht) h

theorem takeAll_reaches {wanted : Option Text} {ts : List Markup.Token} {c c' : Composition}
    (hc : p.Reaches inner wanted c) (h : (p.takeAll inner c ts).Yields (c', .ok ())) :
    p.Reaches inner wanted c' :=
  takeAll_keeps (fun _ t _ hc ht => .take t hc ht) hc h

theorem takeAll_balanced {ts : List Markup.Token} {c c' : Composition} (hc : c.Balanced)
    (h : (p.takeAll inner c ts).Yields (c', .ok ())) : c'.Balanced :=
  takeAll_keeps (fun _ _ _ hc ht => (take_move ht).balanced hc) hc h

end Page

namespace Renderer

open EdgeCompose.Composition

/-- Tokens that the renderer turns into `out` as a document of their own do the same in every
state that it comes to outside foreign elements: the same requests from the same world to the
same world, and nothing but `out` for the innermost element. -/
theorem takeAll_embedded {r : Renderer} {ts : List Markup.Token} {w w' : World}
    {alone host : Composition} {out : Text}
    (hrun : (r.page.takeAll r.inner (.ofWanted none) ts).run w = (.finished (alone, .ok ()), w'))
    (hout : r.page.output none alone = .ok out) (hhost : r.page.Reaches r.inner none host)
    (hforeign : host.isForeign = false) :
    (r.page.takeAll r.inner host ts).run w = (.finished (host.write out, .ok ()), w') := by
  have hbalanced := (Page.takeAll_reaches .start (Program.yields_of_run hrun)).balanced
  have hsim : Program.Shadows (Follows host)
      (r.page.takeAll r.inner (ofDocument [] [] 0) ts)
      (r.page.takeAll r.inner (inside host [] [] 0) ts) :=
    Page.takeAll_inside hhost.root_bare hforeign ts [] [] 0
  obtain ⟨rest, hfollows, hinside⟩ := hsim.run_eq hrun
  obtain ⟨stack, written, depth, rfl, rfl⟩ := hfollows rfl
  cases stack with
  | cons e below => cases hout
  | nil =>
    cases hout
    obtain rfl : depth = 0 := hbalanced rfl
    have hzero := hhost.balanced hforeign
    rw [inside_nil hzero, write_nil] at hinside
    rw [hinside, inside_nil hzero]
    rfl

/-! ## An include inside an attempt -/

def partWorld : World where
  backend := Script.backend
    [("http://host/part".toList, [.ok { status := 200, body := Utf8.encode "part".toList }])]

/-- An include of that document, an attempt with a tag in it that ends nothing, and some text. -/
def partTokens : List Markup.Token :=
  [.tag "<esi:include src='http://host/part'/>".toList, .tag "<esi:try>".toList,
    .tag "<esi:attempt>".toList, .tag "</esi:vars>".toList, .tag "</esi:attempt>".toList,
    .tag "</esi:try>".toList, .text "!".toList]

def partRenderer : Renderer := .ofPage { settings := {}, backends := {}, request := {} }

def partRun : Outcome (Composition × Except ComposeError Unit) × World :=
  (partRenderer.page.takeAll partRenderer.inner (.ofWanted none) partTokens).run partWorld

/-- A document inside an attempt, which has taken in some text. -/
def partHost : Composition where
  stack := [.attempt false "a".toList, .tryBlock {}]
  root := .document "b".toList

private theorem partHost_reached :
    partRenderer.page.Reaches partRenderer.inner none partHost := by
  have hrun : ((partRenderer.page.takeAll partRenderer.inner (.ofWanted none)
      [.text "b".toList, .tag "<esi:try>".toList, .tag "<esi:attempt>".toList,
        .text "a".toList]).run partWorld).1 = .finished (partHost, .ok ()) := by decide +kernel
  exact Page.takeAll_reaches .start (Program.yields_of_run (Prod.ext hrun rfl))

theorem takeAll_embedded_attempt :
    partRun = (.finished (ofDocument [] "part!".toList 0, .ok ()), partRun.2) ∧
      partRun.2.journal.sent.length = 1 ∧
      (partRenderer.page.takeAll partRenderer.inner partHost partTokens).run partWorld =
        (.finished (partHost.write "part!".toList, .ok ()), partRun.2) := by
  have hrun : partRun.1 = .finished (ofDocument [] "part!".toList 0, .ok ()) := by decide +kernel
  have halone : partRun = (.finished (ofDocument [] "part!".toList 0, .ok ()), partRun.2) :=
    Prod.ext hrun rfl
  refine ⟨halone, by decide +kernel, ?_⟩
  exact takeAll_embedded halone rfl partHost_reached rfl

end Renderer

end EdgeCompose
