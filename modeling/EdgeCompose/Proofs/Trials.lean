import EdgeCompose.Proofs.FailedAttempts

/-!
What tokens do to trials. An attempt that fails leaves its verdict with the innermost trial when it
ends, so that a trial is lost from the moment on at which an attempt of its own fails
(`Page.lost_step`), and from then on as long as it is open (`Page.Passes.not_lost_iff`).
-/

namespace EdgeCompose

open Markup (Directive)

/-! ## What one token does -/

def Markup.Directive.isBranch : Directive → Bool
  | .when | .otherwise => true
  | _ => false

namespace Composition

/-- A change to what the open elements have taken in that no trial and no attempt is the object
of, by an element of the directive `d`. Only a branch has a choice to change. -/
inductive Gains (d : Directive) (c : Composition) : Composition → Prop
  | none : Gains d c c
  | write (t : Text) : Gains d c (c.write t)
  | capture (body : Text) : Gains d c (c.capture body).2
  | choice {f : Choice → Choice} {c' : Composition} : d.isBranch = true →
    c.change? (Element.mapChoice? f) = some c' →
    (∀ choice, ∃ more, (f choice).out = choice.out ++ more) → Gains d c c'

def Trial.attempted (trial : Trial) (failed : Bool) (body : Text) : Trial :=
  if failed then { trial with failed := true } else { trial with attempt := some body }

/-- What an element leaves behind that has been taken off and ends without an error that is left. -/
inductive Ended (c : Composition) (e : Element) (c' : Composition) : Prop
  | gains : e.claim? = none → Gains e.directive c c' → Ended c e c'
  | attempt {failed : Bool} {body : Text} : e = .attempt failed body →
    c.change? (Element.mapTrial? (Trial.attempted · failed body)) = some c' → Ended c e c'
  | except {active : Bool} {body : Text} : e = .except active body →
    c.change? (Element.mapTrial? ({ · with except := some body })) = some c' → Ended c e c'
  | claimed {error : ComposeError} : e.claim? = none → c.report error = (c', .ok ()) → Ended c e c'

/-- All that one token can do, with what an element that ends leaves behind. -/
inductive Takes (c : Composition) : Markup.Token → Composition → Prop
  | written {t : Markup.Token} {c' : Composition} (text : Text) :
    c'.stack = (c.write text).stack → c'.root = (c.write text).root → Takes c t c'
  | claimed {t : Markup.Token} {c' : Composition} {error : ComposeError} :
    c.report error = (c', .ok ()) → Takes c t c'
  | opened {tag : Text} {c₁ : Composition} {e : Element} : c.isForeign = false →
    Markup.lookup? tag = some (.starts e.directive) → Gains e.directive c c₁ → e.bare = e →
    Takes c (.tag tag) { c₁ with stack := e :: c₁.stack }
  | single {tag : Text} {c₁ c' : Composition} {e : Element} : c.isForeign = false →
    Markup.lookup? tag = some (.starts e.directive) → Gains e.directive c c₁ → e.bare = e →
    Ended { c₁ with foreignDepth := 0 } e c' → Takes c (.tag tag) c'
  | ended {t : Markup.Token} {c₁ c' : Composition} {e : Element} : c.pop? = some (e, c₁) →
    Ended c₁ e c' → Takes c t c'

theorem takeBranch_gains (c : Composition) {d : Directive} (hd : d.isBranch = true) :
    Gains d c c.takeBranch := by
  unfold takeBranch
  cases h : c.change? (Element.mapChoice? ({ · with taken := true })) with
  | none => exact .none
  | some c' => exact .choice hd h fun choice => ⟨[], (List.append_nil _).symm⟩

theorem opened_gains {v : Variables} {c c' : Composition} {d : Directive} {tag : Text} {e : Element}
    (h : c.opened v d tag = .ok (e, c')) : Gains d c c' ∧ e.bare = e := by
  obtain ⟨rfl | ⟨hd, rfl⟩, hbare, -⟩ := opened_cases h
  · exact ⟨.none, hbare⟩
  · refine ⟨takeBranch_gains c ?_, hbare⟩
    rcases hd with rfl | rfl <;> rfl

theorem giveBranch_gains {c c' : Composition} {d : Directive} {body : Text}
    (hd : d.isBranch = true) (h : c.giveBranch d body = (c', .ok ())) : Gains d c c' := by
  unfold giveBranch at h
  split at h
  · next hc =>
    cases h
    exact .choice hd hc fun _ => ⟨body, rfl⟩
  · cases h

theorem changeTrial_ok {c c' : Composition} {d : Directive} {f : Trial → Trial}
    (h : c.changeTrial d f = (c', .ok ())) : c.change? (Element.mapTrial? f) = some c' := by
  unfold changeTrial at h
  split at h
  · next hc =>
    cases h
    exact hc
  · cases h

theorem settle_ended {v : Variables} {c c' : Composition} {e : Element}
    (h : c.settle v e = (c', .ok ())) : Ended c e c' := by
  cases e with
  | fragment name body =>
    refine .gains rfl ?_
    simp only [settle] at h
    split at h
    · split at h
      · next captured =>
        cases h
        have hcapture := Gains.capture (d := .fragment) (c := c) body
        rwa [captured] at hcapture
      · next captured =>
        cases h
        rw [capture_false captured]
        exact .write body
    · cases h
      exact .write body
  | choose choice =>
    cases h
    exact .gains rfl (.write _)
  | when active body =>
    cases active with
    | true => exact .gains rfl (giveBranch_gains rfl h)
    | false =>
      cases h
      exact .gains rfl .none
  | otherwise active body =>
    cases active with
    | true => exact .gains rfl (giveBranch_gains rfl h)
    | false =>
      cases h
      exact .gains rfl .none
  | tryBlock trial =>
    cases h
    exact .gains rfl (.write _)
  | attempt failed body => exact .attempt rfl (changeTrial_ok h)
  | except active body =>
    cases active with
    | true => exact .except rfl (changeTrial_ok h)
    | false =>
      cases h
      exact .gains rfl .none
  | vars body =>
    simp only [settle] at h
    split at h
    · cases h
      exact .gains rfl (.write _)
    · exact .claimed rfl h
  | _ =>
    cases h
    exact .gains rfl .none

theorem Gains.kept {d : Directive} {c c' : Composition} (h : Gains d c c') : Kept c c' := by
  cases h with
  | none => exact .refl c
  | write t => exact write_kept c t
  | capture body => exact capture_kept c body
  | choice _ h _ => exact change?_kept (fun _ _ => Element.bare_mapChoice?) h

theorem Ended.kept {c c' : Composition} {e : Element} (h : Ended c e c') : Kept c c' := by
  cases h with
  | gains _ h => exact h.kept
  | attempt _ h => exact change?_kept (fun _ _ => Element.bare_mapTrial?) h
  | except _ h => exact change?_kept (fun _ _ => Element.bare_mapTrial?) h
  | @claimed error _ h =>
    have hreport := report_kept c error
    rwa [h] at hreport

end Composition

namespace Page

open EdgeCompose.Composition

variable {p : Page} {inner : Composer}

theorem close_ended {c c' : Composition} {e : Element}
    (h : (p.close inner c e).Yields (c', .ok ())) : Ended c e c' := by
  have hsettle : (Program.done (c.settle p.bindings e)).Yields (c', .ok ()) → Ended c e c' := by
    intro h
    rw [Program.yields_done] at h
    exact settle_ended h.symm
  cases e with
  | inclusion i =>
    simp only [close, Program.bind_eq_bind, Program.yields_bind] at h
    obtain ⟨composed, -, h⟩ := h
    cases composed with
    | ok t =>
      simp only [Program.pure_eq_done, Program.yields_done, Prod.mk.injEq] at h
      obtain ⟨rfl, -⟩ := h
      exact .gains rfl (.write t)
    | error error =>
      simp only [Program.pure_eq_done] at h
      split at h
      · simp only [Program.yields_done, Prod.mk.injEq] at h
        obtain ⟨rfl, -⟩ := h
        exact .gains rfl .none
      · rw [Program.yields_done] at h
        exact .claimed rfl h.symm
  | inline name fetchable body =>
    simp only [close] at h
    split at h
    · rw [Program.pure_eq_done, Program.yields_done] at h
      exact .claimed rfl h.symm
    · simp only [Program.bind_eq_bind, Program.perform_eq_ask, Program.ask_bind,
        Program.done_bind, Program.pure_eq_done, Program.yields_ask, Program.yields_done,
        Prod.mk.injEq] at h
      obtain ⟨-, rfl, -⟩ := h
      exact .gains rfl .none
  | _ => exact hsettle h

theorem closeTop_ended {c c' : Composition} {tag : Text}
    (h : (p.closeTop inner c tag).Yields (c', .ok ())) :
    ∃ e c₁, c.pop? = some (e, c₁) ∧ Ended c₁ e c' := by
  unfold closeTop at h
  split at h
  · simp [Program.yields_done] at h
  · next e c₁ hpop => exact ⟨e, c₁, hpop, close_ended h⟩

theorem take_takes {c c' : Composition} {t : Markup.Token}
    (h : (p.take inner c t).Yields (c', .ok ())) : Takes c t c' := by
  cases t with
  | text t =>
    simp only [take, Program.pure_eq_done, Program.yields_done, Prod.mk.injEq] at h
    obtain ⟨rfl, -⟩ := h
    exact .written t rfl rfl
  | tag tag =>
    simp only [take, takeTag] at h
    split at h
    · split at h
      · next c₁ hends =>
        obtain rfl := foreignTag_true hends
        obtain ⟨e, c₂, hpop, hended⟩ := closeTop_ended h
        exact .ended hpop hended
      · next c₁ hinside =>
        simp only [Program.pure_eq_done, Program.yields_done, Prod.mk.injEq] at h
        obtain ⟨rfl, -⟩ := h
        exact .written tag (foreignTag_false hinside).1 (foreignTag_false hinside).2
    · next hforeign =>
      rw [Bool.not_eq_true] at hforeign
      split at h
      · next d hd =>
        unfold start at h
        cases ho : c.opened p.bindings d tag with
        | error error => simp [ho, Program.yields_done] at h
        | ok found =>
          obtain ⟨e, c₁⟩ := found
          simp only [ho] at h
          obtain ⟨hgains, hbare⟩ := opened_gains ho
          obtain rfl := (opened_kept ho).2
          cases hself : Markup.isSelfClosing tag with
          | true =>
            simp only [hself] at h
            obtain ⟨e', c₂, hpop, hended⟩ := closeTop_ended h
            cases hpop
            exact .single hforeign hd hgains hbare hended
          | false =>
            simp only [hself, Program.pure_eq_done, Program.yields_done, Prod.mk.injEq] at h
            obtain ⟨rfl, -⟩ := h
            exact .opened hforeign hd hgains hbare
      · next d hd =>
        split at h
        · obtain ⟨e, c₁, hpop, hended⟩ := closeTop_ended h
          exact .ended hpop hended
        · rw [Program.pure_eq_done, Program.yields_done] at h
          exact .claimed h.symm
      · simp only [Program.pure_eq_done, Program.yields_done, Prod.mk.injEq] at h
        obtain ⟨rfl, -⟩ := h
        exact .written tag rfl rfl

end Page

/-! ## Verdicts -/

/-- What an element says of trials: whether it is one or an attempt, and whether it has failed. -/
inductive Verdict where
  | trial (failed : Bool)
  | attempt (failed : Bool)
  | other
  deriving DecidableEq, Repr

namespace Verdict

/-- The place of the innermost trial, which is the number of elements that are open around it. -/
def owner? : List Verdict → Option Nat
  | [] => none
  | .trial _ :: rest => some rest.length
  | _ :: rest => owner? rest

/-- What an element is open in is told by it that the trial at a place is lost. -/
def Tells (n : Nat) (rest : List Verdict) : Verdict → Prop
  | .trial failed => failed = true ∧ rest.length = n
  | .attempt failed => failed = true ∧ owner? rest = some n
  | .other => False

/-- The trial at a place is lost: it has failed, or an attempt of its own that is still open has. -/
def Lost (n : Nat) : List Verdict → Prop
  | [] => False
  | v :: rest => v.Tells n rest ∨ Lost n rest

variable {n : Nat} {v v' : Verdict} {vs vs' front back : List Verdict}

theorem owner?_lt (h : owner? vs = some n) : n < vs.length := by
  induction vs with
  | nil => cases h
  | cons v rest ih =>
    cases v with
    | trial failed =>
      cases h
      exact Nat.lt_succ_self _
    | _ => exact Nat.lt_succ_of_lt (ih h)

theorem not_lost_of_length_le (h : vs.length ≤ n) : ¬ Lost n vs := by
  induction vs with
  | nil => exact id
  | cons v rest ih =>
    rw [List.length_cons] at h
    rintro (htells | hlost)
    · cases v with
      | trial failed => exact absurd htells.2 (by omega)
      | attempt failed => exact absurd (owner?_lt htells.2) (by omega)
      | other => exact htells
    · exact ih (by omega) hlost

def SameKind : Verdict → Verdict → Prop
  | .trial _, .trial _ | .attempt _, .attempt _ | .other, .other => True
  | _, _ => False

theorem owner?_replace (h : SameKind v v') (front back : List Verdict) :
    owner? (front ++ v' :: back) = owner? (front ++ v :: back) := by
  induction front with
  | nil => cases v <;> cases v' <;> first | rfl | exact h.elim
  | cons a front ih => cases a <;> simp [owner?, ih]

/-- One verdict changes, and with it what it tells. -/
theorem lost_replace {P : Prop} (h : SameKind v v') (htells : v'.Tells n back ↔ v.Tells n back ∨ P) :
    Lost n (front ++ v' :: back) ↔ Lost n (front ++ v :: back) ∨ P := by
  induction front with
  | nil =>
    simp only [List.nil_append, Lost, htells]
    exact or_right_comm
  | cons a front ih =>
    have hsame : a.Tells n (front ++ v' :: back) ↔ a.Tells n (front ++ v :: back) := by
      cases a <;> simp [Tells, owner?_replace h]
    simp only [List.cons_append, Lost, hsame, ih]
    exact or_assoc.symm

theorem lost_claim {failed : Bool} : Lost n (front ++ .attempt true :: back) ↔
    Lost n (front ++ .attempt failed :: back) ∨ failed = false ∧ owner? back = some n :=
  lost_replace (by trivial) (by cases failed <;> simp [Tells])

/-- An attempt that ends tells its trial what it would have told it. -/
theorem lost_settle {failed lost : Bool} (hfront : ∀ v ∈ front, ¬ SameKind (.trial false) v) :
    Lost n (front ++ .trial (lost || failed) :: back) ↔
      Lost n (.attempt failed :: (front ++ .trial lost :: back)) := by
  have howner : owner? (front ++ .trial lost :: back) = some back.length := by
    induction front with
    | nil => rfl
    | cons a front ih =>
      have hrest := ih fun v hv => hfront v (List.mem_cons_of_mem _ hv)
      cases a with
      | trial failed => exact (hfront _ List.mem_cons_self trivial).elim
      | _ => exact hrest
  rw [lost_replace (v := .trial lost) (P := failed = true ∧ back.length = n) (by trivial)
    (by cases lost <;> cases failed <;> simp [Tells])]
  simp only [Lost, Tells, howner, Option.some.injEq]
  exact Or.comm

/-- What a token does to the verdicts. -/
inductive Told : List Verdict → List Verdict → Prop
  | same (vs : List Verdict) : Told vs vs
  | opens {v : Verdict} (vs : List Verdict) : (∀ n rest, ¬ v.Tells n rest) → Told vs (v :: vs)
  | ends {v : Verdict} (vs : List Verdict) : ¬ SameKind (.attempt false) v → Told (v :: vs) vs
  | settles {failed lost : Bool} {front back : List Verdict} :
    (∀ v ∈ front, ¬ SameKind (.trial false) v) →
    Told (.attempt failed :: (front ++ .trial lost :: back)) (front ++ .trial (lost || failed) :: back)
  | claims {front : List Verdict} (failed : Bool) (back : List Verdict) :
    Told (front ++ .attempt failed :: back) (front ++ .attempt true :: back)
  | endsClaims {v : Verdict} {front : List Verdict} (failed : Bool) (back : List Verdict) :
    ¬ SameKind (.attempt false) v →
    Told (v :: (front ++ .attempt failed :: back)) (front ++ .attempt true :: back)

/-- With the change an attempt fails whose trial is at the place. -/
def Loses (n : Nat) (vs vs' : List Verdict) : Prop :=
  ∃ front back front' back', vs = front ++ .attempt false :: back ∧
    vs' = front' ++ .attempt true :: back' ∧ back.length = back'.length ∧ owner? back' = some n

theorem Loses.lost (h : Loses n vs vs') : Lost n vs' := by
  obtain ⟨front, back, front', back', -, rfl, -, howner⟩ := h
  have hclaim : Lost n (front' ++ .attempt true :: back') ↔
      Lost n (front' ++ .attempt false :: back') ∨ false = false ∧ owner? back' = some n := lost_claim
  exact hclaim.mpr (.inr ⟨rfl, howner⟩)

theorem lost_ended (hv : ¬ SameKind (.attempt false) v) (hn : n < vs.length) :
    Lost n (v :: vs) ↔ Lost n vs := by
  cases v with
  | trial failed =>
    have htells : ¬ (Verdict.trial failed).Tells n vs := fun h => by
      have hlength := h.2
      omega
    simp [Lost, htells]
  | attempt failed => exact (hv trivial).elim
  | other => simp [Lost, Tells]

/-- A trial that stays open is lost if it was, or if an attempt of its own fails. -/
theorem Told.lost_iff (h : Told vs vs') (hn : n < vs'.length) :
    Lost n vs' ↔ Lost n vs ∨ Loses n vs vs' := by
  have hclaimed {v front failed back} (heq : vs = v ++ (front ++ Verdict.attempt failed :: back))
      (heq' : vs' = front ++ .attempt true :: back) (hfailed : failed = false)
      (howner : owner? back = some n) : Loses n vs vs' := by
    subst hfailed
    exact ⟨v ++ front, back, front, back, by simp [heq], heq', rfl, howner⟩
  refine ⟨fun hlost => ?_, Or.rec (fun hlost => ?_) Loses.lost⟩
  · cases h with
    | same vs => exact .inl hlost
    | opens vs hfresh => exact .inl (hlost.resolve_left (hfresh n vs))
    | ends vs hv => exact .inl (.inr hlost)
    | settles hfront => exact .inl ((lost_settle hfront).mp hlost)
    | @claims front failed back =>
      refine (lost_claim.mp hlost).imp_right fun ⟨hfailed, howner⟩ => ?_
      exact hclaimed (v := []) rfl rfl hfailed howner
    | @endsClaims v front failed back hv =>
      refine (lost_claim.mp hlost).imp .inr fun ⟨hfailed, howner⟩ => ?_
      exact hclaimed (v := [v]) rfl rfl hfailed howner
  · cases h with
    | same vs => exact hlost
    | opens vs _ => exact .inr hlost
    | ends vs hv => exact (lost_ended hv hn).mp hlost
    | settles hfront => exact (lost_settle hfront).mpr hlost
    | claims failed back => exact lost_claim.mpr (.inl hlost)
    | endsClaims failed back hv =>
      refine lost_claim.mpr (.inl ((lost_ended hv ?_).mp hlost))
      simpa using hn

end Verdict

namespace Element

def verdict : Element → Verdict
  | .tryBlock trial => .trial trial.failed
  | .attempt failed _ => .attempt failed
  | _ => .other

theorem verdict_write (e : Element) (t : Text) : (e.write t).verdict = e.verdict := by
  cases e <;> rfl

theorem verdict_mapChoice? {f : Choice → Choice} {e e' : Element} (h : e.mapChoice? f = some e') :
    e'.verdict = e.verdict := by
  cases e with
  | choose choice =>
    cases h
    rfl
  | _ => cases h

theorem not_tells_of_bare {e : Element} (h : e.bare = e) (n : Nat) (rest : List Verdict) :
    ¬ e.verdict.Tells n rest := by
  rw [← h]
  cases e <;> simp [bare, verdict, Verdict.Tells]

theorem not_attempt_of_claim? {e : Element} (h : e.claim? = none) :
    ¬ Verdict.SameKind (.attempt false) e.verdict := by
  cases e with
  | attempt failed body => cases h
  | _ => exact id

theorem not_trial_of_mapTrial? {f : Trial → Trial} {e : Element} (h : e.mapTrial? f = none) :
    ¬ Verdict.SameKind (.trial false) e.verdict := by
  cases e with
  | tryBlock trial => cases h
  | _ => exact id

/-- An attempt is found where its verdict is. -/
theorem attempt_of_verdicts {stack : List Element} {front back : List Verdict} {failed : Bool}
    (h : stack.map verdict = front ++ .attempt failed :: back) :
    ∃ opened body below, stack = opened ++ .attempt failed body :: below ∧
      below.map verdict = back := by
  obtain ⟨opened, rest, rfl, -, hrest⟩ := List.map_eq_append_iff.mp h
  obtain ⟨e, below, rfl, he, hbelow⟩ := List.map_eq_cons_iff.mp hrest
  cases e with
  | attempt failed' body =>
    cases he
    exact ⟨opened, body, below, rfl, hbelow⟩
  | _ => cases he

end Element

namespace Composition

open Verdict

variable {c c' : Composition} {e : Element}

def verdicts (c : Composition) : List Verdict := c.stack.map Element.verdict

theorem verdicts_write (c : Composition) (t : Text) : (c.write t).verdicts = c.verdicts := by
  unfold write verdicts
  split <;> simp [*, Element.verdict_write]

theorem Gains.verdicts {d : Directive} (h : Gains d c c') : c'.verdicts = c.verdicts := by
  cases h with
  | none => rfl
  | write t => exact verdicts_write c t
  | capture body =>
    unfold Composition.capture
    split <;> rfl
  | choice _ h _ =>
    obtain ⟨stack, hstack, rfl⟩ := Option.map_eq_some_iff.mp h
    obtain ⟨front, e, e', back, heq, rfl, he, -⟩ := Element.changeFirst?_split hstack
    simp [Composition.verdicts, heq, Element.verdict_mapChoice? he]

theorem report_verdicts {error : ComposeError} (h : c.report error = (c', .ok ())) :
    ∃ front failed back, c.verdicts = front ++ .attempt failed :: back ∧
      c'.verdicts = front ++ .attempt true :: back := by
  obtain ⟨front, failed, body, back, hstack, hstack', -⟩ := Page.report_claimed h
  refine ⟨front.map Element.verdict, failed, back.map Element.verdict, ?_, ?_⟩
  · simp [verdicts, hstack, Element.verdict]
  · simp [verdicts, hstack', Element.verdict]

/-- What the trial that an attempt belongs to makes of it. -/
theorem changeTrial_verdicts {f : Trial → Trial}
    (h : c.change? (Element.mapTrial? f) = some c') : ∃ front trial back,
      (∀ v ∈ front, ¬ SameKind (.trial false) v) ∧
      c.verdicts = front ++ .trial trial.failed :: back ∧
      c'.verdicts = front ++ .trial (f trial).failed :: back := by
  obtain ⟨stack, hstack, rfl⟩ := Option.map_eq_some_iff.mp h
  obtain ⟨front, e, e', back, heq, rfl, he, hfront⟩ := Element.changeFirst?_split hstack
  cases e with
  | tryBlock trial =>
    cases he
    refine ⟨front.map Element.verdict, trial, back.map Element.verdict, ?_, ?_, ?_⟩
    · intro v hv
      obtain ⟨a, ha, rfl⟩ := List.mem_map.mp hv
      exact Element.not_trial_of_mapTrial? (hfront a ha)
    · simp [verdicts, heq, Element.verdict]
    · simp [verdicts, Element.verdict]
  | _ => cases he

theorem failed_attempted (trial : Trial) (failed : Bool) (body : Text) :
    (Trial.attempted trial failed body).failed = (trial.failed || failed) := by
  cases failed <;> simp [Trial.attempted]

theorem Ended.told (h : Ended c e c') : Told (e.verdict :: c.verdicts) c'.verdicts := by
  cases h with
  | gains he hgains =>
    rw [hgains.verdicts]
    exact .ends _ (Element.not_attempt_of_claim? he)
  | attempt he hchange =>
    obtain ⟨front, trial, back, hfront, hbefore, hafter⟩ := changeTrial_verdicts hchange
    rw [he, hbefore, hafter, failed_attempted]
    exact .settles hfront
  | except he hchange =>
    obtain ⟨front, trial, back, -, hbefore, hafter⟩ := changeTrial_verdicts hchange
    rw [hbefore, hafter, he]
    exact .ends _ id
  | claimed he hreport =>
    obtain ⟨front, failed, back, hbefore, hafter⟩ := report_verdicts hreport
    rw [hbefore, hafter]
    exact .endsClaims failed back (Element.not_attempt_of_claim? he)

/-- An element that has taken in nothing tells nothing when it ends. -/
theorem Ended.told_bare (he : e.bare = e) (h : Ended c e c') : Told c.verdicts c'.verdicts := by
  cases h with
  | gains _ hgains =>
    rw [hgains.verdicts]
    exact .same _
  | @attempt failed body heq hchange =>
    obtain ⟨front, trial, back, hfront, hbefore, hafter⟩ := changeTrial_verdicts hchange
    rw [heq] at he
    cases he
    rw [hbefore, hafter, failed_attempted, Bool.or_false]
    exact .same _
  | except _ hchange =>
    obtain ⟨front, trial, back, -, hbefore, hafter⟩ := changeTrial_verdicts hchange
    rw [hbefore, hafter]
    exact .same _
  | claimed _ hreport =>
    obtain ⟨front, failed, back, hbefore, hafter⟩ := report_verdicts hreport
    rw [hbefore, hafter]
    exact .claims failed back

theorem Takes.told {t : Markup.Token} (h : Takes c t c') : Told c.verdicts c'.verdicts := by
  cases h with
  | written t hstack _ =>
    have hsame : c'.verdicts = c.verdicts := by
      rw [← verdicts_write c t, verdicts, hstack, verdicts]
    rw [hsame]
    exact .same _
  | claimed hreport =>
    obtain ⟨front, failed, back, hbefore, hafter⟩ := report_verdicts hreport
    rw [hbefore, hafter]
    exact .claims failed back
  | opened _ _ hgains he =>
    rw [← hgains.verdicts]
    exact .opens _ (Element.not_tells_of_bare he)
  | single _ _ hgains he hended =>
    have htold := hended.told_bare he
    rw [← hgains.verdicts]
    exact htold
  | ended hpop hended =>
    have htold := hended.told
    rw [verdicts, pop?_eq_some hpop]
    exact htold

end Composition

namespace Page

open EdgeCompose.Composition

variable {p : Page} {inner : Composer} {c c' : Composition} {t : Markup.Token} {n : Nat}

/-- With a token an attempt fails whose trial is the one at a place. -/
def Loses (p : Page) (inner : Composer) (n : Nat) (c : Composition) (t : Markup.Token)
    (c' : Composition) : Prop :=
  ∃ opened below, p.Fails inner c t c' opened below ∧
    Verdict.owner? (below.map Element.verdict) = some n

theorem loses_iff (h : (p.take inner c t).Yields (c', .ok ())) :
    p.Loses inner n c t c' ↔ Verdict.Loses n c.verdicts c'.verdicts := by
  constructor
  · rintro ⟨opened, below, ⟨-, ⟨front, body, rest, hbefore, hlength⟩, body', hafter⟩, howner⟩
    refine ⟨front.map Element.verdict, rest.map Element.verdict, opened.map Element.verdict,
      below.map Element.verdict, ?_, ?_, by simpa using hlength, howner⟩
    · simp [verdicts, hbefore, Element.verdict]
    · simp [verdicts, hafter, Element.verdict]
  · rintro ⟨front, back, front', back', hbefore, hafter, hlength, howner⟩
    obtain ⟨opened, body, rest, hstack, rfl⟩ := Element.attempt_of_verdicts hbefore
    obtain ⟨opened', body', below, hstack', rfl⟩ := Element.attempt_of_verdicts hafter
    exact ⟨opened', below, ⟨h, ⟨opened, body, rest, hstack, by simpa using hlength⟩, body',
      hstack'⟩, howner⟩

/-- What one token does to a trial that stays open: it is lost from then on if it was before, or if
an attempt of its own fails with the token. -/
theorem lost_step (h : (p.take inner c t).Yields (c', .ok ())) (hn : n < c'.stack.length) :
    Verdict.Lost n c'.verdicts ↔ Verdict.Lost n c.verdicts ∨ p.Loses inner n c t c' := by
  rw [loses_iff h]
  exact (take_takes h).told.lost_iff (by simpa [verdicts] using hn)

theorem Passes.lost {ts : List Markup.Token} {log : List Answered}
    (h : p.Passes inner (fun _ _ c' => n < c'.stack.length) c ts log c')
    (hlost : Verdict.Lost n c.verdicts) : Verdict.Lost n c'.verdicts := by
  induction h with
  | nil => exact hlost
  | cons htake hn _ ih => exact ih ((lost_step htake.yields hn).mpr (.inl hlost))

/-- In a run in which a trial stays open, it is not lost exactly if it was not before and no attempt
of its own fails. -/
theorem Passes.not_lost_iff {ts : List Markup.Token} {log : List Answered}
    (h : p.Passes inner (fun _ _ c' => n < c'.stack.length) c ts log c')
    (hbefore : ¬ Verdict.Lost n c.verdicts) : ¬ Verdict.Lost n c'.verdicts ↔
      p.Passes inner (fun c t c' => ¬ p.Loses inner n c t c') c ts log c' := by
  constructor
  · intro hafter
    induction h with
    | nil => exact .nil _
    | cons htake hn hrest ih =>
      have hbetween := mt hrest.lost hafter
      have hstep := mt (lost_step htake.yields hn).mpr hbetween
      exact .cons htake (fun hloses => hstep (.inr hloses)) (ih hbetween hafter)
  · intro hno
    have hboth := h.and hno
    clear h hno
    induction hboth with
    | nil => exact hbefore
    | cons htake hq _ ih =>
      refine ih (mt (lost_step htake.yields hq.1).mp ?_)
      exact not_or.mpr ⟨hbefore, hq.2⟩

end Page

end EdgeCompose
