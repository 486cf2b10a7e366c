import EdgeCompose.Proofs.Surroundings
import Mathlib.Control.Monad.Basic

/-!
A try with one attempt and one except in it. If no error reaches the attempt, or an attempt inside it
that is no other try's, the try gives what the attempt has taken in, and the except is passed over
without a command to the surroundings. If one does, the try gives what the except has taken in and
nothing of the attempt (`Page.TryOutcome`). What it gives goes to the element that the try stands in,
which is left as `Composition.Spared` says.
-/

namespace EdgeCompose

open Markup (Directive)

namespace Markup

/-! ## Try blocks as they are written -/

def Token.isIdle : Token → Bool
  | .text _ => true
  | .tag code => (lookup? code).isNone

/-- An element as it is written: its content is well-nested in it, and it has none if its start tag
closes itself. -/
structure Section (d : Directive) where
  opening : Text
  content : List Token := []
  closing : Option Text := none
  starts : lookup? opening = some (.starts d)
  nested : Nested [d] content
  single : isSelfClosing opening = closing.isNone
  empty : closing = none → content = []
  ends : ∀ tag ∈ closing, lookup? tag = some (.ends d)

def Section.tokens {d : Directive} (s : Section d) : List Token :=
  .tag s.opening :: (s.content ++ s.closing.toList.map .tag)

/-- A try in which an attempt stands, and an except after it. -/
structure TryBlock where
  opening : Text
  before : List Token := []
  attempt : Section .attempt
  between : List Token := []
  except : Section .except
  after : List Token := []
  closing : Text
  starts : lookup? opening = some (.starts .tryBlock)
  pair : isSelfClosing opening = false
  before_idle : ∀ t ∈ before, t.isIdle = true
  between_idle : ∀ t ∈ between, t.isIdle = true
  after_idle : ∀ t ∈ after, t.isIdle = true
  ends : lookup? closing = some (.ends .tryBlock)

def TryBlock.tokens (b : TryBlock) : List Token :=
  .tag b.opening :: (b.before ++ (b.attempt.tokens ++ (b.between ++ (b.except.tokens ++
    (b.after ++ [.tag b.closing])))))

end Markup

namespace Composition

open Verdict

variable {c : Composition} {n : Nat}

def NoAttemptAt (n : Nat) (c : Composition) : Prop :=
  ∀ opened failed body below, c.stack = opened ++ .attempt failed body :: below →
    below.length ≠ n + 1

theorem Stands.noAttemptAt {grows : Prop} {outside : Composition}
    (h : Stands .except grows outside c) : NoAttemptAt outside.stack.length c := by
  rintro opened failed body below hstack hlength
  obtain ⟨upper, low, hstack', hsuffix, -, hlow⟩ := h.stack
  obtain ⟨front, hfront⟩ := hsuffix
  have hplace : (below.map Element.directive).length = (Directive.tryBlock :: low.map
      Element.directive).length := by
    simp [hlength, hlow.length_eq]
  have hsame : (opened.map Element.directive ++ [.attempt]) ++ below.map Element.directive =
      (front ++ [.except]) ++ .tryBlock :: low.map Element.directive := by
    have hall := congrArg (List.map Element.directive) (hstack.symm.trans hstack')
    simpa [← hfront, Element.directive] using hall
  have hlast := congrArg List.getLast? (List.append_inj' hsame hplace).1
  simp at hlast

theorem not_lost_verdicts (c : Composition) : ¬ Lost c.stack.length c.verdicts :=
  not_lost_of_length_le (by simp [verdicts])

theorem lost_holding_attempt (c : Composition) (failed : Bool) (body : Text) (trial : Trial) :
    Lost c.stack.length (c.holding [.attempt failed body, .tryBlock trial]).verdicts ↔
      (trial.failed || failed) = true := by
  have hlength : (c.stack.map Element.verdict).length = c.stack.length := List.length_map _
  have hnot := c.not_lost_verdicts
  unfold verdicts at hnot
  simp [verdicts, holding, Element.verdict, Lost, Tells, owner?, hnot, or_comm]

theorem lost_holding_except (c : Composition) (active : Bool) (body : Text) (trial : Trial) :
    Lost c.stack.length (c.holding [.except active body, .tryBlock trial]).verdicts ↔
      trial.failed = true := by
  have hnot := c.not_lost_verdicts
  unfold verdicts at hnot
  simp [verdicts, holding, Element.verdict, Lost, Tells, hnot]

end Composition

namespace Page

open Program EdgeCompose.Composition

variable {p : Page} {inner : Composer} {c c' : Composition} {log : List Answered}

/-- A run in which no attempt fails that belongs to the trial at a place. -/
def Unharmed (p : Page) (inner : Composer) (n : Nat) :
    Composition → List Markup.Token → List Answered → Composition → Prop :=
  p.Passes inner fun c t c' => ¬ p.Loses inner n c t c'

/-! ## The parts of a block -/

/-- An element without a body of its own drops what is idle. -/
theorem take_idle {e : Element} {t : Markup.Token} (hf : e.isForeign = false)
    (hwrite : ∀ t, e.write t = e) (ht : t.isIdle = true) :
    p.take inner (c.holding [e]) t = .done (c.holding [e], .ok ()) := by
  have hwritten (t : Text) : (c.holding [e]).write t = c.holding [e] := by
    simp [Composition.write, holding, hwrite]
  cases t with
  | text t => rw [take, hwritten, pure_eq_done]
  | tag tag =>
    have hnone : Markup.lookup? tag = none := by simpa [Markup.Token.isIdle] using ht
    have hopens : (c.holding [e]).isForeign = false := hf
    simp [take, takeTag, hopens, hnone, hwritten]

/-- Between its attempts and excepts, a try drops all that is idle. -/
theorem takeAll_idle {ts us : List Markup.Token} {trial : Trial}
    (hts : ∀ t ∈ ts, t.isIdle = true) :
    p.takeAll inner (c.holding [.tryBlock trial]) (ts ++ us) =
      p.takeAll inner (c.holding [.tryBlock trial]) us := by
  induction ts with
  | nil => rfl
  | cons t ts ih =>
    rw [List.cons_append, takeAll, take_idle rfl (fun _ => rfl) (hts t List.mem_cons_self)]
    exact ih fun t ht => hts t (List.mem_cons_of_mem _ ht)

/-- The run over an element: its content is taken in the element that its tag opens. -/
theorem section_runs {d : Directive} (s : Markup.Section d) (hf : c.isForeign = false)
    (hdepth : c.foreignDepth = 0)
    (h : (p.takeAll inner c s.tokens).Performs log (.done (c', .ok ()))) :
    ∃ e c₀ c₁ tag log₁ log₂, log = log₁ ++ log₂ ∧ c.opened p.bindings d s.opening = .ok (e, c₀) ∧
      (p.takeAll inner (c₀.holding [e]) s.content).Performs log₁ (.done (c₁, .ok ())) ∧
      p.Inside inner (c₀.holding [e]) s.content log₁ c₁ ∧
      (p.closeTop inner c₁ tag).Performs log₂ (.done (c', .ok ())) := by
  obtain ⟨l₁, l, c₂, rfl, h₁, hafter⟩ := performs_takeAll_cons h
  obtain ⟨e, c₀, ho, hopened⟩ := take_starting hf s.starts h₁
  obtain ⟨hkept, rfl⟩ := opened_kept ho
  have hdepth₀ : c₀.foreignDepth = 0 := hkept.foreignDepth.trans hdepth
  have hbalanced : (c₀.holding [e]).Balanced := fun _ => hdepth₀
  cases hclosing : s.closing with
  | none =>
    rw [s.single, hclosing, Option.isNone_none, if_pos rfl] at hopened
    rw [s.empty hclosing, hclosing] at hafter
    obtain ⟨rfl, heq⟩ := hafter.of_done
    cases heq
    refine ⟨e, c₀, c₀.holding [e], s.opening, [], l₁, by simp, ho, ?_, ?_, hopened⟩
    · rw [s.empty hclosing]
      exact .nil _
    · rw [s.empty hclosing]
      exact .nil hbalanced
  | some closing =>
    rw [s.single, hclosing, Option.isNone_some, if_neg Bool.false_ne_true] at hopened
    obtain ⟨rfl, rfl⟩ := hopened
    rw [hclosing] at hafter
    obtain ⟨l₂, l₃, c₁, rfl, h₂, hlast⟩ := performs_takeAll_append hafter
    obtain ⟨l₄, l₅, c₃, rfl, h₃, hend⟩ := performs_takeAll_cons hlast
    obtain ⟨rfl, heq⟩ := hend.of_done
    cases heq
    have htop : (c₀.holding [e]).top? = some e.directive := rfl
    have hinside := Inside.nested s.nested hbalanced htop List.mem_cons_self h₂
    rw [take_ending (hinside.kept.top?.trans rfl) (hinside.kept.foreignDepth.trans hdepth₀)
      (s.ends closing (hclosing ▸ rfl))] at h₃
    exact ⟨e, c₀, c₁, closing, l₂, l₄, by simp, ho, h₂, hinside, h₃⟩

/-- The run over an attempt: its trial is told of it what it has come to. -/
theorem attempt_runs (s : Markup.Section .attempt) {trial : Trial} (hdepth : c.foreignDepth = 0)
    (h : (p.takeAll inner (c.holding [.tryBlock trial]) s.tokens).Performs log
      (.done (c', .ok ()))) :
    ∃ failed body trial' left,
      Spared (¬ p.Sheltered inner c.stack.length (c.holding [.attempt false [], .tryBlock trial])
        s.content log (left.holding [.attempt failed body, .tryBlock trial'])) False c left ∧
      (p.takeAll inner (c.holding [.attempt false [], .tryBlock trial]) s.content).Performs log
        (.done (left.holding [.attempt failed body, .tryBlock trial'], .ok ())) ∧
      c' = left.holding [.tryBlock (Trial.attempted trial' failed body)] ∧
      (trial.failed = false → ((trial'.failed || failed) = false ↔
        p.Unharmed inner c.stack.length (c.holding [.attempt false [], .tryBlock trial]) s.content log
          (left.holding [.attempt failed body, .tryBlock trial']))) := by
  obtain ⟨e, c₀, c₁, tag, log₁, log₂, rfl, ho, hcontent, hinside, hclose⟩ :=
    section_runs (c := c.holding [.tryBlock trial]) s rfl hdepth h
  cases ho
  obtain ⟨hopen, -, e', trial', left, he', rfl, hspared⟩ := Inside.stands (.inl rfl) rfl hinside
  cases e' with
  | attempt failed body =>
    have hlength : left.stack.length = c.stack.length := hspared.stack.length_eq.symm
    have hdepth' : left.foreignDepth = 0 := hspared.foreignDepth.trans hdepth
    obtain ⟨stack, root, depth⟩ := left
    cases hdepth'
    obtain ⟨rfl, heq⟩ := hclose.of_done
    cases heq
    rw [List.append_nil]
    refine ⟨failed, body, trial', _, hspared.mono id nofun, hcontent, rfl, fun htrial => ?_⟩
    have hbefore := mt (lost_holding_attempt c false [] trial).mp (by simp [htrial])
    have hiff := hopen.not_lost_iff hbefore
    rw [← hlength, lost_holding_attempt, Bool.not_eq_true] at hiff
    rw [hiff, hlength]
    exact .rfl
  | _ => cases he'

/-- The except of a try whose attempt has not failed is passed over. -/
theorem except_skipped (s : Markup.Section .except) {trial : Trial} (hdepth : c.foreignDepth = 0)
    (htrial : trial.failed = false)
    (h : (p.takeAll inner (c.holding [.tryBlock trial]) s.tokens).Performs log
      (.done (c', .ok ()))) : log = [] ∧ c' = c.holding [.tryBlock trial] := by
  obtain ⟨e, c₀, c₁, tag, log₁, log₂, rfl, ho, -, hinside, hclose⟩ :=
    section_runs (c := c.holding [.tryBlock trial]) s rfl hdepth h
  obtain ⟨rfl, rfl⟩ : Element.except trial.failed [] = e ∧ c.holding [.tryBlock trial] = c₀ := by
    cases ho
    exact ⟨rfl, rfl⟩
  rw [htrial] at hinside
  obtain ⟨rfl, t, rfl⟩ := hinside.foreign rfl
  obtain ⟨stack, root, depth⟩ := c
  cases hdepth
  obtain ⟨rfl, heq⟩ := hclose.of_done
  cases heq
  exact ⟨rfl, rfl⟩

/-- The run over the except of a try whose attempt has failed. -/
theorem except_runs (s : Markup.Section .except) {trial : Trial} (hdepth : c.foreignDepth = 0)
    (htrial : trial.failed = true)
    (h : (p.takeAll inner (c.holding [.tryBlock trial]) s.tokens).Performs log
      (.done (c', .ok ()))) :
    ∃ body trial' left,
      Spared (¬ p.Sheltered inner c.stack.length (c.holding [.except true [], .tryBlock trial])
        s.content log (left.holding [.except true body, .tryBlock trial'])) True c left ∧
      p.Passes inner (fun _ _ c₂ => NoAttemptAt c.stack.length c₂)
        (c.holding [.except true [], .tryBlock trial]) s.content log
        (left.holding [.except true body, .tryBlock trial']) ∧
      trial'.failed = true ∧
      c' = left.holding [.tryBlock { trial' with except := some body }] := by
  obtain ⟨e, c₀, c₁, tag, log₁, log₂, rfl, ho, hcontent, hinside, hclose⟩ :=
    section_runs (c := c.holding [.tryBlock trial]) s rfl hdepth h
  obtain ⟨rfl, rfl⟩ : Element.except trial.failed [] = e ∧ c.holding [.tryBlock trial] = c₀ := by
    cases ho
    exact ⟨rfl, rfl⟩
  rw [htrial] at hcontent hinside
  obtain ⟨hopen, hstands, e', trial', left, he', rfl, hspared⟩ :=
    Inside.stands (.inr rfl) rfl hinside
  cases e' with
  | except active body =>
    cases he'
    have hlength : left.stack.length = c.stack.length := hspared.stack.length_eq.symm
    have hdepth' : left.foreignDepth = 0 := hspared.foreignDepth.trans hdepth
    obtain ⟨stack, root, depth⟩ := left
    cases hdepth'
    obtain ⟨rfl, heq⟩ := hclose.of_done
    cases heq
    have hlost := hopen.lost ((lost_holding_except c true [] trial).mpr htrial)
    rw [← hlength, lost_holding_except] at hlost
    rw [List.append_nil]
    refine ⟨body, trial', _, hspared.mono id fun _ => trivial, ?_, hlost, rfl⟩
    exact hstands.mono fun _ _ _ _ ⟨_, hq⟩ => hq.noAttemptAt
  | _ => cases he'

/-- The rest of a try writes what the trial has come to. -/
theorem rest_runs {ts : List Markup.Token} {tag : Text} {trial : Trial}
    (hdepth : c.foreignDepth = 0) (hts : ∀ t ∈ ts, t.isIdle = true)
    (hend : Markup.lookup? tag = some (.ends .tryBlock))
    (h : (p.takeAll inner (c.holding [.tryBlock trial]) (ts ++ [.tag tag])).Performs log
      (.done (c', .ok ()))) : log = [] ∧ c' = c.write trial.out := by
  have htake : p.take inner (c.holding [.tryBlock trial]) (.tag tag) =
      .done (c.write trial.out, .ok ()) := by
    have hclose : p.take inner (c.holding [.tryBlock trial]) (.tag tag) =
        p.closeTop inner (c.holding [.tryBlock trial]) tag := take_ending rfl hdepth hend
    rw [hclose]
    obtain ⟨stack, root, depth⟩ := c
    cases hdepth
    rfl
  rw [takeAll_idle hts, takeAll, htake] at h
  obtain ⟨rfl, heq⟩ := h.of_done
  cases heq
  exact ⟨rfl, rfl⟩

/-! ## The whole block -/

/-- What a block comes to in a state `c`, with the answers of a log. -/
inductive TryOutcome (p : Page) (inner : Composer) (b : Markup.TryBlock) (c : Composition) :
    List Answered → Composition → Prop
  /-- No error reaches the attempt or one inside it that is no other try's. The try gives what the
  attempt has taken in, and nothing is done for the except. -/
  | kept {log : List Answered} {body : Text} {trial : Trial} {left : Composition} :
    p.Unharmed inner c.stack.length (c.holding [.attempt false [], .tryBlock {}])
      b.attempt.content log (left.holding [.attempt false body, .tryBlock trial]) →
    Spared (¬ p.Sheltered inner c.stack.length (c.holding [.attempt false [], .tryBlock {}])
      b.attempt.content log (left.holding [.attempt false body, .tryBlock trial])) False c left →
    TryOutcome p inner b c log (left.write body)
  /-- An error reaches one of them. The try gives what the except has taken in, and no attempt of the
  try's own is open in which an error of the except could end. -/
  | replaced {log₁ log₂ : List Answered} {failed : Bool} {body instead : Text}
    {trial trial' : Trial} {left after : Composition} :
    (p.takeAll inner (c.holding [.attempt false [], .tryBlock {}]) b.attempt.content).Performs log₁
      (.done (left.holding [.attempt failed body, .tryBlock trial], .ok ())) →
    ¬ p.Unharmed inner c.stack.length (c.holding [.attempt false [], .tryBlock {}])
      b.attempt.content log₁ (left.holding [.attempt failed body, .tryBlock trial]) →
    Spared (¬ p.Sheltered inner c.stack.length (c.holding [.attempt false [], .tryBlock {}])
      b.attempt.content log₁ (left.holding [.attempt failed body, .tryBlock trial])) False c left →
    p.Passes inner (fun _ _ c₂ => NoAttemptAt c.stack.length c₂)
      (left.holding [.except true [], .tryBlock (Trial.attempted trial failed body)])
      b.except.content log₂ (after.holding [.except true instead, .tryBlock trial']) →
    Spared (¬ p.Sheltered inner c.stack.length
      (left.holding [.except true [], .tryBlock (Trial.attempted trial failed body)])
      b.except.content log₂ (after.holding [.except true instead, .tryBlock trial'])) True
      left after →
    TryOutcome p inner b c (log₁ ++ log₂) (after.write instead)

/-- A try is all or nothing: it gives all that its attempt has taken in, or all that its except has
and nothing of the attempt. -/
theorem tryBlock_outcome {wanted : Option Text} (b : Markup.TryBlock)
    (hc : p.Reaches inner wanted c) (hf : c.isForeign = false)
    (h : (p.takeAll inner c b.tokens).Performs log (.done (c', .ok ()))) :
    p.TryOutcome inner b c log c' := by
  have hdepth : c.foreignDepth = 0 := hc.balanced hf
  obtain ⟨l₁, l₂, c₁, rfl, hstart, h⟩ := performs_takeAll_cons h
  obtain ⟨e, c₀, ho, hopened⟩ := take_starting hf b.starts hstart
  cases ho
  rw [b.pair, if_neg Bool.false_ne_true] at hopened
  obtain ⟨rfl, rfl⟩ := hopened
  replace h : (p.takeAll inner (c.holding [.tryBlock {}]) _).Performs _ _ := h
  rw [takeAll_idle b.before_idle] at h
  obtain ⟨log₁, l₃, c₁, rfl, hattempt, h⟩ := performs_takeAll_append h
  obtain ⟨failed, body, trial, left, hspared, hcontent, rfl, hiff⟩ :=
    attempt_runs b.attempt hdepth hattempt
  have hdepth₁ : left.foreignDepth = 0 := hspared.foreignDepth.trans hdepth
  rw [takeAll_idle b.between_idle] at h
  obtain ⟨log₂, l₄, c₁, rfl, hexcept, h⟩ := performs_takeAll_append h
  have hlost := failed_attempted trial failed body
  cases hfailed : (Trial.attempted trial failed body).failed with
  | false =>
    obtain ⟨rfl, rfl⟩ := except_skipped b.except hdepth₁ hfailed hexcept
    obtain ⟨rfl, rfl⟩ := rest_runs hdepth₁ b.after_idle b.ends h
    have hunharmed := (hiff rfl).mp (hlost.symm.trans hfailed)
    obtain ⟨htrial, rfl⟩ := Bool.or_eq_false_iff.mp (hlost.symm.trans hfailed)
    have hout : (Trial.attempted trial false body).out = body := by
      simp [Trial.attempted, Trial.out, htrial]
    rw [hout, List.nil_append, List.append_nil, List.append_nil]
    exact .kept hunharmed hspared
  | true =>
    obtain ⟨instead, trial', after, hspared', hpasses, hfailed', rfl⟩ :=
      except_runs b.except hdepth₁ hfailed hexcept
    have hdepth₂ : after.foreignDepth = 0 := hspared'.foreignDepth.trans hdepth₁
    obtain ⟨rfl, rfl⟩ := rest_runs hdepth₂ b.after_idle b.ends h
    have hharmed := mt (hiff rfl).mpr (by simp [← hlost, hfailed])
    have hout : { trial' with except := some instead : Trial }.out = instead := by
      simp [Trial.out, hfailed']
    rw [← hspared.stack.length_eq] at hpasses hspared'
    rw [hout, List.nil_append, List.append_nil]
    exact .replaced hcontent hharmed hspared hpasses hspared'

end Page

namespace Renderer

open Program EdgeCompose.Composition

/-- A try whose attempt has an end tag in it that ends nothing. -/
def strayBlock : Markup.TryBlock where
  opening := "<esi:try>".toList
  attempt := {
    opening := "<esi:attempt>".toList
    content := [.text "kept".toList, .tag "</esi:remove>".toList]
    closing := some "</esi:attempt>".toList
    starts := by decide +kernel
    nested := .text _ (.stray (d := .remove) (by decide +kernel) (by decide) .nil)
    single := by decide +kernel
    empty := by simp
    ends := by
      rintro tag ⟨⟩
      decide +kernel }
  except := {
    opening := "<esi:except>".toList
    content := [.text "fallback".toList]
    closing := some "</esi:except>".toList
    starts := by decide +kernel
    nested := .text _ .nil
    single := by decide +kernel
    empty := by simp
    ends := by
      rintro tag ⟨⟩
      decide +kernel }
  closing := "</esi:try>".toList
  starts := by decide +kernel
  pair := by decide +kernel
  before_idle := by simp
  between_idle := by simp
  after_idle := by simp
  ends := by decide +kernel

theorem tryBlock_outcome_stray :
    partRenderer.page.Reaches partRenderer.inner none (.ofWanted none) ∧
      (partRenderer.page.takeAll partRenderer.inner (.ofWanted none) strayBlock.tokens).Performs []
        (.done ({ root := .document "fallback".toList }, .ok ())) ∧
      partRenderer.page.TryOutcome partRenderer.inner strayBlock (.ofWanted none) []
        { root := .document "fallback".toList } := by
  have hrun : (partRenderer.page.takeAll partRenderer.inner (.ofWanted none)
      strayBlock.tokens).Performs [] (.done ({ root := .document "fallback".toList }, .ok ())) :=
    performs_of_replay? (by decide +kernel)
  exact ⟨.start, hrun, Page.tryBlock_outcome strayBlock .start rfl hrun⟩

/-- An attempt inside the attempt that has no try of its own, in which an include fails. -/
def innerAttempt : Text :=
  "kept<esi:attempt>lost<esi:include src='http://host/missing'/></esi:attempt>".toList

/-- No error reaches the attempt, and still the try gives what the except has taken in; and a choice
around a try gives what a branch in its failed attempt has taken in. -/
theorem untouched_attempt_replaced :
    ((partRenderer.page.takeAll partRenderer.inner inAttempt (Markup.scan innerAttempt)).run
        partWorld).1 = .finished ({ inAttempt with
          stack := [.attempt false "kept".toList, .tryBlock { failed := true }] }, .ok ()) ∧
      ((partRenderer.render ("<esi:try><esi:attempt>".toList ++ innerAttempt ++
        "</esi:attempt><esi:except>fallback</esi:except></esi:try>".toList)).run partWorld).1 =
          .finished (.ok "fallback".toList) ∧
      ((partRenderer.render ("<esi:choose><esi:try><esi:attempt><esi:when test='true'>lost" ++
        "</esi:when><esi:include src='http://host/missing'/></esi:attempt>" ++
        "<esi:except>fallback</esi:except></esi:try></esi:choose>").toList).run partWorld).1 =
          .finished (.ok "lost".toList) := by
  refine ⟨?_, ?_, ?_⟩
  · decide +kernel
  · decide +kernel
  · decide +kernel

end Renderer

end EdgeCompose
