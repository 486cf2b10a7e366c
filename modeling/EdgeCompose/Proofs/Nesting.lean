import EdgeCompose.Proofs.Embedding
import EdgeCompose.Proofs.Logs
import EdgeCompose.Proofs.Rendering
import EdgeCompose.Proofs.Tags

/-!
Well-nested content. In some open elements, tokens are well-nested if every element that they open
they also end, in its turn, and if no end tag among them belongs to an element that is open around
it (`Markup.Nested`). A run over such tokens passes states in which at least as many elements are
open as in the beginning, and in the end just these are (`Page.Inside.nested`).
-/

namespace EdgeCompose

open Markup (Directive)

namespace Markup

/-! ## The roles of tags -/

namespace Directive

theorem mem_all (d : Directive) : d ∈ all := by
  cases d <;> decide

theorem name_injective {d d' : Directive} (h : d.name = d'.name) : d = d' := by
  have hfound (d : Directive) : all.find? (·.name == d.name) = some d := by
    cases d <;> rfl
  rw [← Option.some_inj, ← hfound d, h, hfound d']

theorem endsName_name (d : Directive) : ∀ c ∈ d.name, (! endsName c) = true := by
  cases d <;> exact List.all_eq_true.mp rfl

/-- A tag that belongs to a directive says its name after the lead, and then something that ends a
name. -/
theorem leads_name {lead tag : Text} {d : Directive} (h : leads (lead ++ d.name) tag = true) :
    ∃ rest, tag = lead ++ rest ∧ rest.takeWhile (! endsName ·) = d.name := by
  unfold leads at h
  cases hdrop : Text.dropLead? (lead ++ d.name) tag with
  | none => simp [hdrop] at h
  | some after =>
    refine ⟨d.name ++ after, ?_, (takeWhile_run d.endsName_name ?_).1⟩
    · rw [Text.eq_append_of_dropLead? hdrop, List.append_assoc]
    · intro c hc
      cases after with
      | nil => cases hc
      | cons a after =>
        cases hc
        simpa [hdrop] using h

theorem leads_unique {lead tag : Text} {d d' : Directive} (h : leads (lead ++ d.name) tag = true)
    (h' : leads (lead ++ d'.name) tag = true) : d = d' := by
  obtain ⟨rest, rfl, hname⟩ := leads_name h
  obtain ⟨rest', heq, hname'⟩ := leads_name h'
  obtain rfl := List.append_cancel_left heq
  exact name_injective (hname.symm.trans hname')

/-- No tag starts an element and ends one. -/
theorem isEndTag_of_isStartTag {tag : Text} {d d' : Directive} (h : d.isStartTag tag = true) :
    d'.isEndTag tag = false := by
  rw [← Bool.not_eq_true]
  intro h'
  obtain ⟨rest, rfl, -⟩ := leads_name h
  obtain ⟨rest', heq, -⟩ := leads_name h'
  simp [startLead, endLead] at heq

end Directive

variable {tag : Text} {d d' : Directive}

theorem role?_cases {role : TagRole} (h : role? d tag = some role) :
    d.isStartTag tag = true ∧ role = .starts d ∨ d.isEndTag tag = true ∧ role = .ends d := by
  unfold role? at h
  split at h
  · next hstart => exact .inl ⟨hstart, (Option.some.inj h).symm⟩
  · split at h
    · next hend => exact .inr ⟨hend, (Option.some.inj h).symm⟩
    · cases h

/-- A tag that plays one part only is looked up in that part. -/
private theorem lookup?_of_role? {role : TagRole} (h : role? d tag = some role)
    (honly : ∀ d' role', role? d' tag = some role' → role' = role) : lookup? tag = some role := by
  cases hfound : lookup? tag with
  | none =>
    rw [lookup?, List.findSome?_eq_none_iff] at hfound
    cases h.symm.trans (hfound d d.mem_all)
  | some role' =>
    obtain ⟨d', -, hd'⟩ := List.exists_of_findSome?_eq_some hfound
    rw [honly d' role' hd']

theorem lookup?_starts : lookup? tag = some (.starts d) ↔ d.isStartTag tag = true := by
  constructor
  · intro h
    obtain ⟨d', -, hd'⟩ := List.exists_of_findSome?_eq_some h
    rcases role?_cases hd' with ⟨hstart, ⟨⟩⟩ | ⟨-, ⟨⟩⟩
    exact hstart
  · intro h
    refine lookup?_of_role? (d := d) (by simp [role?, h]) fun d' role' hd' => ?_
    rcases role?_cases hd' with ⟨hstart, rfl⟩ | ⟨hend, -⟩
    · rw [Directive.leads_unique h hstart]
    · rw [Directive.isEndTag_of_isStartTag h] at hend
      cases hend

theorem lookup?_ends : lookup? tag = some (.ends d) ↔ d.isEndTag tag = true := by
  constructor
  · intro h
    obtain ⟨d', -, hd'⟩ := List.exists_of_findSome?_eq_some h
    rcases role?_cases hd' with ⟨-, ⟨⟩⟩ | ⟨hend, ⟨⟩⟩
    exact hend
  · intro h
    have hstart (d' : Directive) : d'.isStartTag tag = false := by
      rw [← Bool.not_eq_true]
      intro hstart
      rw [Directive.isEndTag_of_isStartTag hstart] at h
      cases h
    refine lookup?_of_role? (d := d) (by simp [role?, h, hstart]) fun d' role' hd' => ?_
    rcases role?_cases hd' with ⟨hstart', -⟩ | ⟨hend, rfl⟩
    · rw [hstart d'] at hstart'
      cases hstart'
    · rw [Directive.leads_unique h hend]

/-! ## Well-nested tokens -/

/-- The tokens are well-nested in elements of the directives `ds`: what is opened is ended in its
turn, and an end tag that ends nothing does not belong to an element around it either. -/
inductive Nested : List Directive → List Token → Prop
  | nil {ds : List Directive} : Nested ds []
  | text {ds : List Directive} {ts : List Token} (t : Text) : Nested ds ts →
    Nested ds (.text t :: ts)
  | unknown {ds : List Directive} {ts : List Token} {tag : Text} : lookup? tag = none →
    Nested ds ts → Nested ds (.tag tag :: ts)
  | stray {ds : List Directive} {ts : List Token} {tag : Text} {d : Directive} :
    lookup? tag = some (.ends d) → d ∉ ds → Nested ds ts → Nested ds (.tag tag :: ts)
  | single {ds : List Directive} {ts : List Token} {tag : Text} {d : Directive} :
    lookup? tag = some (.starts d) → isSelfClosing tag = true → Nested ds ts →
    Nested ds (.tag tag :: ts)
  | pair {ds : List Directive} {ts body : List Token} {opening closing : Text} {d : Directive} :
    lookup? opening = some (.starts d) → isSelfClosing opening = false → Nested (d :: ds) body →
    lookup? closing = some (.ends d) → Nested ds ts →
    Nested ds (.tag opening :: (body ++ .tag closing :: ts))

end Markup

/-! ## The innermost element -/

namespace Composition

variable {c c' : Composition} {d : Directive} {tag : Text}

def top? (c : Composition) : Option Directive := c.stack.head?.map Element.directive

theorem Kept.top? (h : Kept c c') : c'.top? = c.top? := by
  have hdirective : Element.directive ∘ Element.bare = Element.directive :=
    funext Element.directive_bare
  have hmap (stack : List Element) :
      (stack.map Element.bare).head?.map Element.directive = stack.head?.map Element.directive := by
    rw [List.head?_map, Option.map_map, hdirective]
  rw [Composition.top?, ← hmap, h.stack, hmap, Composition.top?]

theorem Kept.length (h : Kept c c') : c'.stack.length = c.stack.length := by
  simpa using congrArg List.length h.stack

theorem isTopEnd_eq (h : c.top? = some d) (tag : Text) : c.isTopEnd tag = d.isEndTag tag := by
  unfold top? at h
  unfold isTopEnd
  cases hhead : c.stack.head? with
  | none => simp [hhead] at h
  | some e =>
    rw [hhead] at h
    rw [Option.any_some, Option.some.inj h]

theorem isTopStart_eq (h : c.top? = some d) (tag : Text) :
    c.isTopStart tag = d.isStartTag tag := by
  unfold top? at h
  unfold isTopStart
  cases hhead : c.stack.head? with
  | none => simp [hhead] at h
  | some e =>
    rw [hhead] at h
    rw [Option.any_some, Option.some.inj h]

/-- Writing has nothing to do with the count of foreign tags. -/
theorem write_foreignDepth (c : Composition) (n : Nat) (t : Text) :
    { c with foreignDepth := n }.write t = { c.write t with foreignDepth := n } := by
  unfold write
  split <;> simp_all

theorem foreignDepth_write (c : Composition) (t : Text) :
    { c.write t with foreignDepth := c.foreignDepth } = c.write t := by
  rw [← (write_kept c t).foreignDepth]

/-- A tag that neither ends the innermost element nor opens one of its kind is written there. -/
theorem foreignTag_written (htop : c.top? = some d) (hend : d.isEndTag tag = false)
    (hstart : (d.isStartTag tag && !Markup.isSelfClosing tag) = false) :
    c.foreignTag tag = (false, c.write tag) := by
  simp [foreignTag, isTopEnd_eq htop, isTopStart_eq htop, hend, hstart]

theorem foreignTag_opening (htop : c.top? = some d) (hstart : d.isStartTag tag = true)
    (hself : Markup.isSelfClosing tag = false) :
    c.foreignTag tag = (false, { c with foreignDepth := c.foreignDepth + 1 }.write tag) := by
  simp [foreignTag, isTopEnd_eq htop, isTopStart_eq htop, hstart, hself,
    Directive.isEndTag_of_isStartTag hstart]

theorem foreignTag_closing (htop : c.top? = some d) (hend : d.isEndTag tag = true) {n : Nat}
    (hdepth : c.foreignDepth = n + 1) :
    c.foreignTag tag = (false, { c with foreignDepth := n }.write tag) := by
  simp [foreignTag, isTopEnd_eq htop, hend, hdepth]

end Composition

/-! ## Runs step by step -/

namespace Program

variable {α : Type}

theorem Performs.yields {p : Program α} {log : List Answered} {a : α}
    (h : Performs p log (.done a)) : p.Yields a := by
  generalize hq : Program.done a = q at h
  induction h with
  | nil p =>
    subst hq
    exact .done a
  | cons answer _ ih => exact .ask answer (ih hq)

/-- With the answers of one log, a program comes to its end at one point only. -/
theorem Performs.unique {p : Program α} {a a' : α} {log log' rest rest' : List Answered}
    (h : Performs p log (.done a)) (h' : Performs p log' (.done a'))
    (heq : log ++ rest = log' ++ rest') : log = log' ∧ a = a' := by
  generalize hq : Program.done a = q at h
  induction h generalizing log' with
  | nil p =>
    subst hq
    obtain ⟨rfl, hdone⟩ := h'.of_done
    exact ⟨rfl, (Program.done.inj hdone).symm⟩
  | cons answer _ ih =>
    cases h' with
    | cons answer' h' =>
      cases (List.cons_eq_cons.mp heq).1
      obtain ⟨rfl, rfl⟩ := ih h' (List.cons_eq_cons.mp heq).2 hq
      exact ⟨rfl, rfl⟩

end Program

namespace Page

open Program EdgeCompose.Composition

variable {p : Page} {inner : Composer} {c c' : Composition} {log : List Answered}

/-- A run over tokens without an error, with the answers of the log, all of whose steps are as `Q`
says of the states before and after a token. -/
inductive Passes (p : Page) (inner : Composer)
    (Q : Composition → Markup.Token → Composition → Prop) :
    Composition → List Markup.Token → List Answered → Composition → Prop
  | nil (c : Composition) : Passes p inner Q c [] [] c
  | cons {c c' c'' : Composition} {t : Markup.Token} {ts : List Markup.Token}
    {log log' : List Answered} : (p.take inner c t).Performs log (.done (c', .ok ())) →
    Q c t c' → Passes p inner Q c' ts log' c'' → Passes p inner Q c (t :: ts) (log ++ log') c''

namespace Passes

variable {Q Q' : Composition → Markup.Token → Composition → Prop} {ts us : List Markup.Token}

theorem append {c'' : Composition} {log' : List Answered} (h : p.Passes inner Q c ts log c')
    (h' : p.Passes inner Q c' us log' c'') : p.Passes inner Q c (ts ++ us) (log ++ log') c'' := by
  induction h with
  | nil => exact h'
  | cons htake hq _ ih =>
    rw [List.append_assoc]
    exact .cons htake hq (ih h')

theorem mono (h : p.Passes inner Q c ts log c')
    (hq : ∀ c t c', (p.take inner c t).Yields (c', .ok ()) → Q c t c' → Q' c t c') :
    p.Passes inner Q' c ts log c' := by
  induction h with
  | nil c => exact .nil c
  | cons htake hstep _ ih => exact .cons htake (hq _ _ _ htake.yields hstep) ih

theorem and (h : p.Passes inner Q c ts log c') (h' : p.Passes inner Q' c ts log c') :
    p.Passes inner (fun c t c' => Q c t c' ∧ Q' c t c') c ts log c' := by
  generalize heq : log = log' at h'
  induction h generalizing log' with
  | nil =>
    cases h'
    exact .nil _
  | cons htake hq _ ih =>
    cases h' with
    | cons htake' hq' hrest' =>
      obtain ⟨rfl, hsame⟩ := htake.unique htake' heq
      cases hsame
      obtain rfl := List.append_cancel_left heq
      exact .cons htake ⟨hq, hq'⟩ (ih _ rfl hrest')

end Passes

theorem performs_takeAll_append {ts us : List Markup.Token}
    (h : (p.takeAll inner c (ts ++ us)).Performs log (.done (c', .ok ()))) :
    ∃ log₁ log₂ c₁, log = log₁ ++ log₂ ∧
      (p.takeAll inner c ts).Performs log₁ (.done (c₁, .ok ())) ∧
      (p.takeAll inner c₁ us).Performs log₂ (.done (c', .ok ())) := by
  rw [takeAll_append] at h
  obtain ⟨log₁, log₂, ⟨c₁, e | _⟩, rfl, hfirst, hsecond⟩ := h.done_of_bind
  · cases hsecond.of_done.2
  · exact ⟨log₁, log₂, c₁, rfl, hfirst, hsecond⟩

theorem performs_takeAll_cons {t : Markup.Token} {ts : List Markup.Token}
    (h : (p.takeAll inner c (t :: ts)).Performs log (.done (c', .ok ()))) :
    ∃ log₁ log₂ c₁, log = log₁ ++ log₂ ∧
      (p.take inner c t).Performs log₁ (.done (c₁, .ok ())) ∧
      (p.takeAll inner c₁ ts).Performs log₂ (.done (c', .ok ())) := by
  obtain ⟨log₁, log₂, ⟨c₁, e | _⟩, rfl, hfirst, hsecond⟩ := h.done_of_bind
  · cases hsecond.of_done.2
  · exact ⟨log₁, log₂, c₁, rfl, hfirst, hsecond⟩

theorem performs_cons {t : Markup.Token} {us : List Markup.Token} {c₁ : Composition}
    {log' : List Answered} {rest : Program (Composition × Except ComposeError Unit)}
    (h : (p.take inner c t).Performs log (.done (c₁, .ok ())))
    (h' : (p.takeAll inner c₁ us).Performs log' rest) :
    (p.takeAll inner c (t :: us)).Performs (log ++ log') rest := (h.bind _).append h'

theorem performs_append {ts us : List Markup.Token} {c₁ : Composition} {log' : List Answered}
    {rest : Program (Composition × Except ComposeError Unit)}
    (h : (p.takeAll inner c ts).Performs log (.done (c₁, .ok ())))
    (h' : (p.takeAll inner c₁ us).Performs log' rest) :
    (p.takeAll inner c (ts ++ us)).Performs (log ++ log') rest := by
  rw [takeAll_append]
  exact (h.bind _).append h'

theorem Passes.performs {Q : Composition → Markup.Token → Composition → Prop}
    {ts : List Markup.Token} (h : p.Passes inner Q c ts log c') :
    (p.takeAll inner c ts).Performs log (.done (c', .ok ())) := by
  induction h with
  | nil => exact .nil _
  | cons htake _ _ ih => exact performs_cons htake ih

theorem passes_of_performs {ts : List Markup.Token}
    (h : (p.takeAll inner c ts).Performs log (.done (c', .ok ()))) :
    p.Passes inner (fun _ _ _ => True) c ts log c' := by
  induction ts generalizing c log with
  | nil =>
    obtain ⟨rfl, heq⟩ := h.of_done
    cases heq
    exact .nil _
  | cons t ts ih =>
    obtain ⟨log₁, log₂, c₁, rfl, htake, hrest⟩ := performs_takeAll_cons h
    exact .cons htake trivial (ih hrest)

/-! ## Runs over well-nested tokens -/

section

variable {e : Element} {d : Directive} {tag : Text}

theorem take_foreign (hf : c.isForeign = true) (h : c.foreignTag tag = (false, c')) :
    p.take inner c (.tag tag) = .done (c', .ok ()) := by
  simp only [take, takeTag, hf, if_true, h, pure_eq_done]

/-- The end tag of the innermost element ends it, whether the element is foreign or not. -/
theorem take_ending (htop : c.top? = some d) (hdepth : c.foreignDepth = 0)
    (hend : Markup.lookup? tag = some (.ends d)) :
    p.take inner c (.tag tag) = p.closeTop inner c tag := by
  have htopEnd : c.isTopEnd tag = true := by
    rw [isTopEnd_eq htop]
    exact Markup.lookup?_ends.1 hend
  simp only [take, takeTag, hend, htopEnd, if_true]
  split
  · simp [foreignTag, htopEnd, hdepth]
  · rfl

/-- Outside foreign elements, a start tag opens an element, and ends it where it closes itself. -/
theorem take_starting (hf : c.isForeign = false) (hstart : Markup.lookup? tag = some (.starts d))
    (h : (p.take inner c (.tag tag)).Performs log (.done (c', .ok ()))) :
    ∃ e c₁, c.opened p.bindings d tag = .ok (e, c₁) ∧
      if Markup.isSelfClosing tag = true then
        (p.close inner { c₁ with foreignDepth := 0 } e).Performs log (.done (c', .ok ()))
      else log = [] ∧ c' = { c₁ with stack := e :: c₁.stack } := by
  simp only [take, takeTag, hf, Bool.false_eq_true, if_false, hstart, start] at h
  cases ho : c.opened p.bindings d tag with
  | error error =>
    rw [ho] at h
    cases h.of_done.2
  | ok found =>
    obtain ⟨e, c₁⟩ := found
    simp only [ho] at h
    refine ⟨e, c₁, rfl, ?_⟩
    cases hself : Markup.isSelfClosing tag with
    | true =>
      simp only [hself] at h
      exact h
    | false =>
      simp only [hself] at h
      obtain ⟨rfl, heq⟩ := h.of_done
      cases heq
      exact ⟨rfl, rfl⟩

theorem close_kept (h : (p.close inner c e).Performs log (.done (c', .ok ()))) : Kept c c' :=
  (close_ends h.yields).kept

end

/-- A run over tokens from a state on, in which as many elements stay open as were open in the
beginning, and just these are open in the end. What comes to a foreign element is written there. -/
structure Inside (p : Page) (inner : Composer) (c : Composition) (ts : List Markup.Token)
    (log : List Answered) (c' : Composition) : Prop where
  passes : p.Passes inner
    (fun c₁ _ c₂ => c.stack.length ≤ c₁.stack.length ∧ c.stack.length ≤ c₂.stack.length) c ts log c'
  kept : Kept c c'
  balanced : c'.Balanced
  foreign : c.isForeign = true → log = [] ∧ ∃ t, c' = c.write t

namespace Inside

variable {ts us : List Markup.Token} {t : Markup.Token} {log' : List Answered} {c₁ : Composition}

theorem nil (hc : c.Balanced) : p.Inside inner c [] [] c where
  passes := .nil c
  kept := .refl c
  balanced := hc
  foreign _ := ⟨rfl, [], (write_nil c).symm⟩

theorem append (h : p.Inside inner c ts log c₁) (h' : p.Inside inner c₁ us log' c') :
    p.Inside inner c (ts ++ us) (log ++ log') c' where
  passes := by
    have hlater := h'.passes
    rw [h.kept.length] at hlater
    exact h.passes.append hlater
  kept := h.kept.trans h'.kept
  balanced := h'.balanced
  foreign hforeign := by
    obtain ⟨rfl, t, rfl⟩ := h.foreign hforeign
    rw [← isForeign_write c t] at hforeign
    obtain ⟨rfl, t', rfl⟩ := h'.foreign hforeign
    exact ⟨rfl, t ++ t', write_write c t t'⟩

/-- A token that leaves all elements open. -/
theorem leaf (hc : c.Balanced) (h : (p.take inner c t).Performs log (.done (c', .ok ())))
    (hforeign : c.isForeign = true → p.take inner c t = .done (c.write t.toText, .ok ()))
    (hopen : c.isForeign = false → Kept c c') : p.Inside inner c [t] log c' := by
  have hwritten (hf : c.isForeign = true) : log = [] ∧ c' = c.write t.toText := by
    rw [hforeign hf] at h
    obtain ⟨rfl, heq⟩ := h.of_done
    cases heq
    exact ⟨rfl, rfl⟩
  have hkept : Kept c c' := by
    cases hf : c.isForeign with
    | false => exact hopen hf
    | true =>
      rw [(hwritten hf).2]
      exact write_kept c _
  refine ⟨?_, hkept, (take_move h.yields).balanced hc, fun hf => ?_⟩
  · rw [← List.append_nil log]
    exact .cons h ⟨Nat.le_refl _, Nat.le_of_eq hkept.length.symm⟩ (.nil c')
  · exact ⟨(hwritten hf).1, _, (hwritten hf).2⟩

theorem text (hc : c.Balanced) {text : Text}
    (h : (p.take inner c (.text text)).Performs log (.done (c', .ok ()))) :
    p.Inside inner c [.text text] log c' := by
  refine leaf hc h (fun _ => rfl) fun _ => ?_
  cases h.of_done.2
  exact write_kept c text

section

variable {ds : List Directive} {d top : Directive} {tag : Text}

theorem unknown (hc : c.Balanced) (htop : c.top? = some top) (hnone : Markup.lookup? tag = none)
    (h : (p.take inner c (.tag tag)).Performs log (.done (c', .ok ()))) :
    p.Inside inner c [.tag tag] log c' := by
  have hend : top.isEndTag tag = false := by
    rw [← Bool.not_eq_true, ← Markup.lookup?_ends, hnone]
    simp
  have hstart : top.isStartTag tag = false := by
    rw [← Bool.not_eq_true, ← Markup.lookup?_starts, hnone]
    simp
  refine leaf hc h (fun hf => take_foreign hf (foreignTag_written htop hend (by simp [hstart])))
    fun hf => ?_
  simp only [take, takeTag, hf, Bool.false_eq_true, if_false, hnone, pure_eq_done] at h
  cases h.of_done.2
  exact write_kept c tag

theorem stray (hc : c.Balanced) (htop : c.top? = some top) (hmem : top ∈ ds)
    (hend : Markup.lookup? tag = some (.ends d)) (hd : d ∉ ds)
    (h : (p.take inner c (.tag tag)).Performs log (.done (c', .ok ()))) :
    p.Inside inner c [.tag tag] log c' := by
  have htopEnd : top.isEndTag tag = false := by
    rw [← Bool.not_eq_true, ← Markup.lookup?_ends, hend]
    rintro ⟨⟩
    exact hd hmem
  have hstart : top.isStartTag tag = false := by
    rw [← Bool.not_eq_true, ← Markup.lookup?_starts, hend]
    simp
  refine leaf hc h (fun hf => take_foreign hf (foreignTag_written htop htopEnd (by simp [hstart])))
    fun hf => ?_
  simp only [take, takeTag, hf, Bool.false_eq_true, if_false, hend, isTopEnd_eq htop, htopEnd,
    pure_eq_done] at h
  have hreport := report_kept c (unexpected tag)
  rw [← Program.done.inj h.of_done.2] at hreport
  exact hreport

theorem single (hc : c.Balanced) (htop : c.top? = some top)
    (hstart : Markup.lookup? tag = some (.starts d)) (hself : Markup.isSelfClosing tag = true)
    (h : (p.take inner c (.tag tag)).Performs log (.done (c', .ok ()))) :
    p.Inside inner c [.tag tag] log c' := by
  have hend : top.isEndTag tag = false :=
    Directive.isEndTag_of_isStartTag (Markup.lookup?_starts.1 hstart)
  refine leaf hc h (fun hf => take_foreign hf (foreignTag_written htop hend (by simp [hself])))
    fun hf => ?_
  obtain ⟨e, c₁, ho, hclosed⟩ := take_starting hf hstart h
  rw [if_pos hself] at hclosed
  have hopened := (opened_kept ho).1
  have hdepth : c₁.foreignDepth = 0 := hopened.foreignDepth.trans (hc hf)
  rw [← hdepth] at hclosed
  exact hopened.trans (close_kept hclosed)

/-- In a foreign element, a start tag is written; if it is one of the element's own kind, it is
counted. -/
theorem opening_foreign {opening : Text} {c₁ : Composition} (hf : c.isForeign = true)
    (htop : c.top? = some top) (hstart : Markup.lookup? opening = some (.starts d))
    (hself : Markup.isSelfClosing opening = false)
    (h : (p.take inner c (.tag opening)).Performs log (.done (c₁, .ok ()))) :
    log = [] ∧ c₁ = { c.write opening with
      foreignDepth := c.foreignDepth + if d = top then 1 else 0 } := by
  have htag : c.foreignTag opening = (false, { c.write opening with
      foreignDepth := c.foreignDepth + if d = top then 1 else 0 }) := by
    by_cases hd : d = top
    · subst hd
      rw [foreignTag_opening htop (Markup.lookup?_starts.1 hstart) hself, write_foreignDepth,
        if_pos rfl]
    · have hend : top.isEndTag opening = false :=
        Directive.isEndTag_of_isStartTag (Markup.lookup?_starts.1 hstart)
      have hother : top.isStartTag opening = false := by
        rw [← Bool.not_eq_true, ← Markup.lookup?_starts, hstart]
        rintro ⟨⟩
        exact hd rfl
      rw [foreignTag_written htop hend (by simp [hother]), if_neg hd, Nat.add_zero,
        ← (write_kept c opening).foreignDepth]
  rw [take_foreign hf htag] at h
  obtain ⟨rfl, heq⟩ := h.of_done
  cases heq
  exact ⟨rfl, rfl⟩

/-- In a foreign element, an end tag that has been counted for is written. -/
theorem closing_foreign {closing : Text} {n : Nat} (hf : c.isForeign = true)
    (htop : c.top? = some top) (hend : Markup.lookup? closing = some (.ends d))
    (hdepth : c.foreignDepth = n + if d = top then 1 else 0)
    (h : (p.take inner c (.tag closing)).Performs log (.done (c', .ok ()))) :
    log = [] ∧ c' = { c.write closing with foreignDepth := n } := by
  have htag : c.foreignTag closing = (false, { c.write closing with foreignDepth := n }) := by
    by_cases hd : d = top
    · subst hd
      rw [foreignTag_closing htop (Markup.lookup?_ends.1 hend) (by simpa using hdepth),
        write_foreignDepth]
    · have hother : top.isEndTag closing = false := by
        rw [← Bool.not_eq_true, ← Markup.lookup?_ends, hend]
        rintro ⟨⟩
        exact hd rfl
      have hstart : top.isStartTag closing = false := by
        rw [← Bool.not_eq_true, ← Markup.lookup?_starts, hend]
        simp
      rw [if_neg hd, Nat.add_zero] at hdepth
      rw [foreignTag_written htop hother (by simp [hstart]), ← hdepth,
        ← (write_kept c closing).foreignDepth]
  rw [take_foreign hf htag] at h
  obtain ⟨rfl, heq⟩ := h.of_done
  cases heq
  exact ⟨rfl, rfl⟩

/-- What is left when an element that has been opened is ended. -/
theorem closing_kept {closing : Text} {e : Element} {c₀ : Composition}
    (hkept : Kept { c₀ with stack := e :: c₀.stack } c) (hd : e.directive = d)
    (hdepth : c₀.foreignDepth = 0) (hend : Markup.lookup? closing = some (.ends d))
    (h : (p.take inner c (.tag closing)).Performs log (.done (c', .ok ()))) : Kept c₀ c' := by
  have htop : c.top? = some d := by
    rw [hkept.top?, ← hd]
    rfl
  rw [take_ending htop (hkept.foreignDepth.trans hdepth) hend] at h
  obtain ⟨stack, root, depth⟩ := c
  cases stack with
  | nil => cases hkept.stack
  | cons e' below =>
    replace h : (p.close inner { stack := below, root, foreignDepth := 0 } e').Performs log
      (.done (c', .ok ())) := h
    have hclosed := close_kept h
    have hbelow : below.map Element.bare = c₀.stack.map Element.bare :=
      (List.cons_eq_cons.mp hkept.stack).2
    exact ⟨hclosed.stack.trans hbelow, hclosed.root.trans hkept.root,
      hclosed.foreignDepth.trans hdepth.symm⟩

/-- The states that a run passes over an element, from the tag that opens it to the one that ends
it. -/
theorem passes_pair {opening closing : Text} {body : List Markup.Token} {l₁ l₂ l₃ : List Answered}
    {c₁ c₂ : Composition} (h₁ : (p.take inner c (.tag opening)).Performs l₁ (.done (c₁, .ok ())))
    (h₂ : p.Inside inner c₁ body l₂ c₂)
    (h₃ : (p.take inner c₂ (.tag closing)).Performs l₃ (.done (c', .ok ())))
    (hlength : c.stack.length ≤ c₁.stack.length) (hlength' : c.stack.length ≤ c'.stack.length) :
    p.Passes inner (fun c₁ _ c₂ => c.stack.length ≤ c₁.stack.length ∧
      c.stack.length ≤ c₂.stack.length) c (.tag opening :: (body ++ [.tag closing]))
      (l₁ ++ (l₂ ++ (l₃ ++ []))) c' := by
  have hbody : p.Passes inner (fun c₁ _ c₂ => c.stack.length ≤ c₁.stack.length ∧
      c.stack.length ≤ c₂.stack.length) c₁ body l₂ c₂ :=
    h₂.passes.mono fun _ _ _ _ hq => ⟨Nat.le_trans hlength hq.1, Nat.le_trans hlength hq.2⟩
  refine .cons h₁ ⟨Nat.le_refl _, hlength⟩ (hbody.append (.cons h₃ ⟨?_, hlength'⟩ (.nil c')))
  rw [h₂.kept.length]
  exact hlength

/-- An element that is opened, with what is inside of it, and ended. -/
theorem pair {opening closing : Text} {body : List Markup.Token} {l₁ l₂ l₃ : List Answered}
    {c₁ c₂ : Composition} (hc : c.Balanced) (htop : c.top? = some top)
    (hstart : Markup.lookup? opening = some (.starts d))
    (hself : Markup.isSelfClosing opening = false)
    (hend : Markup.lookup? closing = some (.ends d))
    (h₁ : (p.take inner c (.tag opening)).Performs l₁ (.done (c₁, .ok ())))
    (h₂ : p.Inside inner c₁ body l₂ c₂)
    (h₃ : (p.take inner c₂ (.tag closing)).Performs l₃ (.done (c', .ok ()))) :
    p.Inside inner c (.tag opening :: (body ++ [.tag closing])) (l₁ ++ (l₂ ++ (l₃ ++ []))) c' := by
  have hbalanced : c'.Balanced := (take_move h₃.yields).balanced h₂.balanced
  cases hf : c.isForeign with
  | false =>
    obtain ⟨e, c₀, ho, hopened⟩ := take_starting hf hstart h₁
    rw [hself, if_neg Bool.false_ne_true] at hopened
    obtain ⟨-, rfl⟩ := hopened
    have hkept := opened_kept ho
    have hdepth : c₀.foreignDepth = 0 := hkept.1.foreignDepth.trans (hc hf)
    have hclosed := hkept.1.trans (closing_kept h₂.kept hkept.2 hdepth hend h₃)
    have hlength : c.stack.length ≤ (e :: c₀.stack).length := by
      rw [List.length_cons, hkept.1.length]
      exact Nat.le_succ _
    exact ⟨passes_pair h₁ h₂ h₃ hlength (Nat.le_of_eq hclosed.length.symm), hclosed, hbalanced,
      by simp [hf]⟩
  | true =>
    obtain ⟨rfl, hc₁⟩ := opening_foreign hf htop hstart hself h₁
    have hf₁ : c₁.isForeign = true := by
      rw [hc₁]
      exact (isForeign_write c opening).trans hf
    obtain ⟨rfl, t, hc₂⟩ := h₂.foreign hf₁
    have htop₁ : c₁.top? = some top := by
      rw [← htop, ← (write_kept c opening).top?, hc₁]
      rfl
    have hdepth : c₂.foreignDepth = c.foreignDepth + if d = top then 1 else 0 := by
      rw [hc₂, (write_kept c₁ t).foreignDepth, hc₁]
    obtain ⟨rfl, hc'⟩ := closing_foreign (by rw [hc₂, isForeign_write, hf₁])
      (h₂.kept.top?.trans htop₁) hend hdepth h₃
    have hwritten : c' = c.write (opening ++ t ++ closing) := by
      rw [hc', hc₂, hc₁]
      simp only [write_foreignDepth, write_write]
      exact foreignDepth_write c _
    have hkept : Kept c c' := hwritten ▸ write_kept c _
    have hlength : c.stack.length ≤ c₁.stack.length := by
      rw [hc₁]
      exact Nat.le_of_eq (write_kept c opening).length.symm
    exact ⟨passes_pair h₁ h₂ h₃ hlength (Nat.le_of_eq hkept.length.symm), hkept, hbalanced,
      fun _ => ⟨rfl, _, hwritten⟩⟩

/-- What follows a start tag stands in the element that it has opened, or in the foreign one around
it. -/
theorem top_of_opening {opening : Text} {c₁ : Composition} (htop : c.top? = some top)
    (hmem : top ∈ ds) (hstart : Markup.lookup? opening = some (.starts d))
    (hself : Markup.isSelfClosing opening = false)
    (h : (p.take inner c (.tag opening)).Performs log (.done (c₁, .ok ()))) :
    ∃ top₁, c₁.top? = some top₁ ∧ top₁ ∈ d :: ds := by
  cases hf : c.isForeign with
  | false =>
    obtain ⟨e, c₀, ho, hopened⟩ := take_starting hf hstart h
    rw [hself, if_neg Bool.false_ne_true] at hopened
    obtain ⟨-, rfl⟩ := hopened
    exact ⟨d, congrArg some (opened_kept ho).2, List.mem_cons_self⟩
  | true =>
    obtain ⟨-, rfl⟩ := opening_foreign hf htop hstart hself h
    exact ⟨top, (write_kept c opening).top?.trans htop, List.mem_cons_of_mem _ hmem⟩

/-- A run over tokens that are well-nested in the open elements ends where it began. -/
theorem nested {ts : List Markup.Token} (hts : Markup.Nested ds ts) (hc : c.Balanced)
    (htop : c.top? = some top) (hmem : top ∈ ds)
    (h : (p.takeAll inner c ts).Performs log (.done (c', .ok ()))) :
    p.Inside inner c ts log c' := by
  have hcons {t : Markup.Token} {ts : List Markup.Token} {l₁ l₂ : List Answered}
      {c c₁ c' : Composition} (hfirst : p.Inside inner c [t] l₁ c₁)
      (hrest : p.Inside inner c₁ ts l₂ c') : p.Inside inner c (t :: ts) (l₁ ++ l₂) c' :=
    hfirst.append hrest
  induction hts generalizing c c' top log with
  | nil =>
    obtain ⟨rfl, heq⟩ := h.of_done
    cases heq
    exact .nil hc
  | text t _ ih =>
    obtain ⟨l₁, l₂, c₁, rfl, h₁, h₂⟩ := performs_takeAll_cons h
    have hfirst := text hc h₁
    exact hcons hfirst (ih hfirst.balanced (hfirst.kept.top?.trans htop) hmem h₂)
  | unknown hnone _ ih =>
    obtain ⟨l₁, l₂, c₁, rfl, h₁, h₂⟩ := performs_takeAll_cons h
    have hfirst := unknown hc htop hnone h₁
    exact hcons hfirst (ih hfirst.balanced (hfirst.kept.top?.trans htop) hmem h₂)
  | stray hend hd _ ih =>
    obtain ⟨l₁, l₂, c₁, rfl, h₁, h₂⟩ := performs_takeAll_cons h
    have hfirst := stray hc htop hmem hend hd h₁
    exact hcons hfirst (ih hfirst.balanced (hfirst.kept.top?.trans htop) hmem h₂)
  | single hstart hself _ ih =>
    obtain ⟨l₁, l₂, c₁, rfl, h₁, h₂⟩ := performs_takeAll_cons h
    have hfirst := single hc htop hstart hself h₁
    exact hcons hfirst (ih hfirst.balanced (hfirst.kept.top?.trans htop) hmem h₂)
  | @pair ds ts body opening closing d hstart hself _ hend _ ihbody ih =>
    obtain ⟨l₁, l, c₁, rfl, h₁, hafter⟩ := performs_takeAll_cons h
    obtain ⟨l₂, l', c₂, rfl, h₂, hafter⟩ := performs_takeAll_append hafter
    obtain ⟨l₃, l₄, c₃, rfl, h₃, h₄⟩ := performs_takeAll_cons hafter
    have hbalanced₁ : c₁.Balanced := (take_move h₁.yields).balanced hc
    obtain ⟨top₁, htop₁, hmem₁⟩ := top_of_opening htop hmem hstart hself h₁
    have hwhole := pair hc htop hstart hself hend h₁ (ihbody hbalanced₁ htop₁ hmem₁ h₂) h₃
    have hlater := ih hwhole.balanced (hwhole.kept.top?.trans htop) hmem h₄
    simpa using hwhole.append hlater

end

end Inside

end Page

end EdgeCompose
