import EdgeCompose.Proofs.Choices
import EdgeCompose.Proofs.Concatenation
import EdgeCompose.Proofs.VarsBodies

/-!
Fragments that are wanted of a document. A document is a sequence of parts, fragments and what stands
between them. Where each part comes to a text as a document of its own, one after the other, the whole
document comes to these texts in sequence, and a fragment that is wanted of it comes to the text of the
first part that has its name (`extract_first`). Both leave the same world: what the root of the document
takes in has no say in what is asked for. All parts are sequences of tokens. The texts that they are
written as may be looked at one by one if no comment is open where one of them ends (`Spells.scan_eq`),
and not otherwise (`extract_texts_false`).
-/

namespace EdgeCompose

open Markup (Directive)

/-! ## Documents in parts -/

namespace Markup

structure NamedFragment where
  name : Text
  tags : Brackets .fragment
  content : List Token := []
  named : (attributes tags.opening).get? "name".toList = some name
  empty : tags.closing = none → content = []

inductive Part where
  | fragment (x : NamedFragment)
  | other (ts : List Token)

namespace Part

def content : Part → List Token
  | .fragment x => x.content
  | .other ts => ts

def tokens : Part → List Token
  | .fragment x => x.tags.around x.content
  | .other ts => ts

def name? : Part → Option Text
  | .fragment x => some x.name
  | .other _ => none

end Part

def Token.startsFragment (name : Text) : Token → Bool
  | .tag t => lookup? t == some (.starts .fragment) &&
    (attributes t).get? "name".toList == some name
  | .text _ => false

theorem Token.startsFragment_iff {name tag : Text} : (Token.tag tag).startsFragment name = true ↔
    lookup? tag = some (.starts .fragment) ∧ (attributes tag).get? "name".toList = some name := by
  simp [startsFragment]

/-! ## Parts as they are written -/

def Brackets.write {d : Directive} (b : Brackets d) (body : Text) : Text :=
  b.opening ++ (body ++ b.closing.getD [])

structure Brackets.Whole {d : Directive} (b : Brackets d) : Prop where
  opening : splitTag? b.opening = some (b.opening, [])
  closing : ∀ tag ∈ b.closing, splitTag? tag = some (tag, [])

theorem Brackets.scan_write {d : Directive} {b : Brackets d} (hb : b.Whole) {body : Text}
    (hbody : Sealed body) (hempty : b.closing = none → body = []) (rest : Text) :
    scan (b.write body ++ rest) = b.around (scan body) ++ scan rest := by
  have hopening := startsTag_of_lookup? b.starts
  have hwritten : b.write body ++ rest = b.opening ++ (body ++ (b.closing.getD [] ++ rest)) := by
    simp [write]
  rw [hwritten, scan_tag hopening hb.opening, around]
  cases hclosing : b.closing with
  | none =>
    rw [hempty hclosing, scan_nil]
    rfl
  | some closing =>
    have hends := startsTag_of_lookup? (b.ends closing hclosing)
    rw [Option.getD_some, scan_append hbody (.inr (hends.append rest)),
      scan_tag hends (hb.closing closing hclosing)]
    simp

/-- The text is what the parts are, one written after the other. -/
inductive Spells : List Part → Text → Prop
  | nil : Spells [] []
  | fragment {parts : List Part} {rest body : Text} (x : NamedFragment) : x.tags.Whole → Sealed body →
    (x.tags.closing = none → body = []) → x.content = scan body → Spells parts rest →
    Spells (.fragment x :: parts) (x.tags.write body ++ rest)
  | other {parts : List Part} {rest : Text} (t : Text) : Sealed t → rest = [] ∨ StartsTag rest →
    Spells parts rest → Spells (.other (scan t) :: parts) (t ++ rest)

theorem Spells.scan_eq {parts : List Part} {t : Text} (h : Spells parts t) :
    scan t = parts.flatMap Part.tokens := by
  induction h with
  | nil => exact scan_nil
  | fragment x hx hbody hempty hcontent _ ih =>
    rw [Brackets.scan_write hx hbody hempty, ih, ← hcontent]
    rfl
  | other t ht hrest _ ih =>
    rw [scan_append ht hrest, ih]
    rfl

end Markup

/-! ## The root of a document -/

/-- What the root of a document has taken in after a part that comes to `out`. -/
def Root.after (root : Root) (x : Markup.Part) (out : Text) : Root :=
  match root with
  | .document before => .document (before ++ out)
  | .extract wanted none => .extract wanted (if x.name? = some wanted then some out else none)
  | .extract wanted (some found) => .extract wanted (some found)

theorem Root.looks_of_after {root : Root} {x : Markup.Part} {out name : Text}
    (h : root.after x out = .extract name none) : root = .extract name none := by
  cases root with
  | document before => cases h
  | extract wanted found =>
    cases found with
    | some found => cases h
    | none =>
      obtain ⟨rfl, -⟩ := Root.extract.inj h
      rfl

theorem foldl_after_document (before : Text) (parts : List (Markup.Part × Text)) :
    parts.foldl (fun root x => root.after x.1 x.2) (Root.document before) =
      .document (before ++ parts.flatMap Prod.snd) := by
  induction parts generalizing before with
  | nil => simp
  | cons x parts ih =>
    rw [List.foldl_cons, List.flatMap_cons, ← List.append_assoc]
    exact ih (before ++ x.2)

theorem foldl_after_found (name found : Text) (parts : List (Markup.Part × Text)) :
    parts.foldl (fun root x => root.after x.1 x.2) (Root.extract name (some found)) =
      .extract name (some found) := by
  induction parts with
  | nil => rfl
  | cons x parts ih => exact ih

theorem Root.after_named (x : Markup.NamedFragment) (out : Text) :
    (Root.extract x.name none).after (.fragment x) out = .extract x.name (some out) :=
  congrArg (Root.extract x.name) (if_pos rfl)

theorem Root.after_passed {wanted : Text} {x : Markup.Part} (h : x.name? ≠ some wanted) (out : Text) :
    (Root.extract wanted none).after x out = .extract wanted none :=
  congrArg (Root.extract wanted) (if_neg h)

/-- Parts of other names are passed by. -/
theorem foldl_after_passed {name : Text} {parts : List (Markup.Part × Text)}
    (h : ∀ x ∈ parts, x.1.name? ≠ some name) :
    parts.foldl (fun root x => root.after x.1 x.2) (Root.extract name none) = .extract name none := by
  induction parts with
  | nil => rfl
  | cons x parts ih =>
    rw [List.forall_mem_cons] at h
    rw [List.foldl_cons, Root.after_passed h.1]
    exact ih h.2

namespace Page

open Program EdgeCompose.Composition

variable {p : Page} {inner : Composer} {c c' : Composition} {log : List Answered} {name : Text}

/-! ## Fragments of a name -/

/-- Composed as a document of their own, the tokens never end a fragment of the name. -/
def Lacks (p : Page) (inner : Composer) (name : Text) (ts : List Markup.Token) : Prop :=
  ∀ before t after c, ts = before ++ t :: after →
    (p.takeAll inner (.ofWanted none) before).Yields (c, .ok ()) → ¬ p.EndsFragment name c t

/-- Tokens without the start tag of a fragment of the name never end one. -/
theorem lacks_of_absent {ts : List Markup.Token} (h : ∀ t ∈ ts, t.startsFragment name = false) :
    p.Lacks inner name ts := by
  have hopens : ∀ tag e, .tag tag ∈ ts → Markup.Opens tag e → e ≠ .fragment name [] := by
    rintro tag e htag hopens rfl
    have hlookup := hopens.directive
    refine Bool.eq_false_iff.mp (h _ htag) (Markup.Token.startsFragment_iff.mpr ⟨hlookup, ?_⟩)
    obtain ⟨v, c, c', d, e, hd, ho, he⟩ := hopens
    obtain ⟨-, hbare, hdirective⟩ := opened_cases ho
    rw [hbare] at he
    subst he
    cases hdirective
    obtain ⟨value, hneeded, heq⟩ := exists_ok_of_bind ho
    cases heq
    unfold needed at hneeded
    split at hneeded
    · next hvalue => rw [hvalue, Except.ok.inj hneeded]
    · cases hneeded
  rintro before t after c rfl hyields ⟨tag, body, c', rfl, hended⟩
  exact ended?_all hopens hyields hended rfl

/-- A run over tokens that lack fragments of the name ends none. -/
theorem Lacks.passes {ts : List Markup.Token} (hlacks : p.Lacks inner name ts)
    (h : (p.takeAll inner (.ofWanted none) ts).Performs log (.done (c', .ok ()))) :
    p.Passes inner (fun c t _ => ¬ p.EndsFragment name c t) (.ofWanted none) ts log c' := by
  -- The tokens that are left stand behind those that have led to the state at hand.
  have hfrom (before left : List Markup.Token) (log₀ : List Answered) {c : Composition}
      {log : List Answered} (heq : ts = before ++ left)
      (hbefore : (p.takeAll inner (.ofWanted none) before).Performs log₀ (.done (c, .ok ())))
      (hleft : (p.takeAll inner c left).Performs log (.done (c', .ok ()))) :
      p.Passes inner (fun c t _ => ¬ p.EndsFragment name c t) c left log c' := by
    induction left generalizing before c log log₀ with
    | nil =>
      obtain ⟨rfl, hsame⟩ := hleft.of_done
      cases hsame
      exact .nil _
    | cons t left ih =>
      obtain ⟨log₁, log₂, c₁, rfl, htake, hrest⟩ := performs_takeAll_cons hleft
      refine .cons htake (hlacks before t left c heq hbefore.yields) ?_
      refine ih (before ++ [t]) (log₀ ++ (log₁ ++ [])) (by rw [heq, List.append_assoc]; rfl) ?_ hrest
      exact performs_append hbefore (performs_cons htake (.nil _))
  exact hfrom [] ts [] rfl (.nil _) h

/-! ## Runs over parts -/

/-- A fragment that ends in the root is kept, if it is the one that is looked for, or goes to the
root. -/
theorem close_fragment (p : Page) (inner : Composer) (root : Root) (x : Markup.NamedFragment)
    (out : Text) : p.close inner { root } (.fragment x.name out) =
      .done ({ root := root.after (.fragment x) out }, .ok ()) := by
  cases root with
  | document before => rfl
  | extract wanted found =>
    have hfind : ({ root := .extract wanted found : Composition }.find? .inclusion) =
        some (.inclusion { fragment := some wanted }) := rfl
    have hwants : ({ root := .extract wanted found : Composition }.wants x.name) =
        (wanted == x.name) := by
      simp only [wants, hfind]
      rfl
    simp only [close, settle, hwants, pure_eq_done]
    by_cases hname : wanted = x.name
    · subst hname
      rw [beq_self_eq_true, if_pos rfl]
      cases found with
      | some found => rfl
      | none => rw [Root.after_named]; rfl
    · rw [beq_eq_false_iff_ne.mpr hname, if_neg Bool.false_ne_true]
      cases found with
      | some found => rfl
      | none =>
        have hother : (Markup.Part.fragment x).name? ≠ some wanted := by
          rintro ⟨⟩
          exact hname rfl
        rw [Root.after_passed hother]
        rfl

/-- A part that comes to a text alone gives that to the root. -/
theorem part_runs {x : Markup.Part} {root : Root} {out : Text}
    (h : p.Passes inner (fun c t _ => ∀ name, root = .extract name none → ¬ p.EndsFragment name c t)
      (.ofWanted none) x.content log c)
    (hout : p.output none c = .ok out) :
    (p.takeAll inner { root } x.tokens).Performs log (.done ({ root := root.after x out }, .ok ())) := by
  cases x with
  | other ts =>
    have hwritten : ({ root : Composition }.write out) = { root := root.after (.other ts) out } := by
      cases root with
      | document before => rfl
      | extract wanted found => cases found <;> rfl
    rw [← hwritten]
    have hhost : ({ root : Composition }).Unshut := List.forall_mem_nil _
    exact runs_inside hhost rfl rfl h hout
  | fragment x =>
    have ho : ({ root : Composition }.opened p.bindings .fragment x.tags.opening) =
        .ok (.fragment x.name [], { root }) := by
      simp only [opened, needed, x.named]
      rfl
    have hhost : ({ root : Composition }.holding [.fragment x.name []]).Unshut :=
      List.forall_mem_cons.mpr ⟨rfl, List.forall_mem_nil _⟩
    have hrun := runs_inside hhost rfl rfl h hout
    exact element_runs x.tags x.empty rfl ho hrun rfl (close_fragment p inner root x out) rfl

end Page

namespace Renderer

open Program Page EdgeCompose.Composition

variable {r : Renderer} {w w' : World} {name : Text} {parts : List (Markup.Part × Text)}

/-- The parts come to these texts, each as a document of its own in the world that the one before has
left. -/
inductive Composes (r : Renderer) : World → List (Markup.Part × Text) → World → Prop
  | nil (w : World) : Composes r w [] w
  | cons {w w₁ w' : World} {x : Markup.Part} {out : Text} {parts : List (Markup.Part × Text)} :
    (r.composeTokens x.content).run w = (.finished (.ok out), w₁) → Composes r w₁ parts w' →
    Composes r w ((x, out) :: parts) w'

theorem part_run {x : Markup.Part} {root : Root} {out : Text}
    (hlacks : ∀ name, root = .extract name none → r.page.Lacks r.inner name x.content)
    (h : (r.composeTokens x.content).run w = (.finished (.ok out), w')) :
    (r.page.takeAll r.inner { root } x.tokens).run w =
      (.finished ({ root := root.after x out }, .ok ()), w') := by
  obtain ⟨log, hgives, hlog⟩ := run_eq_finished_iff.mp h
  obtain ⟨log₁, log₂, ⟨c, result⟩, rfl, hrun, hout⟩ := hlog.done_of_bind
  cases result with
  | error e => cases hout.of_done.2
  | ok _ =>
    obtain ⟨rfl, hdone⟩ := hout.of_done
    rw [List.append_nil] at hgives
    refine run_eq_finished_iff.mpr ⟨log₁, hgives, part_runs ?_ (Program.done.inj hdone).symm⟩
    by_cases hroot : ∃ name, root = .extract name none
    · obtain ⟨name, rfl⟩ := hroot
      refine ((hlacks name rfl).passes hrun).mono fun c t _ _ hq name' hname => ?_
      cases hname
      exact hq
    · exact (passes_of_performs hrun).mono fun _ _ _ _ _ name hname => (hroot ⟨name, hname⟩).elim

/-- What the root takes in is the only thing that depends on the root. -/
theorem Composes.run (h : r.Composes w parts w') {root : Root}
    (hlacks : ∀ name, root = .extract name none → ∀ x ∈ parts, r.page.Lacks r.inner name x.1.content) :
    (r.page.takeAll r.inner { root } (parts.flatMap fun x => x.1.tokens)).run w =
      (.finished ({ root := parts.foldl (fun root x => root.after x.1 x.2) root }, .ok ()), w') := by
  induction h generalizing root with
  | nil w => rfl
  | @cons w w₁ w' x out parts hpart _ ih =>
    have hfirst : (r.page.takeAll r.inner { root } x.tokens).run w =
        (.finished ({ root := root.after x out }, .ok ()), w₁) :=
      part_run (fun name hname => hlacks name hname (x, out) List.mem_cons_self) hpart
    rw [List.flatMap_cons, takeAll_append, run_bind hfirst]
    refine ih fun name hname y hy => ?_
    exact hlacks name (Root.looks_of_after hname) y (List.mem_cons_of_mem _ hy)

theorem run_composeWith {wanted : Option Text} {document : Text} {c : Composition}
    (h : (r.page.takeAll r.inner (.ofWanted wanted) (Markup.scan document)).run w =
      (.finished (c, .ok ()), w')) :
    (r.page.compose r.levels wanted document).run w =
      (.finished (r.page.output wanted c), w') := by
  rw [compose_eq, composeWith, bind_eq_bind, run_bind h]
  rfl

/-- The document comes to the texts of its parts in sequence, and a fragment that is wanted of it to the
text of the first part with that name; it is not found if there is no such part. Either way the same
world is left. -/
theorem extract_first {document : Text}
    (hscan : Markup.scan document = parts.flatMap fun x => x.1.tokens)
    (hparts : r.Composes w parts w')
    (hlacks : ∀ x ∈ parts, r.page.Lacks r.inner name x.1.content) :
    (∀ before x out after, parts = before ++ (.fragment x, out) :: after → x.name = name →
      (∀ y ∈ before, y.1.name? ≠ some name) →
      (r.extract document name).run w = (.finished (.ok out), w')) ∧
    ((∀ x ∈ parts, x.1.name? ≠ some name) → (r.extract document name).run w =
      (.finished (.error (.fragmentNotFound ((r.page.base.map Url.toText).getD []) name)), w')) ∧
    (r.render document).run w = (.finished (.ok (parts.flatMap Prod.snd)), w') := by
  have hrun (root : Root) (hroot : ∀ name', root = .extract name' none → name' = name) :
      (r.page.takeAll r.inner { root } (Markup.scan document)).run w =
        (.finished ({ root := parts.foldl (fun root x => root.after x.1 x.2) root }, .ok ()), w') := by
    rw [hscan]
    refine hparts.run fun name' hname x hx => ?_
    rw [hroot name' hname]
    exact hlacks x hx
  have hextract : (r.extract document name).run w = (.finished (r.page.output (some name) _), w') :=
    run_composeWith (hrun (.extract name none) (by rintro name' ⟨⟩; rfl))
  refine ⟨?_, ?_, ?_⟩
  · rintro before x out after rfl rfl hbefore
    rw [List.foldl_append, foldl_after_passed hbefore, List.foldl_cons, Root.after_named,
      foldl_after_found] at hextract
    exact hextract
  · intro hnone
    rw [foldl_after_passed hnone] at hextract
    exact hextract
  · have hrender : (r.render document).run w = (.finished (r.page.output none _), w') :=
      run_composeWith (hrun (.document []) nofun)
    rw [foldl_after_document] at hrender
    exact hrender

/-! ## A document with fragments -/

def fragmentTags (name : Text)
    (starts : Markup.lookup? ("<esi:fragment name='".toList ++ name ++ "'>".toList) =
      some (.starts .fragment))
    (single : Markup.isSelfClosing ("<esi:fragment name='".toList ++ name ++ "'>".toList) = false) :
    Markup.Brackets .fragment where
  opening := "<esi:fragment name='".toList ++ name ++ "'>".toList
  closing := some "</esi:fragment>".toList
  starts
  single
  ends := by
    rintro tag ⟨⟩
    decide +kernel

def firstFragment : Markup.NamedFragment where
  name := "one".toList
  tags := fragmentTags "one".toList (by decide +kernel) (by decide +kernel)
  content := Markup.scan "1".toList
  named := by decide +kernel
  empty := nofun

def secondBody : Text :=
  "2<esi:fragment name='in'>i</esi:fragment><esi:include src='http://host/part'/>".toList

def secondFragment : Markup.NamedFragment where
  name := "two".toList
  tags := fragmentTags "two".toList (by decide +kernel) (by decide +kernel)
  content := Markup.scan secondBody
  named := by decide +kernel
  empty := nofun

def fragmentsPage : Text :=
  "head".toList ++ (firstFragment.tags.write "1".toList ++
    (" and ".toList ++ (secondFragment.tags.write secondBody ++ [])))

def fragmentsParts : List (Markup.Part × Text) :=
  [(.other (Markup.scan "head".toList), "head".toList), (.fragment firstFragment, "1".toList),
    (.other (Markup.scan " and ".toList), " and ".toList),
    (.fragment secondFragment, "2ipart".toList)]

private theorem spells_fragmentsPage :
    Markup.Spells (fragmentsParts.map Prod.fst) fragmentsPage := by
  have hwhole (x : Markup.NamedFragment) (hx : x = firstFragment ∨ x = secondFragment) :
      x.tags.Whole := by
    rcases hx with rfl | rfl
    · exact ⟨by decide +kernel, by decide +kernel⟩
    · exact ⟨by decide +kernel, by decide +kernel⟩
  have hplain (t : Text) (ht : t ∈ ["head".toList, "1".toList, " and ".toList, secondBody]) :
      Markup.Sealed t := by
    refine Markup.sealed_of_plain ?_ ?_
    · revert t
      decide +kernel
    · revert t
      decide +kernel
  exact .other _ (hplain _ (by decide)) (.inr (by decide +kernel))
    (.fragment firstFragment (hwhole _ (.inl rfl)) (hplain _ (by decide)) nofun rfl
      (.other _ (hplain _ (by decide)) (.inr (by decide +kernel))
        (.fragment secondFragment (hwhole _ (.inr rfl)) (hplain _ (by decide)) nofun rfl .nil)))

theorem extract_first_two : ∃ w', partRenderer.Composes partWorld fragmentsParts w' ∧
    Markup.scan fragmentsPage = fragmentsParts.flatMap (fun x => x.1.tokens) ∧
    (∀ x ∈ fragmentsParts, partRenderer.page.Lacks partRenderer.inner "two".toList x.1.content) ∧
    (partRenderer.extract fragmentsPage "two".toList).run partWorld =
      (.finished (.ok "2ipart".toList), w') ∧
    (partRenderer.render fragmentsPage).run partWorld =
      (.finished (.ok "head1 and 2ipart".toList), w') := by
  have hscan : Markup.scan fragmentsPage = fragmentsParts.flatMap (fun x => x.1.tokens) := by
    rw [spells_fragmentsPage.scan_eq, List.flatMap_map]
  have hlacks : ∀ x ∈ fragmentsParts,
      partRenderer.page.Lacks partRenderer.inner "two".toList x.1.content := by
    have habsent : ∀ x ∈ fragmentsParts, ∀ t ∈ x.1.content,
        t.startsFragment "two".toList = false := by decide +kernel
    exact fun x hx => lacks_of_absent (habsent x hx)
  obtain ⟨w', hparts⟩ : ∃ w', partRenderer.Composes partWorld fragmentsParts w' :=
    ⟨_, .cons (Prod.ext (by decide +kernel) rfl) (.cons (Prod.ext (by decide +kernel) rfl)
      (.cons (Prod.ext (by decide +kernel) rfl) (.cons (Prod.ext (by decide +kernel) rfl) (.nil _))))⟩
  have hall := extract_first hscan hparts hlacks
  refine ⟨w', hparts, hscan, hlacks, ?_, hall.2.2⟩
  exact hall.1 (fragmentsParts.take 3) secondFragment "2ipart".toList [] rfl rfl (by decide +kernel)

/-! ## A comment from one part to the next -/

/-- The texts of the parts do not decide what a document comes to. Here a comment that is dropped opens
in front of a fragment and ends in it, where its end is no marker in the body alone. -/
theorem extract_texts_false : ¬ ∀ (r : Renderer) (w w₁ w₂ : World) (lead body name out out' : Text)
    (b : Markup.Brackets .fragment), b.Whole →
    (Markup.attributes b.opening).get? "name".toList = some name →
    (r.render lead).run w = (.finished (.ok out), w₁) →
    (r.render body).run w₁ = (.finished (.ok out'), w₂) →
    r.page.Lacks r.inner name (Markup.scan lead) → r.page.Lacks r.inner name (Markup.scan body) →
    ((r.extract (lead ++ b.write body) name).run w).1 = .finished (.ok out') := by
  intro hall
  have hend := hall partRenderer partWorld _ _ "<!--esi ".toList "a-->".toList
    "f".toList " ".toList "a-->".toList
    (fragmentTags "f".toList (by decide +kernel) (by decide +kernel))
    ⟨by decide +kernel, by decide +kernel⟩ (by decide +kernel)
    (Prod.ext (by decide +kernel) rfl) (Prod.ext (by decide +kernel) rfl)
    (lacks_of_absent (by decide +kernel)) (lacks_of_absent (by decide +kernel))
  have hout : ((partRenderer.extract ("<!--esi ".toList ++
      (fragmentTags "f".toList (by decide +kernel) (by decide +kernel)).write "a-->".toList)
        "f".toList).run partWorld).1 = .finished (.ok "a".toList) := by decide +kernel
  rw [hout] at hend
  exact absurd hend (by decide +kernel)

end Renderer

end EdgeCompose
