import Mathlib.Control.Monad.Basic
import EdgeCompose.Fetch.Script
import EdgeCompose.Proofs.SoloRuns

/-!
The order in which the content of an include is looked up. The entry of the whole document comes
first, and a fetch under the document's lock comes next (`Page.document_run_holds`,
`Page.document_run_absent`). The entries of named parts of documents are of no account: nothing that
renders are made of asks for one (`Renderer.compose_onDocuments`), and so a program that runs cannot
tell stores apart that differ in such entries only (`Program.OnDocuments.run`).
-/

namespace EdgeCompose

open Program

/-! ## Entries of named parts -/

/-- The stores have the same entries of whole documents. -/
def FragmentStore.SameDocuments (f g : FragmentStore) : Prop :=
  ∀ k : FragmentKey, k.name = none → g.get? k = f.get? k

namespace FragmentStore.SameDocuments

variable {f g : FragmentStore} {k : FragmentKey}

theorem erase (h : f.SameDocuments g) (k : FragmentKey) : SameDocuments (f.erase k) (g.erase k) := by
  intro key hkey
  rw [Table.get?_erase, Table.get?_erase, h key hkey]

theorem insert (h : f.SameDocuments g) (k : FragmentKey) (e : FragmentEntry) :
    SameDocuments (f.insert k e) (g.insert k e) := by
  intro key hkey
  rw [Table.get?_insert, Table.get?_insert, h key hkey]

theorem find (h : f.SameDocuments g) (now : Int) (hk : k.name = none) :
    (FragmentStore.find g now k).1 = (FragmentStore.find f now k).1 ∧
      SameDocuments (FragmentStore.find f now k).2 (FragmentStore.find g now k).2 := by
  have hsame := h k hk
  unfold FragmentStore.find
  rw [hsame]
  cases f.get? k with
  | none => exact ⟨rfl, h⟩
  | some e =>
    dsimp only
    split
    · exact ⟨rfl, h.erase k⟩
    · exact ⟨rfl, h⟩

theorem storeFetched (h : f.SameDocuments g) (now : Int) (k : FragmentKey) (content : Text)
    (expires : Option Int) : SameDocuments (FragmentStore.storeFetched f now k content expires).2
      (FragmentStore.storeFetched g now k content expires).2 := by
  intro key hkey
  by_cases hk : key = k
  · subst hk
    unfold FragmentStore.storeFetched isPinned
    rw [h key hkey]
    split
    · exact h key hkey
    · exact h.insert key _ key hkey
  · rw [get?_storeFetched_ne hk, get?_storeFetched_ne hk, h key hkey]

end FragmentStore.SameDocuments

/-- The command does not look up the entry of a named part of a document. -/
def Command.OnDocuments : Command → Prop
  | .find k => k.name = none
  | _ => True

/-- In a store with the same documents a command comes to the same, and leaves such a store. -/
theorem World.reply_sameDocuments {w : World} {g : FragmentStore} (h : w.fragments.SameDocuments g)
    (who : Nat) {c : Command} (hc : c.OnDocuments) :
    ∃ g', World.reply { w with fragments := g } who c =
        ((w.reply who c).1, { (w.reply who c).2 with fragments := g' }) ∧
      (w.reply who c).2.fragments.SameDocuments g' := by
  obtain ⟨clock, fragments, responses, locks, before, after, backend, journal⟩ := w
  cases c with
  | find k =>
    obtain ⟨hcontent, hleft⟩ := h.find clock.calendar hc
    refine ⟨_, ?_, hleft⟩
    simp only [reply, find, hcontent]
  | register k content fetchable => exact ⟨_, rfl, h.insert k _⟩
  | keep k content lifetime =>
    cases lifetime with
    | none => exact ⟨_, rfl, h.storeFetched _ k content none⟩
    | some seconds =>
      simp only [reply, keep, expiry?]
      cases Clock.after? clock.calendar seconds with
      | error e => exact ⟨g, rfl, h⟩
      | ok expires => exact ⟨_, rfl, h.storeFetched _ k content (some expires)⟩
  | consult r =>
    cases responses with
    | none => exact ⟨g, rfl, h⟩
    | some s => exact ⟨g, rfl, h⟩
  | offer r response =>
    cases responses with
    | none => exact ⟨g, rfl, h⟩
    | some s =>
      simp only [reply, offer]
      cases s.store clock.steady r response with
      | mk stored s' =>
        cases stored with
        | ok stored => exact ⟨g, rfl, h⟩
        | error e => exact ⟨g, rfl, h⟩
  | _ => exact ⟨g, rfl, h⟩

def documentProtocol : Protocol Unit where
  allows _ c := c.OnDocuments
  gives _ _ _ := True
  next _ _ _ := ()

namespace Program

variable {α β : Type} {p : Program α}

def OnDocuments (p : Program α) : Prop := p.Obeys documentProtocol (fun _ _ => True) ()

namespace OnDocuments

theorem bind {f : α → Program β} (h : p.OnDocuments) (hf : ∀ a, (f a).OnDocuments) :
    (p.bind f).OnDocuments :=
  Obeys.bind h fun _ a _ _ => hf a

/-- A program cannot tell apart stores with the same documents. -/
theorem run (h : p.OnDocuments) {w : World} {g : FragmentStore}
    (hg : w.fragments.SameDocuments g) :
    ∃ g', p.run { w with fragments := g } = ((p.run w).1, { (p.run w).2 with fragments := g' }) ∧
      (p.run w).2.fragments.SameDocuments g' := by
  induction p generalizing w g with
  | done a => exact ⟨g, rfl, hg⟩
  | ask c next ih =>
    obtain ⟨g', hreply, hg'⟩ := World.reply_sameDocuments hg 0 h.1
    simp only [Program.run, hreply]
    generalize w.reply 0 c = found at hg' ⊢
    obtain ⟨r, w₁⟩ := found
    cases r with
    | answer answer => exact ih answer (h.2 answer trivial) hg'
    | wait => exact ⟨g', rfl, hg'⟩
    | overflow => exact ⟨g', rfl, hg'⟩

end OnDocuments

/-- Fetching has nothing to do with the entries. -/
theorem FetchOnly.onDocuments (h : p.FetchOnly) : p.OnDocuments := by
  induction p with
  | done a => trivial
  | ask c next ih =>
    refine ⟨?_, fun answer _ => ih answer (h.2 answer trivial)⟩
    have hfetch : c.isFetch = true := h.1
    cases c with
    | find k => cases hfetch
    | _ => trivial

end Program

namespace Page

theorem settleFetch_onDocuments (p : Page) (url : Url) (lifetime : Option Nat)
    (found : Except ComposeError (Url × Text)) :
    (p.settleFetch url lifetime found).OnDocuments := by
  cases found with
  | error e => exact ⟨trivial, fun _ _ => trivial⟩
  | ok document => exact ⟨trivial, fun _ _ => ⟨trivial, fun _ _ => trivial⟩⟩

theorem document_onDocuments (p : Page) (url : Url) (lifetime : Option Nat) :
    (p.document url lifetime).OnDocuments := by
  rw [document_eq]
  refine ⟨rfl, fun found _ => ?_⟩
  cases found with
  | some content => exact ⟨trivial, fun _ _ => trivial⟩
  | none =>
    refine ⟨trivial, fun _ _ => ⟨trivial, fun _ _ => ⟨rfl, fun found _ => ?_⟩⟩⟩
    cases found with
    | some content => exact ⟨trivial, fun _ _ => trivial⟩
    | none =>
      exact (p.fetchDocument_fetchOnly url).onDocuments.bind fun found =>
        p.settleFetch_onDocuments url lifetime found

end Page

/-- Whatever renders are made of, they look whole documents up. -/
theorem compositional_onDocuments :
    Compositional (fun _ p => p.OnDocuments) (fun _ => True) (fun _ => True) fun _ => True where
  done _ := trivial
  bind hp hf := Obeys.bind hp fun _ a hyields _ => hf a hyields
  nested _ _ := trivial
  content {r i} template _ _ hinner := by
    unfold Page.content
    split
    · trivial
    · refine (r.page.document_onDocuments _ _).bind ?_
      rintro (e | found)
      · trivial
      · exact hinner _ _ _ trivial
  register key body _ := ⟨trivial, fun _ _ => trivial⟩
  opens _ _ _ := trivial

/-- Every render looks whole documents up. -/
theorem Renderer.compose_onDocuments (r : Renderer) (wanted : Option Text) (document : Text) :
    (r.page.compose r.levels wanted document).OnDocuments :=
  compositional_onDocuments.compose trivial wanted trivial

/-! ## Entries of whole documents -/

/-- Programs in sequence run as the first of them does, and then go on with its result. -/
theorem Program.run_bind_eq {α β : Type} (p : Program α) (f : α → Program β) (w : World) :
    (p.bind f).run w = match p.run w with
      | (.finished a, w') => (f a).run w'
      | (.overflowed, w') => (.overflowed, w')
      | (.stuck, w') => (.stuck, w') := by
  induction p generalizing w with
  | done a => rfl
  | ask c next ih =>
    simp only [ask_bind, run]
    split
    · exact ih _ _
    · rfl
    · rfl

theorem Program.run_bind_congr {α β : Type} {p q : Program α} {w v : World} (h : p.run w = q.run v)
    (f : α → Program β) : (p.bind f).run w = (q.bind f).run v := by
  rw [run_bind_eq, run_bind_eq, h]

namespace World

variable {w : World} {k : FragmentKey} {content : Text}

def Lasting (w : World) (k : FragmentKey) (content : Text) : Prop :=
  ∃ e, w.fragments.get? k = some e ∧ e.isExpired w.clock.calendar = false ∧ e.content = content

/-- A look-up that finds nothing leaves nothing to be found; it removes an entry that has expired. -/
theorem find_of_not_lasting (h : ∀ content, ¬ w.Lasting k content) :
    (w.find k).1 = none ∧ (w.find k).2.fragments.get? k = none := by
  unfold find
  rcases FragmentStore.find_cases w.fragments w.clock.calendar k with
    ⟨hnone, heq⟩ | ⟨e, -, -, heq⟩ | ⟨e, he, hlasts, -⟩
  · rw [heq]
    exact ⟨rfl, hnone⟩
  · rw [heq]
    refine ⟨rfl, ?_⟩
    show (w.fragments.erase k).get? k = none
    rw [Table.get?_erase, if_pos rfl]
  · exact (h e.content ⟨e, he, hlasts, rfl⟩).elim

theorem reply_find_of_none {who : Nat} (h : w.fragments.get? k = none) :
    w.reply who (.find k) = (.answer none, w) := by
  simp only [reply, find, FragmentStore.find_of_none h]

/-- The world in which the document of a key is to be fetched, after it has been missed. -/
def missing (w : World) (k : FragmentKey) : World :=
  { (w.find k).2.count (.fragmentLookup false) with locks := w.locks.enter k 0 }

end World

namespace Page

variable {p : Page} {url : Url} {lifetime : Option Nat} {w : World}

theorem document_run_lasting {content : Text} (h : w.Lasting (documentKey url) content) :
    (p.document url lifetime).run w =
      (.finished (.ok (url, content)), w.count (.fragmentLookup true)) := by
  obtain ⟨e, he, hlasts, rfl⟩ := h
  exact document_run_stored he hlasts

/-- A document without an entry that lasts is fetched under its lock. -/
theorem document_run_absent (h : ∀ content, ¬ w.Lasting (documentKey url) content)
    (hsolo : w.locks.Solo .idle) :
    (p.document url lifetime).run w =
      ((p.fetchDocument url).bind (p.settleFetch url lifetime)).run
        (w.missing (documentKey url)) := by
  obtain ⟨hnone, hgone⟩ := w.find_of_not_lasting h
  -- The look-up may have removed an entry; without it the run is that of a document never stored.
  have hfind : w.reply 0 (.find (documentKey url)) = (.answer none, (w.find (documentKey url)).2) := by
    simp only [World.reply, hnone]
  have hagain : (p.document url lifetime).run w =
      (p.document url lifetime).run (w.find (documentKey url)).2 := by
    rw [document_eq]
    simp only [perform_eq_ask, bind_eq_bind, ask_bind]
    rw [run_answer hfind, run_answer (World.reply_find_of_none hgone)]
  exact hagain.trans (document_run_missing hgone hsolo)

end Page

namespace Renderer

variable {r n : Renderer} {i : Inclusion} {f : Text} {url : Url} {template : Text}

theorem inner_onDocuments (r : Renderer) (base : Url) (wanted : Option Text) (document : Text) :
    (r.inner base wanted document).OnDocuments := by
  unfold inner
  split
  · trivial
  · next n _ => exact n.compose_onDocuments wanted document

theorem content_onDocuments (r : Renderer) (i : Inclusion) (template : Text) :
    (r.page.content r.inner i template).OnDocuments :=
  compositional_onDocuments.content template trivial trivial fun base wanted document _ =>
    r.inner_onDocuments base wanted document

/-- The content of an include for a fragment of a document. An entry of the whole document that
lasts is used, without a request for it. Only where there is none the document is fetched. Entries
of named parts, that of the very fragment among them, change nothing. -/
theorem content_of_fragment (hf : i.fragment = some f)
    (hurl : r.page.resolveTemplate i.source = .ok url) (hn : r.nested url = .ok n) (w : World) :
    (∀ document, w.Lasting (Page.documentKey url) document →
      (r.page.content r.inner i i.source).run w =
        (n.extract document f).run (w.count (.fragmentLookup true))) ∧
    ((∀ document, ¬ w.Lasting (Page.documentKey url) document) → w.locks.Solo .idle →
      (r.page.content r.inner i i.source).run w =
        ((r.page.fetchDocument url).bind fun found =>
          (r.page.settleFetch url i.lifetime found).bind fun
            | .error e => .done (.error e)
            | .ok (base, document) => r.inner base (some f) document).run
          (w.missing (Page.documentKey url))) ∧
    ∀ g, w.fragments.SameDocuments g →
      ∃ g', (r.page.content r.inner i i.source).run { w with fragments := g } =
        (((r.page.content r.inner i i.source).run w).1,
          { ((r.page.content r.inner i i.source).run w).2 with fragments := g' }) := by
  refine ⟨fun document hlasting => ?_, fun habsent hsolo => ?_, fun g hg => ?_⟩
  · rw [Page.content_eq_bind hurl, run_bind (Page.document_run_lasting hlasting)]
    simp only [inner, hn, hf]
    rfl
  · rw [Page.content_eq_bind hurl, hf, run_bind_congr (Page.document_run_absent habsent hsolo)]
    exact congrArg (run _) (Program.bind_bind _ _ _)
  · obtain ⟨g', hrun, -⟩ := (r.content_onDocuments i i.source).run hg
    exact ⟨g', hrun⟩

/-! ## A document with a named part -/

def guideUrl : Url where
  scheme := "http".toList
  authority := some { host := some (.domain "host".toList) }
  path := "/guide".toList

def guidePart : Inclusion where
  source := guideUrl.toText
  fragment := some "part".toList

def guideDocument : Text := "<esi:fragment name='part'>of the document</esi:fragment>".toList

/-- A site with the document, where the named part has an entry of its own. -/
def guideWorld : World where
  fragments := FragmentStore.put .empty { url := guideUrl.toText, name := some "part".toList }
    { content := "of its own".toList }
  backend := Script.backend
    [(guideUrl.toText, [.ok { status := 200, body := Utf8.encode guideDocument }])]

def guideRenderer : Renderer := .ofPage { settings := {}, backends := {}, request := {} }

def guideStored : World :=
  guideWorld.register (Page.documentKey guideUrl) guideDocument true

/-- The entry of the document is used, and nothing is fetched. -/
theorem content_of_fragment_stored :
    guideRenderer.page.resolveTemplate guidePart.source = .ok guideUrl ∧
      guideStored.Lasting (Page.documentKey guideUrl) guideDocument ∧
      let ended := (guideRenderer.page.content guideRenderer.inner guidePart guidePart.source).run
        guideStored
      ended.1 = .finished (.ok "of the document".toList) ∧ ended.2.journal.sent = [] := by
  have hurl : guideRenderer.page.resolveTemplate guidePart.source = .ok guideUrl := by
    decide +kernel
  have hlasting : guideStored.Lasting (Page.documentKey guideUrl) guideDocument :=
    ⟨{ content := guideDocument }, by decide +kernel, rfl, rfl⟩
  refine ⟨hurl, hlasting, ?_⟩
  rw [(content_of_fragment rfl hurl rfl guideStored).1 guideDocument hlasting]
  exact ⟨by decide +kernel, by decide +kernel⟩

/-- The entry of the part itself is passed over, and the document is fetched. -/
theorem named_entry_passed_over :
    guideWorld.Lasting { url := guideUrl.toText, name := some "part".toList }
        "of its own".toList ∧
      let ended := (guideRenderer.render
        "<esi:include src='http://host/guide' fragment='part'/>".toList).run guideWorld
      ended.1 = .finished (.ok "of the document".toList) ∧
        ended.2.journal.sent.map (·.url) = [guideUrl] :=
  ⟨⟨{ content := "of its own".toList }, by decide +kernel, rfl, rfl⟩, by decide +kernel,
    by decide +kernel⟩

end Renderer

end EdgeCompose
