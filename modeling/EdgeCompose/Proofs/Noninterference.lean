import Mathlib.Data.List.Basic
import EdgeCompose.Fetch.Script
import EdgeCompose.Proofs.Rendering

/-!
What a render reads of the client's request: its query string, and the first values of the fields
that variables stand for, of the request's identifier and of the fields that are forwarded. Two
requests that agree on these have the same variables (`lookup_withRequest`), and a page asks the
same of its surroundings for both of them: the two renders are one program (`compose_withRequest`).
-/

namespace EdgeCompose

open Markup (Directive)

/-! ## Variables -/

namespace ClientRequest

/-- The fields that composing reads by name. -/
def readNames : List Text :=
  [requestIdName, "host".toList, "user-agent".toList, "referer".toList, "cookie".toList,
    "accept-language".toList]

/-- Two requests with the same query string and the same first value, or none, of each field of
`names`. -/
structure Agree (names : List Text) (a b : ClientRequest) : Prop where
  query : a.queryString = b.queryString
  fields : ∀ name ∈ names, a.headers.get? name = b.headers.get? name

namespace Agree

variable {names : List Text} {a b : ClientRequest}

theorem header? (h : Agree names a b) {name : Text} (hname : name ∈ names) :
    a.header? name = b.header? name := by
  unfold ClientRequest.header? Headers.text?
  rw [h.fields name hname]

theorem queryParam? (h : Agree names a b) : a.queryParam? = b.queryParam? := by
  funext name
  unfold ClientRequest.queryParam?
  rw [h.query]

theorem cookie? (h : Agree names a b) (hnames : readNames ⊆ names) : a.cookie? = b.cookie? := by
  funext name
  unfold ClientRequest.cookie?
  rw [h.header? (hnames (by decide))]

theorem acceptsLanguage (h : Agree names a b) (hnames : readNames ⊆ names) :
    a.acceptsLanguage = b.acceptsLanguage := by
  funext lang
  unfold ClientRequest.acceptsLanguage
  rw [h.header? (hnames (by decide))]

theorem requestId? (h : Agree names a b) (hnames : readNames ⊆ names) :
    a.requestId? = b.requestId? :=
  h.header? (hnames (by decide))

end Agree

end ClientRequest

namespace Variables

open ClientRequest

variable {a b : ClientRequest} {names : List Text}

/-- Every field that a variable stands for is one that composing reads. -/
theorem headerOf?_read {name field : Text} (h : headerOf? name = some field) :
    field ∈ readNames := by
  unfold headerOf? at h
  split at h
  · cases h
    decide
  split at h
  · cases h
    decide
  split at h
  · cases h
    decide
  split at h
  · cases h
    decide
  · cases h

theorem whole_agree (backends : Backends) (h : Agree names a b) (hnames : readNames ⊆ names)
    (name : Text) :
    whole { backends, request := a } name = whole { backends, request := b } name := by
  unfold whole
  simp only [h.query]
  cases hfield : headerOf? name with
  | none => rfl
  | some field =>
    simp only [Option.bind_some, h.header? (hnames (headerOf?_read hfield))]

/-- A variable has the same value for requests that agree. -/
theorem lookup_agree (backends : Backends) (h : Agree names a b) (hnames : readNames ⊆ names) :
    lookup { backends, request := a } = lookup { backends, request := b } := by
  funext name key?
  cases key? with
  | none => exact congrArg Except.ok (whole_agree backends h hnames name)
  | some key =>
    simp only [lookup, keyed, h.queryParam?, h.cookie? hnames, h.acceptsLanguage hnames]

end Variables

/-! ## Templates and expressions -/

variable {v v' : Variables}

/-- A template reads its request through variables only. -/
theorem Template.substitute_congr (h : v.lookup = v'.lookup) : substitute v = substitute v' := by
  have hvalue : Part.value v = Part.value v' := by
    funext part
    cases part with
    | literal c => rfl
    | reference r => exact congrFun (congrFun h r.name) r.key
  funext t
  unfold substitute
  rw [hvalue]

namespace Expression

theorem lexemes_congr (h : v.lookup = v'.lookup) (expression t : Text) :
    lexemes v expression t = lexemes v' expression t := by
  have hread (s : Spelling) : s.read v = s.read v' := by
    match s with
    | .lexeme l => rfl
    | .variable r => simp only [Spelling.read, h]
  fun_induction lexemes v expression t with
  | case1 => rw [lexemes.eq_def]
  | case2 c rest hblank ih => rw [lexemes_cons, if_pos hblank, ih]
  | case3 c rest hblank f hf => rw [lexemes_cons, if_neg hblank, hf]
  | case4 c rest hblank s after hs e he =>
    rw [lexemes_cons, if_neg hblank, hs]
    simp only [← hread, he]
  | case5 c rest hblank s after hs l hl ih =>
    rw [lexemes_cons, if_neg hblank, hs]
    simp only [← hread, hl, ih]

/-- A test expression reads its request through variables only. -/
theorem evaluate_congr (h : v.lookup = v'.lookup) : evaluate v = evaluate v' := by
  funext expression
  unfold evaluate
  rw [lexemes_congr h]

end Expression

namespace Composition

theorem opened_congr (h : v.lookup = v'.lookup) (c : Composition) (d : Directive) (tag : Text) :
    c.opened v d tag = c.opened v' d tag := by
  unfold opened
  rw [Expression.evaluate_congr h]

theorem start_congr (h : v.lookup = v'.lookup) (c : Composition) (d : Directive) (tag : Text) :
    c.start v d tag = c.start v' d tag := by
  unfold start
  rw [opened_congr h]

theorem settle_congr (h : v.lookup = v'.lookup) (c : Composition) (e : Element) :
    c.settle v e = c.settle v' e := by
  cases e with
  | vars body => simp only [settle, Template.substitute_congr h]
  | _ => rfl

end Composition

/-! ## Pages -/

namespace Page

open ClientRequest

def withRequest (p : Page) (request : ClientRequest) : Page := { p with request }

def readNames (p : Page) : List Text := ClientRequest.readNames ++ p.settings.forwarded

variable {p : Page} {a b : ClientRequest}

theorem lookup_withRequest (h : Agree p.readNames a b) :
    (p.withRequest a).bindings.lookup = (p.withRequest b).bindings.lookup :=
  Variables.lookup_agree p.backends h (List.subset_append_left _ _)

/-- The fields of a client's request that are forwarded, in front of none. -/
def forwardedOf (request : ClientRequest) (names : List Text) : Headers :=
  names.foldl (fun headers name =>
    match request.headers.get? name with
    | some value => headers.set name value
    | none => headers) []

theorem fragmentRequest_eq (p : Page) (url : Url) :
    p.fragmentRequest url =
      let headers := forwardedOf p.request p.settings.forwarded
      match p.request.requestId? with
      | some id => { url, headers := headers.set requestIdName (Utf8.encode id) }
      | none => { url, headers } := rfl

theorem forwardedOf_agree {names forwarded : List Text} (h : Agree names a b)
    (hnames : forwarded ⊆ names) : forwardedOf a forwarded = forwardedOf b forwarded := by
  refine List.foldl_ext _ _ _ fun headers name hname => ?_
  rw [h.fields name (hnames hname)]

/-- Requests for parts of the page carry nothing else of the client's request. -/
theorem fragmentRequest_withRequest (h : Agree p.readNames a b) (url : Url) :
    (p.withRequest a).fragmentRequest url = (p.withRequest b).fragmentRequest url := by
  have hid := h.requestId? (List.subset_append_left _ _)
  have hforwarded := forwardedOf_agree h (List.subset_append_right _ _)
  simp only [fragmentRequest_eq, withRequest, hid, hforwarded]

theorem fragmentContext_withRequest (h : Agree p.readNames a b) :
    (p.withRequest a).fragmentContext = (p.withRequest b).fragmentContext :=
  congrArg (FetchContext.mk false) (h.requestId? (List.subset_append_left _ _))

theorem follow_withRequest (h : Agree p.readNames a b) (left : Nat) (url : Url) :
    (p.withRequest a).follow left url = (p.withRequest b).follow left url := by
  induction left generalizing url with
  | zero =>
    unfold follow
    rw [fragmentRequest_withRequest h, fragmentContext_withRequest h]
    rfl
  | succ left ih =>
    unfold follow
    rw [fragmentRequest_withRequest h, fragmentContext_withRequest h]
    simp only [ih]

theorem document_withRequest (h : Agree p.readNames a b) (url : Url) (lifetime : Option Nat) :
    (p.withRequest a).document url lifetime = (p.withRequest b).document url lifetime := by
  have hfetch : (p.withRequest a).fetchDocument url = (p.withRequest b).fetchDocument url :=
    follow_withRequest h _ url
  unfold document
  rw [hfetch]
  rfl

theorem resolveTemplate_withRequest (h : Agree p.readNames a b) (template : Text) :
    (p.withRequest a).resolveTemplate template = (p.withRequest b).resolveTemplate template := by
  unfold resolveTemplate
  rw [Template.substitute_congr (lookup_withRequest h)]
  rfl

variable (inner : Composer)

theorem content_withRequest (h : Agree p.readNames a b) (i : Inclusion) (template : Text) :
    (p.withRequest a).content inner i template = (p.withRequest b).content inner i template := by
  unfold content
  simp only [resolveTemplate_withRequest h, document_withRequest h]

theorem close_withRequest (h : Agree p.readNames a b) (c : Composition) (e : Element) :
    (p.withRequest a).close inner c e = (p.withRequest b).close inner c e := by
  have hsettle := Composition.settle_congr (lookup_withRequest h) c e
  cases e with
  | inclusion i => simp only [close, included, content_withRequest inner h]
  | inline name fetchable body => simp only [close, resolveTemplate_withRequest h]
  | _ => exact congrArg Program.done hsettle

theorem closeTop_withRequest (h : Agree p.readNames a b) (c : Composition) (tag : Text) :
    (p.withRequest a).closeTop inner c tag = (p.withRequest b).closeTop inner c tag := by
  simp only [closeTop, close_withRequest inner h]

theorem take_withRequest (h : Agree p.readNames a b) (c : Composition) (t : Markup.Token) :
    (p.withRequest a).take inner c t = (p.withRequest b).take inner c t := by
  cases t with
  | text t => rfl
  | tag tag =>
    simp only [take, takeTag, closeTop_withRequest inner h,
      Composition.start_congr (lookup_withRequest h)]

theorem takeAll_withRequest (h : Agree p.readNames a b) (ts : List Markup.Token)
    (c : Composition) :
    (p.withRequest a).takeAll inner c ts = (p.withRequest b).takeAll inner c ts := by
  induction ts generalizing c with
  | nil => rfl
  | cons t ts ih => simp only [takeAll, take_withRequest inner h, ih]

/-- A document is composed by one program for requests that agree. -/
theorem compose_withRequest (h : Agree p.readNames a b) (levels : Nat) (wanted : Option Text)
    (document : Text) :
    (p.withRequest a).compose levels wanted document =
      (p.withRequest b).compose levels wanted document := by
  induction levels generalizing p wanted document with
  | zero =>
    simp only [compose, composeWith, takeAll_withRequest _ h]
    rfl
  | succ levels ih =>
    have hinner (base : Url) : ((p.withRequest a).within base).compose levels =
        ((p.withRequest b).within base).compose levels := by
      funext wanted document
      exact ih (p := p.within base) h wanted document
    simp only [compose, composeWith, hinner, takeAll_withRequest _ h]
    rfl

end Page

namespace Renderer

def withRequest (r : Renderer) (request : ClientRequest) : Renderer :=
  { r with page := r.page.withRequest request }

/-- Two requests that agree on the query string and on the fields that are read are composed for
alike: the renders, and the extractions, are the same programs, so they have the same interleavings
with others; and from one world they come to the same result, the same requests to the backend and
the same stores. -/
theorem compose_agree (r : Renderer) {a b : ClientRequest}
    (h : ClientRequest.Agree r.page.readNames a b) (document : Text) :
    (r.withRequest a).render document = (r.withRequest b).render document ∧
    (∀ name, (r.withRequest a).extract document name = (r.withRequest b).extract document name) ∧
    ∀ (wanted : Option Text) (w : World),
      let x := ((r.withRequest a).page.compose r.levels wanted document).run w
      let y := ((r.withRequest b).page.compose r.levels wanted document).run w
      x.1 = y.1 ∧ x.2.journal.sent = y.2.journal.sent ∧ x.2.fragments = y.2.fragments ∧
        x.2.responses = y.2.responses := by
  have hsame (wanted : Option Text) : (r.withRequest a).page.compose r.levels wanted document =
      (r.withRequest b).page.compose r.levels wanted document :=
    Page.compose_withRequest h r.levels wanted document
  refine ⟨hsame none, fun name => hsame (some name), fun wanted w => ?_⟩
  simp only [hsame, and_self]

/-! ## Two clients with credentials of their own -/

def clientRequest (method path token : String) : ClientRequest where
  method := method.toList
  target := { path := path.toList, query := some "page=part".toList }
  headers :=
    [("authorization".toList, Utf8.encode token.toList),
      ("cookie".toList, Utf8.encode "session=1".toList)]

def forwardingRenderer : Renderer :=
  .ofPage { settings := { forwarded := ["cookie".toList] }, backends := {}, request := {} }

/-- An include whose source depends on the client's query string. -/
def queriedDocument : Text := "<esi:include src='http://host/$(QUERY_STRING\x7bpage\x7d)'/>".toList

def queriedWorld : World where
  backend := Script.backend
    [("http://host/part".toList, [.ok { status := 200, body := Utf8.encode "part".toList }])]

theorem compose_agree_clients :
    let a := clientRequest "GET" "/a" "one"
    let b := clientRequest "POST" "/b" "two"
    let x := ((forwardingRenderer.withRequest a).render queriedDocument).run queriedWorld
    let y := ((forwardingRenderer.withRequest b).render queriedDocument).run queriedWorld
    ClientRequest.Agree forwardingRenderer.page.readNames a b ∧ a ≠ b ∧
      x.1 = .finished (.ok "part".toList) ∧ x.2.journal.sent.length = 1 ∧
      x.1 = y.1 ∧ x.2.journal.sent = y.2.journal.sent ∧ x.2.fragments = y.2.fragments := by
  intro a b x y
  have hagree : ClientRequest.Agree forwardingRenderer.page.readNames a b :=
    ⟨by decide +kernel, by decide +kernel⟩
  have hsame := (compose_agree forwardingRenderer hagree queriedDocument).2.2 none queriedWorld
  exact ⟨hagree, by decide +kernel, by decide +kernel, by decide +kernel, hsame.1, hsame.2.1,
    hsame.2.2.1⟩

end Renderer

end EdgeCompose
