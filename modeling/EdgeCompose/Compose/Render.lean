import EdgeCompose.Compose.Composition
import EdgeCompose.Compose.Page

/-!
Composing documents. The tokens of a document are taken one by one; an include composes the
document it names in the same way, one level deeper, until the levels are used up.
-/

namespace EdgeCompose

open Program

/-- Composes a document that came from a URL, or one fragment of it. -/
abbrev Composer := Url → Option Text → Text → Program (Except ComposeError Text)

namespace Page

def documentKey (url : Url) : FragmentKey := { url := url.toText }

/-- The document of a URL, fetched unless it is known, and the URL that it came from. Whoever
fetches it holds its lock, and looks again once the lock is granted. -/
def document (p : Page) (url : Url) (lifetime : Option Nat) :
    Program (Except ComposeError (Url × Text)) := do
  let key := documentKey url
  match ← perform (.find key) with
  | some content =>
    perform (.count (.fragmentLookup true))
    return .ok (url, content)
  | none =>
    perform (.count (.fragmentLookup false))
    perform (.acquire key)
    match ← perform (.find key) with
    | some content =>
      perform (.release key)
      return .ok (url, content)
    | none =>
      match ← p.fetchDocument url with
      | .error e =>
        perform (.release key)
        return .error e
      | .ok (final, content) =>
        perform (.keep key content (lifetime <|> p.settings.lifetime))
        perform (.release key)
        return .ok (final, content)

/-- The URL that a template stands for. -/
def resolveTemplate (p : Page) (template : Text) : Except ComposeError Url := do
  p.resolve (← Template.substitute p.bindings template)

/-- The composed content of a source. -/
def content (p : Page) (inner : Composer) (i : Inclusion) (template : Text) :
    Program (Except ComposeError Text) :=
  match p.resolveTemplate template with
  | .error e => return .error e
  | .ok url => do
    match ← p.document url i.lifetime with
    | .error e => return .error e
    | .ok (base, content) => inner base i.fragment content

/-- The composed content of an include: that of its source or else of its alternate. The error
is the source's. -/
def included (p : Page) (inner : Composer) (i : Inclusion) : Program (Except ComposeError Text) := do
  match ← p.content inner i i.source with
  | .ok t => return .ok t
  | .error e =>
    match i.alternate with
    | none => return .error e
    | some alternate =>
      match ← p.content inner i alternate with
      | .ok t => return .ok t
      | .error _ => return .error e

/-- Ends an element that has been taken off. -/
def close (p : Page) (inner : Composer) (c : Composition) (e : Element) :
    Program (Composition × Except ComposeError Unit) :=
  match e with
  | .inclusion i => do
    match ← p.included inner i with
    | .ok t => return (c.write t, .ok ())
    | .error e => if i.continues then return (c, .ok ()) else return c.report e
  | .inline name fetchable body =>
    match p.resolveTemplate name with
    | .error e => return c.report e
    | .ok url => do
      perform (.register (documentKey url) body fetchable)
      return (c, .ok ())
  | _ => return c.settle p.bindings e

/-- Ends the innermost element. -/
def closeTop (p : Page) (inner : Composer) (c : Composition) (tag : Text) :
    Program (Composition × Except ComposeError Unit) :=
  match c.pop? with
  | none => return (c, .error (Composition.unexpected tag))
  | some (e, c) => p.close inner c e

/-- Takes one tag. -/
def takeTag (p : Page) (inner : Composer) (c : Composition) (tag : Text) :
    Program (Composition × Except ComposeError Unit) :=
  if c.isForeign then
    match c.foreignTag tag with
    | (true, c) => p.closeTop inner c tag
    | (false, c) => return (c, .ok ())
  else
    match Markup.lookup? tag with
    | some (.starts d) =>
      match c.start p.bindings d tag with
      | (c, .error e) => return (c, .error e)
      | (c, .ok true) => p.closeTop inner c tag
      | (c, .ok false) => return (c, .ok ())
    | some (.ends _) =>
      if c.isTopEnd tag then p.closeTop inner c tag
      else return c.report (Composition.unexpected tag)
    | none => return (c.write tag, .ok ())

def take (p : Page) (inner : Composer) (c : Composition) :
    Markup.Token → Program (Composition × Except ComposeError Unit)
  | .text t => return (c.write t, .ok ())
  | .tag tag => p.takeTag inner c tag

/-- Takes tokens up to the first error. -/
def takeAll (p : Page) (inner : Composer) (c : Composition) :
    List Markup.Token → Program (Composition × Except ComposeError Unit)
  | [] => return (c, .ok ())
  | t :: rest => do
    match ← p.take inner c t with
    | (c, .error e) => return (c, .error e)
    | (c, .ok ()) => p.takeAll inner c rest

/-- The output of a document, or of the fragment that was wanted of it. -/
def output (p : Page) (wanted : Option Text) (c : Composition) : Except ComposeError Text := do
  match wanted, ← c.finish with
  | some name, none => throw (.fragmentNotFound ((p.base.map Url.toText).getD []) name)
  | _, out => return out.getD []

/-- Composes a document, whose includes are composed by `inner`. -/
def composeWith (p : Page) (inner : Composer) (wanted : Option Text) (document : Text) :
    Program (Except ComposeError Text) := do
  match ← p.takeAll inner (.ofWanted wanted) (Markup.scan document) with
  | (_, .error e) => return .error e
  | (c, .ok ()) => return p.output wanted c

/-- The page of a document that came from a URL. -/
def within (p : Page) (base : Url) : Page := { p with base := some base }

def tooDeep (p : Page) : ComposeError := .depthExceeded p.settings.maxDepth

/-- Composes a document with so many levels of includes left. -/
def compose (p : Page) : (levels : Nat) → Option Text → Text → Program (Except ComposeError Text)
  | 0, wanted, document =>
    p.composeWith (fun _ _ _ => return .error p.tooDeep) wanted document
  | levels + 1, wanted, document =>
    p.composeWith (fun base => (p.within base).compose levels) wanted document

end Page

/-- A page with the levels of includes that it has left. -/
structure Renderer where
  page : Page
  levels : Nat

namespace Renderer

def ofPage (p : Page) : Renderer := { page := p, levels := p.settings.maxDepth }

/-- The renderer for a document that came from a URL, one level deeper. -/
def nested (r : Renderer) (base : Url) : Except ComposeError Renderer :=
  match r.levels with
  | 0 => .error r.page.tooDeep
  | levels + 1 => .ok { page := r.page.within base, levels }

/-- What the renderer's includes are composed by. -/
def inner (r : Renderer) : Composer := fun base wanted document =>
  match r.nested base with
  | .error e => return .error e
  | .ok n => n.page.compose n.levels wanted document

def render (r : Renderer) (document : Text) : Program (Except ComposeError Text) :=
  r.page.compose r.levels none document

def extract (r : Renderer) (document name : Text) : Program (Except ComposeError Text) :=
  r.page.compose r.levels (some name) document

end Renderer

end EdgeCompose
