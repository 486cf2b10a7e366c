import EdgeCompose.Config.Settings
import EdgeCompose.Fetch.Exchange
import EdgeCompose.Template.Variables

/-!
What a document is composed for: the client's request, the backends, the limits, and the URL
that the document came from. Here references are resolved and documents are fetched.
-/

namespace EdgeCompose

structure Page where
  settings : RenderSettings
  backends : Backends
  request : ClientRequest
  base : Option Url := none

namespace Page

def bindings (p : Page) : Variables := { backends := p.backends, request := p.request }

def invalid (reference : Text) (e : UrlError) : ComposeError := .invalidUrl reference e.message

/-- The URL of a reference. A relative one is joined to the document's URL, or to the default
backend's if the document has none. -/
def resolve (p : Page) (reference : Text) : Except ComposeError Url :=
  match Url.parse reference with
  | .ok url => .ok url
  | .error .noBase =>
    match p.base <|> p.backends.defaultUrl? with
    | none => .error (.invalidUrl reference "relative URL and no default backend".toList)
    | some base => (base.join reference).mapError (invalid reference)
  | .error e => .error (invalid reference e)

/-- A request for a part of the page: it carries the first value of each forwarded field and
the request's identifier. -/
def fragmentRequest (p : Page) (url : Url) : FetchRequest :=
  let forward (headers : Headers) (name : Text) : Headers :=
    match p.request.headers.get? name with
    | some value => headers.set name value
    | none => headers
  let headers := p.settings.forwarded.foldl forward []
  match p.request.requestId? with
  | some id => { url, headers := headers.set ClientRequest.requestIdName (Utf8.encode id) }
  | none => { url, headers }

def fragmentContext (p : Page) : FetchContext := { requestId := p.request.requestId? }

/-- Fetches a document with at most `left` more redirects. -/
def follow (p : Page) (left : Nat) (url : Url) : Program (Except ComposeError (Url × Text)) := do
  let response ← Fetch.fetch (p.fragmentRequest url) p.fragmentContext
  match response.location? with
  | some location =>
    match left with
    | 0 => return .error (.tooManyRedirects url.toText p.settings.maxRedirects)
    | left + 1 =>
      match url.join location with
      | .error e => return .error (invalid location e)
      | .ok next => p.follow left next
  | none =>
    if response.isSuccess then return .ok (url, response.bodyText)
    else return .error (.fragmentUnavailable url.toText response.status response.bodyText)

/-- Fetches a document, and tells the URL that it came from in the end. -/
def fetchDocument (p : Page) (url : Url) : Program (Except ComposeError (Url × Text)) :=
  p.follow p.settings.maxRedirects url

end Page

end EdgeCompose
