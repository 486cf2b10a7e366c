import EdgeCompose.Gateway.Service
import EdgeCompose.Http.Forwarding

/-!
Answering a client. The request goes to the default backend; a successful answer of a parseable
type is composed, any other is passed on as it is.
-/

namespace EdgeCompose.Gateway

open Program

/-- The URL of a client's request on the default backend. -/
def pageUrl? (backends : Backends) (request : ClientRequest) : Option Url :=
  backends.defaultUrl?.bind fun base => (base.join request.target.pathAndQuery).toOption

def isHead (method : Text) : Bool := method == "HEAD".toList

/-- Whether an origin's answer to a request is composed. -/
def composes (g : Gateway) (method : Text) (origin : Response) : Bool :=
  origin.isSuccess && !isHead method && g.isParseable origin.contentType?

def originRequest (request : ClientRequest) (url : Url) (body : Bytes) : FetchRequest :=
  { method := request.method, url, headers := Forwarding.requestHeaders request.headers, body }

/-- An answer that the gateway gives in place of a page. -/
def refuse (status : Status) (reason : String) : Program Response := do
  perform (.count (.page .failed status))
  return .plain status reason.toList

def handlePage (g : Gateway) (request : ClientRequest) (body : Bytes) : Program Response :=
  match pageUrl? g.backends request with
  | none => refuse 502 "No default backend configured"
  | some url =>
    if body.length > g.maxBodySize then refuse 413 "Request body too large"
    else do
      let context : FetchContext := { isPage := true, requestId := request.requestId? }
      let origin ← Fetch.fetch (originRequest request url body) context
      if g.composes request.method origin then
        match ← (g.renderer request (some url)).render origin.bodyText with
        | .ok t =>
          perform (.count (.page .rendered origin.status))
          return Forwarding.clientResponse origin.status origin.headers (Utf8.encode t)
        | .error e =>
          perform (.count (.page .failed e.status))
          return e.page
      else
        perform (.count (.page .passthrough origin.status))
        return Forwarding.clientResponse origin.status origin.headers origin.body

end EdgeCompose.Gateway
