import EdgeCompose.Gateway.Handler

/-!
The front end: one path reports the gateway's state, all others are pages. Answers carry the
identifier of their request. A server whose listener is not bound receives no request.
-/

namespace EdgeCompose

namespace Gateway

def statusPath : Text := "/_esi/status".toList

/-- The gateway's state as JSON, the names in alphabetical order. -/
def statusText (g : Gateway) : Text :=
  let field (name : String) (value : Text) : Text := '"' :: name.toList ++ "\":".toList ++ value
  let object (fields : List Text) : Text :=
    '\x7b' :: List.intercalate [','] fields ++ ['\x7d']
  let stored := match g.world.responses with
    | some s => Text.ofNat s.size
    | none => "null".toList
  object
    [field "backends" (Text.ofNat g.backends.providers.size),
      field "connections_in_flight" ['0'],
      field "fragment_cache_entries" (Text.ofNat (Table.size g.world.fragments)),
      field "http_cache_entries" stored,
      field "listeners"
        (object
          [field "fetch_post" (Text.ofNat g.world.after.length),
            field "fetch_pre" (Text.ofNat g.world.before.length)]),
      field "service" "\"esi-gateway\"".toList,
      field "version" "\"0.1.0\"".toList]

def statusResponse (g : Gateway) (method : Text) : Response :=
  if method == "GET".toList || isHead method then
    { status := 200
      headers := [(Response.contentTypeName, Utf8.encode "application/json".toList)]
      body := Utf8.encode g.statusText }
  else { status := 405, headers := [("allow".toList, Utf8.encode "GET,HEAD".toList)] }

/-- The answer to a request by its path. -/
def route (g : Gateway) (request : ClientRequest) (body : Bytes) : Outcome Response × Gateway :=
  let path := request.target.pathOnly
  if path == statusPath then (.finished (g.statusResponse request.method), g)
  else if path.head? == some '/' then g.run (g.handlePage request body)
  else (.finished { status := 404 }, g)

/-- Gives an answer the identifier of its request, unless it has one. -/
def identified (request : ClientRequest) (r : Response) : Response :=
  match request.headers.get? ClientRequest.requestIdName with
  | some id =>
    if r.headers.contains ClientRequest.requestIdName then r
    else { r with headers := r.headers.set ClientRequest.requestIdName id }
  | none => r

/-- An answer as it is sent: without a body where none is allowed. -/
def framed (method : Text) (r : Response) : Response :=
  if isHead method || !r.status.allowsBody then { r with body := [] } else r

def serve (g : Gateway) (request : ClientRequest) (body : Bytes) : Outcome Response × Gateway :=
  let (outcome, g) := g.route request body
  (outcome.map fun r => framed request.method (identified request r), g)

end Gateway

/-- A gateway behind a listener, which may not have been bound. -/
structure Server where
  gateway : Gateway
  bound : Bool

namespace Server

/-- The answer to a request as it comes in, if it comes in at all. -/
def receive (s : Server) (method target : Text) (headers : Headers) (body : Bytes) :
    Option (Outcome Response) × Server :=
  if !s.bound then (none, s)
  else
    match Target.parse? target with
    | none => (some (.finished { status := 400 }), s)
    | some target =>
      let (outcome, gateway) := s.gateway.serve { method, target, headers } body
      (some outcome, { s with gateway })

end Server

end EdgeCompose
