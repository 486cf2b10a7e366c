import EdgeCompose.Effect.World

/-!
Backends and listeners that are given as data. A scripted backend has a list of answers for each
URL that it knows, and gives them in turn; a scripted listener takes some actions on the events
that meet its condition.
-/

namespace EdgeCompose

namespace Script

abbrev Answers := List (Text × List (Except TransportFailure Response))

def notFound : Response := { status := 404, body := Utf8.encode "not found".toList }

/-- The answer in its turn; the last one is given again and again. -/
def pick (answers : List (Except TransportFailure Response)) (turn : Nat) :
    Except TransportFailure Response :=
  ((answers[turn]? <|> answers.getLast?).getD (.ok notFound))

/-- The backend that follows a script; a URL that is not in it is not found. -/
def backend (script : Answers) : Backend := fun earlier r =>
  let url := r.url.toText
  match script.lookup url with
  | some answers => pick answers (earlier.filter (·.url.toText == url)).length
  | none => .ok notFound

/-- What an event must be like; a part that is absent leaves it open. -/
structure Condition where
  path : Option Text := none
  isPage : Option Bool := none
  success : Option Bool := none

def Condition.holds (c : Condition) (e : FetchEvent) : Bool :=
  c.path.all (· == e.request.url.path) && c.isPage.all (· == e.isPage) &&
    c.success.all (· == e.response.any Response.isSuccess)

inductive Action where
  | setPath (path : Text)
  | setUrl (url : Text)
  | setMethod (method : Text)
  | setHeader (name : Text) (value : Bytes)
  | respond (response : Option Response)
  | skip (b : Bool)

/-- What an action does to an event; a URL, method or name that is none changes nothing. -/
def Action.apply (e : FetchEvent) : Action → FetchEvent
  | .setPath path => { e with request := { e.request with url := e.request.url.withPath path } }
  | .setUrl url =>
    match Url.parse url with
    | .ok url => { e with request := { e.request with url } }
    | .error _ => e
  | .setMethod method =>
    if !method.isEmpty && method.all Headers.isNameChar then
      { e with request := { e.request with method } }
    else e
  | .setHeader name value =>
    match Headers.name? name with
    | some name =>
      { e with request := { e.request with headers := e.request.headers.set name value } }
    | none => e
  | .respond response => { e with response }
  | .skip b => { e with skip := b }

structure Reaction where
  condition : Condition := {}
  actions : List Action := []
  goesOn : Bool := true

/-- The listener that takes a reaction's actions where its condition holds, and lets the event
pass elsewhere. -/
def Reaction.listener (r : Reaction) (name : Text) : Listener where
  name := name
  react e := if r.condition.holds e then (r.actions.foldl Action.apply e, r.goesOn) else (e, true)

end Script

end EdgeCompose
