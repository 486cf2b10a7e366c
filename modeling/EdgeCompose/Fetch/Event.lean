import EdgeCompose.Http.Message

/-!
Listeners around a fetch. Each is a function of what is known about the fetch; it may change
the request, supply or remove the answer, ask to skip the backend, and keep later listeners from
being called.
-/

namespace EdgeCompose

/-- Why a fetch is made: for a page as a whole or for a part of one. -/
structure FetchContext where
  isPage : Bool := false
  requestId : Option Text := none
  deriving DecidableEq, Repr

/-- What listeners know of a fetch, all of it theirs to change. At first `isPage` is what the
context says. -/
structure FetchEvent where
  request : FetchRequest
  context : FetchContext
  isPage : Bool := context.isPage
  response : Option Response := none
  skip : Bool := false
  deriving DecidableEq, Repr

inductive Phase where
  | before
  | after
  deriving DecidableEq, Repr

/-- `react` gives the changed event and whether later listeners are called. -/
structure Listener where
  name : Text
  react : FetchEvent → FetchEvent × Bool

/-- One call of a listener, with the event as it was before the call. -/
structure Heard where
  listener : Text
  phase : Phase
  event : FetchEvent
  deriving DecidableEq, Repr

/-- Calls listeners in order until one of them stops, and tells which were called. -/
def announce (phase : Phase) : List Listener → FetchEvent → FetchEvent × List Heard
  | [], e => (e, [])
  | l :: rest, e =>
    let heard : Heard := { listener := l.name, phase, event := e }
    match l.react e with
    | (e, false) => (e, [heard])
    | (e, true) =>
      let (e, more) := announce phase rest e
      (e, heard :: more)

end EdgeCompose
