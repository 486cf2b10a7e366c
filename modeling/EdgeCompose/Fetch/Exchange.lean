import EdgeCompose.Effect.Program

/-!
One fetch. Listeners hear of it before and after; between them the stored answers are consulted
where there are any, and the backend is asked once if they have none. A fetch always ends in an
answer.
-/

namespace EdgeCompose.Fetch

open Program

/-- The backend's answer; a failure has an answer too. -/
def transmit (r : FetchRequest) : Program Response := do
  let response := match ← perform (.send r) with
    | .ok response => response
    | .error failure => .ofFailure failure
  perform (.count (.fetched response.status))
  return response

/-- A stored answer, or the backend's answer, which is then offered to the store. -/
def answer (r : FetchRequest) : Program Response := do
  match ← perform (.consult r) with
  | none => transmit r
  | some lookup =>
    perform (.count (.responseLookup lookup))
    match lookup.response? with
    | some response => return response
    | none =>
      let response ← transmit r
      perform (.offer r response)
      return response

def fetch (r : FetchRequest) (context : FetchContext) : Program Response := do
  let e ← perform (.announce .before { request := r, context })
  let response ← if e.skip then pure (e.response.getD .abandoned) else answer e.request
  let e ← perform (.announce .after { e with response := some response })
  return e.response.getD .abandoned

end EdgeCompose.Fetch
