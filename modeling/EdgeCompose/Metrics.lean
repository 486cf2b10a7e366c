import EdgeCompose.Store.Responses

/-!
What is counted. A sample is one thing that happened; each sample adds to one or two named
series, and the value of a series is the number of samples that add to it.
-/

namespace EdgeCompose

/-- How a client's request for a page ended. -/
inductive PageOutcome where
  | rendered
  | passthrough
  | failed
  deriving DecidableEq, Repr

def PageOutcome.name : PageOutcome → Text
  | .rendered => "rendered".toList
  | .passthrough => "passthrough".toList
  | .failed => "failed".toList

inductive Sample where
  | page (outcome : PageOutcome) (status : Status)
  | fetched (status : Status)
  | fragmentLookup (hit : Bool)
  | responseLookup (lookup : Lookup)
  deriving DecidableEq, Repr

namespace Sample

/-- A name with labels, which are given in the order of their names. -/
def labelled (name : String) (labels : List (String × Text)) : Text :=
  let pairs := labels.map fun (label, value) => label.toList ++ '=' :: value
  name.toList ++ ['\x7b'] ++ List.intercalate [','] pairs ++ ['\x7d']

/-- The series that a sample adds to. -/
def series : Sample → List Text
  | .page outcome status =>
    [labelled "esi_pages_total" [("outcome", outcome.name), ("status", Text.ofNat status)],
      labelled "esi_page_render_seconds" [("outcome", outcome.name)]]
  | .fetched status =>
    [labelled "esi_fetches_total" [("status", Text.ofNat status)],
      "esi_fetch_duration_seconds".toList]
  | .fragmentLookup hit =>
    let result := if hit then "hit".toList else "miss".toList
    [labelled "esi_fragment_cache_lookups_total" [("result", result)]]
  | .responseLookup lookup =>
    [labelled "esi_http_cache_lookups_total" [("result", lookup.name)]]

end Sample

/-- Every series that a sample adds to, with its value. -/
def countSeries (samples : List Sample) : List (Text × Nat) :=
  let all := samples.flatMap Sample.series
  all.eraseDups.map fun name => (name, all.count name)

end EdgeCompose
