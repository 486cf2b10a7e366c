import EdgeCompose.Table
import EdgeCompose.Url.Parse

/-!
Named backends with their base URLs. One of them may be the default, which serves pages and
relative includes.
-/

namespace EdgeCompose

structure Backends where
  providers : Table Text Url := .empty
  default : Option Text := none

namespace Backends

def get? (b : Backends) (name : Text) : Option Url := b.providers.get? name

/-- The base URL as templates write it, without slashes at its end. -/
def templateBase? (b : Backends) (name : Text) : Option Text :=
  (b.get? name).map fun url => Text.dropEndWhile (· == '/') url.toText

def defaultUrl? (b : Backends) : Option Url := b.default.bind b.get?

/-- The backends of names and URLs; the first URL that is none is the error. -/
def ofPairs (default : Option Text) (pairs : List (Text × Text)) : Except UrlError Backends := do
  let providers ← pairs.mapM fun (name, url) => do return (name, ← Url.parse url)
  return { providers := .ofList providers, default }

/-- The backends of names and URLs, without those whose URL is none. -/
def ofValidPairs (default : Option Text) (pairs : List (Text × Text)) : Backends where
  providers := .ofList (pairs.filterMap fun (name, url) => (Url.parse url).toOption.map (name, ·))
  default := default

end Backends

end EdgeCompose
