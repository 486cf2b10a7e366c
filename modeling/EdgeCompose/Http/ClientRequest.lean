import EdgeCompose.Http.Header
import EdgeCompose.Http.Target

/-!
The client request that a page is composed for: its query parameters, cookies and languages.
-/

namespace EdgeCompose

structure ClientRequest where
  method : Text := ['G', 'E', 'T']
  target : Target := .root
  headers : Headers := []
  deriving DecidableEq, Repr

namespace ClientRequest

def requestIdName : Text := "x-request-id".toList

def header? (r : ClientRequest) (name : Text) : Option Text := r.headers.text? name

def queryString (r : ClientRequest) : Text := r.target.queryString

/-- The decoded value of the first query parameter of a name. -/
def queryParam? (r : ClientRequest) (name : Text) : Option Text :=
  (Form.pairs r.queryString).lookup name

/-- The value of the first cookie of a name. -/
def cookie? (r : ClientRequest) (name : Text) : Option Text := do
  let header ← r.header? "cookie".toList
  ((header.splitOn ';').filterMap fun pair => Text.splitOnce? '=' (Text.trim pair)).lookup name

/-- Whether a language tag is `lang` or `lang` with further subtags. -/
def tagMatches (lang tag : Text) : Bool :=
  Text.equalFold tag lang ||
    (Text.equalFold (tag.take lang.length) lang && (tag.drop lang.length).head? == some '-')

def acceptsLanguage (r : ClientRequest) (lang : Text) : Bool :=
  match r.header? "accept-language".toList with
  | none => false
  | some header =>
    (header.splitOn ',').any fun item =>
      tagMatches lang (Text.trim (item.takeWhile (· != ';')))

def requestId? (r : ClientRequest) : Option Text := r.header? requestIdName

end ClientRequest

end EdgeCompose
