import EdgeCompose.Compose.Error
import EdgeCompose.Config.Backends
import EdgeCompose.Http.ClientRequest

/-!
What a variable stands for in one request. A variable that is not known stands for nothing; a
provider that is not known is an error.
-/

namespace EdgeCompose

structure Variables where
  backends : Backends
  request : ClientRequest

namespace Variables

/-- The client header that a variable stands for as a whole. -/
def headerOf? (name : Text) : Option Text :=
  if name == "HTTP_HOST".toList then some "host".toList
  else if name == "HTTP_USER_AGENT".toList then some "user-agent".toList
  else if name == "HTTP_REFERER".toList then some "referer".toList
  else if name == "HTTP_COOKIE".toList then some "cookie".toList
  else none

def provider : Text := "PROVIDER".toList

def whole (v : Variables) (name : Text) : Text :=
  if name == "QUERY_STRING".toList then v.request.queryString
  else ((headerOf? name).bind v.request.header?).getD []

def keyed (v : Variables) (name key : Text) : Except ComposeError Text :=
  if name == provider then
    match v.backends.templateBase? key with
    | some base => .ok base
    | none => .error (.unknownProvider key)
  else if name == "QUERY_STRING".toList then .ok ((v.request.queryParam? key).getD [])
  else if name == "HTTP_COOKIE".toList then .ok ((v.request.cookie? key).getD [])
  else if name == "HTTP_ACCEPT_LANGUAGE".toList then
    .ok (if v.request.acceptsLanguage key then "true".toList else "false".toList)
  else .ok []

/-- The value of a variable, or of one of its keys. -/
def lookup (v : Variables) (name : Text) : Option Text → Except ComposeError Text
  | none => .ok (v.whole name)
  | some key => v.keyed name key

end Variables

end EdgeCompose
