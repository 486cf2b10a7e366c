import EdgeCompose.Http.Header
import EdgeCompose.Http.Status
import EdgeCompose.Url.Parse

/-!
Requests to a backend, its answers and its failures. A failure has an answer of its own, so
that a fetch always ends in an answer.
-/

namespace EdgeCompose

structure FetchRequest where
  method : Text := ['G', 'E', 'T']
  url : Url
  headers : Headers := []
  body : Bytes := []
  deriving DecidableEq, Repr

structure Response where
  status : Status
  headers : Headers := []
  body : Bytes := []
  deriving DecidableEq, Repr

/-- How a request can fail to be answered. -/
inductive TransportFailure where
  | connect (reason : Text)
  | timeout (reason : Text)
  | poolExhausted (milliseconds : Nat)
  | request (reason : Text)
  deriving DecidableEq, Repr

namespace TransportFailure

def message : TransportFailure → Text
  | .connect reason => "Connection to backend failed: ".toList ++ reason
  | .timeout reason => "Backend request timed out: ".toList ++ reason
  | .poolExhausted n =>
    "No backend connection available after ".toList ++ Text.ofNat n ++ " ms".toList
  | .request reason => "Backend request failed: ".toList ++ reason

def status : TransportFailure → Status
  | .connect _ => 502
  | .timeout _ => 504
  | .poolExhausted _ => 503
  | .request _ => 500

end TransportFailure

namespace Response

def contentTypeName : Text := "content-type".toList

def locationName : Text := "location".toList

/-- An answer in plain text. -/
def plain (status : Status) (body : Text) : Response where
  status := status
  headers := [(contentTypeName, Utf8.encode "text/plain; charset=utf-8".toList)]
  body := Utf8.encode body

def ofFailure (f : TransportFailure) : Response := plain f.status f.message

/-- The answer to a fetch that an extension ended without giving one. -/
def abandoned : Response :=
  plain 500
    "An extension stopped the processing of the request without providing a response".toList

def isSuccess (r : Response) : Bool := r.status.isSuccess

/-- Where a redirect leads, if this is one and its target is text. -/
def location? (r : Response) : Option Text :=
  if r.status.isRedirection then r.headers.text? locationName else none

def contentType? (r : Response) : Option Text := r.headers.text? contentTypeName

def bodyText (r : Response) : Text := Utf8.decode r.body

end Response

end EdgeCompose
