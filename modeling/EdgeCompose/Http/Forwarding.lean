import EdgeCompose.Http.Message

/-!
Which header fields cross the gateway. Fields about one connection stay behind, and so do those
that the next hop computes anew.
-/

namespace EdgeCompose.Forwarding

def hopByHop : List Text :=
  ["connection".toList, "keep-alive".toList, "proxy-authenticate".toList,
    "proxy-authorization".toList, "te".toList, "trailer".toList, "transfer-encoding".toList,
    "upgrade".toList]

def isHopByHop (name : Text) : Bool := hopByHop.contains name

/-- The fields of a client request that its origin sees. -/
def requestHeaders (headers : Headers) : Headers :=
  headers.filter fun e =>
    !(isHopByHop e.1 || e.1 == "host".toList || e.1 == "content-length".toList)

/-- The fields of an origin's answer that the client sees. -/
def responseHeaders (headers : Headers) : Headers :=
  headers.filter fun e => !(isHopByHop e.1 || e.1 == "content-length".toList)

/-- The client's answer: the origin's status and fields around a new body. -/
def clientResponse (status : Status) (originHeaders : Headers) (body : Bytes) : Response where
  status := status
  headers := responseHeaders originHeaders
  body := body

end EdgeCompose.Forwarding
