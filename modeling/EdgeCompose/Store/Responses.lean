import EdgeCompose.Http.CacheControl
import EdgeCompose.Http.Message
import EdgeCompose.Store.Clock
import EdgeCompose.Table

/-!
Backend answers that a shared cache may serve again. An answer is stored only if its status and
its header fields allow it, is served until its lifetime is over, and only to requests that agree
with the storing one on the fields the answer varies by. The number of answers is bounded.
-/

namespace EdgeCompose

structure RequestKey where
  method : Text
  url : Text
  deriving DecidableEq, Repr

def FetchRequest.key (r : FetchRequest) : RequestKey := { method := r.method, url := r.url.toText }

structure StoredResponse where
  response : Response
  vary : List (Text × Option Text) := []
  expires : Int
  deriving DecidableEq, Repr

def StoredResponse.isFresh (s : StoredResponse) (now : Int) : Bool := s.expires > now

/-- Whether a request agrees with the storing one on the fields the answer varies by. -/
def StoredResponse.accepts (s : StoredResponse) (headers : Headers) : Bool :=
  s.vary.all fun (name, value) => headers.text? name == value

inductive Lookup where
  | hit (response : Response)
  | miss
  | bypass
  deriving DecidableEq, Repr

def Lookup.name : Lookup → Text
  | .hit _ => "hit".toList
  | .miss => "miss".toList
  | .bypass => "bypass".toList

def Lookup.response? : Lookup → Option Response
  | .hit r => some r
  | _ => none

structure ResponseStore where
  capacity : Nat
  entries : Table RequestKey StoredResponse := .empty

namespace ResponseStore

def size (s : ResponseStore) : Nat := s.entries.size

def isCacheableMethod (method : Text) : Bool := method == "GET".toList || method == "HEAD".toList

def cacheableStatuses : List Status := [200, 203, 300, 301, 404, 410]

/-- Whether a request asks not to be answered from a store. -/
def forbidsReuse (r : FetchRequest) : Bool :=
  let cc := CacheControl.ofHeaders r.headers
  cc.noCache || cc.noStore ||
    (r.headers.text? "pragma".toList).any (Text.equalFold · "no-cache".toList)

/-- Looks an answer up; one whose lifetime is over is removed. -/
def lookup (s : ResponseStore) (now : Int) (r : FetchRequest) : Lookup × ResponseStore :=
  if !isCacheableMethod r.method || forbidsReuse r then (.bypass, s)
  else
    match s.entries.get? r.key with
    | none => (.miss, s)
    | some stored =>
      if !stored.isFresh now then (.miss, { s with entries := s.entries.erase r.key })
      else if stored.accepts r.headers then (.hit stored.response, s)
      else (.miss, s)

/-- The field names of one line of Vary; none for a star. -/
def varyNames? (line : Text) : Option (List Text) :=
  let names := (line.splitOn ',').map fun name => Text.lower (Text.trim name)
  if names.contains ['*'] then none else some (names.filter (! ·.isEmpty))

/-- The fields that an answer varies by; none if they cannot be told. -/
def varyFields? (headers : Headers) : Option (List Text) :=
  ((headers.getAll "vary".toList).mapM fun value =>
    (Headers.valueText? value).bind varyNames?).map List.flatten

/-- The lifetime of an answer to a request and the fields it varies by, if it may be stored. -/
def storable? (r : FetchRequest) (response : Response) : Option (Nat × List Text) :=
  let cc := CacheControl.ofHeaders response.headers
  if !isCacheableMethod r.method || !cacheableStatuses.contains response.status then none
  else if (CacheControl.ofHeaders r.headers).noStore then none
  else if cc.noStore || cc.noCache || cc.isPrivate then none
  else if r.headers.contains "authorization".toList && !cc.allowsAuthorized then none
  else
    match cc.lifetime?.filter (· != 0) with
    | none => none
    | some lifetime => (varyFields? response.headers).map (lifetime, ·)

/-- Whether there is no place for one more key. -/
def isFullFor (s : ResponseStore) (k : RequestKey) : Bool :=
  s.size ≥ s.capacity && !s.entries.contains k

/-- Removes the answers whose lifetime is over, if there is no place for a key. -/
def makeRoom (s : ResponseStore) (now : Int) (k : RequestKey) : ResponseStore :=
  if s.isFullFor k then { s with entries := s.entries.filter fun _ stored => stored.isFresh now }
  else s

/-- Stores an answer if it may be stored and there is a place for it, and says whether it
did. -/
def store (s : ResponseStore) (now : Int) (r : FetchRequest) (response : Response) :
    Except Overflow Bool × ResponseStore :=
  match storable? r response with
  | none => (.ok false, s)
  | some (lifetime, names) =>
    let s := s.makeRoom now r.key
    if s.isFullFor r.key then (.ok false, s)
    else
      match Clock.after? now lifetime with
      | .error overflow => (.error overflow, s)
      | .ok expires =>
        let vary := names.map fun name => (name, r.headers.text? name)
        (.ok true, { s with entries := s.entries.insert r.key { response, vary, expires } })

end ResponseStore

end EdgeCompose
