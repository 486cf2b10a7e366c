import EdgeCompose.Config.Schema
import EdgeCompose.Config.SocketAddress

/-!
What a configuration must be like beyond its form. Every problem is reported, in the order of
the fields.
-/

namespace EdgeCompose

/-- A problem and the field that has it. -/
structure ConfigProblem where
  field : Text
  message : Text
  deriving DecidableEq, Repr

def ConfigProblem.toText (p : ConfigProblem) : Text := p.field ++ ": ".toList ++ p.message

namespace Config

def quoted (t : Text) : Text := '\'' :: t ++ ['\'']

def bindAddressProblems (c : Config) : List ConfigProblem :=
  if SocketAddress.isValid c.listener.bindAddress then []
  else
    [{ field := "listener.bind_address".toList
       message := quoted c.listener.bindAddress ++ " is not a socket address".toList }]

def backendField (i : Nat) (name : String) : Text :=
  "backends[".toList ++ Text.ofNat i ++ "].".toList ++ name.toList

/-- The problems of a backend's name, in view of the names before it. -/
def nameProblems (earlier : List Text) (i : Nat) (name : Text) : List ConfigProblem :=
  if name.isEmpty then [{ field := backendField i "name", message := "must not be empty".toList }]
  else if earlier.contains name then
    [{ field := backendField i "name", message := "duplicate backend ".toList ++ quoted name }]
  else []

def isWebScheme (scheme : Text) : Bool := scheme == "http".toList || scheme == "https".toList

def urlProblems (i : Nat) (t : Text) : List ConfigProblem :=
  match Url.parse t with
  | .ok url =>
    if isWebScheme url.scheme then []
    else
      [{ field := backendField i "base_url"
         message := "unsupported scheme ".toList ++ quoted url.scheme }]
  | .error e =>
    [{ field := backendField i "base_url"
       message := quoted t ++ " is not a valid URL: ".toList ++ e.message }]

def backendProblems (earlier : List Text) (i : Nat) : List BackendConfig → List ConfigProblem
  | [] => []
  | b :: rest =>
    nameProblems earlier i b.name ++ urlProblems i b.baseUrl ++
      backendProblems (earlier ++ [b.name]) (i + 1) rest

def defaultBackendProblems (c : Config) : List ConfigProblem :=
  match c.defaultBackend with
  | none => []
  | some name =>
    if c.backends.any fun b => !b.name.isEmpty && b.name == name then []
    else
      [{ field := "default_backend".toList, message := "unknown backend ".toList ++ quoted name }]

def zeroProblems (field : String) (n : Nat) : List ConfigProblem :=
  if n == 0 then [{ field := field.toList, message := "must be greater than 0".toList }] else []

def problems (c : Config) : List ConfigProblem :=
  c.bindAddressProblems ++ backendProblems [] 0 c.backends ++ c.defaultBackendProblems ++
    zeroProblems "pool.max_connections" c.pool.maxConnections ++
    zeroProblems "timeouts.connect_secs" c.timeouts.connectSecs ++
    zeroProblems "timeouts.request_secs" c.timeouts.requestSecs ++
    zeroProblems "esi.max_depth" c.composition.maxDepth

end Config

end EdgeCompose
