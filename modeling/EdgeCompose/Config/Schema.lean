import EdgeCompose.Config.Backends
import EdgeCompose.Config.Settings
import EdgeCompose.Http.Header

/-!
The configuration of a gateway, with the default of every field, and what the parts of the
gateway take from it.
-/

namespace EdgeCompose

structure BackendConfig where
  name : Text
  baseUrl : Text
  deriving DecidableEq, Repr

structure ListenerConfig where
  bindAddress : Text := "0.0.0.0:8080".toList
  maxBodySize : Nat := 2097152
  deriving DecidableEq, Repr

structure PoolConfig where
  maxConnections : Nat := 20
  maxIdlePerHost : Nat := 20
  acquireTimeoutMs : Nat := 5000
  deriving DecidableEq, Repr

structure TimeoutConfig where
  connectSecs : Nat := 5
  requestSecs : Nat := 30
  deriving DecidableEq, Repr

structure CompositionConfig where
  maxDepth : Nat := 10
  maxRedirects : Nat := 5
  fragmentTtlSecs : Option Nat := none
  parseableContentTypes : List Text := ["text/html".toList, "application/xhtml+xml".toList]
  forwardHeaders : List Text := ["accept-language".toList, "cookie".toList, "user-agent".toList]
  deriving DecidableEq, Repr

structure ResponseStoreConfig where
  enabled : Bool := true
  maxEntries : Nat := 10000
  deriving DecidableEq, Repr

structure ObservabilityConfig where
  logLevel : Text := "info".toList
  metricsEnabled : Bool := false
  metricsAddress : Text := "0.0.0.0:9090".toList
  deriving DecidableEq, Repr

structure Config where
  listener : ListenerConfig := {}
  defaultBackend : Option Text := none
  backends : List BackendConfig := []
  pool : PoolConfig := {}
  timeouts : TimeoutConfig := {}
  composition : CompositionConfig := {}
  responseStore : ResponseStoreConfig := {}
  observability : ObservabilityConfig := {}
  deriving DecidableEq, Repr

namespace Config

/-- The limits of composing; forwarded names that are no field names are left out. -/
def renderSettings (c : Config) : RenderSettings where
  maxDepth := c.composition.maxDepth
  maxRedirects := c.composition.maxRedirects
  lifetime := c.composition.fragmentTtlSecs
  forwarded := c.composition.forwardHeaders.filterMap Headers.name?

/-- The backends whose URLs can be read. -/
def backendMap (c : Config) : Backends :=
  .ofValidPairs c.defaultBackend (c.backends.map fun b => (b.name, b.baseUrl))

end Config

end EdgeCompose
