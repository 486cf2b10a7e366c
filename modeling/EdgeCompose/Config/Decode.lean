import EdgeCompose.Config.Schema
import EdgeCompose.Config.Toml.Document

/-!
Configurations out of TOML. Fields that are missing have their defaults and fields that are not
known are ignored; a value of the wrong type is an error. A section may be written as a table,
as a list of its fields in order, or as a moment in time, which has no field at all.
-/

namespace EdgeCompose

open Toml (Node)

namespace Decode

def text? : Node → Option Text
  | .text t => some t
  | _ => none

def natural? : Node → Option Nat
  | .integer (.ofNat n) => some n
  | _ => none

def truth? : Node → Option Bool
  | .truth b => some b
  | _ => none

def list? {α : Type} (item : Node → Option α) : Node → Option (List α)
  | .array items => items.mapM item
  | .tables items => (items.map (Node.table .header)).mapM item
  | _ => none

/-- What a section gives to the names of its fields. -/
def section? (names : List String) : Node → Option (List (Text × Node))
  | .table _ es => some es
  | .array items => some ((names.map String.toList).zip items)
  | .tables items => some ((names.map String.toList).zip (items.map (Node.table .header)))
  | .moment => some []
  | _ => none

def field {α : Type} (es : List (Text × Node)) (name : String) (read : Node → Option α)
    (default : α) : Option α :=
  match es.lookup name.toList with
  | none => some default
  | some n => read n

def required {α : Type} (es : List (Text × Node)) (name : String) (read : Node → Option α) :
    Option α :=
  (es.lookup name.toList).bind read

def backend? (n : Node) : Option BackendConfig := do
  let es ← section? ["name", "base_url"] n
  return { name := ← required es "name" text?, baseUrl := ← required es "base_url" text? }

def listener? (n : Node) : Option ListenerConfig := do
  let es ← section? ["bind_address", "max_body_size"] n
  let d : ListenerConfig := {}
  return {
    bindAddress := ← field es "bind_address" text? d.bindAddress
    maxBodySize := ← field es "max_body_size" natural? d.maxBodySize }

def pool? (n : Node) : Option PoolConfig := do
  let es ← section? ["max_connections", "max_idle_per_host", "acquire_timeout_ms"] n
  let d : PoolConfig := {}
  return {
    maxConnections := ← field es "max_connections" natural? d.maxConnections
    maxIdlePerHost := ← field es "max_idle_per_host" natural? d.maxIdlePerHost
    acquireTimeoutMs := ← field es "acquire_timeout_ms" natural? d.acquireTimeoutMs }

def timeouts? (n : Node) : Option TimeoutConfig := do
  let es ← section? ["connect_secs", "request_secs"] n
  let d : TimeoutConfig := {}
  return {
    connectSecs := ← field es "connect_secs" natural? d.connectSecs
    requestSecs := ← field es "request_secs" natural? d.requestSecs }

def composition? (n : Node) : Option CompositionConfig := do
  let es ← section?
    ["max_depth", "max_redirects", "fragment_ttl_secs", "parseable_content_types",
      "forward_headers"] n
  let d : CompositionConfig := {}
  return {
    maxDepth := ← field es "max_depth" natural? d.maxDepth
    maxRedirects := ← field es "max_redirects" natural? d.maxRedirects
    fragmentTtlSecs := ← field es "fragment_ttl_secs" (fun n => (natural? n).map some) none
    parseableContentTypes :=
      ← field es "parseable_content_types" (list? text?) d.parseableContentTypes
    forwardHeaders := ← field es "forward_headers" (list? text?) d.forwardHeaders }

def responseStore? (n : Node) : Option ResponseStoreConfig := do
  let es ← section? ["enabled", "max_entries"] n
  let d : ResponseStoreConfig := {}
  return {
    enabled := ← field es "enabled" truth? d.enabled
    maxEntries := ← field es "max_entries" natural? d.maxEntries }

def observability? (n : Node) : Option ObservabilityConfig := do
  let es ← section? ["log_level", "metrics_enabled", "metrics_address"] n
  let d : ObservabilityConfig := {}
  return {
    logLevel := ← field es "log_level" text? d.logLevel
    metricsEnabled := ← field es "metrics_enabled" truth? d.metricsEnabled
    metricsAddress := ← field es "metrics_address" text? d.metricsAddress }

end Decode

open Decode in
/-- The configuration of a document's entries. -/
def Config.ofEntries? (es : List (Text × Node)) : Option Config := do
  return {
    listener := ← field es "listener" listener? {}
    defaultBackend := ← field es "default_backend" (fun n => (text? n).map some) none
    backends := ← field es "backends" (list? backend?) []
    pool := ← field es "pool" pool? {}
    timeouts := ← field es "timeouts" timeouts? {}
    composition := ← field es "esi" composition? {}
    responseStore := ← field es "http_cache" responseStore? {}
    observability := ← field es "observability" observability? {} }

end EdgeCompose
