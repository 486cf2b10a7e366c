import EdgeCompose.Compose.Render
import EdgeCompose.Config.Schema
import EdgeCompose.Effect.Run

/-!
The service behind the front end: what a configuration fixes, the backends, which may be
exchanged while it runs, and the world that all renders share.
-/

namespace EdgeCompose

structure Gateway where
  settings : RenderSettings
  parseable : List Text
  maxBodySize : Nat
  backends : Backends
  world : World

namespace Gateway

def ofConfig (c : Config) (backend : Backend) : Gateway where
  settings := c.renderSettings
  parseable := c.composition.parseableContentTypes.map Text.lower
  maxBodySize := c.listener.maxBodySize
  backends := c.backendMap
  world :=
    { backend
      responses :=
        if c.responseStore.enabled then some { capacity := c.responseStore.maxEntries } else none }

/-- Whether documents of a content type are composed; parameters of the type do not matter. -/
def isParseable (g : Gateway) (contentType : Option Text) : Bool :=
  contentType.any fun t => g.parseable.contains (Text.lower (Text.trim (t.takeWhile (· != ';'))))

/-- The page of a client's request, with the backends of this moment. -/
def page (g : Gateway) (request : ClientRequest) (base : Option Url) : Page :=
  { settings := g.settings, backends := g.backends, request, base }

def renderer (g : Gateway) (request : ClientRequest) (base : Option Url) : Renderer :=
  .ofPage (g.page request base)

def reload (g : Gateway) (backends : Backends) : Gateway := { g with backends }

/-- Runs a program in the gateway's world. -/
def run {α : Type} (g : Gateway) (p : Program α) : Outcome α × Gateway :=
  let (outcome, world) := p.run g.world
  (outcome, { g with world })

/-- Runs programs together in the gateway's world. -/
def runAll {α : Type} (g : Gateway) (programs : List (Program α)) : Outcome (List α) × Gateway :=
  let (outcome, world) := Program.runAll g.world programs
  (outcome, { g with world })

end Gateway

end EdgeCompose
