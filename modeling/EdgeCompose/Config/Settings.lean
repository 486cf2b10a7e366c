import EdgeCompose.Text.Basic

/-!
The limits and defaults of composing a page.
-/

namespace EdgeCompose

/-- Documents are kept for `lifetime` seconds, or until they are invalidated; `forwarded` names
the client's header fields that fragment requests carry. -/
structure RenderSettings where
  maxDepth : Nat := 10
  maxRedirects : Nat := 5
  lifetime : Option Nat := none
  forwarded : List Text := []
  deriving DecidableEq, Repr

end EdgeCompose
