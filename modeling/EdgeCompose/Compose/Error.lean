import EdgeCompose.Http.Message

/-!
Why a page could not be composed. Each cause has one wording, and a status for the page that
reports it: failures of a backend answer as a bad gateway, all others as an internal error.
-/

namespace EdgeCompose

inductive ComposeError where
  | structural (detail : Text)
  | missingAttribute (element needed : Text)
  | unknownProvider (name : Text)
  | invalidUrl (url reason : Text)
  | fragmentUnavailable (url : Text) (status : Status) (body : Text)
  | fragmentNotFound (url name : Text)
  | tooManyRedirects (url : Text) (max : Nat)
  | invalidExpression (expression reason : Text)
  | depthExceeded (max : Nat)
  deriving DecidableEq, Repr

namespace ComposeError

def message : ComposeError → Text
  | .structural detail => "Malformed ESI markup: ".toList ++ detail
  | .missingAttribute element needed =>
    "<esi:".toList ++ element ++ "> requires the '".toList ++ needed ++ "' attribute".toList
  | .unknownProvider name => "Unknown provider '".toList ++ name ++ "'".toList
  | .invalidUrl url reason => "Invalid URL '".toList ++ url ++ "': ".toList ++ reason
  | .fragmentUnavailable url status _ =>
    "Fragment ".toList ++ url ++ " unavailable: backend answered ".toList ++ status.describe
  | .fragmentNotFound url name =>
    "Fragment '".toList ++ name ++ "' not found in ".toList ++ url
  | .tooManyRedirects url max =>
    "Too many redirects (more than ".toList ++ Text.ofNat max ++ ") fetching ".toList ++ url
  | .invalidExpression expression reason =>
    "Invalid expression '".toList ++ expression ++ "': ".toList ++ reason
  | .depthExceeded max => "Include depth limit of ".toList ++ Text.ofNat max ++ " exceeded".toList

/-- Whether a backend's answer is the cause. -/
def isFetchError : ComposeError → Bool
  | .fragmentUnavailable .. | .fragmentNotFound .. | .tooManyRedirects .. => true
  | _ => false

/-- The status of the page that reports the error. -/
def status (e : ComposeError) : Status := if e.isFetchError then 502 else 500

/-- The page that reports the error. -/
def page (e : ComposeError) : Response :=
  .plain e.status ("ESI processing failed: ".toList ++ e.message)

end ComposeError

end EdgeCompose
