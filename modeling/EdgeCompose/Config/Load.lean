import EdgeCompose.Config.Decode
import EdgeCompose.Config.Validation

/-!
Loading a configuration: its text is read, and then it is validated. Without a file the defaults
are taken.
-/

namespace EdgeCompose

inductive ConfigError where
  | unreadable
  | malformed
  | invalid (problems : List ConfigProblem)
  deriving DecidableEq, Repr

/-- The wording for problems of a configuration. -/
def ConfigProblem.report (problems : List ConfigProblem) : Text :=
  "Validation failed: ".toList ++ List.intercalate ", ".toList (problems.map ConfigProblem.toText)

def ConfigError.message : ConfigError → Text
  | .unreadable => "IO error".toList
  | .malformed => "Parse error".toList
  | .invalid problems => ConfigProblem.report problems

namespace Config

def validated (c : Config) : Except ConfigError Config :=
  match c.problems with
  | [] => .ok c
  | problems => .error (.invalid problems)

def parse (t : Text) : Except ConfigError Config :=
  match (Toml.read? t).bind ofEntries? with
  | none => .error .malformed
  | some c => c.validated

/-- Where a configuration comes from. -/
inductive Source where
  | defaults
  | missingFile
  | file (content : Text)
  deriving DecidableEq, Repr

def load : Source → Except ConfigError Config
  | .defaults => validated {}
  | .missingFile => .error .unreadable
  | .file content => parse content

end Config

end EdgeCompose
