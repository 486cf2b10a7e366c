import EdgeCompose.Text.Basic

/-!
What the command line asks for: a configuration file, and whether to look at it again when it
changes. Each option is given at most once, and nothing but options is accepted.
-/

namespace EdgeCompose

structure Options where
  config : Option Text := none
  watch : Bool := false
  deriving DecidableEq, Repr

inductive OptionError where
  | unexpected (argument : Text)
  | repeated (option : Text)
  | missingPath
  deriving DecidableEq, Repr

namespace OptionError

def message : OptionError → Text
  | .unexpected argument => "unexpected argument '".toList ++ argument ++ "' found".toList
  | .repeated option =>
    "the argument '".toList ++ option ++ "' cannot be used multiple times".toList
  | .missingPath => "a value is required for '--config <CONFIG>' but none was supplied".toList

end OptionError

namespace Options

def usage : Text := "Usage: esi-gateway [--config <CONFIG>] [--watch]".toList

def withConfig (o : Options) (path : Text) : Except OptionError Options :=
  if o.config.isSome then .error (.repeated "--config <CONFIG>".toList)
  else if path.isEmpty then .error .missingPath
  else .ok { o with config := some path }

def withWatch (o : Options) : Except OptionError Options :=
  if o.watch then .error (.repeated "--watch".toList) else .ok { o with watch := true }

def configNames : List Text := ["-c".toList, "--config".toList]

/-- Reads an argument that is complete by itself. -/
def readOne (o : Options) (argument : Text) : Except OptionError Options :=
  if argument == "--watch".toList then o.withWatch
  else if configNames.contains argument then .error .missingPath
  else
    let attached := ["--config=".toList, "-c=".toList, "-c".toList]
    match attached.findSome? fun lead => Text.dropLead? lead argument with
    | some path => o.withConfig path
    | none => .error (.unexpected argument)

/-- Whether an argument can be the path that the one before it asks for. -/
def isPath (argument : Text) : Bool := argument == ['-'] || argument.head? != some '-'

/-- Reads the arguments one after the other; the first that is wrong ends the reading. -/
def readFrom : Options → List Text → Except OptionError Options
  | o, [] => .ok o
  | o, [a] => o.readOne a
  | o, a :: b :: rest =>
    if configNames.contains a && isPath b then do readFrom (← o.withConfig b) rest
    else do readFrom (← o.readOne a) (b :: rest)

def read (arguments : List Text) : Except OptionError Options := readFrom {} arguments

end Options

end EdgeCompose
