import EdgeCompose.Config.Load
import EdgeCompose.Options

/-!
The program as it starts: it reads its options, loads the configuration and says what it found.
A configuration that is refused ends it before anything is served.
-/

namespace EdgeCompose

/-- The content of a file; one that cannot be read as text counts as missing. -/
def readSource : Option Text → IO Config.Source
  | none => return .defaults
  | some path =>
    try return .file (← IO.FS.readFile (String.ofList path)).toList
    catch _ => return .missingFile

def reportLoaded (c : Config) : IO Unit := do
  let address := String.ofList c.listener.bindAddress
  IO.println s!"Configuration loaded: {c.backends.length} backends, address {address}"
  (← IO.getStdout).flush

/-- Loads the configuration anew whenever its source has changed; one that is refused is reported
and changes nothing. -/
partial def watchSource (path : Option Text) (seen : Config.Source) : IO Unit := do
  IO.sleep 500
  let source ← readSource path
  if source != seen then
    match Config.load source with
    | .ok c => reportLoaded c
    | .error e => IO.eprintln (String.ofList e.message)
  watchSource path source

end EdgeCompose

open EdgeCompose in
def main (arguments : List String) : IO UInt32 := do
  match Options.read (arguments.map String.toList) with
  | .error e =>
    IO.eprintln s!"error: {String.ofList e.message}"
    IO.eprintln (String.ofList Options.usage)
    return 2
  | .ok options =>
    let source ← readSource options.config
    match Config.load source with
    | .error e =>
      IO.eprintln s!"Error: {String.ofList e.message}"
      return 1
    | .ok c =>
      reportLoaded c
      if options.watch && options.config.isSome then watchSource options.config source
      return 0
