import EdgeCompose.Number.Double
import EdgeCompose.Text.Basic

/-!
TOML documents as trees, and the rules by which headers and dotted keys build them: no key is
given twice, no table is opened twice, and what is written as a value is closed.
-/

namespace EdgeCompose.Toml

/-- How a table came about: by a header of its own, by a header of a table inside it, by a
dotted key, or as a value. -/
inductive TableKind where
  | header
  | implied
  | dotted
  | inline
  deriving DecidableEq, Repr

inductive Node where
  | text (t : Text)
  | integer (n : Int)
  | float (d : Double)
  | truth (b : Bool)
  | moment
  | array (items : List Node)
  | tables (items : List (List (Text × Node)))
  | table (kind : TableKind) (entries : List (Text × Node))

abbrev Entries := List (Text × Node)

/-- Gives a key that is there another value. -/
def replace (es : Entries) (k : Text) (n : Node) : Entries :=
  es.map fun e => if e.1 == k then (k, n) else e

/-- Changes the table at a path, making the tables on the way that are missing. Dotted keys do
not enter tables that have a header; nobody enters a value. -/
def descend (dotted : Bool) (f : TableKind → Entries → Option Entries) :
    List Text → TableKind → Entries → Option Entries
  | [], kind, es => f kind es
  | k :: path, _, es =>
    match es.lookup k with
    | none =>
      let kind := if dotted then .dotted else .implied
      (descend dotted f path kind []).map fun inner => es ++ [(k, .table kind inner)]
    | some (.table kind inner) =>
      if kind = .inline || (dotted && kind = .header) then none
      else (descend dotted f path kind inner).map fun inner => replace es k (.table kind inner)
    | some (.tables items) =>
      match items.getLast? with
      | none => none
      | some last =>
        (descend dotted f path .header last).map fun last =>
          replace es k (.tables (items.dropLast ++ [last]))
    | some _ => none

/-- Gives a key a value in a table. A dotted key ends in a table that dotted keys have made. -/
def assign (path : List Text) (k : Text) (n : Node) (kind : TableKind) (es : Entries) :
    Option Entries :=
  descend true (fun kind es =>
    if decide (kind = .dotted) == path.isEmpty || (es.lookup k).isSome then none
    else some (es ++ [(k, n)])) path kind es

/-- Opens the table of a header. -/
def openTable (path : List Text) (k : Text) (root : Entries) : Option Entries :=
  descend false (fun _ es =>
    match es.lookup k with
    | none => some (es ++ [(k, .table .header [])])
    | some (.table .implied inner) => some (replace es k (.table .header inner))
    | some _ => none) path .header root

/-- Adds a table to the list of tables of a header. -/
def openItem (path : List Text) (k : Text) (root : Entries) : Option Entries :=
  descend false (fun _ es =>
    match es.lookup k with
    | none => some (es ++ [(k, .tables [[]])])
    | some (.tables items) => some (replace es k (.tables (items ++ [[]])))
    | some _ => none) path .header root

/-- Gives a key a value in the table that was opened at a path. -/
def assignAt (opened path : List Text) (k : Text) (n : Node) (root : Entries) : Option Entries :=
  descend false (assign path k n) opened .header root

end EdgeCompose.Toml
