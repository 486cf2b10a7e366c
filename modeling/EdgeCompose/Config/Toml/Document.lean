import EdgeCompose.Config.Toml.Lexical

/-!
Reading TOML documents: values, lines and headers.
-/

namespace EdgeCompose.Toml

abbrev Reader (α : Type) := Text → Option (α × Text)

/-- The items of an array after its opening bracket. -/
def items (value : Reader Node) (t : Text) : Option (List Node × Text) :=
  match skipVoid t with
  | ']' :: rest => some ([], rest)
  | t' =>
    match value t' with
    | none => none
    | some (item, rest) =>
      match skipVoid rest with
      | ',' :: more =>
        if more.length < t.length then
          (items value more).map fun (others, after) => (item :: others, after)
        else none
      | ']' :: after => some ([item], after)
      | _ => none
termination_by t.length

/-- A key, an equals sign and a value. -/
def pair? (value : Reader Node) (t : Text) : Option ((List Text × Text × Node) × Text) := do
  let ((path, k), rest) ← key? t
  match rest with
  | '=' :: rest =>
    let (n, after) ← value (skipBlanks rest)
    some ((path, k, n), after)
  | _ => none

/-- The entries of a table that is a value, after its opening brace and those before. -/
def inlineEntries (value : Reader Node) (es : Entries) (t : Text) : Option (Entries × Text) :=
  match pair? value t with
  | none => none
  | some ((path, k, n), rest) =>
    match assign path k n .inline es, skipBlanks rest with
    | some es, ',' :: more =>
      if more.length < t.length then inlineEntries value es more else none
    | some es, '\x7d' :: after => some (es, after)
    | _, _ => none
termination_by t.length

def inlineTable? (value : Reader Node) (t : Text) : Option (Entries × Text) :=
  match skipBlanks t with
  | '\x7d' :: rest => some ([], rest)
  | t => inlineEntries value [] t

/-- A value; arrays and tables need a level of their own. -/
def value? : (levels : Nat) → Reader Node
  | levels, t =>
    match t with
    | '[' :: rest =>
      match levels with
      | 0 => none
      | levels + 1 => (items (value? levels) rest).map fun (list, after) => (.array list, after)
    | '\x7b' :: rest =>
      match levels with
      | 0 => none
      | levels + 1 =>
        (inlineTable? (value? levels) rest).map fun (es, after) => (.table .inline es, after)
    | '"' :: _ | '\'' :: _ => (string? t).map fun (s, after) => (.text s, after)
    | _ => scalar? t

def topValue : Reader Node := value? (maxDepth - 1)

/-- The table that is open and everything read so far. -/
structure Draft where
  opened : List Text := []
  root : Entries := []

/-- A header in brackets, or in double brackets for one more table of a list. -/
def header? (d : Draft) (t : Text) : Option (Draft × Text) :=
  match t with
  | '[' :: t => do
    let ((path, k), rest) ← key? t
    match rest with
    | ']' :: ']' :: after => some ({ opened := path ++ [k], root := ← openItem path k d.root }, after)
    | _ => none
  | _ => do
    let ((path, k), rest) ← key? t
    match rest with
    | ']' :: after => some ({ opened := path ++ [k], root := ← openTable path k d.root }, after)
    | _ => none

/-- One line that begins with neither a blank nor a comment. -/
def line (d : Draft) (t : Text) : Option (Draft × Text) :=
  match t with
  | '[' :: rest => header? d rest
  | _ => do
    let ((path, k, n), rest) ← pair? topValue t
    some ({ d with root := ← assignAt d.opened path k n d.root }, rest)

def lines (d : Draft) (t : Text) : Option Entries :=
  match skipVoid t with
  | [] => some d.root
  | t' =>
    match line d t' with
    | none => none
    | some (d, rest) =>
      match lineEnd? rest with
      | none => none
      | some rest => if rest.length < t.length then lines d rest else none
termination_by t.length

/-- The entries of a document, which may begin with a byte order mark. -/
def read? (t : Text) : Option Entries :=
  lines {} ((Text.dropLead? ['\uFEFF'] t).getD t)

end EdgeCompose.Toml
