import EdgeCompose.Compose.Inclusion

/-!
The open directives of a document: what each has taken in so far, which of them leave their
content alone, and which of them claim errors.
-/

namespace EdgeCompose

open Markup (Directive)

/-- A choice between branches: whether one has been taken, and what the branches gave. -/
structure Choice where
  taken : Bool := false
  out : Text := []
  deriving DecidableEq, Repr

/-- A trial: whether its attempt failed, and the bodies that have been completed. -/
structure Trial where
  failed : Bool := false
  attempt : Option Text := none
  except : Option Text := none
  deriving DecidableEq, Repr

def Trial.out (t : Trial) : Text := (if t.failed then t.except else t.attempt).getD []

inductive Element where
  | inclusion (i : Inclusion)
  | fragment (name body : Text)
  | inline (name : Text) (fetchable : Bool) (body : Text)
  | choose (choice : Choice)
  | when (active : Bool) (body : Text)
  | otherwise (active : Bool) (body : Text)
  | tryBlock (trial : Trial)
  | attempt (failed : Bool) (body : Text)
  | except (active : Bool) (body : Text)
  | vars (body : Text)
  | remove
  | comment
  deriving DecidableEq, Repr

namespace Element

def directive : Element → Directive
  | .inclusion _ => .inclusion
  | .fragment .. => .fragment
  | .inline .. => .inline
  | .choose _ => .choose
  | .when .. => .when
  | .otherwise .. => .otherwise
  | .tryBlock _ => .tryBlock
  | .attempt .. => .attempt
  | .except .. => .except
  | .vars _ => .vars
  | .remove => .remove
  | .comment => .comment

/-- Takes text in. Directives without a body of their own drop it, and so do branches that are
not taken and attempts that have failed. -/
def write (t : Text) : Element → Element
  | .fragment name body => .fragment name (body ++ t)
  | .inline name fetchable body => .inline name fetchable (body ++ t)
  | .when active body => .when active (if active then body ++ t else body)
  | .otherwise active body => .otherwise active (if active then body ++ t else body)
  | .except active body => .except active (if active then body ++ t else body)
  | .attempt failed body => .attempt failed (if failed then body else body ++ t)
  | .vars body => .vars (body ++ t)
  | e => e

/-- Whether the tags inside are left alone. -/
def isForeign : Element → Bool
  | .inclusion _ | .inline .. | .remove | .comment => true
  | .when active _ | .otherwise active _ | .except active _ => !active
  | .attempt failed _ => failed
  | .fragment .. | .choose _ | .tryBlock _ | .vars _ => false

/-- An attempt claims an error: it has failed then, and what it had taken in is gone. -/
def claim? : Element → Option Element
  | .attempt .. => some (.attempt true [])
  | _ => none

def choice? : Element → Option Choice
  | .choose choice => some choice
  | _ => none

def trial? : Element → Option Trial
  | .tryBlock trial => some trial
  | _ => none

def mapChoice? (f : Choice → Choice) (e : Element) : Option Element := e.choice?.map (.choose <| f ·)

def mapTrial? (f : Trial → Trial) (e : Element) : Option Element := e.trial?.map (.tryBlock <| f ·)

/-- Changes the first element that `f` is defined on. -/
def changeFirst? (f : Element → Option Element) : List Element → Option (List Element)
  | [] => none
  | e :: rest =>
    match f e with
    | some e => some (e :: rest)
    | none => (changeFirst? f rest).map (e :: ·)

end Element

end EdgeCompose
