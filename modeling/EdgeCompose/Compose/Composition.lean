import EdgeCompose.Compose.Element
import EdgeCompose.Expression.Parse

/-!
A document while it is composed: the open elements, the innermost first, and the root that they
stand in. Text goes to the innermost element; errors go from the innermost element outwards
until one claims them.
-/

namespace EdgeCompose

open Markup (Directive)

/-- The root takes a document's text, or keeps only the body of the fragment that is wanted. -/
inductive Root where
  | document (out : Text)
  | extract (wanted : Text) (found : Option Text)
  deriving DecidableEq, Repr

namespace Root

/-- The root for a whole document, or for one fragment of it. -/
def ofWanted : Option Text → Root
  | none => .document []
  | some name => .extract name none

def write (t : Text) : Root → Root
  | .document out => .document (out ++ t)
  | r => r

def output? : Root → Option Text
  | .document out => some out
  | .extract _ found => found

/-- What an extraction shows to the elements in it: an include that wants the fragment. -/
def probe? : Root → Option Element
  | .document _ => none
  | .extract wanted _ => some (.inclusion { fragment := some wanted })

end Root

/-- `foreignDepth` counts the tags inside a foreign element that its own end tags have still to
balance. -/
structure Composition where
  stack : List Element := []
  root : Root
  foreignDepth : Nat := 0
  deriving DecidableEq, Repr

namespace Composition

def ofWanted (wanted : Option Text) : Composition := { root := .ofWanted wanted }

def write (c : Composition) (t : Text) : Composition :=
  match c.stack with
  | [] => { c with root := c.root.write t }
  | e :: rest => { c with stack := e.write t :: rest }

/-- The innermost element of a directive, or what the root shows in its place. -/
def find? (c : Composition) (d : Directive) : Option Element :=
  c.stack.find? (·.directive == d) <|> c.root.probe?.filter (·.directive == d)

/-- The innermost open element of a directive. -/
def findOpen? (c : Composition) (d : Directive) : Option Element :=
  c.stack.find? (·.directive == d)

def choice? (c : Composition) : Option Choice := c.stack.findSome? Element.choice?

def trial? (c : Composition) : Option Trial := c.stack.findSome? Element.trial?

/-- Changes the innermost element that `f` is defined on. -/
def change? (c : Composition) (f : Element → Option Element) : Option Composition :=
  (Element.changeFirst? f c.stack).map ({ c with stack := · })

/-- Offers an error to the open elements; it is the outcome if none claims it. -/
def report (c : Composition) (e : ComposeError) : Composition × Except ComposeError Unit :=
  match c.change? Element.claim? with
  | some c => (c, .ok ())
  | none => (c, .error e)

/-- Keeps the body of the wanted fragment, once, and says whether it did. -/
def capture (c : Composition) (body : Text) : Bool × Composition :=
  match c.root with
  | .extract wanted none => (true, { c with root := .extract wanted (some body) })
  | _ => (false, c)

def isTopEnd (c : Composition) (tag : Text) : Bool :=
  c.stack.head?.any (·.directive.isEndTag tag)

def isTopStart (c : Composition) (tag : Text) : Bool :=
  c.stack.head?.any (·.directive.isStartTag tag)

/-- Whether the tags that come next are left alone. -/
def isForeign (c : Composition) : Bool := c.stack.head?.any Element.isForeign

/-- Takes in a tag of a foreign element, and says whether it ends the element instead. -/
def foreignTag (c : Composition) (tag : Text) : Bool × Composition :=
  if c.isTopEnd tag then
    if c.foreignDepth == 0 then (true, c)
    else (false, { c with foreignDepth := c.foreignDepth - 1 }.write tag)
  else if c.isTopStart tag && !Markup.isSelfClosing tag then
    (false, { c with foreignDepth := c.foreignDepth + 1 }.write tag)
  else (false, c.write tag)

def outside (d needed : Directive) : ComposeError :=
  .structural
    ("<esi:".toList ++ d.name ++ "> outside <esi:".toList ++ needed.name ++ ['>'])

def unexpected (tag : Text) : ComposeError := .structural ("unexpected ".toList ++ tag)

def needed (d : Directive) (attributes : Table Text Text) (name : String) :
    Except ComposeError Text :=
  match attributes.get? name.toList with
  | some value => .ok value
  | none => .error (.missingAttribute d.name name.toList)

/-- Takes the branch of the innermost choice. -/
def takeBranch (c : Composition) : Composition :=
  (c.change? (Element.mapChoice? ({ · with taken := true }))).getD c

/-- The element that a start tag opens, and the composition that it is opened in. -/
def opened (v : Variables) (c : Composition) (d : Directive) (tag : Text) :
    Except ComposeError (Element × Composition) :=
  let attributes := Markup.attributes tag
  match d with
  | .inclusion => do return (.inclusion (← Inclusion.ofTag tag), c)
  | .fragment => do return (.fragment (← needed d attributes "name") [], c)
  | .inline => do
    let name ← needed d attributes "name"
    let pinned := (attributes.get? "fetchable".toList).any (Text.equalFold · "false".toList)
    return (.inline name (!pinned) [], c)
  | .choose => return (.choose {}, c)
  | .when => do
    let test ← needed d attributes "test"
    match c.choice? with
    | none => throw (outside d .choose)
    | some choice =>
      let active ← if choice.taken then pure false else Expression.evaluate v test
      return (.when active [], if active then c.takeBranch else c)
  | .otherwise =>
    match c.choice? with
    | none => throw (outside d .choose)
    | some choice =>
      return (.otherwise (!choice.taken) [], if choice.taken then c else c.takeBranch)
  | .tryBlock => return (.tryBlock {}, c)
  | .attempt => if c.trial?.isSome then return (.attempt false [], c) else throw (outside d .tryBlock)
  | .except =>
    match c.trial? with
    | none => throw (outside d .tryBlock)
    | some trial => return (.except trial.failed [], c)
  | .vars => return (.vars [], c)
  | .remove => return (.remove, c)
  | .comment => return (.comment, c)

/-- Opens an element, and says whether its tag closes itself. -/
def start (v : Variables) (c : Composition) (d : Directive) (tag : Text) :
    Composition × Except ComposeError Bool :=
  match c.opened v d tag with
  | .error e => (c, .error e)
  | .ok (e, c) => ({ c with stack := e :: c.stack }, .ok (Markup.isSelfClosing tag))

/-- Takes the innermost element off. -/
def pop? (c : Composition) : Option (Element × Composition) :=
  match c.stack with
  | [] => none
  | e :: rest => some (e, { c with stack := rest, foreignDepth := 0 })

/-- Gives the innermost choice the body of its branch. -/
def giveBranch (c : Composition) (d : Directive) (body : Text) :
    Composition × Except ComposeError Unit :=
  match c.change? (Element.mapChoice? fun choice => { choice with out := choice.out ++ body }) with
  | some c => (c, .ok ())
  | none => (c, .error (outside d .choose))

/-- Changes the innermost trial. -/
def changeTrial (c : Composition) (d : Directive) (f : Trial → Trial) :
    Composition × Except ComposeError Unit :=
  match c.change? (Element.mapTrial? f) with
  | some c => (c, .ok ())
  | none => (c, .error (outside d .tryBlock))

/-- Whether the innermost include wants the fragment of a name. -/
def wants (c : Composition) (name : Text) : Bool :=
  match c.find? .inclusion with
  | some (.inclusion i) => i.fragment == some name
  | _ => false

/-- What an element does to the composition when it ends. Includes and inline elements, which
need more than the composition, do nothing here. -/
def settle (v : Variables) (c : Composition) : Element → Composition × Except ComposeError Unit
  | .fragment name body =>
    if c.wants name then
      match c.capture body with
      | (true, c) => (c, .ok ())
      | (false, c) => (c.write body, .ok ())
    else (c.write body, .ok ())
  | .choose choice => (c.write choice.out, .ok ())
  | .when active body => if active then c.giveBranch .when body else (c, .ok ())
  | .otherwise active body => if active then c.giveBranch .otherwise body else (c, .ok ())
  | .tryBlock trial => (c.write trial.out, .ok ())
  | .attempt failed body =>
    c.changeTrial .attempt fun trial =>
      if failed then { trial with failed := true } else { trial with attempt := some body }
  | .except active body =>
    if active then c.changeTrial .except ({ · with except := some body }) else (c, .ok ())
  | .vars body =>
    match Template.substitute v body with
    | .ok t => (c.write t, .ok ())
    | .error e => c.report e
  | .inclusion _ | .inline .. | .remove | .comment => (c, .ok ())

/-- The output, if no element is open. -/
def finish (c : Composition) : Except ComposeError (Option Text) :=
  match c.stack with
  | [] => .ok c.root.output?
  | e :: _ => .error (.structural ("unclosed <esi:".toList ++ e.directive.name ++ ['>']))

end Composition

end EdgeCompose
