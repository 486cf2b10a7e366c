import EdgeCompose.Markup.Tag

/-!
The twelve directives and the tags that belong to them. Tags with any other name belong to
none.
-/

namespace EdgeCompose.Markup

inductive Directive where
  | inclusion
  | fragment
  | inline
  | choose
  | when
  | otherwise
  | tryBlock
  | attempt
  | except
  | vars
  | remove
  | comment
  deriving DecidableEq, Repr

namespace Directive

def name : Directive → Text
  | .inclusion => "include".toList
  | .fragment => "fragment".toList
  | .inline => "inline".toList
  | .choose => "choose".toList
  | .when => "when".toList
  | .otherwise => "otherwise".toList
  | .tryBlock => "try".toList
  | .attempt => "attempt".toList
  | .except => "except".toList
  | .vars => "vars".toList
  | .remove => "remove".toList
  | .comment => "comment".toList

def all : List Directive :=
  [.inclusion, .fragment, .inline, .choose, .when, .otherwise, .tryBlock, .attempt, .except,
    .vars, .remove, .comment]

/-- A text that begins with `lead` and goes on with nothing, or with something that ends a
name. -/
def leads (lead tag : Text) : Bool :=
  match Text.dropLead? lead tag with
  | some (c :: _) => endsName c
  | some [] => true
  | none => false

def isStartTag (d : Directive) (tag : Text) : Bool := leads (startLead ++ d.name) tag

def isEndTag (d : Directive) (tag : Text) : Bool := leads (endLead ++ d.name) tag

end Directive

/-- The part a tag plays for its directive. -/
inductive TagRole where
  | starts (d : Directive)
  | ends (d : Directive)
  deriving DecidableEq, Repr

def role? (d : Directive) (tag : Text) : Option TagRole :=
  if d.isStartTag tag then some (.starts d)
  else if d.isEndTag tag then some (.ends d)
  else none

/-- The directive a tag belongs to. -/
def lookup? (tag : Text) : Option TagRole := Directive.all.findSome? (role? · tag)

end EdgeCompose.Markup
