import EdgeCompose.Expression.Lexeme

/-!
The structure of test expressions. Negation binds closest, then comparison, then "and", then
"or"; a comparison has two operands at most. Groups and negations nest no deeper than a fixed
number of levels.
-/

namespace EdgeCompose.Expression

inductive Expr where
  | literal (v : Value)
  | group (e : Expr)
  | negation (e : Expr)
  | comparison (c : Comparison) (left right : Expr)
  | conjunction (left right : Expr)
  | disjunction (left right : Expr)
  deriving DecidableEq, Repr

def Expr.value : Expr → Value
  | .literal v => v
  | .group e => e.value
  | .negation e => .truth (!e.value.truthy)
  | .comparison c left right => .truth (c.holds left.value right.value)
  | .conjunction left right => .truth (left.value.truthy && right.value.truthy)
  | .disjunction left right => .truth (left.value.truthy || right.value.truthy)

/-- An expression read off the front of some lexemes. -/
structure Read (s : List Lexeme) where
  expr : Expr
  rest : List Lexeme
  shorter : rest.length < s.length

abbrev Reader := (s : List Lexeme) → Except Fault (Read s)

/-- Goes on with `next` as long as `joint` stands between, joining to the left. -/
def chain (joint : Symbol) (join : Expr → Expr → Expr) (next : Reader) {s : List Lexeme}
    (left : Read s) : Except Fault (Read s) :=
  match _h : left.rest with
  | .symbol m :: rest =>
    if m = joint then
      match next rest with
      | .error f => .error f
      | .ok right =>
        chain joint join next
          { expr := join left.expr right.expr
            rest := right.rest
            shorter := by
              have h1 := right.shorter
              have h2 := left.shorter
              rw [_h, List.length_cons] at h2
              omega }
    else .ok left
  | _ => .ok left
termination_by left.rest.length
decreasing_by
  have := right.shorter
  simp only [_h, List.length_cons]
  omega

def conjunctions (inner : Reader) : Reader := fun s =>
  inner s >>= chain .and .conjunction inner

def disjunctions (inner : Reader) : Reader := fun s =>
  conjunctions inner s >>= chain .or .disjunction (conjunctions inner)

/-- A value, or a group whose content is read with `inner`. -/
def operand (inner : Reader) : Reader
  | [] => .error .unexpectedEnd
  | .value v :: rest => .ok { expr := .literal v, rest, shorter := by simp }
  | .symbol .opening :: rest =>
    match disjunctions inner rest with
    | .error f => .error f
    | .ok content =>
      match _h : content.rest with
      | .symbol .closing :: after =>
        .ok {
          expr := .group content.expr
          rest := after
          shorter := by
            have := content.shorter
            rw [_h] at this
            simp only [List.length_cons] at this ⊢
            omega }
      | _ => .error .unclosed
  | .symbol m :: _ => .error (.unexpected m)

def compared (inner : Reader) : Reader := fun s =>
  match operand inner s with
  | .error f => .error f
  | .ok left =>
    match _h : left.rest with
    | .symbol (.compare c) :: rest =>
      match operand inner rest with
      | .error f => .error f
      | .ok right =>
        .ok {
          expr := .comparison c left.expr right.expr
          rest := right.rest
          shorter := by
            have h1 := right.shorter
            have h2 := left.shorter
            rw [_h, List.length_cons] at h2
            omega }
    | _ => .ok left

/-- A negation or a comparison, where groups and negations read their content with `inner`. -/
def unaryOver (inner : Reader) : Reader
  | .symbol .not :: rest =>
    (inner rest).map fun r =>
      { expr := .negation r.expr
        rest := r.rest
        shorter := Nat.lt_succ_of_lt r.shorter }
  | s => compared inner s

/-- Reads with the given number of levels left. -/
def unary : Nat → Reader
  | 0 => unaryOver fun _ => .error .tooDeep
  | n + 1 => unaryOver (unary n)

def maxLevels : Nat := 64

/-- The expression that all of the lexemes make up. -/
def parse (s : List Lexeme) : Except Fault Expr :=
  if s.isEmpty then .error .empty
  else
    match disjunctions (unary maxLevels) s with
    | .error f => .error f
    | .ok r => if r.rest.isEmpty then .ok r.expr else .error .trailing

/-- Whether a test expression holds for a request. -/
def evaluate (v : Variables) (expression : Text) : Except ComposeError Bool := do
  let s ← lexemes v expression expression
  match parse s with
  | .ok e => return e.value.truthy
  | .error f => throw (.invalidExpression expression f.message)

end EdgeCompose.Expression
