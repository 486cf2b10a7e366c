import EdgeCompose.Template.Variables

/-!
Templates are text with references to variables in it. A template is read into parts once; the
values that stand for its references are not read again.
-/

namespace EdgeCompose.Template

structure Reference where
  name : Text
  key : Option Text
  deriving DecidableEq, Repr

inductive Part where
  | literal (c : Char)
  | reference (r : Reference)
  deriving DecidableEq, Repr

def isNameChar (c : Char) : Bool := Text.isAlphanumeric c || c == '_'

/-- The name and key after the opening of a reference, and what follows its end. -/
def referenceBody? (body : Text) : Option (Reference × Text) :=
  let endsName (c : Char) : Bool := c == '\x7b' || c == ')'
  let name := body.takeWhile (! endsName ·)
  if name.isEmpty || !name.all isNameChar then none
  else
    match body.dropWhile (! endsName ·) with
    | ')' :: rest => some ({ name, key := none }, rest)
    | _ :: keyed =>
      match keyed.dropWhile (· != '\x7d') with
      | _ :: ')' :: rest => some ({ name, key := some (keyed.takeWhile (· != '\x7d')) }, rest)
      | _ => none
    | [] => none

/-- A reference in parentheses after a dollar sign. -/
def reference? : Text → Option (Reference × Text)
  | '$' :: '(' :: body => referenceBody? body
  | _ => none

def providerLead : Text := "$PROVIDER(\x7b".toList

def providerEnd : Text := "\x7d)".toList

/-- A reference at the front of a text, in either of its two forms, and what follows it. -/
def partAt? (t : Text) : Option (Reference × Text) :=
  match Text.dropLead? providerLead t with
  | some body =>
    (Text.cut? providerEnd body).map fun (name, rest) =>
      ({ name := Variables.provider, key := some name }, rest)
  | none => reference? t

theorem length_cut? {mark t before rest : Text} (h : Text.cut? mark t = some (before, rest)) :
    rest.length ≤ t.length := by
  induction t generalizing before with
  | nil =>
    simp only [Text.cut?, Option.map_eq_some_iff, Prod.mk.injEq] at h
    obtain ⟨r, hr, _, rfl⟩ := h
    have := congrArg List.length (Text.eq_append_of_dropLead? hr)
    simp at this
    omega
  | cons c t ih =>
    unfold Text.cut? at h
    split at h
    · next r hr =>
      simp only [Option.some.injEq, Prod.mk.injEq] at h
      have := congrArg List.length (Text.eq_append_of_dropLead? hr)
      simp only [List.length_append] at this
      rw [← h.2]
      omega
    · simp only [Option.map_eq_some_iff, Prod.mk.injEq] at h
      obtain ⟨⟨b, r⟩, hr, _, rfl⟩ := h
      exact Nat.le_succ_of_le (ih hr)

theorem length_referenceBody? {body rest : Text} {r : Reference}
    (h : referenceBody? body = some (r, rest)) : rest.length < body.length := by
  unfold referenceBody? at h
  have hbody := (List.dropWhile_suffix (fun c => !(c == '\x7b' || c == ')')) (l := body)).length_le
  simp only at h
  split at h
  · simp at h
  · split at h
    · next _ rest' he =>
      simp only [Option.some.injEq, Prod.mk.injEq] at h
      rw [he] at hbody
      simp only [List.length_cons] at hbody
      rw [← h.2]
      omega
    · next _ x keyed hne he =>
      have hkeyed := (List.dropWhile_suffix (fun c => c != '\x7d') (l := keyed)).length_le
      split at h
      · next hk =>
        simp only [Option.some.injEq, Prod.mk.injEq] at h
        rw [he] at hbody
        rw [hk] at hkeyed
        simp only [List.length_cons] at hbody hkeyed
        rw [← h.2]
        omega
      · simp at h
    · simp at h

theorem length_partAt? {t rest : Text} {r : Reference} (h : partAt? t = some (r, rest)) :
    rest.length < t.length := by
  unfold partAt? at h
  split at h
  · next body hb =>
    simp only [Option.map_eq_some_iff, Prod.mk.injEq] at h
    obtain ⟨⟨b, r'⟩, hr, _, rfl⟩ := h
    have hcut : r'.length ≤ body.length := length_cut? hr
    have ht : t.length = providerLead.length + body.length := by
      rw [Text.eq_append_of_dropLead? hb, List.length_append]
    have hpos : 0 < providerLead.length := by decide
    exact Nat.lt_of_le_of_lt hcut (by omega)
  · unfold reference? at h
    split at h
    · have := length_referenceBody? h
      simp only [List.length_cons]
      omega
    · simp at h

/-- The parts of a template. Text that is no reference is literal. -/
def parts (t : Text) : List Part :=
  match t with
  | [] => []
  | c :: rest =>
    match _h : partAt? (c :: rest) with
    | some (r, after) => .reference r :: parts after
    | none => .literal c :: parts rest
termination_by t.length
decreasing_by
  · exact length_partAt? _h
  · simp

def Part.value (v : Variables) : Part → Except ComposeError Text
  | .literal c => .ok [c]
  | .reference r => v.lookup r.name r.key

/-- A template with the values of its references in their place. The first reference to an
unknown provider is the error. -/
def substitute (v : Variables) (t : Text) : Except ComposeError Text :=
  ((parts t).mapM (Part.value v)).map List.flatten

end EdgeCompose.Template
